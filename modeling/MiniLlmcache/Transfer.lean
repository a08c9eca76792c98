import MiniLlmcache.Protocol
import MiniLlmcache.Slices

/-!
# Copies between the KV cache and host memory

`l0/transfer.py`. A KV cache has one tensor a layer, whose rows are blocks of
`block_nbytes` bytes. A chunk is `blocks_per_chunk` blocks of every layer, layer after layer.
`to_host` gathers the blocks of each chunk, `from_host` scatters chunks back and leaves out the
first blocks of the first chunk. Both are written in the order in which the CPU thread issues
the copies; the streams and the three staging buffers, which overlap them, are not modelled
here.

`toHost_ok` and `mem_fromHost_iff` say where each block goes : block `j` of a layer of chunk `i`
belongs to the id at `i * blocks_per_chunk + j`, on the way out and on the way in.
-/

namespace MiniLlmcache

/-- The rows of one engine's KV tensors : `block layer b` are the bytes of block `b`. -/
structure KVCache (blockNbytes : ℕ) where
  block : ℕ → ℕ → Bytes
  length_block : ∀ layer b, (block layer b).length = blockNbytes

/-- One row written by `index_copy_`. -/
structure BlockWrite where
  layer : ℕ
  block : ℕ
  data : Bytes
deriving DecidableEq

namespace KVCache

variable {n : ℕ}

/-- A row takes as many bytes as it has. -/
def write (kv : KVCache n) (w : BlockWrite) : KVCache n where
  block layer b :=
    if layer = w.layer ∧ b = w.block ∧ w.data.length = n then w.data else kv.block layer b
  length_block layer b := by
    split_ifs with h
    · exact h.2.2
    · exact kv.length_block layer b

def writeAll (kv : KVCache n) (ws : List BlockWrite) : KVCache n := ws.foldl write kv

theorem block_writeAll_of_forall_ne {layer b : ℕ} : ∀ {ws : List BlockWrite} (kv : KVCache n),
    (∀ w ∈ ws, ¬(w.layer = layer ∧ w.block = b)) → (kv.writeAll ws).block layer b = kv.block layer b
  | [], _, _ => rfl
  | w :: ws, kv, h => by
    have hw := h w List.mem_cons_self
    have ih := block_writeAll_of_forall_ne (kv.write w) fun v hv => h v (List.mem_cons_of_mem w hv)
    have hne : ¬(layer = w.layer ∧ b = w.block ∧ w.data.length = n) := by
      rintro ⟨rfl, rfl, -⟩
      exact hw ⟨rfl, rfl⟩
    rw [writeAll, List.foldl_cons]
    exact ih.trans (if_neg hne)

/-- A row keeps the bytes it was given, when nothing else is written there. -/
theorem block_writeAll_of_mem {w : BlockWrite} : ∀ {ws : List BlockWrite} (kv : KVCache n),
    w ∈ ws → w.data.length = n →
    (∀ v ∈ ws, v.layer = w.layer → v.block = w.block → v = w) →
    (kv.writeAll ws).block w.layer w.block = w.data
  | [], _, h, _, _ => by cases h
  | v :: ws, kv, h, hlen, huniq => by
    rw [writeAll, List.foldl_cons]
    by_cases hin : w ∈ ws
    · exact block_writeAll_of_mem (kv.write v) hin hlen fun u hu =>
        huniq u (List.mem_cons_of_mem v hu)
    · obtain rfl : w = v := (List.mem_cons.mp h).resolve_right hin
      refine (block_writeAll_of_forall_ne (kv.write w) fun u hu hat => ?_).trans ?_
      · exact hin (huniq u (List.mem_cons_of_mem w hu) hat.1 hat.2 ▸ hu)
      · exact if_pos ⟨rfl, rfl, hlen⟩

end KVCache

/-- The geometry of a transfer engine. -/
structure KVTransfer where
  rank : ℕ
  /-- `num_layers`; there is a first layer, whose rows give `block_nbytes`. -/
  numLayers : ℕ
  /-- The rows of every KV tensor. -/
  numBlocks : ℕ
  blocksPerChunk : ℕ
  blockNbytes : ℕ
  layers_pos : 0 < numLayers
deriving DecidableEq

namespace KVTransfer

variable (t : KVTransfer)

def chunkNbytes : ℕ := t.numLayers * t.blocksPerChunk * t.blockNbytes

/-- The bytes of one chunk : `index_select` of its blocks, layer after layer. -/
def gather (kv : KVCache t.blockNbytes) (ids : List ℕ) : Bytes :=
  (List.range t.numLayers).flatMap fun layer => ids.flatMap (kv.block layer)

/-- The blocks of chunk `i`, less the first `skip`. -/
def chunkIds (blockIds : List ℕ) (i skip : ℕ) : List ℕ :=
  slice blockIds (i * t.blocksPerChunk + skip) ((i + 1) * t.blocksPerChunk)

/-- `assert len(block_ids) % self.blocks_per_chunk == 0`. -/
def wholeChunks (blockIds : List ℕ) : Except Exc Unit :=
  if t.blocksPerChunk = 0 then .error .zeroDivisionError
  else if blockIds.length % t.blocksPerChunk = 0 then .ok () else .error .assertionError

/-- Copy the given blocks out of the KV cache into bytes. -/
def toHost (kv : KVCache t.blockNbytes) (blockIds : List ℕ) : Except Exc (List Bytes) :=
  match t.wholeChunks blockIds with
  | .error e => .error e
  | .ok () =>
    if ∀ id ∈ blockIds, id < t.numBlocks then
      .ok ((List.range (blockIds.length / t.blocksPerChunk)).map fun i =>
        t.gather kv (t.chunkIds blockIds i 0))
    else .error .indexError

/-- `cpu_bufs[buf].numpy()[:] = np.frombuffer(blob)` : the blob, or one byte repeated. -/
def hostBuf (blob : Bytes) : Option Bytes :=
  if blob.length = t.chunkNbytes then some blob
  else match blob with
    | [x] => some (List.replicate t.chunkNbytes x)
    | _ => none

/-- Block `j` of layer `layer` in the bytes of a chunk. -/
def blockOf (chunk : Bytes) (layer j : ℕ) : Bytes :=
  (chunk.drop ((layer * t.blocksPerChunk + j) * t.blockNbytes)).take t.blockNbytes

/-- `layer_views[buf][layer]` : the blocks of one layer of a staged chunk. -/
def layerView (buf : Bytes) (layer : ℕ) : List Bytes :=
  (List.range t.blocksPerChunk).map (t.blockOf buf layer)

/-- `kv_cache.index_copy_(0, ids, rows)`. -/
def indexCopy (layer : ℕ) (ids : List ℕ) (rows : List Bytes) : Option (List BlockWrite) :=
  if ids.length = rows.length ∧ ∀ id ∈ ids, id < t.numBlocks then
    some (List.zipWith (fun id row => ⟨layer, id, row⟩) ids rows)
  else none

/-- The loop over the layers of one chunk, from `layer` on; what is written, and whether an
exception ended it. -/
def scatterLayers (ids : List ℕ) (buf : Bytes) (skip : ℕ) : List ℕ → List BlockWrite × Option Exc
  | [] => ([], none)
  | layer :: layers =>
    match t.indexCopy layer ids ((t.layerView buf layer).drop skip) with
    | none => ([], some .indexError)
    | some ws =>
      let (rest, e) := scatterLayers ids buf skip layers
      (ws ++ rest, e)

/-- `skip_blocks if i == 0 else 0`. -/
def skipOf (skipBlocks i : ℕ) : ℕ := if i = 0 then skipBlocks else 0

/-- The loop of `from_host` over the chunks, from chunk `i` on. -/
def scatterChunks (blockIds : List ℕ) (skipBlocks : ℕ) :
    ℕ → List Bytes → List BlockWrite × Option Exc
  | _, [] => ([], none)
  | i, blob :: chunks =>
    match t.hostBuf blob with
    | none => ([], some .valueError)
    | some buf =>
      let skip := skipOf skipBlocks i
      let (ws, e) := t.scatterLayers (t.chunkIds blockIds i skip) buf skip (List.range t.numLayers)
      match e with
      | some e => (ws, some e)
      | none =>
        let (rest, e) := scatterChunks blockIds skipBlocks (i + 1) chunks
        (ws ++ rest, e)

/-- Scatter the given bytes back into the KV cache; `skip_blocks` blocks of the first chunk
are left untouched. -/
def fromHost (chunks : List Bytes) (blockIds : List ℕ) (skipBlocks : ℕ) :
    List BlockWrite × Option Exc :=
  match t.wholeChunks blockIds with
  | .error e => ([], some e)
  | .ok () => t.scatterChunks blockIds skipBlocks 0 chunks

variable {t}

/-! ## What is skipped

A load of the token blocks from `V` on starts with the chunk of block `V`, and skips the blocks
before it. -/

/-- A token block past the computed ones is not skipped. -/
theorem skipOf_le {n V b : ℕ} (hle : V ≤ b) :
    V / n ≤ b / n ∧ skipOf (V % n) (b / n - V / n) ≤ b % n := by
  have hdiv := Nat.div_le_div_right (c := n) hle
  refine ⟨hdiv, ?_⟩
  have hV := Nat.div_add_mod' V n
  have hb := Nat.div_add_mod' b n
  unfold skipOf
  split_ifs with h
  · obtain hq : V / n = b / n := by omega
    rw [hq] at hV
    omega
  · exact Nat.zero_le _

/-- What is not skipped is past the computed ones. -/
theorem le_of_skipOf {n V i j : ℕ} (hn : 0 < n) (hskip : skipOf (V % n) i ≤ j) :
    V ≤ (V / n + i) * n + j := by
  have hV := Nat.div_add_mod' V n
  have hmod := Nat.mod_lt V hn
  rw [Nat.add_mul]
  unfold skipOf at hskip
  split_ifs at hskip with h
  · omega
  · have := Nat.le_mul_of_pos_left n (Nat.pos_of_ne_zero h)
    omega

/-! ## What `to_host` gathers -/

theorem length_gather (kv : KVCache t.blockNbytes) {ids : List ℕ}
    (hlen : ids.length = t.blocksPerChunk) : (t.gather kv ids).length = t.chunkNbytes := by
  have hrow : ∀ layer, (ids.flatMap (kv.block layer)).length =
      t.blocksPerChunk * t.blockNbytes := fun layer => by
    rw [length_flatMap_const (kv.length_block layer), hlen]
  rw [gather, length_flatMap_const hrow, List.length_range, chunkNbytes, Nat.mul_assoc]

/-- Block `j` of a layer of a gathered chunk is the block of its `j`-th id. -/
theorem blockOf_gather (kv : KVCache t.blockNbytes) {ids : List ℕ} {layer j id : ℕ}
    (hlen : ids.length = t.blocksPerChunk) (hl : layer < t.numLayers) (hj : ids[j]? = some id) :
    t.blockOf (t.gather kv ids) layer j = kv.block layer id := by
  have hrow : ∀ l, (ids.flatMap (kv.block l)).length =
      t.blocksPerChunk * t.blockNbytes := fun l => by
    rw [length_flatMap_const (kv.length_block l), hlen]
  have hlt : j < t.blocksPerChunk := hlen ▸ (List.getElem?_eq_some_iff.mp hj).1
  have hat : (List.range t.numLayers)[layer]? = some layer := List.getElem?_range hl
  have hlayer := take_drop_flatMap hrow hat
  have hblock := take_drop_flatMap (kv.length_block layer) hj
  rw [← hlayer, List.drop_take, List.take_take, List.drop_drop] at hblock
  have hmin : min t.blockNbytes (t.blocksPerChunk * t.blockNbytes - j * t.blockNbytes) =
      t.blockNbytes := by
    have hle := Nat.mul_le_mul_right t.blockNbytes (Nat.succ_le_of_lt hlt)
    rw [Nat.succ_mul] at hle
    omega
  rw [hmin] at hblock
  rw [← hblock, blockOf, gather, Nat.add_mul, Nat.mul_assoc]

theorem length_chunkIds (skip : ℕ) {blockIds : List ℕ} {i : ℕ}
    (h : (i + 1) * t.blocksPerChunk ≤ blockIds.length) :
    (t.chunkIds blockIds i skip).length = t.blocksPerChunk - skip := by
  rw [chunkIds, length_slice, Nat.min_eq_left h, Nat.succ_mul]
  omega

theorem getElem?_chunkIds (blockIds : List ℕ) {i skip j : ℕ} (hj : skip + j < t.blocksPerChunk) :
    (t.chunkIds blockIds i skip)[j]? = blockIds[i * t.blocksPerChunk + (skip + j)]? := by
  rw [chunkIds, getElem?_slice _ (by rw [Nat.succ_mul]; omega), Nat.add_assoc]

theorem whole_of_wholeChunks {blockIds : List ℕ} (h : t.wholeChunks blockIds = .ok ()) :
    0 < t.blocksPerChunk ∧
      blockIds.length = blockIds.length / t.blocksPerChunk * t.blocksPerChunk := by
  unfold wholeChunks at h
  split_ifs at h with h0 hmod
  exact ⟨Nat.pos_of_ne_zero h0, (Nat.div_mul_cancel (Nat.dvd_of_mod_eq_zero hmod)).symm⟩

/-- What `to_host` returns : one chunk of the right size for every `blocks_per_chunk` ids,
with the blocks of all layers in their places. -/
theorem toHost_ok {kv : KVCache t.blockNbytes} {blockIds : List ℕ} {chunks : List Bytes}
    (h : t.toHost kv blockIds = .ok chunks) :
    chunks.length = blockIds.length / t.blocksPerChunk ∧
    (∀ id ∈ blockIds, id < t.numBlocks) ∧
    ∀ i chunk, chunks[i]? = some chunk → chunk.length = t.chunkNbytes ∧
      ∀ layer j id, layer < t.numLayers → j < t.blocksPerChunk →
        blockIds[i * t.blocksPerChunk + j]? = some id →
        t.blockOf chunk layer j = kv.block layer id := by
  unfold toHost at h
  split at h
  case h_1 => cases h
  rename_i hwhole
  split_ifs at h with hids
  cases h
  obtain ⟨-, hlen⟩ := whole_of_wholeChunks hwhole
  refine ⟨by simp, hids, fun i chunk hi => ?_⟩
  rw [List.getElem?_map, Option.map_eq_some_iff] at hi
  obtain ⟨i', hi', rfl⟩ := hi
  obtain ⟨hlt, hrange⟩ := List.getElem?_eq_some_iff.mp hi'
  rw [List.length_range] at hlt
  rw [List.getElem_range] at hrange
  subst hrange
  have hle : (i + 1) * t.blocksPerChunk ≤ blockIds.length := by
    rw [hlen]
    exact Nat.mul_le_mul_right _ hlt
  have hfull := length_chunkIds (t := t) 0 hle
  refine ⟨length_gather kv hfull, fun layer j id hl hj hid => ?_⟩
  refine blockOf_gather kv hfull hl ?_
  rw [getElem?_chunkIds blockIds (by omega), Nat.zero_add, hid]

/-! ## What `from_host` scatters -/

theorem mem_indexCopy {buf : Bytes} {layer skip : ℕ} {ids : List ℕ} {ws : List BlockWrite}
    (h : t.indexCopy layer ids ((t.layerView buf layer).drop skip) = some ws) {w : BlockWrite} :
    w ∈ ws ↔ ∃ k id, skip + k < t.blocksPerChunk ∧ ids[k]? = some id ∧
      w = ⟨layer, id, t.blockOf buf layer (skip + k)⟩ := by
  unfold indexCopy at h
  split_ifs at h with hc
  cases h
  have hlen : ids.length = t.blocksPerChunk - skip := by simpa [layerView] using hc.1
  rw [List.mem_iff_getElem?]
  constructor
  · rintro ⟨k, hk⟩
    obtain ⟨id, row, hid, hrow, rfl⟩ := List.getElem?_zipWith_eq_some.mp hk
    rw [List.getElem?_drop, layerView, List.getElem?_map, Option.map_eq_some_iff] at hrow
    obtain ⟨j, hj, rfl⟩ := hrow
    obtain ⟨hlt, hj⟩ := List.getElem?_eq_some_iff.mp hj
    rw [List.length_range] at hlt
    rw [List.getElem_range] at hj
    exact ⟨k, id, hlt, hid, by rw [← hj]⟩
  · rintro ⟨k, id, hk, hid, rfl⟩
    refine ⟨k, List.getElem?_zipWith_eq_some.mpr ⟨id, _, hid, ?_, rfl⟩⟩
    rw [List.getElem?_drop, layerView, List.getElem?_map, List.getElem?_range hk]
    rfl

/-- The ids of a chunk fit its rows. -/
def Fits (t : KVTransfer) (ids : List ℕ) (skip : ℕ) : Prop :=
  ids.length = t.blocksPerChunk - skip ∧ ∀ id ∈ ids, id < t.numBlocks

theorem indexCopy_isSome (buf : Bytes) (layer : ℕ) {skip : ℕ} {ids : List ℕ} :
    (t.indexCopy layer ids ((t.layerView buf layer).drop skip)).isSome ↔ t.Fits ids skip := by
  unfold indexCopy Fits
  split_ifs with hc
  · simpa [layerView] using hc
  · simpa [layerView] using hc

/-- Either every layer of the chunk is written, or nothing is. -/
theorem scatterLayers_spec (buf : Bytes) (skip : ℕ) (ids : List ℕ) : ∀ layers : List ℕ,
    (t.Fits ids skip → (t.scatterLayers ids buf skip layers).2 = none ∧
      ∀ w, w ∈ (t.scatterLayers ids buf skip layers).1 ↔ ∃ layer ∈ layers, ∃ k id,
        skip + k < t.blocksPerChunk ∧ ids[k]? = some id ∧
        w = ⟨layer, id, t.blockOf buf layer (skip + k)⟩) ∧
    (¬t.Fits ids skip → layers ≠ [] →
      t.scatterLayers ids buf skip layers = ([], some .indexError))
  | [] => ⟨fun _ => ⟨rfl, fun w => by simp [scatterLayers]⟩, fun _ h => (h rfl).elim⟩
  | layer :: layers => by
    obtain ⟨ih, -⟩ := scatterLayers_spec buf skip ids layers
    rcases hc : t.indexCopy layer ids ((t.layerView buf layer).drop skip) with _ | ws
    · have hnot : ¬t.Fits ids skip := by
        rw [← indexCopy_isSome buf layer, hc]
        nofun
      refine ⟨fun hf => (hnot hf).elim, fun _ _ => ?_⟩
      rw [scatterLayers, hc]
    · have hfits : t.Fits ids skip := by
        rw [← indexCopy_isSome buf layer, hc]
        rfl
      refine ⟨fun _ => ?_, fun hnot => (hnot hfits).elim⟩
      obtain ⟨hnone, hmem⟩ := ih hfits
      rw [scatterLayers, hc]
      refine ⟨hnone, fun w => ?_⟩
      rw [List.mem_append, mem_indexCopy hc, hmem]
      simp only [List.mem_cons, exists_eq_or_imp]

/-- Chunk `i` gets through the loop body. -/
def Passes (t : KVTransfer) (blockIds : List ℕ) (skipBlocks i : ℕ) (chunk : Bytes) : Prop :=
  (t.hostBuf chunk).isSome ∧
    t.Fits (t.chunkIds blockIds i (skipOf skipBlocks i)) (skipOf skipBlocks i)

/-- The row of block `j` of a layer, in chunk `i` with the bytes `buf`. -/
def Row (t : KVTransfer) (blockIds : List ℕ) (skipBlocks i : ℕ) (buf : Bytes) (w : BlockWrite) :
    Prop :=
  ∃ layer j id, layer < t.numLayers ∧ skipOf skipBlocks i ≤ j ∧ j < t.blocksPerChunk ∧
    blockIds[i * t.blocksPerChunk + j]? = some id ∧ w = ⟨layer, id, t.blockOf buf layer j⟩

theorem mem_scatterLayers_range (buf : Bytes) {blockIds : List ℕ} {skipBlocks i : ℕ}
    (h : t.Fits (t.chunkIds blockIds i (skipOf skipBlocks i)) (skipOf skipBlocks i))
    (w : BlockWrite) :
    w ∈ (t.scatterLayers (t.chunkIds blockIds i (skipOf skipBlocks i)) buf (skipOf skipBlocks i)
      (List.range t.numLayers)).1 ↔ t.Row blockIds skipBlocks i buf w := by
  rw [((scatterLayers_spec _ _ _ _).1 h).2 w]
  constructor
  · rintro ⟨layer, hl, k, id, hk, hid, rfl⟩
    rw [getElem?_chunkIds _ hk] at hid
    exact ⟨layer, _, id, List.mem_range.mp hl, Nat.le_add_right _ _, hk, hid, rfl⟩
  · rintro ⟨layer, j, id, hl, hj, hjlt, hid, rfl⟩
    obtain ⟨k, rfl⟩ := Nat.exists_eq_add_of_le hj
    exact ⟨layer, List.mem_range.mpr hl, k, id, hjlt, by rw [getElem?_chunkIds _ hjlt, hid], rfl⟩

/-- A chunk that does not fit the host buffer, or whose ids are not there, ends the loop. -/
theorem scatterChunks_stop {blockIds : List ℕ} {skipBlocks i : ℕ} {chunk : Bytes}
    (h : ¬t.Passes blockIds skipBlocks i chunk) (chunks : List Bytes) :
    ∃ x, t.scatterChunks blockIds skipBlocks i (chunk :: chunks) = ([], some x) := by
  have hrange : List.range t.numLayers ≠ [] := by
    rw [ne_eq, List.range_eq_nil]
    exact t.layers_pos.ne'
  rw [scatterChunks]
  rcases hbuf : t.hostBuf chunk with _ | buf
  · exact ⟨_, rfl⟩
  · have hfits : ¬t.Fits (t.chunkIds blockIds i (skipOf skipBlocks i)) (skipOf skipBlocks i) :=
      fun hfits => h ⟨by rw [hbuf]; rfl, hfits⟩
    have hraises := (scatterLayers_spec buf _ _ (List.range t.numLayers)).2 hfits hrange
    exact ⟨.indexError, by simp only [hraises]⟩

/-- A chunk that gets through leaves the others to the rest of the loop. -/
theorem scatterChunks_pass {blockIds : List ℕ} {skipBlocks i : ℕ} {chunk buf : Bytes}
    (hbuf : t.hostBuf chunk = some buf)
    (hfits : t.Fits (t.chunkIds blockIds i (skipOf skipBlocks i)) (skipOf skipBlocks i))
    (chunks : List Bytes) : t.scatterChunks blockIds skipBlocks i (chunk :: chunks) =
      ((t.scatterLayers (t.chunkIds blockIds i (skipOf skipBlocks i)) buf
        (skipOf skipBlocks i) (List.range t.numLayers)).1 ++
        (t.scatterChunks blockIds skipBlocks (i + 1) chunks).1,
      (t.scatterChunks blockIds skipBlocks (i + 1) chunks).2) := by
  have hnone := ((scatterLayers_spec buf _ _ (List.range t.numLayers)).1 hfits).1
  rw [scatterChunks, hbuf]
  simp only [hnone]

/-- A row is written when its chunk and all chunks before it get through the loop body; no
exception is raised exactly when all do. -/
theorem scatterChunks_spec (blockIds : List ℕ) (skipBlocks : ℕ) : ∀ (chunks : List Bytes) (i : ℕ),
    (∀ w, w ∈ (t.scatterChunks blockIds skipBlocks i chunks).1 ↔
      ∃ k chunk buf, chunks[k]? = some chunk ∧ t.hostBuf chunk = some buf ∧
        (∀ k' ≤ k, ∀ c, chunks[k']? = some c → t.Passes blockIds skipBlocks (i + k') c) ∧
        t.Row blockIds skipBlocks (i + k) buf w) ∧
    ((t.scatterChunks blockIds skipBlocks i chunks).2 = none ↔
      ∀ k c, chunks[k]? = some c → t.Passes blockIds skipBlocks (i + k) c)
  | [], i => ⟨fun w => by simp [scatterChunks], by simp [scatterChunks]⟩
  | chunk :: chunks, i => by
    obtain ⟨ih, ihnone⟩ := scatterChunks_spec blockIds skipBlocks chunks (i + 1)
    by_cases hpasses : t.Passes blockIds skipBlocks i chunk
    case neg =>
      obtain ⟨x, hstop⟩ := scatterChunks_stop hpasses chunks
      rw [hstop]
      refine ⟨fun w => ⟨nofun, ?_⟩, nofun, fun hall => (hpasses (hall 0 chunk rfl)).elim⟩
      rintro ⟨k, -, -, -, -, hpass, -⟩
      exact (hpasses (hpass 0 (Nat.zero_le k) chunk rfl)).elim
    obtain ⟨buf, hbuf⟩ := Option.isSome_iff_exists.mp hpasses.1
    rw [scatterChunks_pass hbuf hpasses.2]
    -- the chunk with index `k + 1` is the one with index `k` of the rest
    have hindex : ∀ k, i + (k + 1) = i + 1 + k := fun k => by omega
    refine ⟨fun w => ?_, ihnone.trans ⟨fun hall k c hk => ?_, fun hall k c hk =>
      hindex k ▸ hall (k + 1) c hk⟩⟩
    case refine_2 =>
      cases k with
      | zero =>
        cases hk
        exact hpasses
      | succ k =>
        rw [hindex]
        exact hall k c hk
    rw [List.mem_append, mem_scatterLayers_range buf hpasses.2, ih]
    constructor
    · rintro (hw | ⟨k, c, b, hk, hb, hpass, hw⟩)
      · refine ⟨0, chunk, buf, rfl, hbuf, fun k' hk' c hc => ?_, hw⟩
        obtain rfl := Nat.le_zero.mp hk'
        cases hc
        exact hpasses
      · refine ⟨k + 1, c, b, hk, hb, fun k' hk' c' hc' => ?_, hindex k ▸ hw⟩
        cases k' with
        | zero =>
          cases hc'
          exact hpasses
        | succ k' =>
          rw [hindex]
          exact hpass k' (Nat.le_of_succ_le_succ hk') c' hc'
    · rintro ⟨k, c, b, hk, hb, hpass, hw⟩
      cases k with
      | zero =>
        cases hk
        rw [hbuf] at hb
        cases hb
        exact Or.inl hw
      | succ k =>
        rw [hindex] at hw
        refine Or.inr ⟨k, c, b, hk, hb, fun k' hk' c' hc' => ?_, hw⟩
        exact hindex k' ▸ hpass (k' + 1) (Nat.succ_le_succ hk') c' hc'

section whole

variable {blockIds : List ℕ} {n skipBlocks : ℕ}

theorem wholeChunks_of_length (hlen : blockIds.length = n * t.blocksPerChunk)
    (hpos : 0 < t.blocksPerChunk) : t.wholeChunks blockIds = .ok () := by
  rw [wholeChunks, if_neg hpos.ne', hlen, Nat.mul_mod_left, if_pos rfl]

/-- Over whole chunks of existing blocks, what can go wrong is the size of a chunk, and a
chunk too many. -/
theorem passes_iff (hlen : blockIds.length = n * t.blocksPerChunk)
    (hids : ∀ id ∈ blockIds, id < t.numBlocks) (hskip : skipBlocks < t.blocksPerChunk) {i : ℕ}
    {chunk : Bytes} :
    t.Passes blockIds skipBlocks i chunk ↔ i < n ∧ (t.hostBuf chunk).isSome := by
  have hskipOf : skipOf skipBlocks i < t.blocksPerChunk := by
    unfold skipOf
    split_ifs <;> omega
  rw [Passes, and_comm]
  refine and_congr_left fun _ => ⟨fun h => ?_, fun h => ⟨length_chunkIds _ ?_, fun id hid => ?_⟩⟩
  · by_contra hge
    have hlt := h.1
    have hmul := Nat.mul_le_mul_right t.blocksPerChunk (Nat.le_of_not_lt hge)
    rw [chunkIds, length_slice, hlen] at hlt
    omega
  · rw [hlen]
    exact Nat.mul_le_mul_right _ h
  · exact hids id (mem_of_mem_slice hid)

/-- What `from_host` writes over whole chunks : the rows of the chunks before the first one
that does not fit the host buffer. -/
theorem mem_fromHost_iff (hlen : blockIds.length = n * t.blocksPerChunk)
    (hids : ∀ id ∈ blockIds, id < t.numBlocks) (hskip : skipBlocks < t.blocksPerChunk)
    {chunks : List Bytes} {w : BlockWrite} :
    w ∈ (t.fromHost chunks blockIds skipBlocks).1 ↔
      ∃ i chunk buf, i < n ∧ chunks[i]? = some chunk ∧ t.hostBuf chunk = some buf ∧
        (∀ k ≤ i, ∀ c, chunks[k]? = some c → (t.hostBuf c).isSome) ∧
        t.Row blockIds skipBlocks i buf w := by
  rw [fromHost, wholeChunks_of_length hlen (by omega)]
  dsimp only
  rw [(scatterChunks_spec _ _ chunks 0).1 w]
  simp only [Nat.zero_add, passes_iff hlen hids hskip]
  constructor
  · rintro ⟨i, chunk, buf, hi, hbuf, hpass, hw⟩
    exact ⟨i, chunk, buf, (hpass i le_rfl chunk hi).1, hi, hbuf,
      fun k hk c hc => (hpass k hk c hc).2, hw⟩
  · rintro ⟨i, chunk, buf, hin, hi, hbuf, hpass, hw⟩
    exact ⟨i, chunk, buf, hi, hbuf, fun k hk c hc => ⟨by omega, hpass k hk c hc⟩, hw⟩

theorem hostBuf_of_length {chunk : Bytes} (h : chunk.length = t.chunkNbytes) :
    t.hostBuf chunk = some chunk := if_pos h

/-- Nothing goes wrong exactly with chunks that fit the host buffer, and not too many of them. -/
theorem fromHost_returns_iff (hlen : blockIds.length = n * t.blocksPerChunk)
    (hids : ∀ id ∈ blockIds, id < t.numBlocks) (hskip : skipBlocks < t.blocksPerChunk)
    {chunks : List Bytes} : (t.fromHost chunks blockIds skipBlocks).2 = none ↔
      chunks.length ≤ n ∧ ∀ c ∈ chunks, (t.hostBuf c).isSome := by
  rw [fromHost, wholeChunks_of_length hlen (by omega)]
  dsimp only
  rw [(scatterChunks_spec _ _ chunks 0).2]
  simp only [Nat.zero_add, passes_iff hlen hids hskip]
  constructor
  · intro hall
    refine ⟨?_, fun c hc => ?_⟩
    · by_contra hlt
      exact Nat.lt_irrefl n (hall n _ (List.getElem?_eq_getElem (Nat.lt_of_not_le hlt))).1
    · obtain ⟨k, hk⟩ := List.mem_iff_getElem?.mp hc
      exact (hall k c hk).2
  · rintro ⟨hle, hall⟩ k c hk
    exact ⟨(List.getElem?_eq_some_iff.mp hk).1.trans_le hle, hall c (List.mem_of_getElem? hk)⟩

/-- Nothing goes wrong with chunks of the right size, and not too many of them. -/
theorem fromHost_returns (hlen : blockIds.length = n * t.blocksPerChunk)
    (hids : ∀ id ∈ blockIds, id < t.numBlocks) (hskip : skipBlocks < t.blocksPerChunk)
    {chunks : List Bytes} (hsize : ∀ c ∈ chunks, c.length = t.chunkNbytes)
    (hn : chunks.length ≤ n) : (t.fromHost chunks blockIds skipBlocks).2 = none := by
  refine (fromHost_returns_iff hlen hids hskip).mpr ⟨hn, fun c hc => ?_⟩
  rw [hostBuf_of_length (hsize c hc)]
  rfl

/-- With chunks of the right size, every block past the skipped ones is written once in each
layer, with the bytes at its place, and nothing else is. -/
theorem block_fromHost (hlen : blockIds.length = n * t.blocksPerChunk)
    (hids : ∀ id ∈ blockIds, id < t.numBlocks) (hskip : skipBlocks < t.blocksPerChunk)
    (hnd : blockIds.Nodup) {chunks : List Bytes} (hsize : ∀ c ∈ chunks, c.length = t.chunkNbytes)
    (kv : KVCache t.blockNbytes) (layer : ℕ) (hl : layer < t.numLayers) :
    (∀ i j id chunk, i < n → skipOf skipBlocks i ≤ j → j < t.blocksPerChunk →
      blockIds[i * t.blocksPerChunk + j]? = some id → chunks[i]? = some chunk →
      (t.blockOf chunk layer j).length = t.blockNbytes →
      (kv.writeAll (t.fromHost chunks blockIds skipBlocks).1).block layer id =
        t.blockOf chunk layer j) ∧
    ∀ b, (∀ i j, skipOf skipBlocks i ≤ j → j < t.blocksPerChunk →
        blockIds[i * t.blocksPerChunk + j]? ≠ some b) →
      (kv.writeAll (t.fromHost chunks blockIds skipBlocks).1).block layer b = kv.block layer b := by
  have hbuf : ∀ {k c}, chunks[k]? = some c → t.hostBuf c = some c := fun hk =>
    hostBuf_of_length (hsize _ (List.mem_of_getElem? hk))
  constructor
  · intro i j id chunk hi hj hjlt hid hchunk hdata
    refine KVCache.block_writeAll_of_mem (w := ⟨layer, id, t.blockOf chunk layer j⟩) kv ?_ hdata ?_
    · refine (mem_fromHost_iff hlen hids hskip).mpr
        ⟨i, chunk, chunk, hi, hchunk, hbuf hchunk, ?_, ?_⟩
      · intro k _ c hc
        rw [hbuf hc]
        rfl
      · exact ⟨layer, j, id, hl, hj, hjlt, hid, rfl⟩
    · -- the block has one place
      intro v hv hvl hvb
      obtain ⟨i', c', b', -, hc', hb', -, layer', j', id', -, -, hjlt', hid', rfl⟩ :=
        (mem_fromHost_iff hlen hids hskip).mp hv
      obtain rfl : layer' = layer := hvl
      obtain rfl : id' = id := hvb
      have hplace : i' * t.blocksPerChunk + j' = i * t.blocksPerChunk + j :=
        (List.getElem?_inj (List.getElem?_eq_some_iff.mp hid').1 hnd).mp (hid'.trans hid.symm)
      obtain ⟨rfl, rfl⟩ := place_inj hjlt' hjlt hplace
      rw [hchunk] at hc'
      cases hc'
      rw [hbuf hchunk] at hb'
      cases hb'
      rfl
  · intro b hb
    refine KVCache.block_writeAll_of_forall_ne kv fun w hw => ?_
    obtain ⟨i, -, -, -, -, -, -, layer', j, id, -, hj, hjlt, hid, rfl⟩ :=
      (mem_fromHost_iff hlen hids hskip).mp hw
    rintro ⟨-, rfl⟩
    exact hb i j hj hjlt hid

end whole

end KVTransfer

end MiniLlmcache
