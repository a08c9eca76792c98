import Mathlib.Data.List.Sort
import Mathlib.Data.String.Basic
import Mathlib.Tactic.Ring
import MiniLlmcache.KVFormat
import MiniLlmcache.Transfer

/-!
# The KV tensors in device memory

What `register_kv_caches` builds from the tensors of vLLM : `kv_format.normalize`, the sizes that
`KVTransfer.__init__` reads off the first tensor, and the views of the staging buffers that
`Pipeline.__init__` makes.

`KVLayout` is a transfer engine over its tensors in memory. `block_cache_writeAll` : a `KVCache`,
whose rows are independent of each other, is what the memory holds, although the rows of a
normalised tensor need not be contiguous. `KVLayout.fromHost` copies each chunk to a staging buffer,
in the same memory, and its rows from there. `kv_between_layouts` puts it together : blocks copied
out of one engine's tensors and into another's arrive item by item, whatever layouts the two have,
and no other byte is changed but in the staging buffers.
-/

namespace MiniLlmcache

open StridedView

namespace Tensor

/-- `t[b]`. -/
def row (t : Tensor) (b : ℕ) : Tensor :=
  match t.dims with
  | [] => t
  | (_, stride) :: dims => { t with addr := t.addr + b * (stride * t.itemsize), dims := dims }

variable {t : Tensor} {nb : ℕ} {row : List ℕ}

theorem bytes_row (h : t.shape = nb :: row) (b : ℕ) : (t.row b).bytes = t.bytes.select b := by
  obtain ⟨addr, dims, itemsize⟩ := t
  cases dims with
  | nil => cases h
  | cons d dims => rfl

theorem shape_row (h : t.shape = nb :: row) (b : ℕ) : (t.row b).shape = row := by
  obtain ⟨addr, dims, itemsize⟩ := t
  cases dims with
  | nil => cases h
  | cons d dims => exact (List.cons.inj h).2

theorem nbytes_row (h : t.shape = nb :: row) (b : ℕ) :
    (t.row b).nbytes = row.prod * t.itemsize := by
  rw [nbytes, shape_row h]
  obtain ⟨addr, dims, itemsize⟩ := t
  cases dims with
  | nil => cases h
  | cons d dims => rfl

theorem shape_bytes_of_shape (h : t.shape = nb :: row) :
    t.bytes.shape = nb :: (row ++ [t.itemsize]) := by
  rw [shape_bytes, h, List.cons_append]

end Tensor

/-! ## Building the engine -/

/-- `chunk[layer].view(kv.dtype).view(blocks_per_chunk, *per_block_shape)`, where the blocks of
`chunk[layer]` have `n` bytes each. -/
def stagedView (blocksPerChunk n : ℕ) (kv : Tensor) (addr : ℕ) : Except Exc Tensor :=
  -- a view as another dtype wants whole items in a row and between rows; rows of no bytes are
  -- one byte apart
  if n % kv.itemsize = 0 ∧ max n 1 % kv.itemsize = 0 ∧
      blocksPerChunk * (n / kv.itemsize) = blocksPerChunk * kv.shape.tail.prod then
    .ok ⟨addr, contiguous (blocksPerChunk :: kv.shape.tail), kv.itemsize⟩
  else .error .runtimeError

/-- The views of one staging buffer, which starts at `addr`. -/
def slotViews (kvCaches : List Tensor) (blocksPerChunk n addr : ℕ) : Except Exc (List Tensor) :=
  kvCaches.zipIdx.mapM fun p => stagedView blocksPerChunk n p.1 (addr + p.2 * (blocksPerChunk * n))

/-- `layer_views` of a pipeline whose three staging buffers start at `addr`. -/
def layerViews (kvCaches : List Tensor) (blocksPerChunk n addr : ℕ) :
    Except Exc (List (List Tensor)) :=
  (List.range 3).mapM fun slot =>
    slotViews kvCaches blocksPerChunk n (addr + slot * (kvCaches.length * blocksPerChunk * n))

/-- What `KVTransfer(...)` has built. -/
structure BuiltTransfer where
  transfer : KVTransfer
  kvCaches : List Tensor
  /-- `layer_views` of the pipelines `d2h` and `h2d`. -/
  d2h : List (List Tensor)
  h2d : List (List Tensor)

/-- `KVTransfer.__init__`; the staging buffers of the two pipelines start at `d2h` and `h2d`. -/
def KVTransfer.create (kvCaches : List Tensor) (blockSize chunkSize rank d2h h2d : ℕ) :
    Except Exc BuiltTransfer :=
  match kvCaches with
  | [] => .error .indexError
  | kv :: rest =>
    if blockSize = 0 then .error .zeroDivisionError
    else match kv.shape with
      | [] | 0 :: _ => .error .indexError
      | numBlocks :: _ => do
        let blocksPerChunk := chunkSize / blockSize
        let n := (kv.row 0).nbytes
        let views ← layerViews (kv :: rest) blocksPerChunk n d2h
        let views' ← layerViews (kv :: rest) blocksPerChunk n h2d
        .ok ⟨⟨rank, rest.length + 1, numBlocks, blocksPerChunk, n, Nat.succ_pos _⟩, kv :: rest,
          views, views'⟩

/-- What vLLM passes for one layer : a tensor, or a tuple of them. -/
inductive LayerCache
  | fused (t : Tensor)
  | split (ts : List Tensor)

def LayerCache.tensors : LayerCache → List Tensor
  | fused t => [t]
  | split ts => ts

/-- The layers of `kv_caches`, by name. -/
def layersOf (kvCaches : OrderedDict String LayerCache) : List Tensor :=
  (kvCaches.items.insertionSort fun p q => p.1 ≤ q.1).flatMap fun p => p.2.tensors

/-- The engine that `register_kv_caches` builds. -/
def registerKvCaches (kvCaches : OrderedDict String LayerCache) (numGpuBlocks : Option ℕ)
    (blockSize chunkSize rank d2h h2d : ℕ) : Except Exc BuiltTransfer := do
  let views ← normalize (layersOf kvCaches) numGpuBlocks
  KVTransfer.create views blockSize chunkSize rank d2h h2d

/-- The order in which vLLM lists the layers does not matter. -/
theorem layersOf_perm {d d' : OrderedDict String LayerCache} (h : d.items.Perm d'.items) :
    layersOf d = layersOf d' := by
  let byName : String × LayerCache → String × LayerCache → Prop := fun p q => p.1 ≤ q.1
  have : Std.Total byName := ⟨fun p q => le_total p.1 q.1⟩
  have : IsTrans _ byName := ⟨fun _ _ _ => le_trans⟩
  have hperm := ((List.perm_insertionSort byName d.items).trans h).trans
    (List.perm_insertionSort byName d'.items).symm
  have hsort := hperm.eq_of_pairwise (fun p q hp hq hpq hqp => ?_)
    (List.pairwise_insertionSort byName _) (List.pairwise_insertionSort byName _)
  · exact congrArg (List.flatMap fun p => p.2.tensors) hsort
  · rw [List.mem_insertionSort] at hp hq
    exact List.inj_on_of_nodup_map d'.nodup (h.mem_iff.mp hp) hq (le_antisymm hpq hqp)

/-! ## The sizes -/

/-- A row of a tensor with the sizes `row` has `n` bytes. -/
def Tensor.Rows (kv : Tensor) (nb n : ℕ) : Prop :=
  ∃ row, kv.shape = nb :: row ∧ row.prod * kv.itemsize = n

/-- The staged blocks of a tensor have the size of its own. -/
theorem stagedView_ok {blocksPerChunk n nb : ℕ} {kv : Tensor} (addr : ℕ) (h : kv.Rows nb n)
    (hn : 0 < n) : stagedView blocksPerChunk n kv addr =
      .ok ⟨addr, contiguous (blocksPerChunk :: kv.shape.tail), kv.itemsize⟩ := by
  obtain ⟨row, hshape, rfl⟩ := h
  rw [stagedView, if_pos]
  rw [hshape, List.tail_cons, Nat.max_eq_left hn, Nat.mul_mod_left,
    Nat.mul_div_cancel _ (Nat.pos_of_mul_pos_left hn)]
  exact ⟨rfl, rfl, rfl⟩

theorem slotViews_ok {kvCaches : List Tensor} {blocksPerChunk n nb : ℕ} (addr : ℕ)
    (hrows : ∀ kv ∈ kvCaches, kv.Rows nb n) (hn : 0 < n) :
    slotViews kvCaches blocksPerChunk n addr = .ok (kvCaches.zipIdx.map fun p =>
      ⟨addr + p.2 * (blocksPerChunk * n), contiguous (blocksPerChunk :: p.1.shape.tail),
        p.1.itemsize⟩) := by
  refine mapM_eq_ok_iff.mpr (List.forall₂_map_right_iff.mpr (List.forall₂_same.mpr fun p hp => ?_))
  have hmem : p.1 ∈ kvCaches := (List.mem_zipIdx' hp).2 ▸ List.getElem_mem _
  exact stagedView_ok _ (hrows _ hmem) hn

theorem exists_mapM_iff {α β : Type} {f : α → Except Exc β} {xs : List α} :
    (∃ ys, xs.mapM f = .ok ys) ↔ ∀ x ∈ xs, ∃ y, f x = .ok y := by
  constructor
  · rintro ⟨ys, h⟩ x hx
    obtain ⟨i, hi, rfl⟩ := List.mem_iff_getElem.mp hx
    obtain ⟨hlen, hall⟩ := List.forall₂_iff_get.mp (mapM_eq_ok_iff.mp h)
    exact ⟨_, hall i hi (hlen ▸ hi)⟩
  · intro h
    induction xs with
    | nil => exact ⟨[], rfl⟩
    | cons x xs ih =>
      obtain ⟨y, hy⟩ := h x List.mem_cons_self
      obtain ⟨ys, hys⟩ := ih fun x' hx' => h x' (List.mem_cons_of_mem x hx')
      exact ⟨y :: ys, mapM_eq_ok_iff.mpr (.cons hy (mapM_eq_ok_iff.mp hys))⟩

/-- A tensor can be viewed in the staging buffers if its blocks have `n` bytes; blocks without
bytes only if its items have one byte. -/
theorem exists_stagedView_iff {blocksPerChunk n addr : ℕ} {kv : Tensor} (hpos : 0 < blocksPerChunk)
    (hitem : 0 < kv.itemsize) : (∃ view, stagedView blocksPerChunk n kv addr = .ok view) ↔
      kv.shape.tail.prod * kv.itemsize = n ∧ (n = 0 → kv.itemsize = 1) := by
  have hstride : n % kv.itemsize = 0 → (max n 1 % kv.itemsize = 0 ↔ n = 0 → kv.itemsize = 1) := by
    intro hsize
    rcases Nat.eq_zero_or_pos n with rfl | hn
    · rw [Nat.max_eq_right (Nat.zero_le 1), Nat.one_mod_eq_zero_iff]
      exact ⟨fun h _ => h, fun h => h rfl⟩
    · rw [Nat.max_eq_left hn]
      exact iff_of_true hsize fun h => absurd h hn.ne'
  unfold stagedView
  split_ifs with h
  · refine iff_of_true ⟨_, rfl⟩ ⟨?_, (hstride h.1).mp h.2.1⟩
    rw [← Nat.eq_of_mul_eq_mul_left hpos h.2.2]
    exact Nat.div_mul_cancel (Nat.dvd_of_mod_eq_zero h.1)
  · refine iff_of_false (by rintro ⟨_, ⟨⟩⟩) ?_
    rintro ⟨rfl, hone⟩
    have hsize := Nat.mul_mod_left kv.shape.tail.prod kv.itemsize
    exact h ⟨hsize, (hstride hsize).mpr hone, by rw [Nat.mul_div_cancel _ hitem]⟩

theorem exists_layerViews_iff {kvCaches : List Tensor} {blocksPerChunk : ℕ} (n addr : ℕ)
    (hpos : 0 < blocksPerChunk) (hitem : ∀ kv ∈ kvCaches, 0 < kv.itemsize) :
    (∃ views, layerViews kvCaches blocksPerChunk n addr = .ok views) ↔
      ∀ kv ∈ kvCaches, kv.shape.tail.prod * kv.itemsize = n ∧ (n = 0 → kv.itemsize = 1) := by
  unfold layerViews slotViews
  simp only [exists_mapM_iff]
  constructor
  · intro h kv hkv
    obtain ⟨i, hi, rfl⟩ := List.mem_iff_getElem.mp hkv
    have hmem : (kvCaches[i], i) ∈ kvCaches.zipIdx := by
      rw [List.mem_zipIdx_iff_getElem?]
      exact List.getElem?_eq_getElem hi
    exact (exists_stagedView_iff hpos (hitem _ hkv)).mp (h 0 (by decide) _ hmem)
  · intro h slot _ p hp
    have hmem : p.1 ∈ kvCaches := (List.mem_zipIdx' hp).2 ▸ List.getElem_mem _
    exact (exists_stagedView_iff hpos (hitem _ hmem)).mpr (h _ hmem)

/-- The engine is built exactly when there is a first tensor with a first block, the blocks of every
other have as many bytes, and where these are none all items have one byte. -/
theorem exists_create_iff {kvCaches : List Tensor} {blockSize chunkSize rank d2h h2d : ℕ}
    (hblock : 0 < blockSize) (hchunk : blockSize ≤ chunkSize)
    (hitem : ∀ kv ∈ kvCaches, 0 < kv.itemsize) :
    (∃ built, KVTransfer.create kvCaches blockSize chunkSize rank d2h h2d = .ok built) ↔
      ∃ first rest, kvCaches = first :: rest ∧ 0 < first.shape.headD 0 ∧
        ∀ kv ∈ kvCaches,
          kv.shape.tail.prod * kv.itemsize = first.shape.tail.prod * first.itemsize ∧
          (first.shape.tail.prod * first.itemsize = 0 → kv.itemsize = 1) := by
  have hpos : 0 < chunkSize / blockSize := Nat.div_pos hchunk hblock
  cases kvCaches with
  | nil => exact iff_of_false (by rintro ⟨_, ⟨⟩⟩) (by rintro ⟨_, _, ⟨⟩, _⟩)
  | cons kv rest =>
    rw [KVTransfer.create, if_neg hblock.ne']
    rcases hshape : kv.shape with _ | ⟨_ | nb, row⟩
    · refine iff_of_false (by rintro ⟨_, ⟨⟩⟩) ?_
      rintro ⟨_, _, heq, hhead, _⟩
      cases heq
      simp [hshape] at hhead
    · refine iff_of_false (by rintro ⟨_, ⟨⟩⟩) ?_
      rintro ⟨_, _, heq, hhead, _⟩
      cases heq
      simp [hshape] at hhead
    · dsimp only
      rw [Tensor.nbytes_row hshape]
      have hviews := fun addr => exists_layerViews_iff (row.prod * kv.itemsize) addr hpos hitem
      constructor
      · rintro ⟨built, hbuilt⟩
        rcases hv : layerViews (kv :: rest) (chunkSize / blockSize) (row.prod * kv.itemsize) d2h
          with e | views
        · rw [hv] at hbuilt
          cases hbuilt
        · refine ⟨kv, rest, rfl, ?_, ?_⟩
          · rw [hshape]
            exact Nat.succ_pos nb
          · rw [hshape]
            exact (hviews d2h).mp ⟨views, hv⟩
      · rintro ⟨_, _, heq, -, hsame⟩
        cases heq
        rw [hshape] at hsame
        obtain ⟨views, hv⟩ := (hviews d2h).mpr hsame
        obtain ⟨views', hv'⟩ := (hviews h2d).mpr hsame
        rw [hv, hv']
        exact ⟨_, rfl⟩

/-- Items of one byte beside items of two are refused, heads of two and one of them are not. -/
theorem exists_create_sample : (¬∃ built, KVTransfer.create
      [⟨0, contiguous [3, 2], 1⟩, ⟨64, contiguous [3, 2], 2⟩] 1 2 0 0 0 = .ok built) ∧
    ∃ built, KVTransfer.create
      [⟨0, contiguous [3, 2], 1⟩, ⟨64, contiguous [3, 1], 2⟩] 1 2 0 0 0 = .ok built := by
  constructor
  · rw [exists_create_iff (by decide) (by decide) (by decide)]
    rintro ⟨_, _, heq, -, hsame⟩
    cases heq
    exact absurd (hsame _ (List.mem_cons_of_mem _ List.mem_cons_self)).1 (by decide)
  · exact (exists_create_iff (by decide) (by decide) (by decide)).mpr
      ⟨_, _, rfl, by decide, by decide⟩

/-- What is built from tensors whose rows have the same size. -/
theorem create_ok {kvCaches : List Tensor} {blockSize nb n : ℕ} (chunkSize rank d2h h2d : ℕ)
    (hne : kvCaches ≠ []) (hblock : 0 < blockSize) (hnb : 0 < nb)
    (hrows : ∀ kv ∈ kvCaches, kv.Rows nb n) (hn : 0 < n) :
    ∃ built, KVTransfer.create kvCaches blockSize chunkSize rank d2h h2d = .ok built ∧
      built.kvCaches = kvCaches ∧ built.transfer.rank = rank ∧
      built.transfer.numLayers = kvCaches.length ∧ built.transfer.numBlocks = nb ∧
      built.transfer.blocksPerChunk = chunkSize / blockSize ∧ built.transfer.blockNbytes = n ∧
      layerViews kvCaches (chunkSize / blockSize) n d2h = .ok built.d2h ∧
      layerViews kvCaches (chunkSize / blockSize) n h2d = .ok built.h2d := by
  have hviews : ∀ addr, ∃ views, layerViews kvCaches (chunkSize / blockSize) n addr = .ok views :=
    fun addr => ⟨_, mapM_eq_ok_iff.mpr (List.forall₂_map_right_iff.mpr
      (List.forall₂_same.mpr fun slot _ => slotViews_ok _ hrows hn))⟩
  obtain ⟨views, hd2h⟩ := hviews d2h
  obtain ⟨views', hh2d⟩ := hviews h2d
  cases kvCaches with
  | nil => exact (hne rfl).elim
  | cons kv rest =>
    obtain ⟨row, hshape, hrow⟩ := hrows kv List.mem_cons_self
    obtain ⟨nb, rfl⟩ := Nat.exists_eq_succ_of_ne_zero hnb.ne'
    have hfirst : (kv.row 0).nbytes = n := (Tensor.nbytes_row hshape 0).trans hrow
    refine ⟨⟨⟨rank, rest.length + 1, nb + 1, chunkSize / blockSize, n, Nat.succ_pos _⟩, kv :: rest,
      views, views'⟩, ?_, rfl, rfl, rfl, rfl, rfl, rfl, hd2h, hh2d⟩
    rw [KVTransfer.create, if_neg hblock.ne', hshape]
    dsimp only
    rw [hfirst, hd2h, hh2d]
    rfl

/-- Entry `i` of a comprehension. -/
theorem getElem?_of_mapM {α β : Type} {f : α → Except Exc β} {xs : List α} {ys : List β}
    (h : xs.mapM f = .ok ys) {i : ℕ} {y : β} (hy : ys[i]? = some y) :
    ∃ x, xs[i]? = some x ∧ f x = .ok y := by
  obtain ⟨hlen, hall⟩ := List.forall₂_iff_get.mp (mapM_eq_ok_iff.mp h)
  obtain ⟨hi, rfl⟩ := List.getElem?_eq_some_iff.mp hy
  have hi' : i < xs.length := hlen ▸ hi
  exact ⟨xs[i], List.getElem?_eq_getElem hi', hall i hi' hi⟩

/-- Block `j` of a layer in staging buffer `slot` : the bytes at its place in the chunk. -/
theorem cells_stagedRow {kvCaches : List Tensor} {blocksPerChunk n nb addr slot layer j : ℕ}
    {views : List (List Tensor)} {slotView : List Tensor} {view : Tensor}
    (hrows : ∀ kv ∈ kvCaches, kv.Rows nb n) (hn : 0 < n)
    (hviews : layerViews kvCaches blocksPerChunk n addr = .ok views)
    (hslot : views[slot]? = some slotView) (hlayer : slotView[layer]? = some view) :
    (view.row j).bytes.cells = List.range' (addr + slot * (kvCaches.length * blocksPerChunk * n) +
      (layer * blocksPerChunk + j) * n) n := by
  obtain ⟨slot', hslot', hslotView⟩ := getElem?_of_mapM hviews hslot
  obtain ⟨_, rfl⟩ := List.getElem?_eq_some_iff.mp hslot'
  rw [List.getElem_range] at hslotView
  obtain ⟨⟨kv, layer'⟩, hp, hview⟩ := getElem?_of_mapM hslotView hlayer
  rw [List.getElem?_zipIdx, Option.map_eq_some_iff] at hp
  obtain ⟨kv', hkv, hp⟩ := hp
  obtain ⟨rfl, rfl⟩ := Prod.mk.inj hp
  have hmem := List.mem_of_getElem? hkv
  rw [stagedView_ok _ (hrows _ hmem) hn] at hview
  obtain ⟨row, hshape, rfl⟩ := hrows _ hmem
  cases hview
  simp only [Tensor.row, Tensor.bytes, contiguous, hshape, List.tail_cons]
  rw [cells, spread_contiguous, cellsFrom_contiguous, List.prod_append, List.prod_singleton]
  congr 1
  ring

/-- What the view of a staging buffer reads at block `j` of a layer is that block of the chunk in
the buffer. -/
theorem blockOf_staged {t : KVTransfer} (mem : ℕ → UInt8) {addr layer j : ℕ}
    (hlayer : layer < t.numLayers) (hj : j < t.blocksPerChunk) :
    t.blockOf (readCells mem (List.range' addr t.chunkNbytes)) layer j =
      readCells mem (List.range' (addr + (layer * t.blocksPerChunk + j) * t.blockNbytes)
        t.blockNbytes) := by
  have hplace := Nat.mul_le_mul_right t.blockNbytes (Nat.succ_le_of_lt (place_lt hlayer hj))
  rw [Nat.succ_mul] at hplace
  rw [KVTransfer.blockOf, readCells, ← List.map_drop, ← List.map_take, List.drop_range',
    Nat.mul_one, List.take_range'_of_length_ge]
  · rfl
  · unfold KVTransfer.chunkNbytes
    omega

/-- The views of the staging buffers of a pipeline that start at `addr` read the chunk that a buffer
holds : row `j` of the view of a layer is block `j` of the layer in the chunk. -/
def Staged (t : KVTransfer) (addr : ℕ) (views : List (List Tensor)) : Prop :=
  ∀ (mem : ℕ → UInt8) (slot layer j : ℕ), slot < 3 → layer < t.numLayers → j < t.blocksPerChunk →
    ∃ slotView view, views[slot]? = some slotView ∧ slotView[layer]? = some view ∧
      readCells mem (view.row j).bytes.cells =
        t.blockOf (readCells mem (List.range' (addr + slot * t.chunkNbytes) t.chunkNbytes)) layer j

theorem staged_of_layerViews {kvCaches : List Tensor} {t : KVTransfer} {addr : ℕ}
    {views : List (List Tensor)} (hlen : kvCaches.length = t.numLayers)
    (hrows : ∀ kv ∈ kvCaches, kv.Rows t.numBlocks t.blockNbytes) (hn : 0 < t.blockNbytes)
    (h : layerViews kvCaches t.blocksPerChunk t.blockNbytes addr = .ok views) :
    Staged t addr views := by
  intro mem slot layer j hslot hlayer hj
  have hviews := mapM_eq_ok_iff.mp h
  have hlt : slot < views.length := by rwa [← hviews.length_eq, List.length_range]
  have hslotView := List.getElem?_eq_getElem hlt
  obtain ⟨slot', -, hat⟩ := getElem?_of_mapM h hslotView
  have hlt' : layer < views[slot].length := by
    rwa [← (mapM_eq_ok_iff.mp hat).length_eq, List.length_zipIdx, hlen]
  have hview := List.getElem?_eq_getElem hlt'
  refine ⟨_, _, hslotView, hview, ?_⟩
  rw [cells_stagedRow hrows hn h hslotView hview, blockOf_staged mem hlayer hj, hlen]
  rfl

/-! ## Rows in memory -/

/-- A transfer engine over tensors in memory that have no byte in common. -/
structure KVLayout where
  transfer : KVTransfer
  kvCaches : List Tensor
  layers : kvCaches.length = transfer.numLayers
  rows : ∀ kv ∈ kvCaches, kv.Rows transfer.numBlocks transfer.blockNbytes
  apart : (kvCaches.flatMap fun kv => kv.bytes.cells).Nodup

namespace KVLayout

variable (E : KVLayout)

/-- The bytes of block `b` of a layer. -/
def rowCells (layer b : ℕ) : List ℕ :=
  match E.kvCaches[layer]? with
  | none => List.replicate E.transfer.blockNbytes 0
  | some kv => (kv.row b).bytes.cells

/-- The KV cache that the memory holds. -/
def cache (mem : ℕ → UInt8) : KVCache E.transfer.blockNbytes where
  block layer b := readCells mem (E.rowCells layer b)
  length_block layer b := by
    rw [readCells, List.length_map, rowCells]
    split
    · exact List.length_replicate
    · rename_i kv hkv
      obtain ⟨row, hshape, hn⟩ := E.rows kv (List.mem_of_getElem? hkv)
      rw [Tensor.length_cells_bytes, Tensor.nbytes_row hshape, hn]

/-- One row of `index_copy_`, in memory. -/
def write (mem : ℕ → UInt8) (w : BlockWrite) : ℕ → UInt8 :=
  if w.data.length = E.transfer.blockNbytes then writeCells mem (E.rowCells w.layer w.block) w.data
  else mem

def writeAll (mem : ℕ → UInt8) (ws : List BlockWrite) : ℕ → UInt8 := ws.foldl E.write mem

/-- The staging buffers of a pipeline, which start at `addr`. -/
def stagingCells (addr : ℕ) : List ℕ := List.range' addr (3 * E.transfer.chunkNbytes)

/-- The bytes of one layer of a chunk. -/
def layerNbytes : ℕ := E.transfer.blocksPerChunk * E.transfer.blockNbytes

/-- The part of the staging buffer at `addr` that holds one layer of a chunk. -/
def layerCells (addr layer : ℕ) : List ℕ :=
  List.range' (addr + layer * E.layerNbytes) E.layerNbytes

/-- The loop of `to_host` over the layers of one chunk : `index_select` of its blocks to the staging
buffer at `addr`. -/
def gatherLayers (addr : ℕ) (ids : List ℕ) : List ℕ → (ℕ → UInt8) → ℕ → UInt8
  | [], mem => mem
  | layer :: layers, mem =>
    gatherLayers addr ids layers
      (writeCells mem (E.layerCells addr layer) (ids.flatMap ((E.cache mem).block layer)))

/-- The loop of `to_host` over the chunks : a chunk is what its staging buffer then holds. -/
def toHostChunks (d2h : ℕ) (blockIds : List ℕ) :
    List ℕ → (ℕ → UInt8) → List Bytes × (ℕ → UInt8)
  | [], mem => ([], mem)
  | i :: is, mem =>
    let addr := d2h + i % 3 * E.transfer.chunkNbytes
    let mem := E.gatherLayers addr (E.transfer.chunkIds blockIds i 0)
      (List.range E.transfer.numLayers) mem
    let (chunks, mem') := toHostChunks d2h blockIds is mem
    (readCells mem (List.range' addr E.transfer.chunkNbytes) :: chunks, mem')

/-- `to_host`, in memory. -/
def toHost (d2h : ℕ) (blockIds : List ℕ) (mem : ℕ → UInt8) :
    Except Exc (List Bytes × (ℕ → UInt8)) :=
  match E.transfer.wholeChunks blockIds with
  | .error e => .error e
  | .ok () =>
    if ∀ id ∈ blockIds, id < E.transfer.numBlocks then
      .ok (E.toHostChunks d2h blockIds
        (List.range (blockIds.length / E.transfer.blocksPerChunk)) mem)
    else .error .indexError

/-- The loop of `from_host` over the chunks, in memory : a chunk is copied to its staging buffer,
and its blocks from there to their rows. -/
def fromHostChunks (h2d : ℕ) (blockIds : List ℕ) (skipBlocks : ℕ) :
    ℕ → List Bytes → (ℕ → UInt8) → ℕ → UInt8
  | _, [], mem => mem
  | i, blob :: chunks, mem =>
    match E.transfer.hostBuf blob with
    | none => mem
    | some buf =>
      let mem := writeCells mem (List.range' (h2d + i % 3 * E.transfer.chunkNbytes)
        E.transfer.chunkNbytes) buf
      let skip := KVTransfer.skipOf skipBlocks i
      let (ws, e) := E.transfer.scatterLayers (E.transfer.chunkIds blockIds i skip) buf skip
        (List.range E.transfer.numLayers)
      match e with
      | some _ => E.writeAll mem ws
      | none => fromHostChunks h2d blockIds skipBlocks (i + 1) chunks (E.writeAll mem ws)

/-- `from_host`, in memory. -/
def fromHost (h2d : ℕ) (chunks : List Bytes) (blockIds : List ℕ) (skipBlocks : ℕ)
    (mem : ℕ → UInt8) : ℕ → UInt8 :=
  match E.transfer.wholeChunks blockIds with
  | .error _ => mem
  | .ok () => E.fromHostChunks h2d blockIds skipBlocks 0 chunks mem

/-- The staging buffers at `addr` have no byte in common with the tensors. -/
def StagesApart (addr : ℕ) : Prop :=
  ∀ kv ∈ E.kvCaches, kv.bytes.cells.Disjoint (E.stagingCells addr)

/-- A block that the tensors have. -/
def HasBlock (layer b : ℕ) : Prop := layer < E.transfer.numLayers ∧ b < E.transfer.numBlocks

variable {E}

theorem rowCells_eq {layer b : ℕ} {kv : Tensor} (hkv : E.kvCaches[layer]? = some kv) :
    E.rowCells layer b = (kv.row b).bytes.cells := by
  rw [rowCells, hkv]

theorem exists_layer {layer : ℕ} (h : layer < E.transfer.numLayers) :
    ∃ kv, E.kvCaches[layer]? = some kv :=
  ⟨_, List.getElem?_eq_getElem (E.layers ▸ h)⟩

/-- The bytes of a block are bytes of its tensor. -/
theorem rowCells_sublist {layer b : ℕ} {kv : Tensor} (hkv : E.kvCaches[layer]? = some kv)
    (hb : b < E.transfer.numBlocks) : (E.rowCells layer b).Sublist kv.bytes.cells := by
  obtain ⟨row, hshape, -⟩ := E.rows kv (List.mem_of_getElem? hkv)
  rw [rowCells_eq hkv, Tensor.bytes_row hshape]
  exact select_sublist _ (Tensor.shape_bytes_of_shape hshape) hb

theorem nodup_bytes {layer : ℕ} {kv : Tensor} (hkv : E.kvCaches[layer]? = some kv) :
    kv.bytes.cells.Nodup :=
  (List.nodup_flatMap.mp E.apart).1 kv (List.mem_of_getElem? hkv)

theorem nodup_rowCells {layer b : ℕ} (h : E.HasBlock layer b) : (E.rowCells layer b).Nodup := by
  obtain ⟨kv, hkv⟩ := exists_layer h.1
  exact (nodup_bytes hkv).sublist (rowCells_sublist hkv h.2)

/-- Two blocks have no byte in common. -/
theorem disjoint_rowCells {layer b layer' b' : ℕ} (h : E.HasBlock layer b)
    (h' : E.HasBlock layer' b') (hne : ¬(layer = layer' ∧ b = b')) :
    (E.rowCells layer b).Disjoint (E.rowCells layer' b') := by
  obtain ⟨kv, hkv⟩ := exists_layer h.1
  obtain ⟨kv', hkv'⟩ := exists_layer h'.1
  by_cases hlayer : layer = layer'
  · subst hlayer
    cases hkv.symm.trans hkv'
    obtain ⟨row, hshape, -⟩ := E.rows kv (List.mem_of_getElem? hkv)
    rw [rowCells_eq hkv, rowCells_eq hkv, Tensor.bytes_row hshape, Tensor.bytes_row hshape]
    exact disjoint_select _ (Tensor.shape_bytes_of_shape hshape) (nodup_bytes hkv) h.2 h'.2
      fun hb => hne ⟨rfl, hb⟩
  · have hpair := List.pairwise_iff_getElem.mp (List.nodup_flatMap.mp E.apart).2
    obtain ⟨hl, rfl⟩ := List.getElem?_eq_some_iff.mp hkv
    obtain ⟨hl', rfl⟩ := List.getElem?_eq_some_iff.mp hkv'
    have hdisj : (E.kvCaches[layer].bytes.cells).Disjoint E.kvCaches[layer'].bytes.cells := by
      rcases Nat.lt_or_gt_of_ne hlayer with hlt | hgt
      · exact hpair layer layer' hl hl' hlt
      · exact (hpair layer' layer hl' hl hgt).symm
    exact fun a ha ha' => hdisj ((rowCells_sublist hkv h.2).mem ha)
      ((rowCells_sublist hkv' h'.2).mem ha')

/-- What one row written to memory does to the KV cache it holds. -/
theorem block_cache_write (mem : ℕ → UInt8) {w : BlockWrite} (hw : E.HasBlock w.layer w.block)
    {layer b : ℕ} (h : E.HasBlock layer b) :
    (E.cache (E.write mem w)).block layer b = ((E.cache mem).write w).block layer b := by
  simp only [cache, write, KVCache.write]
  by_cases hlen : w.data.length = E.transfer.blockNbytes
  · rw [if_pos hlen]
    by_cases hat : layer = w.layer ∧ b = w.block
    · obtain ⟨rfl, rfl⟩ := hat
      rw [if_pos ⟨rfl, rfl, hlen⟩]
      refine readCells_writeCells mem (nodup_rowCells hw) (hlen.trans ?_)
      rw [← (E.cache mem).length_block w.layer w.block]
      exact List.length_map _
    · rw [if_neg fun hc => hat ⟨hc.1, hc.2.1⟩]
      exact readCells_writeCells_of_disjoint _ mem (disjoint_rowCells h hw hat)
  · rw [if_neg hlen, if_neg fun hc => hlen hc.2.2]

/-- The `KVCache` of the block level is what the memory holds after any rows were written. -/
theorem block_cache_writeAll : ∀ {ws : List BlockWrite} (mem : ℕ → UInt8),
    (∀ w ∈ ws, E.HasBlock w.layer w.block) → ∀ {kv : KVCache E.transfer.blockNbytes},
    (∀ layer b, E.HasBlock layer b → (E.cache mem).block layer b = kv.block layer b) →
    ∀ layer b, E.HasBlock layer b →
      (E.cache (E.writeAll mem ws)).block layer b = (kv.writeAll ws).block layer b
  | [], _, _, _, hkv, layer, b, h => hkv layer b h
  | w :: ws, mem, hws, kv, hkv, layer, b, h => by
    have hw := hws w List.mem_cons_self
    refine block_cache_writeAll (E.write mem w) (fun v hv => hws v (List.mem_cons_of_mem w hv))
      (fun layer b h => ?_) layer b h
    rw [block_cache_write mem hw h]
    simp only [KVCache.write, hkv layer b h]

/-- Bytes outside of the rows that are written keep what they have. -/
theorem writeAll_of_notMem {a : ℕ} : ∀ {ws : List BlockWrite} (mem : ℕ → UInt8),
    (∀ w ∈ ws, a ∉ E.rowCells w.layer w.block) → E.writeAll mem ws a = mem a
  | [], _, _ => rfl
  | w :: ws, mem, h => by
    refine (writeAll_of_notMem (E.write mem w) fun v hv => h v (List.mem_cons_of_mem w hv)).trans ?_
    unfold write
    split_ifs
    · exact writeCells_of_notMem mem (h w List.mem_cons_self)
    · rfl

/-- What rows make of a byte depends on that byte alone. -/
theorem writeAll_congr {a : ℕ} : ∀ (ws : List BlockWrite) {mem mem' : ℕ → UInt8},
    mem a = mem' a → E.writeAll mem ws a = E.writeAll mem' ws a
  | [], _, _, h => h
  | w :: ws, mem, mem', h => by
    refine writeAll_congr ws ?_
    unfold write
    split_ifs
    · exact writeCells_congr _ _ h
    · exact h

theorem writeAll_append (mem : ℕ → UInt8) (ws ws' : List BlockWrite) :
    E.writeAll mem (ws ++ ws') = E.writeAll (E.writeAll mem ws) ws' :=
  List.foldl_append

theorem chunkNbytes_eq : E.transfer.chunkNbytes = E.transfer.numLayers * E.layerNbytes := by
  rw [KVTransfer.chunkNbytes, layerNbytes, Nat.mul_assoc]

theorem layerCells_subset {addr layer : ℕ} (h : layer < E.transfer.numLayers) :
    E.layerCells addr layer ⊆ List.range' addr E.transfer.chunkNbytes := by
  intro a ha
  obtain ⟨hle, hlt⟩ := List.mem_range'_1.mp ha
  have hrow := Nat.mul_le_mul_right E.layerNbytes (Nat.succ_le_of_lt h)
  rw [Nat.succ_mul] at hrow
  rw [List.mem_range'_1, chunkNbytes_eq]
  omega

/-- Each chunk is copied to one of the three staging buffers. -/
theorem slotCells_subset {h2d : ℕ} (i : ℕ) :
    List.range' (h2d + i % 3 * E.transfer.chunkNbytes) E.transfer.chunkNbytes ⊆
      E.stagingCells h2d := by
  intro a ha
  obtain ⟨hle, hlt⟩ := List.mem_range'_1.mp ha
  have hslot := Nat.mul_le_mul_right E.transfer.chunkNbytes
    (Nat.succ_le_of_lt (Nat.mod_lt i (by decide : 0 < 3)))
  rw [Nat.succ_mul] at hslot
  exact List.mem_range'_1.mpr ⟨by omega, by omega⟩

theorem disjoint_stagingCells {addr layer b : ℕ} (hapart : E.StagesApart addr)
    (h : E.HasBlock layer b) : (E.rowCells layer b).Disjoint (E.stagingCells addr) := by
  obtain ⟨kv, hkv⟩ := exists_layer h.1
  exact fun _ ha => hapart kv (List.mem_of_getElem? hkv) ((rowCells_sublist hkv h.2).mem ha)

/-- Blocks of memory that is the same outside of the staging buffers are the same. -/
theorem block_cache_congr {addr : ℕ} (hapart : E.StagesApart addr) {mem mem' : ℕ → UInt8}
    (h : ∀ a ∉ E.stagingCells addr, mem' a = mem a) {layer b : ℕ} (hb : E.HasBlock layer b) :
    (E.cache mem').block layer b = (E.cache mem).block layer b :=
  List.map_congr_left fun _ ha => h _ fun ha' => disjoint_stagingCells hapart hb ha ha'

theorem flatMap_block_congr {addr : ℕ} (hapart : E.StagesApart addr) {mem mem' : ℕ → UInt8}
    (h : ∀ a ∉ E.stagingCells addr, mem' a = mem a) {layer : ℕ} {ids : List ℕ}
    (hlayer : layer < E.transfer.numLayers) (hids : ∀ id ∈ ids, id < E.transfer.numBlocks) :
    ids.flatMap ((E.cache mem').block layer) = ids.flatMap ((E.cache mem).block layer) :=
  List.flatMap_congr fun id hid => block_cache_congr hapart h ⟨hlayer, hids id hid⟩

/-- The layers from `l` on, gathered to a staging buffer at `addr` : nothing else is written, and
the buffer holds them one after another. -/
theorem gatherLayers_spec {d2h addr : ℕ} (hapart : E.StagesApart d2h)
    (hslot : List.range' addr E.transfer.chunkNbytes ⊆ E.stagingCells d2h) {ids : List ℕ}
    (hlen : ids.length = E.transfer.blocksPerChunk)
    (hids : ∀ id ∈ ids, id < E.transfer.numBlocks) : ∀ (k l : ℕ) (mem : ℕ → UInt8),
    l + k ≤ E.transfer.numLayers →
    let mem' := E.gatherLayers addr ids (List.range' l k) mem
    (∀ a ∉ List.range' (addr + l * E.layerNbytes) (k * E.layerNbytes), mem' a = mem a) ∧
      readCells mem' (List.range' (addr + l * E.layerNbytes) (k * E.layerNbytes)) =
        (List.range' l k).flatMap fun layer => ids.flatMap ((E.cache mem).block layer)
  | 0, l, mem, _ => by simp [gatherLayers, readCells]
  | k + 1, l, mem, hle => by
    intro mem'
    have hdata : (ids.flatMap ((E.cache mem).block l)).length = (E.layerCells addr l).length := by
      rw [length_flatMap_const ((E.cache mem).length_block l), hlen, layerCells, List.length_range',
        layerNbytes]
    obtain ⟨hframe, hread⟩ := gatherLayers_spec hapart hslot hlen hids k (l + 1)
      (writeCells mem (E.layerCells addr l) (ids.flatMap ((E.cache mem).block l))) (by omega)
    -- the cells of this layer, and then those of the others
    have hcells : List.range' (addr + l * E.layerNbytes) ((k + 1) * E.layerNbytes) =
        E.layerCells addr l ++
          List.range' (addr + (l + 1) * E.layerNbytes) (k * E.layerNbytes) := by
      rw [layerCells, Nat.succ_mul l, ← Nat.add_assoc, List.range'_append_1, Nat.succ_mul k,
        Nat.add_comm E.layerNbytes]
    have hother : ∀ a ∈ E.layerCells addr l,
        a ∉ List.range' (addr + (l + 1) * E.layerNbytes) (k * E.layerNbytes) := by
      intro a ha ha'
      have hlt := (List.mem_range'_1.mp ha).2
      have hge := (List.mem_range'_1.mp ha').1
      rw [Nat.succ_mul] at hge
      omega
    have hbuf := List.Subset.trans (layerCells_subset (by omega : l < E.transfer.numLayers)) hslot
    refine ⟨fun a ha => ?_, ?_⟩
    · rw [hcells, List.mem_append, not_or] at ha
      exact (hframe a ha.2).trans (writeCells_of_notMem mem ha.1)
    · have hnd : (E.layerCells addr l).Nodup := List.nodup_range'
      have hfirst : readCells mem' (E.layerCells addr l) = ids.flatMap ((E.cache mem).block l) :=
        (List.map_congr_left fun a ha => hframe a (hother a ha)).trans
          (readCells_writeCells mem hnd hdata)
      rw [hcells, readCells, List.map_append, List.range'_succ, List.flatMap_cons]
      refine congrArg₂ (· ++ ·) hfirst (hread.trans (List.flatMap_congr fun layer hlayer => ?_))
      refine flatMap_block_congr hapart (fun a ha => ?_) ?_ hids
      · exact writeCells_of_notMem mem fun hmem => ha (hbuf hmem)
      · exact (List.mem_range'_1.mp hlayer).2.trans_le (by omega)

/-- What the loop of `to_host` returns, and that it writes to the staging buffers alone. -/
theorem toHostChunks_spec {d2h : ℕ} (hapart : E.StagesApart d2h) {blockIds : List ℕ} {n : ℕ}
    (hlen : blockIds.length = n * E.transfer.blocksPerChunk)
    (hids : ∀ id ∈ blockIds, id < E.transfer.numBlocks) :
    ∀ (is : List ℕ) (mem : ℕ → UInt8), (∀ i ∈ is, i < n) →
      (E.toHostChunks d2h blockIds is mem).1 =
        is.map (fun i => E.transfer.gather (E.cache mem) (E.transfer.chunkIds blockIds i 0)) ∧
      ∀ a ∉ E.stagingCells d2h, (E.toHostChunks d2h blockIds is mem).2 a = mem a
  | [], _, _ => ⟨rfl, fun _ _ => rfl⟩
  | i :: is, mem, hin => by
    have hle : (i + 1) * E.transfer.blocksPerChunk ≤ blockIds.length := by
      rw [hlen]
      exact Nat.mul_le_mul_right _ (hin i List.mem_cons_self)
    have hchunk : ∀ id ∈ E.transfer.chunkIds blockIds i 0, id < E.transfer.numBlocks :=
      fun id hid => hids id (mem_of_mem_slice hid)
    obtain ⟨hframe, hread⟩ := gatherLayers_spec hapart (slotCells_subset i)
      (KVTransfer.length_chunkIds 0 hle) hchunk E.transfer.numLayers 0 mem (Nat.zero_add _).le
    rw [Nat.zero_mul, Nat.add_zero, ← chunkNbytes_eq, ← List.range_eq_range'] at hframe hread
    have hkept := fun a (ha : a ∉ E.stagingCells d2h) =>
      hframe a fun hmem => ha (slotCells_subset i hmem)
    obtain ⟨hchunks, hframe'⟩ := toHostChunks_spec hapart hlen hids is
      (E.gatherLayers (d2h + i % 3 * E.transfer.chunkNbytes) (E.transfer.chunkIds blockIds i 0)
        (List.range E.transfer.numLayers) mem) fun i' hi' => hin i' (List.mem_cons_of_mem i hi')
    refine ⟨congrArg₂ List.cons hread (hchunks.trans (List.map_congr_left fun i' hi' => ?_)),
      fun a ha => (hframe' a ha).trans (hkept a ha)⟩
    exact List.flatMap_congr fun layer hlayer => flatMap_block_congr hapart hkept
      (List.mem_range.mp hlayer) fun id hid => hids id (mem_of_mem_slice hid)

/-- `to_host` in memory returns what it returns at the level of blocks, and writes to the staging
buffers alone. -/
theorem toHost_ok {d2h : ℕ} (hapart : E.StagesApart d2h) {blockIds : List ℕ} {mem : ℕ → UInt8}
    {chunks : List Bytes} (h : E.transfer.toHost (E.cache mem) blockIds = .ok chunks) :
    ∃ mem', E.toHost d2h blockIds mem = .ok (chunks, mem') ∧
      ∀ a ∉ E.stagingCells d2h, mem' a = mem a := by
  unfold KVTransfer.toHost at h
  unfold toHost
  rcases hwhole : E.transfer.wholeChunks blockIds with e | ⟨⟩
  · rw [hwhole] at h
    cases h
  · rw [hwhole] at h
    split_ifs at h with hids
    cases h
    obtain ⟨hchunks, hframe⟩ := toHostChunks_spec hapart
      (KVTransfer.whole_of_wholeChunks hwhole).2 hids _ mem fun i hi => List.mem_range.mp hi
    refine ⟨_, ?_, hframe⟩
    dsimp only
    rw [if_pos hids, ← hchunks]

/-- Outside of the staging buffers the memory is what the rows make of it. -/
theorem fromHostChunks_of_notMem {h2d a : ℕ} (ha : a ∉ E.stagingCells h2d) (blockIds : List ℕ)
    (skipBlocks : ℕ) : ∀ (chunks : List Bytes) (i : ℕ) {mem mem' : ℕ → UInt8}, mem a = mem' a →
    E.fromHostChunks h2d blockIds skipBlocks i chunks mem a =
      E.writeAll mem' (E.transfer.scatterChunks blockIds skipBlocks i chunks).1 a
  | [], _, _, _, h => h
  | blob :: chunks, i, mem, mem', h => by
    rw [fromHostChunks, KVTransfer.scatterChunks]
    cases E.transfer.hostBuf blob with
    | none => exact h
    | some buf =>
      have hstage : a ∉ List.range' (h2d + i % 3 * E.transfer.chunkNbytes)
          E.transfer.chunkNbytes := fun hmem => ha (slotCells_subset i hmem)
      have hcopied : writeCells mem (List.range' (h2d + i % 3 * E.transfer.chunkNbytes)
          E.transfer.chunkNbytes) buf a = mem' a := (writeCells_of_notMem mem hstage).trans h
      dsimp only
      rcases hscatter : E.transfer.scatterLayers
        (E.transfer.chunkIds blockIds i (KVTransfer.skipOf skipBlocks i)) buf
        (KVTransfer.skipOf skipBlocks i) (List.range E.transfer.numLayers) with ⟨ws, _ | e⟩
      · dsimp only
        rw [writeAll_append]
        exact fromHostChunks_of_notMem ha blockIds skipBlocks chunks (i + 1)
          (writeAll_congr ws hcopied)
      · exact writeAll_congr ws hcopied

theorem fromHost_of_notMem {h2d a : ℕ} (ha : a ∉ E.stagingCells h2d) (chunks : List Bytes)
    (blockIds : List ℕ) (skipBlocks : ℕ) (mem : ℕ → UInt8) :
    E.fromHost h2d chunks blockIds skipBlocks mem a =
      E.writeAll mem (E.transfer.fromHost chunks blockIds skipBlocks).1 a := by
  rw [fromHost, KVTransfer.fromHost]
  rcases E.transfer.wholeChunks blockIds with e | ⟨⟩
  · rfl
  · exact fromHostChunks_of_notMem ha blockIds skipBlocks chunks 0 rfl

end KVLayout

/-! ## Engines over tensors of any layout -/

/-- The KV tensors of an engine, as vLLM builds them : all of one layout and one shape, without
a byte in common. -/
structure KVTensors (bs nh hs itemsize : ℕ) where
  kvCaches : OrderedDict String LayerCache
  fmt : GPUKVFormat
  numBlocks : ℕ
  numGpuBlocks : Option ℕ
  nonempty : layersOf kvCaches ≠ []
  blocks_pos : 0 < numBlocks
  told : fmt.Told numBlocks numGpuBlocks
  shape : ∀ t ∈ layersOf kvCaches, t.shape = fmt.place numBlocks (fmt.blockShape bs nh hs)
  item : ∀ t ∈ layersOf kvCaches, t.itemsize = itemsize
  apart : ((layersOf kvCaches).flatMap fun t => t.bytes.cells).Nodup

theorem perm_flatMap_cells {fmt : GPUKVFormat} {nb : ℕ} {row : List ℕ} :
    ∀ {ts ts' : List Tensor}, List.Forall₂ (BlockFirst fmt nb row) ts ts' →
      (ts'.flatMap fun t => t.bytes.cells).Perm (ts.flatMap fun t => t.bytes.cells)
  | [], [], _ => List.Perm.refl _
  | _ :: _, _ :: _, .cons h hrest => h.perm.append (perm_flatMap_cells hrest)

namespace KVTensors

variable {bs nh hs itemsize : ℕ} (V : KVTensors bs nh hs itemsize)

def row : List ℕ := V.fmt.blockShape bs nh hs

/-- `E` is the engine that `register_kv_caches` builds over the tensors. -/
structure Registers (blockSize chunkSize rank d2h h2d : ℕ) (E : KVLayout) : Prop where
  returned : ∃ views views', registerKvCaches V.kvCaches V.numGpuBlocks blockSize chunkSize rank
      d2h h2d = .ok ⟨E.transfer, E.kvCaches, views, views'⟩ ∧
    layerViews E.kvCaches E.transfer.blocksPerChunk E.transfer.blockNbytes d2h = .ok views ∧
    layerViews E.kvCaches E.transfer.blocksPerChunk E.transfer.blockNbytes h2d = .ok views'
  layers : E.transfer.numLayers = (layersOf V.kvCaches).length
  numBlocks : E.transfer.numBlocks = V.numBlocks
  blocksPerChunk : E.transfer.blocksPerChunk = chunkSize / blockSize
  blockNbytes : E.transfer.blockNbytes = V.row.prod * itemsize
  blockFirst : List.Forall₂ (BlockFirst V.fmt V.numBlocks V.row) (layersOf V.kvCaches) E.kvCaches

/-- Tensors of every layout are registered. -/
theorem registers {blockSize : ℕ} (hbytes : 0 < V.row.prod * itemsize) (hblock : 0 < blockSize)
    (chunkSize rank d2h h2d : ℕ) : ∃ E, V.Registers blockSize chunkSize rank d2h h2d E := by
  obtain ⟨views, hviews, hfirst⟩ := normalize_place V.nonempty V.told V.shape
  have hview : ∀ kv ∈ views, kv.shape = V.numBlocks :: V.row ∧ kv.itemsize = itemsize := by
    intro kv hkv
    obtain ⟨i, hi, rfl⟩ := List.mem_iff_getElem.mp hkv
    have hi' : i < (layersOf V.kvCaches).length := hfirst.length_eq.symm ▸ hi
    have hat := hfirst.get hi' hi
    exact ⟨hat.shape, hat.itemsize.trans (V.item _ (List.getElem_mem _))⟩
  have hrows : ∀ kv ∈ views, kv.Rows V.numBlocks (V.row.prod * itemsize) := fun kv hkv =>
    ⟨V.row, (hview kv hkv).1, by rw [(hview kv hkv).2]⟩
  have hne : views ≠ [] := by
    rintro rfl
    exact V.nonempty (List.forall₂_nil_right_iff.mp hfirst)
  obtain ⟨⟨t, kvCaches, v, v'⟩, hbuilt, rfl, -, hlayers, hnb, hper, hn, hv, hv'⟩ := create_ok
    chunkSize rank d2h h2d hne hblock V.blocks_pos hrows hbytes
  dsimp only at hlayers hnb hper hn hv hv'
  rw [← hper, ← hn] at hv hv'
  refine ⟨⟨t, _, hlayers.symm, by rwa [hnb, hn], ?_⟩, ⟨v, v', ?_, hv, hv'⟩, ?_, hnb, hper, hn,
    hfirst⟩
  · exact (perm_flatMap_cells hfirst).nodup_iff.mpr V.apart
  · rw [registerKvCaches, hviews]
    exact hbuilt
  · exact hlayers.trans hfirst.length_eq.symm

/-- Tensors of every layout are registered, and the views of the staging buffers of both pipelines
read the chunks in them. -/
theorem staged {blockSize : ℕ} (hbytes : 0 < V.row.prod * itemsize) (hblock : 0 < blockSize)
    (chunkSize rank d2h h2d : ℕ) : ∃ E views views', registerKvCaches V.kvCaches V.numGpuBlocks
      blockSize chunkSize rank d2h h2d = .ok ⟨E.transfer, E.kvCaches, views, views'⟩ ∧
      V.Registers blockSize chunkSize rank d2h h2d E ∧
      Staged E.transfer d2h views ∧ Staged E.transfer h2d views' := by
  obtain ⟨E, h⟩ := V.registers hbytes hblock chunkSize rank d2h h2d
  obtain ⟨views, views', hreturned, hd2h, hh2d⟩ := h.returned
  have hpos : 0 < E.transfer.blockNbytes := h.blockNbytes.symm ▸ hbytes
  exact ⟨E, views, views', hreturned, h, staged_of_layerViews E.layers E.rows hpos hd2h,
    staged_of_layerViews E.layers E.rows hpos hh2d⟩

/-- The byte of an item of block `b`, at the index its layout has for it. -/
def byteAt (t : Tensor) (b : ℕ) (index : List ℕ) (byte : ℕ) : ℕ :=
  t.bytes.cell (V.fmt.place b index ++ [byte])

/-- A byte of an item of a block. -/
def Item (index : List ℕ) (byte : ℕ) : Prop := InBounds V.row index ∧ byte < itemsize

variable {V} {blockSize chunkSize rank d2h h2d : ℕ} {E : KVLayout}

/-- The row of a block in the view of its tensor. -/
theorem Registers.view (h : V.Registers blockSize chunkSize rank d2h h2d E) {layer : ℕ} {t : Tensor}
    (ht : (layersOf V.kvCaches)[layer]? = some t) :
    ∃ kv, E.kvCaches[layer]? = some kv ∧ kv.itemsize = itemsize ∧
      BlockFirst V.fmt V.numBlocks V.row t kv := by
  obtain ⟨hlt, rfl⟩ := List.getElem?_eq_some_iff.mp ht
  have hlt' : layer < E.kvCaches.length := h.blockFirst.length_eq ▸ hlt
  have hfirst := h.blockFirst.get hlt hlt'
  exact ⟨E.kvCaches[layer], List.getElem?_eq_getElem hlt',
    hfirst.itemsize.trans (V.item _ (List.getElem_mem _)), hfirst⟩

/-- Buffers apart from the tensors of vLLM are apart from their views. -/
theorem Registers.stagesApart (h : V.Registers blockSize chunkSize rank d2h h2d E) {addr : ℕ}
    (hapart : ∀ t ∈ layersOf V.kvCaches, t.bytes.cells.Disjoint (E.stagingCells addr)) :
    E.StagesApart addr := by
  intro kv hkv a ha hstage
  have hmem := (perm_flatMap_cells h.blockFirst).mem_iff.mp
    (List.mem_flatMap_of_mem (f := fun t => t.bytes.cells) hkv ha)
  obtain ⟨t, ht, hat⟩ := List.mem_flatMap.mp hmem
  exact hapart t ht hat hstage

/-- Where the bytes of an item stand in the row of its block : a place that depends on the sizes
of a block alone. -/
theorem Registers.getElem?_rowCells (h : V.Registers blockSize chunkSize rank d2h h2d E)
    {layer : ℕ} {t : Tensor} (ht : (layersOf V.kvCaches)[layer]? = some t) (b : ℕ)
    {index : List ℕ} {byte : ℕ} (hi : V.Item index byte) :
    (E.rowCells layer b)[place (V.row ++ [itemsize]) (index ++ [byte])]? =
      some (V.byteAt t b index byte) := by
  obtain ⟨kv, hkv, hitem, hfirst⟩ := h.view ht
  have hshape := Tensor.shape_bytes_of_shape hfirst.shape
  have hrow := shape_select _ hshape b
  have hin : InBounds (kv.bytes.select b).shape (index ++ [byte]) := by
    rw [hrow, hitem]
    exact inBounds_append_singleton hi.1 hi.2
  have hat := getElem?_cells (kv.bytes.select b) hin
  rw [hrow, hitem, cell_select _ hshape, ← List.cons_append,
    hfirst.cell b index byte hi.1.length_eq] at hat
  rw [KVLayout.rowCells_eq hkv, Tensor.bytes_row hfirst.shape]
  exact hat

/-- The bytes of a block are those of its items. -/
theorem Registers.mem_rowCells (h : V.Registers blockSize chunkSize rank d2h h2d E)
    {layer : ℕ} {t : Tensor} (ht : (layersOf V.kvCaches)[layer]? = some t) {b a : ℕ}
    (ha : a ∈ E.rowCells layer b) :
    ∃ index byte, V.Item index byte ∧ a = V.byteAt t b index byte := by
  obtain ⟨kv, hkv, hitem, hfirst⟩ := h.view ht
  have hshape := Tensor.shape_bytes_of_shape hfirst.shape
  rw [KVLayout.rowCells_eq hkv, Tensor.bytes_row hfirst.shape] at ha
  obtain ⟨index, hindex, rfl⟩ := exists_index_of_mem_cells ha
  rw [shape_select _ hshape, hitem] at hindex
  obtain ⟨index, byte, rfl, hindex, hbyte⟩ := exists_of_inBounds_append_singleton hindex
  refine ⟨index, byte, ⟨hindex, hbyte⟩, ?_⟩
  rw [cell_select _ hshape, ← List.cons_append, hfirst.cell b index byte hindex.length_eq]
  rfl

end KVTensors

/-! ## From one layout to another -/

namespace KVTransfer

variable {t : KVTransfer} {blockIds : List ℕ} {n skipBlocks : ℕ}

/-- What `from_host` writes are rows of the blocks that are not skipped. -/
theorem exists_of_mem_fromHost (hlen : blockIds.length = n * t.blocksPerChunk)
    (hids : ∀ id ∈ blockIds, id < t.numBlocks) (hskip : skipBlocks < t.blocksPerChunk)
    {chunks : List Bytes} {w : BlockWrite} (hw : w ∈ (t.fromHost chunks blockIds skipBlocks).1) :
    w.layer < t.numLayers ∧ ∃ p, skipBlocks ≤ p ∧ blockIds[p]? = some w.block := by
  obtain ⟨i, chunk, buf, -, -, -, -, layer, j, b, hl, hj, -, hb, rfl⟩ :=
    (mem_fromHost_iff hlen hids hskip).mp hw
  refine ⟨hl, _, ?_, hb⟩
  unfold skipOf at hj
  split_ifs at hj with hi
  · omega
  · have := Nat.le_mul_of_pos_left t.blocksPerChunk (Nat.pos_of_ne_zero hi)
    omega

/-- Block `p` is block `j` of chunk `i`, and not skipped there if `p` is not. -/
theorem exists_place (hpos : 0 < t.blocksPerChunk) {p : ℕ} (hp : p < n * t.blocksPerChunk)
    (hskip : skipBlocks ≤ p) : ∃ i j, i < n ∧ j < t.blocksPerChunk ∧
      p = i * t.blocksPerChunk + j ∧ skipOf skipBlocks i ≤ j := by
  have hdiv := Nat.div_add_mod' p t.blocksPerChunk
  refine ⟨p / _, p % _, (Nat.div_lt_iff_lt_mul hpos).mpr hp, Nat.mod_lt p hpos, hdiv.symm, ?_⟩
  unfold skipOf
  split_ifs with h0
  · rw [h0] at hdiv
    omega
  · exact Nat.zero_le _

end KVTransfer

section layouts

variable {bs nh hs itemsize blockSize chunkSize rankA rankB d2hA h2dA d2hB h2dB : ℕ}
  {A B : KVTensors bs nh hs itemsize} {EA EB : KVLayout}

/-- Two engines whose chunks have the same sizes. -/
structure SameSizes (A B : KVTransfer) : Prop where
  numLayers : B.numLayers = A.numLayers
  blocksPerChunk : B.blocksPerChunk = A.blocksPerChunk
  blockNbytes : B.blockNbytes = A.blockNbytes

theorem SameSizes.chunkNbytes {A B : KVTransfer} (h : SameSizes A B) :
    B.chunkNbytes = A.chunkNbytes := by
  rw [KVTransfer.chunkNbytes, KVTransfer.chunkNbytes, h.numLayers, h.blocksPerChunk, h.blockNbytes]

/-- Blocks that one engine copies out are the blocks that the other copies in. -/
theorem SameSizes.copied (h : SameSizes EA.transfer EB.transfer) {memA : ℕ → UInt8}
    (memB : ℕ → UInt8) {idsA idsB : List ℕ} {chunks : List Bytes} {skip : ℕ}
    (hout : EA.transfer.toHost (EA.cache memA) idsA = .ok chunks)
    (hlen : idsB.length = chunks.length * EB.transfer.blocksPerChunk) (hnd : idsB.Nodup)
    (hids : ∀ id ∈ idsB, id < EB.transfer.numBlocks) (hskip : skip < EB.transfer.blocksPerChunk) :
    (EB.transfer.fromHost chunks idsB skip).2 = none ∧
    ∀ (layer p : ℕ) a b, layer < EB.transfer.numLayers → skip ≤ p → idsA[p]? = some a →
      idsB[p]? = some b →
      (EB.cache (EB.writeAll memB (EB.transfer.fromHost chunks idsB skip).1)).block layer b =
        (EA.cache memA).block layer a := by
  obtain ⟨-, -, hdata⟩ := KVTransfer.toHost_ok hout
  have hsize : ∀ c ∈ chunks, c.length = EB.transfer.chunkNbytes := fun c hc => by
    obtain ⟨i, hi⟩ := List.mem_iff_getElem?.mp hc
    rw [h.chunkNbytes]
    exact (hdata i c hi).1
  refine ⟨KVTransfer.fromHost_returns hlen hids hskip hsize le_rfl, ?_⟩
  intro layer p a b hlayer hp ha hb
  have hlt : p < chunks.length * EB.transfer.blocksPerChunk :=
    hlen ▸ (List.getElem?_eq_some_iff.mp hb).1
  obtain ⟨i, j, hi, hj, rfl, hskipOf⟩ :=
    KVTransfer.exists_place (Nat.zero_lt_of_lt hskip) hlt hp
  have hchunk := List.getElem?_eq_getElem hi
  have hsrc : EB.transfer.blockOf chunks[i] layer j = (EA.cache memA).block layer a := by
    rw [← (hdata i _ hchunk).2 layer j a (h.numLayers ▸ hlayer) (h.blocksPerChunk ▸ hj)
      (h.blocksPerChunk ▸ ha), KVTransfer.blockOf, KVTransfer.blockOf, h.blocksPerChunk,
      h.blockNbytes]
  have hdst := (KVTransfer.block_fromHost hlen hids hskip hnd hsize (EB.cache memB) layer
    hlayer).1 i j b _ hi hskipOf hj hb hchunk (by
      rw [hsrc, h.blockNbytes]
      exact (EA.cache memA).length_block layer a)
  have hhas : ∀ w ∈ (EB.transfer.fromHost chunks idsB skip).1, EB.HasBlock w.layer w.block := by
    intro w hw
    obtain ⟨hl, p, -, hb⟩ := KVTransfer.exists_of_mem_fromHost hlen hids hskip hw
    exact ⟨hl, hids _ (List.mem_of_getElem? hb)⟩
  rw [KVLayout.block_cache_writeAll memB hhas (fun _ _ _ => rfl) layer b
    ⟨hlayer, hids b (List.mem_of_getElem? hb)⟩, hdst, hsrc]

theorem sameSizes (hA : A.Registers blockSize chunkSize rankA d2hA h2dA EA)
    (hB : B.Registers blockSize chunkSize rankB d2hB h2dB EB) (hrow : A.row = B.row)
    (hlayers : (layersOf A.kvCaches).length = (layersOf B.kvCaches).length) :
    SameSizes EA.transfer EB.transfer where
  numLayers := by rw [hB.layers, hA.layers, hlayers]
  blocksPerChunk := hB.blocksPerChunk.trans hA.blocksPerChunk.symm
  blockNbytes := by rw [hB.blockNbytes, hA.blockNbytes, hrow]

/-- `register_kv_caches` builds an engine over tensors of every layout. Blocks `idsA` copied out of
the tensors of one engine and into the blocks `idsB` of another arrive item by item, whatever
layouts the two have, if a block has the same sizes in both; the first `skip` are left out, and no
other byte of the two memories is changed, but in the staging buffers. -/
theorem kv_between_layouts (A B : KVTensors bs nh hs itemsize) (hbytes : 0 < A.row.prod * itemsize)
    (hblock : 0 < blockSize) (hrow : A.row = B.row)
    (hlayers : (layersOf A.kvCaches).length = (layersOf B.kvCaches).length) :
    ∃ EA EB, A.Registers blockSize chunkSize rankA d2hA h2dA EA ∧
      B.Registers blockSize chunkSize rankB d2hB h2dB EB ∧
      ∀ (memA memB : ℕ → UInt8) (idsA idsB : List ℕ) (skip : ℕ),
        (∀ t ∈ layersOf A.kvCaches, t.bytes.cells.Disjoint (EA.stagingCells d2hA)) →
        (∀ t ∈ layersOf B.kvCaches, t.bytes.cells.Disjoint (EB.stagingCells h2dB)) →
        chunkSize / blockSize ∣ idsA.length → idsA.length = idsB.length →
        (∀ id ∈ idsA, id < A.numBlocks) → (∀ id ∈ idsB, id < B.numBlocks) → idsB.Nodup →
        skip < chunkSize / blockSize →
        ∃ chunks memA', EA.toHost d2hA idsA memA = .ok (chunks, memA') ∧
          (∀ x ∉ EA.stagingCells d2hA, memA' x = memA x) ∧
          (EB.transfer.fromHost chunks idsB skip).2 = none ∧
          let memB' := EB.fromHost h2dB chunks idsB skip memB
          (∀ (layer p : ℕ) tA tB a b index byte, (layersOf A.kvCaches)[layer]? = some tA →
            (layersOf B.kvCaches)[layer]? = some tB → skip ≤ p → idsA[p]? = some a →
            idsB[p]? = some b → B.Item index byte →
            memB' (B.byteAt tB b index byte) = memA (A.byteAt tA a index byte)) ∧
          ∀ x ∉ EB.stagingCells h2dB,
            (∀ (layer p : ℕ) tB b index byte, (layersOf B.kvCaches)[layer]? = some tB →
              skip ≤ p → idsB[p]? = some b → B.Item index byte → x ≠ B.byteAt tB b index byte) →
            memB' x = memB x := by
  obtain ⟨EA, hA⟩ := A.registers hbytes hblock chunkSize rankA d2hA h2dA
  obtain ⟨EB, hB⟩ := B.registers (hrow ▸ hbytes) hblock chunkSize rankB d2hB h2dB
  refine ⟨EA, EB, hA, hB, ?_⟩
  intro memA memB idsA idsB skip hapartA hapartB hdvd hlen hidsA hidsB hnd hskip
  have hstageB := hB.stagesApart hapartB
  have hsame := sameSizes hA hB hrow hlayers
  rw [← hA.blocksPerChunk] at hdvd
  rw [← hB.blocksPerChunk] at hskip
  rw [← hA.numBlocks] at hidsA
  rw [← hB.numBlocks] at hidsB
  have hpos : 0 < EA.transfer.blocksPerChunk := by
    rw [← hsame.blocksPerChunk]
    exact Nat.zero_lt_of_lt hskip
  have hwhole := (Nat.div_mul_cancel hdvd).symm
  obtain ⟨chunks, hout⟩ : ∃ chunks, EA.transfer.toHost (EA.cache memA) idsA = .ok chunks := by
    simp only [KVTransfer.toHost, KVTransfer.wholeChunks_of_length hwhole hpos, if_pos hidsA]
    exact ⟨_, rfl⟩
  obtain ⟨memA', hreturn, hframeA⟩ := KVLayout.toHost_ok (hA.stagesApart hapartA) hout
  have hlenB : idsB.length = chunks.length * EB.transfer.blocksPerChunk := by
    rw [(KVTransfer.toHost_ok hout).1, hsame.blocksPerChunk, ← hwhole, hlen]
  obtain ⟨hnone, hcopied⟩ := hsame.copied memB hout hlenB hnd hidsB hskip
  refine ⟨chunks, memA', hreturn, hframeA, hnone, ?_, ?_⟩
  · intro layer p tA tB a b index byte htA htB hp ha hb hitem
    have hlayer := (List.getElem?_eq_some_iff.mp htB).1
    rw [← hB.layers] at hlayer
    have hcellB := hB.getElem?_rowCells htB b hitem
    have hplace := congrArg (·[place (B.row ++ [itemsize]) (index ++ [byte])]?)
      (hcopied layer p a b hlayer hp ha hb)
    have hitemA : A.Item index byte := by
      rw [KVTensors.Item, hrow]
      exact hitem
    have hcellA := hA.getElem?_rowCells htA a hitemA
    rw [hrow] at hcellA
    simp only [KVLayout.cache, readCells, List.getElem?_map, hcellA, hcellB, Option.map_some,
      Option.some.injEq] at hplace
    have houtside := KVLayout.disjoint_stagingCells hstageB
      ⟨hlayer, hidsB b (List.mem_of_getElem? hb)⟩ (List.mem_of_getElem? hcellB)
    exact (KVLayout.fromHost_of_notMem houtside chunks idsB skip memB).trans hplace
  · intro x hstage hx
    refine (KVLayout.fromHost_of_notMem hstage chunks idsB skip memB).trans ?_
    refine KVLayout.writeAll_of_notMem memB fun w hw hcell => ?_
    obtain ⟨hl, p, hp, hb⟩ := KVTransfer.exists_of_mem_fromHost hlenB hidsB hskip hw
    have htB := List.getElem?_eq_getElem (hB.layers ▸ hl)
    obtain ⟨index, byte, hitem, rfl⟩ := hB.mem_rowCells htB hcell
    exact hx w.layer p _ w.block index byte htB hp hb hitem rfl

end layouts

/-- Three blocks with the block dimension first. -/
def sampleBlockFirst : KVTensors 1 1 1 2 where
  kvCaches := OrderedDict.empty.set "layer" (.fused ⟨0, contiguous [3, 2, 1, 1, 1], 2⟩)
  fmt := .faBlockFirst
  numBlocks := 3
  numGpuBlocks := some 3
  nonempty := by decide
  blocks_pos := by decide
  told := .inr rfl
  shape := by decide
  item := by decide
  apart := by decide

/-- Four blocks with keys and values first. -/
def sampleKvFirst : KVTensors 1 1 1 2 where
  kvCaches := OrderedDict.empty.set "layer" (.fused ⟨0, contiguous [2, 4, 1, 1, 1], 2⟩)
  fmt := .faKvFirst
  numBlocks := 4
  numGpuBlocks := none
  nonempty := by decide
  blocks_pos := by decide
  told := by rintro ⟨⟩
  shape := by decide
  item := by decide
  apart := by decide

/-- The value of block 0, which is bytes 2 and 3 of its row, is copied to block 3 of the other
engine, whose values start at byte 8. -/
theorem kv_between_layouts_sample : ∃ EA EB memB', ∃ chunks memA',
    sampleBlockFirst.Registers 1 2 0 64 128 EA ∧ sampleKvFirst.Registers 1 2 1 64 128 EB ∧
    EA.toHost 64 [2, 0] (fun a => a.toUInt8) = .ok (chunks, memA') ∧
    memB' = EB.fromHost 128 chunks [1, 3] 1 (fun _ => 255) ∧
    memB' 14 = 2 ∧ memB' 15 = 3 := by
  obtain ⟨EA, EB, hA, hB, hcopy⟩ := @kv_between_layouts 1 1 1 2 1 2 0 1 64 128 64 128
    sampleBlockFirst sampleKvFirst (by decide) (by decide) rfl (by decide)
  have hapart : ∀ (E : KVLayout) (t : Tensor) (addr : ℕ), (∀ a ∈ t.bytes.cells, a < addr) →
      t.bytes.cells.Disjoint (E.stagingCells addr) := fun E t addr hlt a ha hstage =>
    absurd (hlt a ha) (Nat.not_lt.mpr (List.mem_range'_1.mp hstage).1)
  have hfirst : ∀ t ∈ layersOf sampleBlockFirst.kvCaches, ∀ a ∈ t.bytes.cells, a < 64 := by decide
  have hkv : ∀ t ∈ layersOf sampleKvFirst.kvCaches, ∀ a ∈ t.bytes.cells, a < 128 := by decide
  obtain ⟨chunks, memA', hout, -, -, hitems, -⟩ := hcopy (fun a => a.toUInt8) (fun _ => 255) [2, 0]
    [1, 3] 1 (fun t ht => hapart EA t 64 (hfirst t ht)) (fun t ht => hapart EB t 128 (hkv t ht))
    (by decide) rfl (by decide) (by decide) (by decide) (by decide)
  have hvalue : ∀ byte < 2, sampleKvFirst.Item [1, 0, 0, 0] byte := fun byte hbyte =>
    ⟨.cons (by decide) (.cons (by decide) (.cons (by decide) (.cons (by decide) .nil))), hbyte⟩
  refine ⟨EA, EB, _, chunks, memA', hA, hB, hout, rfl, ?_, ?_⟩
  · exact hitems 0 1 _ _ 0 3 [1, 0, 0, 0] 0 rfl rfl le_rfl rfl rfl (hvalue 0 (by decide))
  · exact hitems 0 1 _ _ 0 3 [1, 0, 0, 0] 1 rfl rfl le_rfl rfl rfl (hvalue 1 (by decide))

end MiniLlmcache
