import MiniLlmcache.Streams
import MiniLlmcache.Transfer

/-!
# The two-stream pipeline

`KVTransfer.to_host` and `from_host` as they issue their work : each has a `Pipeline` with a kernel
stream, a copy stream, three staging and three pinned host buffers, and a `ready` and a `free` event
for each of the three. Here a call is a program over streams and events (`Streams`), and its plain
version is the one of `Transfer`, which copies chunk after chunk.

`pipeline_eq_plain` : in every schedule, when calls have returned, the KV cache and all that
`to_host` returned are those of the plain calls. Every operation on a buffer is ordered after the
last use of the buffer; `toHost_safe` and `fromHost_safe` follow the knowledge of the host and the
streams through one chunk.

`elapsed_safe_iff` : the events that time a call are sure to be done when it measures them exactly
for a `from_host` of at least one chunk. `to_host` records its end on the copy stream and does not
wait for it.
-/

namespace MiniLlmcache

open Streams

/-- The two pipelines of an engine. -/
inductive Dir
  | d2h
  | h2d
deriving DecidableEq

inductive PipeStream
  | kernelStream (d : Dir)
  | copyStream (d : Dir)
deriving DecidableEq

inductive PipeEvent
  | ready (d : Dir) (buf : ℕ)
  | free (d : Dir) (buf : ℕ)
  | begin (d : Dir)
  /-- `end` in the source. -/
  | stop (d : Dir)
deriving DecidableEq

inductive PipeCell
  | kvCaches
  | staging (d : Dir) (buf : ℕ)
  | cpuBufs (d : Dir) (buf : ℕ)
  /-- The list that `to_host` builds. -/
  | chunks
  /-- What the calls of `to_host` have returned. -/
  | returned
deriving DecidableEq

def PipeCell.Val (t : KVTransfer) : PipeCell → Type
  | kvCaches => KVCache t.blockNbytes
  | staging _ _ | cpuBufs _ _ => Bytes
  | chunks => List Bytes
  | returned => List (List Bytes)

namespace KVTransfer

variable (t : KVTransfer)

abbrev Op := Move (PipeCell.Val t)

abbrev PipeInstr := Instr PipeStream PipeEvent (PipeCell.Val t)

abbrev Mem := ∀ c : PipeCell, c.Val t

/-! ## The operations -/

/-- A staging buffer with the rows of one layer replaced. -/
def setLayer (buf : Bytes) (layer : ℕ) (rows : Bytes) : Bytes :=
  buf.take (layer * rows.length) ++ rows ++ buf.drop ((layer + 1) * rows.length)

/-- `torch.index_select(kv_cache, 0, ids, out=pipe.layer_views[buf][layer])`. -/
def indexSelectOp (ids : List ℕ) (buf layer : ℕ) : t.Op where
  src := .kvCaches
  dst := .staging .d2h buf
  f (kv : KVCache t.blockNbytes) staging := setLayer staging layer (ids.flatMap (kv.block layer))

/-- `pipe.cpu_bufs[buf].copy_(pipe.staging[buf])`. -/
def copyOutOp (buf : ℕ) : t.Op where
  src := .staging .d2h buf
  dst := .cpuBufs .d2h buf
  f staging _ := staging

/-- `chunks = []`. -/
def noChunksOp : t.Op where
  src := .chunks
  dst := .chunks
  f _ _ := ([] : List Bytes)

/-- `chunks.append(pipe.cpu_bufs[buf].numpy().tobytes())`. -/
def appendOp (buf : ℕ) : t.Op where
  src := .cpuBufs .d2h buf
  dst := .chunks
  f (chunk : Bytes) (chunks : List Bytes) := chunks ++ [chunk]

/-- `return chunks`. -/
def returnOp : t.Op where
  src := .chunks
  dst := .returned
  f (chunks : List Bytes) (returned : List (List Bytes)) := returned ++ [chunks]

/-- `pipe.cpu_bufs[buf].numpy()[:] = np.frombuffer(blob)`. -/
def fillOp (blob : Bytes) (buf : ℕ) : t.Op where
  src := .cpuBufs .h2d buf
  dst := .cpuBufs .h2d buf
  f _ _ := (t.hostBuf blob).getD blob

/-- `pipe.staging[buf].copy_(pipe.cpu_bufs[buf])`. -/
def copyInOp (buf : ℕ) : t.Op where
  src := .cpuBufs .h2d buf
  dst := .staging .h2d buf
  f chunk _ := chunk

/-- `kv_cache.index_copy_(0, ids, pipe.layer_views[buf][layer][skip:])`. -/
def indexCopyOp (ids : List ℕ) (skip buf layer : ℕ) : t.Op where
  src := .staging .h2d buf
  dst := .kvCaches
  f staging (kv : KVCache t.blockNbytes) :=
    kv.writeAll ((t.indexCopy layer ids ((t.layerView staging layer).drop skip)).getD [])

/-! ## The calls -/

/-- The turn of `to_host` for chunk `i`. -/
def toHostChunk (blockIds : List ℕ) (i : ℕ) : List t.PipeInstr :=
  let buf := i % 3
  let ids := t.chunkIds blockIds i 0
  .wait (.kernelStream .d2h) (.free .d2h buf) ::
    (List.range t.numLayers).map (fun layer =>
      .launch (.kernelStream .d2h) (t.indexSelectOp ids buf layer)) ++
    [.record (.ready .d2h buf) (.kernelStream .d2h),
      .wait (.copyStream .d2h) (.ready .d2h buf),
      .launch (.copyStream .d2h) (t.copyOutOp buf),
      .record (.free .d2h buf) (.copyStream .d2h),
      .syncEvent (.free .d2h buf),
      .host (t.appendOp buf)]

/-- `device_module.synchronize()`. -/
def synchronize : List t.PipeInstr :=
  [.syncStream (.kernelStream .d2h), .syncStream (.copyStream .d2h),
    .syncStream (.kernelStream .h2d), .syncStream (.copyStream .h2d)]

/-- `to_host` up to the end of its loop. -/
def toHostBody (blockIds : List ℕ) : List t.PipeInstr :=
  t.synchronize ++ [.record (.begin .d2h) (.kernelStream .d2h), .host t.noChunksOp] ++
    (List.range (blockIds.length / t.blocksPerChunk)).flatMap (t.toHostChunk blockIds)

def toHostProgram (blockIds : List ℕ) : List t.PipeInstr :=
  t.toHostBody blockIds ++
    [.record (.stop .d2h) (.copyStream .d2h), .elapsed (.begin .d2h) (.stop .d2h),
      .host t.returnOp]

/-- The turn of `from_host` for chunk `i`. -/
def fromHostChunk (blockIds : List ℕ) (skipBlocks i : ℕ) (blob : Bytes) : List t.PipeInstr :=
  let buf := i % 3
  let skip := skipOf skipBlocks i
  let ids := t.chunkIds blockIds i skip
  (if 3 ≤ i then [.syncEvent (.free .h2d buf)] else []) ++
    [.host (t.fillOp blob buf),
      .wait (.copyStream .h2d) (.free .h2d buf),
      .launch (.copyStream .h2d) (t.copyInOp buf),
      .record (.ready .h2d buf) (.copyStream .h2d),
      .wait (.kernelStream .h2d) (.ready .h2d buf)] ++
    (List.range t.numLayers).map (fun layer =>
      .launch (.kernelStream .h2d) (t.indexCopyOp ids skip buf layer)) ++
    [.record (.free .h2d buf) (.kernelStream .h2d)]

/-- The loop of `from_host`, from chunk `i` on. -/
def fromHostChunks (blockIds : List ℕ) (skipBlocks : ℕ) : ℕ → List Bytes → List t.PipeInstr
  | _, [] => []
  | i, blob :: chunks =>
    t.fromHostChunk blockIds skipBlocks i blob ++ fromHostChunks blockIds skipBlocks (i + 1) chunks

def fromHostProgram (chunks : List Bytes) (blockIds : List ℕ) (skipBlocks : ℕ) :
    List t.PipeInstr :=
  .record (.begin .h2d) (.copyStream .h2d) ::
    t.fromHostChunks blockIds skipBlocks 0 chunks ++
    [.record (.stop .h2d) (.kernelStream .h2d), .syncStream (.kernelStream .h2d),
      .elapsed (.begin .h2d) (.stop .h2d)]

/-- A call of an engine. -/
inductive TransferCall
  | toHost (blockIds : List ℕ)
  | fromHost (chunks : List Bytes) (blockIds : List ℕ) (skipBlocks : ℕ)
deriving DecidableEq

namespace TransferCall

/-- What a call issues that raises nothing before its measurement. -/
def program : TransferCall → List t.PipeInstr
  | toHost blockIds => t.toHostProgram blockIds
  | fromHost chunks blockIds skipBlocks => t.fromHostProgram chunks blockIds skipBlocks

/-- The plain call raises nothing. -/
def Completes : TransferCall → Prop
  | toHost blockIds => t.wholeChunks blockIds = .ok () ∧ ∀ id ∈ blockIds, id < t.numBlocks
  | fromHost chunks blockIds skipBlocks => (t.fromHost chunks blockIds skipBlocks).2 = none

instance (c : TransferCall) : Decidable (c.Completes t) :=
  match c with
  | toHost blockIds => inferInstanceAs
      (Decidable (t.wholeChunks blockIds = .ok () ∧ ∀ id ∈ blockIds, id < t.numBlocks))
  | fromHost chunks blockIds skipBlocks => inferInstanceAs
      (Decidable ((t.fromHost chunks blockIds skipBlocks).2 = none))

/-- The plain call, on the KV cache and what has been returned. -/
def plain (kv : KVCache t.blockNbytes) (returned : List (List Bytes)) :
    TransferCall → KVCache t.blockNbytes × List (List Bytes)
  | toHost blockIds => (kv, returned ++ (t.toHost kv blockIds).toOption.toList)
  | fromHost chunks blockIds skipBlocks =>
    (kv.writeAll (t.fromHost chunks blockIds skipBlocks).1, returned)

def plainAll (s : KVCache t.blockNbytes × List (List Bytes)) (calls : List TransferCall) :
    KVCache t.blockNbytes × List (List Bytes) :=
  calls.foldl (fun s c => c.plain t s.1 s.2) s

end TransferCall

/-- The calls of one thread, one after the other. -/
def programOf (calls : List TransferCall) : List t.PipeInstr :=
  calls.flatMap (TransferCall.program t)

/-! ## What is ordered -/

section safe

variable {t} {k : Know PipeCell PipeStream PipeEvent}

/-- The host can rely on every cell. -/
def Settled (k : Know PipeCell PipeStream PipeEvent) : Prop := ∀ c, Sum.inl c ∈ k.host

/-- A turn of `to_host` begins and ends with nothing under way. -/
theorem toHostChunk_safe (blockIds : List ℕ) (i : ℕ) (h : Settled k) :
    Know.Along Know.Safe k (t.toHostChunk blockIds i) ∧
      Settled (k.after (t.toHostChunk blockIds i)) := by
  set ids := t.chunkIds blockIds i 0 with hids
  set buf := i % 3 with hbuf
  set gathers : List t.PipeInstr := (List.range t.numLayers).map fun layer =>
    .launch (.kernelStream .d2h) (t.indexSelectOp ids buf layer) with hgathers
  set k₁ := k.next (.wait (.kernelStream .d2h) (.free .d2h buf) : t.PipeInstr) with hk₁
  have h₁ : ∀ c, Sum.inl c ∈ k₁.behind (.kernelStream .d2h) := fun c =>
    Or.inl (by simp only [hk₁, Know.next, if_true]; exact Or.inl (Or.inr (h c)))
  set k₂ := k₁.after gathers with hk₂
  have h₂ : ∀ c, Sum.inl c ∈ k₂.behind (.kernelStream .d2h) := fun c =>
    Know.behind_launches _ (h₁ c)
  set k₃ := k₂.next (.record (.ready .d2h buf) (.kernelStream .d2h) : t.PipeInstr) with hk₃
  set k₄ := k₃.next (.wait (.copyStream .d2h) (.ready .d2h buf) : t.PipeInstr) with hk₄
  have h₄ : ∀ c, Sum.inl c ∈ k₄.behind (.copyStream .d2h) := fun c =>
    Know.behind_wait _ (Know.event_record _ (h₂ c))
  set k₅ := k₄.next (.launch (.copyStream .d2h) (t.copyOutOp buf) : t.PipeInstr) with hk₅
  set k₆ := k₅.next (.record (.free .d2h buf) (.copyStream .d2h) : t.PipeInstr) with hk₆
  set k₇ := k₆.next (.syncEvent (.free .d2h buf) : t.PipeInstr) with hk₇
  have h₇ : Settled k₇ := fun c => Or.inr (Know.event_record _ (Know.behind_launch _ (h₄ c)))
  have hprog : t.toHostChunk blockIds i =
      (.wait (.kernelStream .d2h) (.free .d2h buf) : t.PipeInstr) :: (gathers ++
        [.record (.ready .d2h buf) (.kernelStream .d2h),
          .wait (.copyStream .d2h) (.ready .d2h buf),
          .launch (.copyStream .d2h) (t.copyOutOp buf),
          .record (.free .d2h buf) (.copyStream .d2h),
          .syncEvent (.free .d2h buf),
          .host (t.appendOp buf)]) := rfl
  rw [hprog]
  refine ⟨⟨trivial, Know.along_append.mpr ⟨?_, ?_⟩⟩, ?_⟩
  · exact Know.along_launches fun layer _ c _ => h₁ c
  · exact ⟨trivial, trivial, fun c _ => h₄ c, trivial, trivial, fun c _ => h₇ c, trivial⟩
  · have hafter : ∀ rest : List t.PipeInstr,
        k.after ((.wait (.kernelStream .d2h) (.free .d2h buf) : t.PipeInstr) :: (gathers ++ rest)) =
          k₂.after rest := fun rest => Know.after_append k₁ gathers rest
    rw [hafter]
    exact h₇

theorem Settled.next (h : Settled k) {i : t.PipeInstr} (hi : ∀ c, ¬Know.Changes i (Sum.inl c)) :
    Settled (k.next i) := fun c => Know.host_next (hi c) (h c)

theorem toHostChunks_safe (blockIds : List ℕ) : ∀ (is : List ℕ)
    {k : Know PipeCell PipeStream PipeEvent}, Settled k →
      Know.Along Know.Safe k (is.flatMap (t.toHostChunk blockIds)) ∧
        Settled (k.after (is.flatMap (t.toHostChunk blockIds)))
  | [], _, h => ⟨trivial, h⟩
  | i :: is, k, h => by
    obtain ⟨hsafe, hsettled⟩ := toHostChunk_safe (t := t) blockIds i h
    obtain ⟨hsafe', hsettled'⟩ := toHostChunks_safe blockIds is hsettled
    rw [List.flatMap_cons, Know.after_append]
    exact ⟨Know.along_append.mpr ⟨hsafe, hsafe'⟩, hsettled'⟩

theorem toHost_safe (blockIds : List ℕ) (h : Settled k) :
    Know.Along Know.Safe k (t.toHostProgram blockIds) ∧
      Settled (k.after (t.toHostProgram blockIds)) := by
  set head : List t.PipeInstr :=
    t.synchronize ++ [.record (.begin .d2h) (.kernelStream .d2h), .host t.noChunksOp] with hhead
  set loop : List t.PipeInstr :=
    (List.range (blockIds.length / t.blocksPerChunk)).flatMap (t.toHostChunk blockIds) with hloop
  have hprog : t.toHostProgram blockIds = head ++ (loop ++
      [.record (.stop .d2h) (.copyStream .d2h), .elapsed (.begin .d2h) (.stop .d2h),
        .host t.returnOp]) := by
    rw [toHostProgram, toHostBody, List.append_assoc]
  have hbegun : Settled (k.after head) := fun c =>
    Know.host_after (by simp [head, synchronize, Know.Changes]) (h c)
  have hsync : Settled (k.after t.synchronize) := fun c =>
    Know.host_after (by simp [synchronize, Know.Changes]) (h c)
  have hbegin₀ : Settled ((k.after t.synchronize).next
      (.record (.begin .d2h) (.kernelStream .d2h) : t.PipeInstr)) := hsync.next nofun
  obtain ⟨hsafe, hsettled⟩ := toHostChunks_safe (t := t) blockIds
    (List.range (blockIds.length / t.blocksPerChunk)) hbegun
  set k₁ := (k.after head).after loop with hk₁
  set k₂ := k₁.next (.record (.stop .d2h) (.copyStream .d2h) : t.PipeInstr) with hk₂
  have h₂ : Settled k₂ := hsettled.next nofun
  have hbegin : PipeEvent.begin .d2h ∈ k₁.recorded :=
    Know.recorded_after (Or.inl rfl)
  rw [hprog, Know.after_append, Know.after_append]
  refine ⟨Know.along_append.mpr ⟨Know.along_append.mpr ⟨?_, ?_⟩, Know.along_append.mpr
    ⟨hsafe, ?_⟩⟩, h₂⟩
  · exact ⟨trivial, trivial, trivial, trivial, trivial⟩
  · exact ⟨trivial, fun c _ => hbegin₀ c, trivial⟩
  · exact ⟨trivial, ⟨Or.inr hbegin, Or.inl rfl⟩, fun c _ => h₂ c, trivial⟩

/-- What the host and the streams can rely on when `from_host` comes to chunk `i`. -/
structure FromHostKnow (k : Know PipeCell PipeStream PipeEvent) (i : ℕ) : Prop where
  kernel : ∀ c, Sum.inl c ∈ k.behind (.kernelStream .h2d)
  used : ∀ buf < 3, buf < i → Sum.inl (.staging .h2d buf) ∈ k.event (.free .h2d buf) ∧
    Sum.inl (.cpuBufs .h2d buf) ∈ k.event (.free .h2d buf)
  unused : ∀ buf, i ≤ buf → Sum.inl (.staging .h2d buf) ∈ k.host ∧
    Sum.inl (.cpuBufs .h2d buf) ∈ k.host

/-- What a turn of `from_host` issues. -/
theorem mem_fromHostChunk {blockIds : List ℕ} {skipBlocks i : ℕ} {blob : Bytes} {j : t.PipeInstr}
    (h : j ∈ t.fromHostChunk blockIds skipBlocks i blob) :
    j = .syncEvent (.free .h2d (i % 3)) ∨ j = .host (t.fillOp blob (i % 3)) ∨
      j = .wait (.copyStream .h2d) (.free .h2d (i % 3)) ∨
      j = .launch (.copyStream .h2d) (t.copyInOp (i % 3)) ∨
      j = .record (.ready .h2d (i % 3)) (.copyStream .h2d) ∨
      j = .wait (.kernelStream .h2d) (.ready .h2d (i % 3)) ∨
      (∃ ids skip layer, j = .launch (.kernelStream .h2d) (t.indexCopyOp ids skip (i % 3) layer)) ∨
      j = .record (.free .h2d (i % 3)) (.kernelStream .h2d) := by
  simp only [fromHostChunk, List.mem_append, List.mem_cons, List.mem_map, List.not_mem_nil,
    or_false] at h
  rcases h with ((h | rfl | rfl | rfl | rfl | rfl) | ⟨layer, -, rfl⟩) | rfl
  · split_ifs at h
    · exact Or.inl (List.mem_singleton.mp h)
    · cases h
  · exact Or.inr (Or.inl rfl)
  · exact Or.inr (Or.inr (Or.inl rfl))
  · exact Or.inr (Or.inr (Or.inr (Or.inl rfl)))
  · exact Or.inr (Or.inr (Or.inr (Or.inr (Or.inl rfl))))
  · exact Or.inr (Or.inr (Or.inr (Or.inr (Or.inr (Or.inl rfl)))))
  · exact Or.inr (Or.inr (Or.inr (Or.inr (Or.inr (Or.inr (Or.inl ⟨_, _, layer, rfl⟩))))))
  · exact Or.inr (Or.inr (Or.inr (Or.inr (Or.inr (Or.inr (Or.inr rfl))))))

/-- What a turn of `from_host` works on. -/
theorem not_changes_fromHostChunk (blockIds : List ℕ) (skipBlocks i : ℕ) (blob : Bytes)
    {F : Fact PipeCell PipeEvent} (hkv : F ≠ Sum.inl .kvCaches)
    (hstaging : F ≠ Sum.inl (.staging .h2d (i % 3))) (hcpu : F ≠ Sum.inl (.cpuBufs .h2d (i % 3)))
    (hready : F ≠ Sum.inr (.ready .h2d (i % 3))) (hfree : F ≠ Sum.inr (.free .h2d (i % 3))) :
    ∀ j ∈ t.fromHostChunk blockIds skipBlocks i blob, ¬Know.Changes j F := by
  intro j hj
  rcases mem_fromHostChunk hj with rfl | rfl | rfl | rfl | rfl | rfl | ⟨ids, skip, layer, rfl⟩ | rfl
  · exact id
  · exact id
  · exact id
  · rcases F with c | e
    · rintro (rfl | rfl)
      · exact hcpu rfl
      · exact hstaging rfl
    · exact id
  · rcases F with c | e
    · exact id
    · rintro rfl
      exact hready rfl
  · exact id
  · rcases F with c | e
    · rintro (rfl | rfl)
      · exact hstaging rfl
      · exact hkv rfl
    · exact id
  · rcases F with c | e
    · exact id
    · rintro rfl
      exact hfree rfl

theorem not_marks_fromHostChunk (blockIds : List ℕ) (skipBlocks i : ℕ) (blob : Bytes)
    {e : PipeEvent} (hready : e ≠ .ready .h2d (i % 3)) (hfree : e ≠ .free .h2d (i % 3)) :
    ∀ j ∈ t.fromHostChunk blockIds skipBlocks i blob, ¬Know.Marks e j := by
  intro j hj
  rcases mem_fromHostChunk hj with rfl | rfl | rfl | rfl | rfl | rfl | ⟨ids, skip, layer, rfl⟩ | rfl
  · exact id
  · exact id
  · exact id
  · exact id
  · exact fun heq => hready heq.symm
  · exact id
  · exact id
  · exact fun heq => hfree heq.symm

/-- A turn measures nothing. -/
theorem fromHostChunk_timed (blockIds : List ℕ) (skipBlocks i : ℕ) (blob : Bytes) :
    ∀ j ∈ t.fromHostChunk blockIds skipBlocks i blob,
      ∀ k : Know PipeCell PipeStream PipeEvent, k.Timed j := by
  intro j hj k
  rcases mem_fromHostChunk hj with rfl | rfl | rfl | rfl | rfl | rfl | ⟨ids, skip, layer, rfl⟩ | rfl
  all_goals trivial

/-- A turn leaves the other buffers alone. -/
theorem not_changes_buffers (blockIds : List ℕ) (skipBlocks i : ℕ) (blob : Bytes) {b : ℕ}
    (hne : b ≠ i % 3) :
    (∀ j ∈ t.fromHostChunk blockIds skipBlocks i blob,
      ¬Know.Changes j (Sum.inl (.staging .h2d b) : Fact PipeCell PipeEvent)) ∧
    ∀ j ∈ t.fromHostChunk blockIds skipBlocks i blob,
      ¬Know.Changes j (Sum.inl (.cpuBufs .h2d b) : Fact PipeCell PipeEvent) :=
  ⟨not_changes_fromHostChunk _ _ _ _ nofun (by simpa using hne) nofun nofun nofun,
    not_changes_fromHostChunk _ _ _ _ nofun nofun (by simpa using hne) nofun nofun⟩

theorem not_changes_sync (i buf : ℕ) (F : Fact PipeCell PipeEvent) :
    ∀ j ∈ (if 3 ≤ i then [.syncEvent (.free .h2d buf)] else [] : List t.PipeInstr),
      ¬Know.Changes j F := by
  intro j hj
  split_ifs at hj
  · rw [List.mem_singleton.mp hj]
    exact id
  · cases hj

/-- The last use of the buffer was a chunk of this call, which the host waits for, or none. -/
theorem FromHostKnow.owns (h : FromHostKnow k i) {c : PipeCell}
    (hc : (t.copyInOp (i % 3)).Touches c) :
    Sum.inl c ∈ (k.after
      (if 3 ≤ i then [.syncEvent (.free .h2d (i % 3))] else [] : List t.PipeInstr)).host := by
  have hlt : i % 3 < 3 := Nat.mod_lt _ (by omega)
  by_cases hi : 3 ≤ i
  · obtain ⟨hstaging, hcpu⟩ := h.used _ hlt (by omega)
    rw [if_pos hi]
    rcases hc with rfl | rfl
    · exact Or.inr hcpu
    · exact Or.inr hstaging
  · obtain ⟨hstaging, hcpu⟩ := h.unused (i % 3) (by omega)
    rcases hc with rfl | rfl
    · exact Know.host_after (not_changes_sync _ _ _) hcpu
    · exact Know.host_after (not_changes_sync _ _ _) hstaging

/-- A turn of `from_host`. -/
theorem fromHostChunk_safe (blockIds : List ℕ) (skipBlocks i : ℕ) (blob : Bytes)
    (h : FromHostKnow k i) :
    Know.Along Know.Safe k (t.fromHostChunk blockIds skipBlocks i blob) ∧
      FromHostKnow (k.after (t.fromHostChunk blockIds skipBlocks i blob)) (i + 1) := by
  have howns := fun c (hc : (t.copyInOp (i % 3)).Touches c) => h.owns hc
  set buf := i % 3 with hbuf
  have hle : buf ≤ i := Nat.mod_le _ _
  set sync : List t.PipeInstr := if 3 ≤ i then [.syncEvent (.free .h2d buf)] else [] with hsync
  set scatters : List t.PipeInstr := (List.range t.numLayers).map fun layer =>
    .launch (.kernelStream .h2d) (t.indexCopyOp (t.chunkIds blockIds i (skipOf skipBlocks i))
      (skipOf skipBlocks i) buf layer) with hscatters
  have hprog : t.fromHostChunk blockIds skipBlocks i blob = sync ++
      ([.host (t.fillOp blob buf),
        .wait (.copyStream .h2d) (.free .h2d buf),
        .launch (.copyStream .h2d) (t.copyInOp buf),
        .record (.ready .h2d buf) (.copyStream .h2d),
        .wait (.kernelStream .h2d) (.ready .h2d buf)] ++ (scatters ++
        [.record (.free .h2d buf) (.kernelStream .h2d)])) := by
    simp only [fromHostChunk, List.append_assoc]
    rfl
  set k₁ := k.after sync with hk₁
  set k₂ := k₁.next (.wait (.copyStream .h2d) (.free .h2d buf) : t.PipeInstr) with hk₂
  set k₃ := k₂.next (.launch (.copyStream .h2d) (t.copyInOp buf) : t.PipeInstr) with hk₃
  set k₄ := k₃.next (.record (.ready .h2d buf) (.copyStream .h2d) : t.PipeInstr) with hk₄
  set k₅ := k₄.next (.wait (.kernelStream .h2d) (.ready .h2d buf) : t.PipeInstr) with hk₅
  have h₅ : ∀ c, Sum.inl c ∈ k₅.behind (.kernelStream .h2d) := by
    intro c
    by_cases hc : (t.copyInOp buf).Touches c
    · exact Know.behind_wait _ (Know.event_record _ (Know.behind_launch _ (Or.inr (howns c hc))))
    · exact Know.behind_next id (Know.behind_next (by rintro ⟨⟩) (Know.behind_next hc
        (Know.behind_next id (Know.behind_after (not_changes_sync _ _ _) (h.kernel c)))))
  set k₆ := k₅.after scatters with hk₆
  have h₆ : ∀ c, Sum.inl c ∈ k₆.behind (.kernelStream .h2d) := fun c =>
    Know.behind_launches _ (h₅ c)
  have hafter : k.after (t.fromHostChunk blockIds skipBlocks i blob) =
      k₆.next (.record (.free .h2d buf) (.kernelStream .h2d) : t.PipeInstr) := by
    rw [hprog, Know.after_append, Know.after_append, Know.after_append]
    rfl
  refine ⟨?_, ⟨fun c => ?_, fun b hb hbi => ?_, fun b hb => ?_⟩⟩
  · rw [hprog]
    refine Know.along_append.mpr ⟨?_, Know.along_append.mpr ⟨?_, Know.along_append.mpr ⟨?_, ?_⟩⟩⟩
    · rw [hsync]
      split_ifs
      · exact ⟨trivial, trivial⟩
      · trivial
    · refine ⟨fun c hc => ?_, trivial, fun c hc => Or.inr (howns c hc), trivial, trivial, trivial⟩
      rcases hc with rfl | rfl <;> exact howns _ (Or.inl rfl)
    · exact Know.along_launches fun layer _ c _ => h₅ c
    · exact ⟨trivial, trivial⟩
  · rw [hafter]
    exact Know.behind_record _ (h₆ c)
  · by_cases hne : b = buf
    · rw [hafter, hne]
      exact ⟨Know.event_record _ (h₆ _), Know.event_record _ (h₆ _)⟩
    · obtain ⟨hstaging, hcpu⟩ := h.used b hb (by omega)
      obtain ⟨hkept, hkept'⟩ := not_changes_buffers (t := t) blockIds skipBlocks i blob hne
      have hmarks := not_marks_fromHostChunk (t := t) blockIds skipBlocks i blob
        (e := .free .h2d b) (by simp) (by simpa using hne)
      exact ⟨Know.event_after (fun j hj => ⟨hkept j hj, hmarks j hj⟩) hstaging,
        Know.event_after (fun j hj => ⟨hkept' j hj, hmarks j hj⟩) hcpu⟩
  · obtain ⟨hstaging, hcpu⟩ := h.unused b (by omega)
    obtain ⟨hkept, hkept'⟩ :=
      not_changes_buffers (t := t) blockIds skipBlocks i blob (show b ≠ buf by omega)
    exact ⟨Know.host_after hkept hstaging, Know.host_after hkept' hcpu⟩

theorem fromHostChunks_safe (blockIds : List ℕ) (skipBlocks : ℕ) : ∀ (chunks : List Bytes)
    {k : Know PipeCell PipeStream PipeEvent} {i : ℕ}, FromHostKnow k i →
      Know.Along Know.Safe k (t.fromHostChunks blockIds skipBlocks i chunks) ∧
        ∀ c, Sum.inl c ∈ (k.after (t.fromHostChunks blockIds skipBlocks i chunks)).behind
          (.kernelStream .h2d)
  | [], _, _, h => ⟨trivial, h.kernel⟩
  | blob :: chunks, k, i, h => by
    obtain ⟨hsafe, hknow⟩ := fromHostChunk_safe (t := t) blockIds skipBlocks i blob h
    obtain ⟨hsafe', hkernel⟩ := fromHostChunks_safe blockIds skipBlocks chunks hknow
    rw [fromHostChunks, Know.after_append]
    exact ⟨Know.along_append.mpr ⟨hsafe, hsafe'⟩, hkernel⟩

theorem fromHost_safe (chunks : List Bytes) (blockIds : List ℕ) (skipBlocks : ℕ) (h : Settled k) :
    Know.Along Know.Safe k (t.fromHostProgram chunks blockIds skipBlocks) ∧
      Settled (k.after (t.fromHostProgram chunks blockIds skipBlocks)) := by
  set k₁ := k.next (.record (.begin .h2d) (.copyStream .h2d) : t.PipeInstr) with hk₁
  have h₁ : Settled k₁ := h.next nofun
  have hknow : FromHostKnow k₁ 0 :=
    ⟨fun c => Or.inr (h₁ c), fun _ _ hlt => (Nat.not_lt_zero _ hlt).elim,
      fun _ _ => ⟨h₁ _, h₁ _⟩⟩
  obtain ⟨hsafe, hkernel⟩ := fromHostChunks_safe (t := t) blockIds skipBlocks chunks hknow
  set k₂ := k₁.after (t.fromHostChunks blockIds skipBlocks 0 chunks) with hk₂
  have hbegin : PipeEvent.begin .h2d ∈ k₂.recorded := Know.recorded_after (Or.inl rfl)
  have hprog : t.fromHostProgram chunks blockIds skipBlocks =
      [.record (.begin .h2d) (.copyStream .h2d)] ++
        (t.fromHostChunks blockIds skipBlocks 0 chunks ++
          [.record (.stop .h2d) (.kernelStream .h2d), .syncStream (.kernelStream .h2d),
            .elapsed (.begin .h2d) (.stop .h2d)]) := rfl
  rw [hprog, Know.after_append, Know.after_append]
  refine ⟨Know.along_append.mpr ⟨⟨trivial, trivial⟩, Know.along_append.mpr ⟨hsafe, ?_⟩⟩,
    fun c => ?_⟩
  · exact ⟨trivial, trivial, ⟨Or.inr hbegin, Or.inl rfl⟩, trivial⟩
  · have hkernel' : Sum.inl c ∈ (k₂.next
        (.record (.stop .h2d) (.kernelStream .h2d) : t.PipeInstr)).behind (.kernelStream .h2d) :=
      Know.behind_record _ (hkernel c)
    rcases hkernel' with hstream | hhost
    · exact Or.inr hstream
    · exact Or.inl hhost

theorem TransferCall.safe (c : TransferCall) (h : Settled k) :
    Know.Along Know.Safe k (c.program t) ∧ Settled (k.after (c.program t)) := by
  cases c with
  | toHost blockIds => exact toHost_safe blockIds h
  | fromHost chunks blockIds skipBlocks => exact fromHost_safe chunks blockIds skipBlocks h

theorem programOf_safe : ∀ (calls : List TransferCall) {k : Know PipeCell PipeStream PipeEvent},
    Settled k → Know.Along Know.Safe k (t.programOf calls) ∧ Settled (k.after (t.programOf calls))
  | [], _, h => ⟨trivial, h⟩
  | c :: calls, k, h => by
    obtain ⟨hsafe, hsettled⟩ := c.safe (t := t) h
    obtain ⟨hsafe', hsettled'⟩ := programOf_safe calls hsettled
    rw [programOf, List.flatMap_cons, Know.after_append]
    exact ⟨Know.along_append.mpr ⟨hsafe, hsafe'⟩, hsettled'⟩

theorem settled_all : Settled Know.all := fun _ => trivial

end safe

/-! ## In program order the copies are the plain ones -/

section plain

variable {t}

def kvOf (m : t.Mem) : KVCache t.blockNbytes := m .kvCaches

def stagingOf (m : t.Mem) (d : Dir) (buf : ℕ) : Bytes := m (.staging d buf)

def cpuBufOf (m : t.Mem) (d : Dir) (buf : ℕ) : Bytes := m (.cpuBufs d buf)

def chunksOf (m : t.Mem) : List Bytes := m .chunks

def returnedOf (m : t.Mem) : List (List Bytes) := m .returned

/-- The staging buffers have `chunk_nbytes` bytes. -/
def Sized (m : t.Mem) : Prop := ∀ buf, (stagingOf m .d2h buf).length = t.chunkNbytes

/-- Written layer after layer, a buffer holds the rows of the layers. -/
theorem foldl_setLayer {sz : ℕ} {rows : ℕ → Bytes} (hrows : ∀ layer, (rows layer).length = sz)
    (buf : Bytes) : ∀ n, n * sz ≤ buf.length →
      (List.range n).foldl (fun view layer => setLayer view layer (rows layer)) buf =
        (List.range n).flatMap rows ++ buf.drop (n * sz)
  | 0, _ => by simp
  | n + 1, h => by
    have hle : n * sz ≤ buf.length := (Nat.mul_le_mul_right sz (Nat.le_succ n)).trans h
    have hlen : ((List.range n).flatMap rows).length = n * sz := by
      rw [length_flatMap_const hrows, List.length_range]
    rw [List.range_succ, List.foldl_append, foldl_setLayer hrows buf n hle, List.flatMap_append]
    simp only [List.foldl_cons, List.foldl_nil, setLayer, hrows, List.flatMap_singleton]
    have hrest : ((List.range n).flatMap rows ++ buf.drop (n * sz)).drop ((n + 1) * sz) =
        buf.drop ((n + 1) * sz) := by
      rw [Nat.succ_mul, ← List.drop_drop, ← hlen, List.drop_left, List.drop_drop]
    rw [List.take_append_of_le_length hlen.ge, ← hlen, List.take_length, hlen, hrest]

/-- The gathers of one chunk. -/
theorem stagingOf_indexSelect (ids : List ℕ) (buf : ℕ) : ∀ (layers : List ℕ) (m : t.Mem),
    stagingOf (seq (layers.map fun layer =>
      (.launch (.kernelStream .d2h) (t.indexSelectOp ids buf layer) : t.PipeInstr)) m) .d2h buf =
    layers.foldl (fun view layer => setLayer view layer (ids.flatMap ((kvOf m).block layer)))
      (stagingOf m .d2h buf)
  | [], _ => rfl
  | layer :: layers, m => by
    have hkv : kvOf ((t.indexSelectOp ids buf layer).run m) = kvOf m :=
      Move.run_of_ne (show PipeCell.kvCaches ≠ .staging .d2h buf from nofun) m
    have hview : stagingOf ((t.indexSelectOp ids buf layer).run m) .d2h buf =
        setLayer (stagingOf m .d2h buf) layer (ids.flatMap ((kvOf m).block layer)) :=
      Move.run_dst (t.indexSelectOp ids buf layer) m
    rw [List.foldl_cons, ← hview, ← hkv]
    exact stagingOf_indexSelect ids buf layers _

/-- One turn of `to_host`, in program order. -/
theorem seq_toHostChunk {blockIds : List ℕ} {i : ℕ} {m : t.Mem} (hm : Sized m)
    (hi : (i + 1) * t.blocksPerChunk ≤ blockIds.length) :
    Sized (seq (t.toHostChunk blockIds i) m) ∧
      kvOf (seq (t.toHostChunk blockIds i) m) = kvOf m ∧
      returnedOf (seq (t.toHostChunk blockIds i) m) = returnedOf m ∧
      chunksOf (seq (t.toHostChunk blockIds i) m) =
        chunksOf m ++ [t.gather (kvOf m) (t.chunkIds blockIds i 0)] := by
  set buf := i % 3 with hbuf
  set ids := t.chunkIds blockIds i 0 with hids
  have hlen : ids.length = t.blocksPerChunk := length_chunkIds 0 hi
  have hrow : ∀ layer, (ids.flatMap ((kvOf m).block layer)).length =
      t.blocksPerChunk * t.blockNbytes := fun layer => by
    rw [length_flatMap_const ((kvOf m).length_block layer), hlen]
  have hsize : (stagingOf m .d2h buf).length = t.numLayers * (t.blocksPerChunk * t.blockNbytes) :=
    by rw [hm buf, chunkNbytes, Nat.mul_assoc]
  set gathers : List t.PipeInstr := (List.range t.numLayers).map fun layer =>
    .launch (.kernelStream .d2h) (t.indexSelectOp ids buf layer) with hgathers
  set m₁ := seq gathers m with hm₁
  set m₂ := (t.copyOutOp buf).run m₁ with hm₂
  have hstaged : stagingOf m₁ .d2h buf = t.gather (kvOf m) ids := by
    rw [hm₁, hgathers, stagingOf_indexSelect, foldl_setLayer hrow _ _ hsize.ge,
      List.drop_of_length_le hsize.le, List.append_nil]
    rfl
  have hother : ∀ c, c ≠ .staging .d2h buf → m₁ c = m c := fun c hc =>
    seq_launches_of_ne (fun _ _ => hc) m
  have hother' : ∀ c, c ≠ .staging .d2h buf → c ≠ .cpuBufs .d2h buf → m₂ c = m c := fun c hc hc' =>
    (Move.run_of_ne (show c ≠ (t.copyOutOp buf).dst from hc') m₁).trans (hother c hc)
  have hseq : seq (t.toHostChunk blockIds i) m = (t.appendOp buf).run m₂ :=
    seq_append (.wait (.kernelStream .d2h) (.free .d2h buf) :: gathers) _ m
  have hlast : ∀ c, c ≠ .chunks → (t.appendOp buf).run m₂ c = m₂ c := fun c hc =>
    Move.run_of_ne (show c ≠ (t.appendOp buf).dst from hc) m₂
  rw [hseq]
  refine ⟨fun b => ?_, ?_, ?_, ?_⟩
  · have hb : stagingOf ((t.appendOp buf).run m₂) .d2h b = stagingOf m₁ .d2h b :=
      (hlast (.staging .d2h b) (by rintro ⟨⟩)).trans (Move.run_of_ne
        (show PipeCell.staging .d2h b ≠ (t.copyOutOp buf).dst from (by rintro ⟨⟩)) m₁)
    rw [hb]
    by_cases hne : b = buf
    · rw [hne, hstaged]
      exact length_gather _ hlen
    · have hkept : stagingOf m₁ .d2h b = stagingOf m .d2h b := hother _ (by simpa using hne)
      rw [hkept]
      exact hm b
  · exact (hlast .kvCaches (by rintro ⟨⟩)).trans (hother' _ (by rintro ⟨⟩) (by rintro ⟨⟩))
  · exact (hlast .returned (by rintro ⟨⟩)).trans (hother' _ (by rintro ⟨⟩) (by rintro ⟨⟩))
  · have happended : chunksOf ((t.appendOp buf).run m₂) =
        chunksOf m₂ ++ [cpuBufOf m₂ .d2h buf] := Move.run_dst (t.appendOp buf) m₂
    have hcopied : cpuBufOf m₂ .d2h buf = stagingOf m₁ .d2h buf :=
      Move.run_dst (t.copyOutOp buf) m₁
    have hchunks : chunksOf m₂ = chunksOf m := hother' .chunks (by rintro ⟨⟩) (by rintro ⟨⟩)
    rw [happended, hcopied, hstaged, hchunks]

theorem seq_toHostChunks {blockIds : List ℕ} : ∀ {is : List ℕ} {m : t.Mem}, Sized m →
    (∀ i ∈ is, (i + 1) * t.blocksPerChunk ≤ blockIds.length) →
    Sized (seq (is.flatMap (t.toHostChunk blockIds)) m) ∧
      kvOf (seq (is.flatMap (t.toHostChunk blockIds)) m) = kvOf m ∧
      returnedOf (seq (is.flatMap (t.toHostChunk blockIds)) m) = returnedOf m ∧
      chunksOf (seq (is.flatMap (t.toHostChunk blockIds)) m) =
        chunksOf m ++ is.map fun i => t.gather (kvOf m) (t.chunkIds blockIds i 0)
  | [], m, hm, _ => ⟨hm, rfl, rfl, (List.append_nil _).symm⟩
  | i :: is, m, hm, h => by
    obtain ⟨hm', hkv, hret, hchunks⟩ := seq_toHostChunk hm (h i List.mem_cons_self)
    obtain ⟨hm'', hkv', hret', hchunks'⟩ :=
      seq_toHostChunks hm' fun j hj => h j (List.mem_cons_of_mem _ hj)
    rw [List.flatMap_cons, seq_append]
    refine ⟨hm'', hkv'.trans hkv, hret'.trans hret, ?_⟩
    rw [hchunks', hchunks, hkv, List.append_assoc, List.map_cons, List.singleton_append]

/-- `to_host`, in program order. -/
theorem seq_toHost {blockIds : List ℕ} {m : t.Mem} (hm : Sized m)
    (hwhole : t.wholeChunks blockIds = .ok ()) (hids : ∀ id ∈ blockIds, id < t.numBlocks) :
    Sized (seq (t.toHostProgram blockIds) m) ∧
      (kvOf (seq (t.toHostProgram blockIds) m), returnedOf (seq (t.toHostProgram blockIds) m)) =
        (TransferCall.toHost blockIds).plain t (kvOf m) (returnedOf m) := by
  obtain ⟨-, hlen⟩ := whole_of_wholeChunks hwhole
  set is := List.range (blockIds.length / t.blocksPerChunk) with his
  set m₁ := t.noChunksOp.run m with hm₁
  have hbound : ∀ i ∈ is, (i + 1) * t.blocksPerChunk ≤ blockIds.length := fun i hi => by
    rw [hlen]
    exact Nat.mul_le_mul_right _ (List.mem_range.mp hi)
  have hother : ∀ c, c ≠ .chunks → m₁ c = m c := fun c hc =>
    Move.run_of_ne (show c ≠ t.noChunksOp.dst from hc) m
  have hsized : Sized m₁ := fun buf => by
    have hkept : stagingOf m₁ .d2h buf = stagingOf m .d2h buf := hother (.staging .d2h buf) nofun
    rw [hkept]
    exact hm buf
  have hkv₁ : kvOf m₁ = kvOf m := hother .kvCaches nofun
  have hret₁ : returnedOf m₁ = returnedOf m := hother .returned nofun
  have hempty : chunksOf m₁ = [] := Move.run_dst t.noChunksOp m
  obtain ⟨hsized₂, hkv, hret, hchunks⟩ := seq_toHostChunks hsized hbound
  set m₂ := seq (is.flatMap (t.toHostChunk blockIds)) m₁ with hm₂
  have hseq : seq (t.toHostProgram blockIds) m = t.returnOp.run m₂ := by
    rw [toHostProgram, toHostBody, seq_append, seq_append]
    rfl
  have hlast : ∀ c, c ≠ .returned → t.returnOp.run m₂ c = m₂ c := fun c hc =>
    Move.run_of_ne (show c ≠ t.returnOp.dst from hc) m₂
  have hplain : t.toHost (kvOf m) blockIds =
      .ok (is.map fun i => t.gather (kvOf m) (t.chunkIds blockIds i 0)) := by
    rw [toHost, hwhole]
    exact if_pos hids
  rw [hseq]
  refine ⟨fun buf => ?_, Prod.ext ?_ ?_⟩
  · have hkept : stagingOf (t.returnOp.run m₂) .d2h buf = stagingOf m₂ .d2h buf :=
      hlast (.staging .d2h buf) nofun
    rw [hkept]
    exact hsized₂ buf
  · exact (hlast .kvCaches nofun).trans (hkv.trans hkv₁)
  · have hreturned : returnedOf (t.returnOp.run m₂) = returnedOf m₂ ++ [chunksOf m₂] :=
      Move.run_dst t.returnOp m₂
    change returnedOf (t.returnOp.run m₂) = _
    rw [hreturned, hret, hret₁, hchunks, hempty, hkv₁, List.nil_append, TransferCall.plain, hplain]
    rfl

/-- The scatters of one chunk, when none raises. -/
theorem kvOf_indexCopy (ids : List ℕ) (skip buf : ℕ) : ∀ (layers : List ℕ) (m : t.Mem),
    (t.scatterLayers ids (stagingOf m .h2d buf) skip layers).2 = none →
    kvOf (seq (layers.map fun layer =>
      (.launch (.kernelStream .h2d) (t.indexCopyOp ids skip buf layer) : t.PipeInstr)) m) =
    (kvOf m).writeAll (t.scatterLayers ids (stagingOf m .h2d buf) skip layers).1
  | [], _, _ => rfl
  | layer :: layers, m, h => by
    rw [scatterLayers] at h ⊢
    rcases hws : t.indexCopy layer ids ((t.layerView (stagingOf m .h2d buf) layer).drop skip) with
      _ | ws
    · rw [hws] at h
      cases h
    · rw [hws] at h
      have hstaged : stagingOf ((t.indexCopyOp ids skip buf layer).run m) .h2d buf =
          stagingOf m .h2d buf :=
        Move.run_of_ne (show PipeCell.staging .h2d buf ≠ .kvCaches from (by rintro ⟨⟩)) m
      have hkv : kvOf ((t.indexCopyOp ids skip buf layer).run m) = (kvOf m).writeAll ((t.indexCopy
          layer ids ((t.layerView (stagingOf m .h2d buf) layer).drop skip)).getD []) :=
        Move.run_dst (t.indexCopyOp ids skip buf layer) m
      rw [hws, Option.getD_some] at hkv
      have ih := kvOf_indexCopy ids skip buf layers ((t.indexCopyOp ids skip buf layer).run m)
        (by rw [hstaged]; exact h)
      rw [hstaged, hkv] at ih
      refine ih.trans ?_
      rw [KVCache.writeAll, KVCache.writeAll, KVCache.writeAll, ← List.foldl_append]

/-- One turn of `from_host`, in program order. -/
theorem seq_fromHostChunk {blockIds : List ℕ} {skipBlocks i : ℕ} {blob chunk : Bytes} {m : t.Mem}
    (hblob : t.hostBuf blob = some chunk)
    (hfits : (t.scatterLayers (t.chunkIds blockIds i (skipOf skipBlocks i)) chunk
      (skipOf skipBlocks i) (List.range t.numLayers)).2 = none) :
    (∀ buf, stagingOf (seq (t.fromHostChunk blockIds skipBlocks i blob) m) .d2h buf =
      stagingOf m .d2h buf) ∧
    kvOf (seq (t.fromHostChunk blockIds skipBlocks i blob) m) =
      (kvOf m).writeAll (t.scatterLayers (t.chunkIds blockIds i (skipOf skipBlocks i)) chunk
        (skipOf skipBlocks i) (List.range t.numLayers)).1 ∧
    returnedOf (seq (t.fromHostChunk blockIds skipBlocks i blob) m) = returnedOf m := by
  set buf := i % 3 with hbuf
  set skip := skipOf skipBlocks i with hskip
  set ids := t.chunkIds blockIds i skip with hids
  set m₁ := (t.fillOp blob buf).run m with hm₁
  set m₂ := (t.copyInOp buf).run m₁ with hm₂
  have hother : ∀ c, c ≠ .cpuBufs .h2d buf → c ≠ .staging .h2d buf → m₂ c = m c := fun c hc hc' =>
    (Move.run_of_ne (show c ≠ (t.copyInOp buf).dst from hc') m₁).trans
      (Move.run_of_ne (show c ≠ (t.fillOp blob buf).dst from hc) m)
  have hstaged : stagingOf m₂ .h2d buf = chunk := by
    have hfilled : cpuBufOf m₁ .h2d buf = (t.hostBuf blob).getD blob :=
      Move.run_dst (t.fillOp blob buf) m
    have hcopied : stagingOf m₂ .h2d buf = cpuBufOf m₁ .h2d buf := Move.run_dst (t.copyInOp buf) m₁
    rw [hcopied, hfilled, hblob, Option.getD_some]
  set scatters : List t.PipeInstr := (List.range t.numLayers).map fun layer =>
    .launch (.kernelStream .h2d) (t.indexCopyOp ids skip buf layer) with hscatters
  have hseq : seq (t.fromHostChunk blockIds skipBlocks i blob) m = seq scatters m₂ := by
    simp only [fromHostChunk, seq_append]
    split_ifs <;> rfl
  have hlast : ∀ c, c ≠ .kvCaches → seq scatters m₂ c = m₂ c := fun c hc =>
    seq_launches_of_ne (fun _ _ => hc) m₂
  rw [hseq]
  refine ⟨fun b => ?_, ?_, ?_⟩
  · exact (hlast (.staging .d2h b) nofun).trans (hother _ nofun nofun)
  · have hkv : kvOf m₂ = kvOf m := hother .kvCaches nofun nofun
    rw [hscatters, kvOf_indexCopy ids skip buf _ m₂ (by rw [hstaged]; exact hfits), hstaged, hkv]
  · exact (hlast .returned nofun).trans (hother _ nofun nofun)

theorem seq_fromHostChunks {blockIds : List ℕ} {skipBlocks : ℕ} : ∀ {chunks : List Bytes} {i : ℕ}
    {m : t.Mem}, (t.scatterChunks blockIds skipBlocks i chunks).2 = none →
    (∀ buf, stagingOf (seq (t.fromHostChunks blockIds skipBlocks i chunks) m) .d2h buf =
      stagingOf m .d2h buf) ∧
    kvOf (seq (t.fromHostChunks blockIds skipBlocks i chunks) m) =
      (kvOf m).writeAll (t.scatterChunks blockIds skipBlocks i chunks).1 ∧
    returnedOf (seq (t.fromHostChunks blockIds skipBlocks i chunks) m) = returnedOf m
  | [], _, _, _ => ⟨fun _ => rfl, rfl, rfl⟩
  | blob :: chunks, i, m, h => by
    rcases hblob : t.hostBuf blob with _ | chunk
    · rw [scatterChunks, hblob] at h
      cases h
    rcases hfits : (t.scatterLayers (t.chunkIds blockIds i (skipOf skipBlocks i)) chunk
      (skipOf skipBlocks i) (List.range t.numLayers)).2 with _ | e
    · have hchunks : t.scatterChunks blockIds skipBlocks i (blob :: chunks) =
          ((t.scatterLayers (t.chunkIds blockIds i (skipOf skipBlocks i)) chunk
            (skipOf skipBlocks i) (List.range t.numLayers)).1 ++
            (t.scatterChunks blockIds skipBlocks (i + 1) chunks).1,
          (t.scatterChunks blockIds skipBlocks (i + 1) chunks).2) := by
        rw [scatterChunks, hblob]
        simp only [hfits]
      rw [hchunks] at h ⊢
      obtain ⟨hstaging, hkv, hret⟩ := seq_fromHostChunk (m := m) hblob hfits
      obtain ⟨hstaging', hkv', hret'⟩ := seq_fromHostChunks (i := i + 1)
        (m := seq (t.fromHostChunk blockIds skipBlocks i blob) m) h
      rw [fromHostChunks, seq_append]
      refine ⟨fun buf => (hstaging' buf).trans (hstaging buf), ?_, hret'.trans hret⟩
      rw [hkv', hkv, KVCache.writeAll, KVCache.writeAll, KVCache.writeAll, ← List.foldl_append]
    · rw [scatterChunks, hblob] at h
      simp only [hfits] at h
      cases h

/-- A call in program order is the plain call. -/
theorem TransferCall.seq_program {c : TransferCall} {m : t.Mem} (hm : Sized m)
    (hc : c.Completes t) : Sized (seq (c.program t) m) ∧
      (kvOf (seq (c.program t) m), returnedOf (seq (c.program t) m)) =
        c.plain t (kvOf m) (returnedOf m) := by
  cases c with
  | toHost blockIds => exact seq_toHost hm hc.1 hc.2
  | fromHost chunks blockIds skipBlocks =>
    have hseq : seq (t.fromHostProgram chunks blockIds skipBlocks) m =
        seq (t.fromHostChunks blockIds skipBlocks 0 chunks) m := by
      rw [fromHostProgram, List.cons_append]
      exact seq_append _ _ m
    rw [TransferCall.Completes, KVTransfer.fromHost] at hc
    rw [TransferCall.program, hseq, TransferCall.plain, KVTransfer.fromHost]
    split at hc
    case h_1 => cases hc
    obtain ⟨hstaging, hkv, hret⟩ := seq_fromHostChunks (m := m) hc
    exact ⟨fun buf => by rw [hstaging, hm buf], Prod.ext hkv hret⟩

theorem seq_programOf : ∀ {calls : List TransferCall} {m : t.Mem}, Sized m →
    (∀ c ∈ calls, c.Completes t) →
    (kvOf (seq (t.programOf calls) m), returnedOf (seq (t.programOf calls) m)) =
      TransferCall.plainAll t (kvOf m, returnedOf m) calls
  | [], _, _, _ => rfl
  | c :: calls, m, hm, h => by
    obtain ⟨hm', hc⟩ := TransferCall.seq_program hm (h c List.mem_cons_self)
    have hrest := seq_programOf hm' fun c' hc' => h c' (List.mem_cons_of_mem _ hc')
    rw [programOf, List.flatMap_cons, seq_append, TransferCall.plainAll, List.foldl_cons, ← hc]
    exact hrest

end plain

/-! ## Every schedule -/

section schedules

variable {t} {m : t.Mem}

/-- The device before the first call. -/
abbrev started (m : t.Mem) (calls : List TransferCall) :
    Device PipeStream PipeEvent (PipeCell.Val t) := .start m (t.programOf calls)

theorem issued_of_runs {calls : List TransferCall} {labels : List (Streams.Label PipeStream)}
    {d : Device PipeStream PipeEvent (PipeCell.Val t)} (hrun : Runs (started m calls) labels d) :
    Issued m (t.programOf calls) d :=
  issued_of_run (programOf_safe calls settled_all).1 hrun

theorem programOf_append (calls rest : List TransferCall) :
    t.programOf (calls ++ rest) = t.programOf calls ++ t.programOf rest := List.flatMap_append

/-- When the first calls have returned, the whole of their program has been issued. -/
theorem inv_of_returned {calls rest : List TransferCall}
    {labels : List (Streams.Label PipeStream)}
    {d : Device PipeStream PipeEvent (PipeCell.Val t)}
    (hrun : Runs (started m (calls ++ rest)) labels d) (hraised : d.raised = false)
    (htodo : d.todo = t.programOf rest) : Inv m (t.programOf calls) d := by
  obtain ⟨p, hprog, hinv⟩ := issued_of_runs hrun hraised
  rw [programOf_append, htodo] at hprog
  rwa [List.append_cancel_right hprog]

/-- In every schedule, whenever calls have returned and raised nothing, the KV cache and all that
`to_host` returned are those of the plain calls; and from every state that a schedule reaches
without an exception, all calls can be brought to their end. -/
theorem pipeline_eq_plain (hm : Sized m) (calls rest : List TransferCall)
    (hc : ∀ c ∈ calls, c.Completes t) :
    (∀ labels d, Runs (started m (calls ++ rest)) labels d → d.raised = false →
      d.todo = t.programOf rest →
      (kvOf d.mem, returnedOf d.mem) =
        TransferCall.plainAll t (kvOf m, returnedOf m) calls) ∧
    ∀ labels d, Runs (started m (calls ++ rest)) labels d → d.raised = false →
      ∃ labels' d', Runs d labels' d' ∧ d'.todo = [] ∧ d'.raised = false := by
  refine ⟨fun labels d hrun hraised htodo => ?_, fun labels d hrun hraised => ?_⟩
  · have hinv := inv_of_returned hrun hraised htodo
    have hmem : d.mem = seq (t.programOf calls) m :=
      hinv.mem_eq (programOf_safe calls settled_all).2
    rw [hmem]
    exact seq_programOf hm hc
  · obtain ⟨p, -, hinv⟩ := issued_of_runs hrun hraised
    have htodo : d.todo = d.todo ++ [] := (List.append_nil _).symm
    obtain ⟨labels', d', hrun', -, htodo', -, hraised'⟩ := Inv.exists_run _ hinv htodo hraised
    exact ⟨labels', d', hrun', htodo', hraised'⟩

/-- Two layers, one block a chunk, blocks of one byte. -/
def sample : KVTransfer where
  rank := 0
  numLayers := 2
  numBlocks := 4
  blocksPerChunk := 1
  blockNbytes := 1
  layers_pos := Nat.two_pos

def sampleMem : sample.Mem
  | .kvCaches => ⟨fun _ _ => [0], fun _ _ => rfl⟩
  | .staging _ _ | .cpuBufs _ _ => [0, 0]
  | .chunks | .returned => []

/-- Four chunks, so that a buffer is used twice. -/
def sampleCalls : List TransferCall :=
  [.fromHost [[1, 2], [3, 4], [5, 6], [7, 8]] [3, 1, 0, 2] 0, .toHost [0, 1, 2, 3]]

/-- What four chunks brought in is read back in the order of the blocks. -/
theorem pipeline_eq_plain_sample : ∃ labels d, Runs (started sampleMem sampleCalls) labels d ∧
    returnedOf d.mem = [[[5, 6], [3, 4], [7, 8], [1, 2]]] := by
  have hc : ∀ c ∈ sampleCalls, c.Completes sample := by decide
  have hsized : Sized sampleMem := fun _ => rfl
  obtain ⟨hplain, hend⟩ := pipeline_eq_plain hsized sampleCalls [] hc
  obtain ⟨labels, d, hrun, htodo, hraised⟩ := hend [] _ .refl rfl
  exact ⟨labels, d, hrun, congrArg Prod.snd (hplain labels d hrun hraised htodo)⟩

/-! ## The timing events -/

theorem not_changes_begin (blockIds : List ℕ) (skipBlocks i : ℕ) (blob : Bytes) :
    ∀ j ∈ t.fromHostChunk blockIds skipBlocks i blob,
      ¬Know.Changes j (Sum.inr (.begin .h2d) : Fact PipeCell PipeEvent) :=
  not_changes_fromHostChunk blockIds skipBlocks i blob nofun nofun nofun nofun nofun

/-- From the first chunk on, the kernel stream comes after the begin of the call. -/
theorem begin_behind_kernel {k : Know PipeCell PipeStream PipeEvent} (blockIds : List ℕ)
    (skipBlocks i : ℕ) (blob : Bytes)
    (h : Sum.inr (.begin .h2d) ∈ k.behind (.copyStream .h2d)) :
    Sum.inr (.begin .h2d) ∈
      (k.after (t.fromHostChunk blockIds skipBlocks i blob)).behind (.kernelStream .h2d) := by
  set buf := i % 3 with hbuf
  set sync : List t.PipeInstr := if 3 ≤ i then [.syncEvent (.free .h2d buf)] else [] with hsync
  set scatters : List t.PipeInstr := (List.range t.numLayers).map fun layer =>
    .launch (.kernelStream .h2d) (t.indexCopyOp (t.chunkIds blockIds i (skipOf skipBlocks i))
      (skipOf skipBlocks i) buf layer) with hscatters
  set upload : List t.PipeInstr := [.host (t.fillOp blob buf),
    .wait (.copyStream .h2d) (.free .h2d buf),
    .launch (.copyStream .h2d) (t.copyInOp buf)] with hupload
  have hprog : t.fromHostChunk blockIds skipBlocks i blob = (sync ++ upload) ++
      ([.record (.ready .h2d buf) (.copyStream .h2d),
        .wait (.kernelStream .h2d) (.ready .h2d buf)] ++ (scatters ++
        [.record (.free .h2d buf) (.kernelStream .h2d)])) := by
    rw [hupload, List.append_assoc]
    simp only [fromHostChunk, List.append_assoc]
    rfl
  have hsame : ∀ j ∈ sync ++ upload,
      ¬Know.Changes j (Sum.inr (.begin .h2d) : Fact PipeCell PipeEvent) := by
    intro j hj
    refine not_changes_begin blockIds skipBlocks i blob j ?_
    rw [hprog]
    exact List.mem_append_left _ hj
  set k₁ := k.after (sync ++ upload) with hk₁
  set k₂ := k₁.next (.record (.ready .h2d buf) (.copyStream .h2d) : t.PipeInstr) with hk₂
  set k₃ := k₂.next (.wait (.kernelStream .h2d) (.ready .h2d buf) : t.PipeInstr) with hk₃
  have h₃ : Sum.inr (.begin .h2d) ∈ k₃.behind (.kernelStream .h2d) :=
    Know.behind_wait _ (Know.event_record _ (Know.behind_after hsame h))
  have hafter : k.after (t.fromHostChunk blockIds skipBlocks i blob) =
      (k₃.after scatters).next (.record (.free .h2d buf) (.kernelStream .h2d) : t.PipeInstr) := by
    rw [hprog, Know.after_append, Know.after_append, Know.after_append]
    rfl
  rw [hafter]
  exact Know.behind_record _ (Know.behind_launches _ h₃)

/-- The turns measure nothing, and what the kernel stream knows of the begin is kept. -/
theorem fromHostChunks_timed (blockIds : List ℕ) (skipBlocks : ℕ) : ∀ (chunks : List Bytes)
    {k : Know PipeCell PipeStream PipeEvent} {i : ℕ},
    Sum.inr (.begin .h2d) ∈ k.behind (.kernelStream .h2d) →
      Know.Along Know.Timed k (t.fromHostChunks blockIds skipBlocks i chunks) ∧
        Sum.inr (.begin .h2d) ∈
          (k.after (t.fromHostChunks blockIds skipBlocks i chunks)).behind (.kernelStream .h2d)
  | [], _, _, h => ⟨trivial, h⟩
  | blob :: chunks, k, i, h => by
    have hkept : Sum.inr (.begin .h2d) ∈
        (k.after (t.fromHostChunk blockIds skipBlocks i blob)).behind (.kernelStream .h2d) :=
      Know.behind_after (not_changes_begin blockIds skipBlocks i blob) h
    obtain ⟨htimed, hbegin⟩ := fromHostChunks_timed blockIds skipBlocks chunks (i := i + 1) hkept
    rw [fromHostChunks, Know.after_append]
    exact ⟨Know.along_append.mpr
      ⟨Know.along_of_forall (fromHostChunk_timed blockIds skipBlocks i blob), htimed⟩, hbegin⟩

/-- A `from_host` of at least one chunk waits for both its events before it measures them. -/
theorem fromHost_timed {k : Know PipeCell PipeStream PipeEvent} {chunks : List Bytes}
    (hne : chunks ≠ []) (blockIds : List ℕ) (skipBlocks : ℕ) :
    Know.Along Know.Timed k (t.fromHostProgram chunks blockIds skipBlocks) := by
  obtain ⟨blob, chunks, rfl⟩ := List.exists_cons_of_ne_nil hne
  set k₁ := k.next (.record (.begin .h2d) (.copyStream .h2d) : t.PipeInstr) with hk₁
  have h₁ : Sum.inr (.begin .h2d) ∈ k₁.behind (.copyStream .h2d) := Know.mark_behind_record _ _
  obtain ⟨htimed, h₂⟩ := fromHostChunks_timed (t := t) blockIds skipBlocks chunks (i := 1)
    (begin_behind_kernel (t := t) blockIds skipBlocks 0 blob h₁)
  set k₂ := (k₁.after (t.fromHostChunk blockIds skipBlocks 0 blob)).after
    (t.fromHostChunks blockIds skipBlocks 1 chunks) with hk₂
  set k₃ := k₂.next (.record (.stop .h2d) (.kernelStream .h2d) : t.PipeInstr) with hk₃
  have hbegin : Sum.inr (.begin .h2d) ∈ k₃.behind (.kernelStream .h2d) := Know.behind_record _ h₂
  have hstop : Sum.inr (.stop .h2d) ∈ k₃.behind (.kernelStream .h2d) :=
    Know.mark_behind_record _ _
  have hprog : t.fromHostProgram (blob :: chunks) blockIds skipBlocks =
      .record (.begin .h2d) (.copyStream .h2d) ::
        (t.fromHostChunk blockIds skipBlocks 0 blob ++
          (t.fromHostChunks blockIds skipBlocks 1 chunks ++
          [.record (.stop .h2d) (.kernelStream .h2d), .syncStream (.kernelStream .h2d),
            .elapsed (.begin .h2d) (.stop .h2d)])) := by
    rw [fromHostProgram, fromHostChunks, List.cons_append, List.append_assoc]
  rw [hprog]
  refine ⟨trivial, Know.along_append.mpr
    ⟨Know.along_of_forall (fromHostChunk_timed blockIds skipBlocks 0 blob),
      Know.along_append.mpr ⟨htimed, trivial, trivial, ⟨?_, ?_⟩, trivial⟩⟩⟩
  · exact hbegin.symm
  · exact hstop.symm

/-- After `to_host` has recorded its end, the copy stream may not have come to it yet. -/
theorem toHost_not_safelyTimed {p : List t.PipeInstr}
    {d : Device PipeStream PipeEvent (PipeCell.Val t)} {blockIds : List ℕ} (h : Inv m p d)
    (htodo : d.todo = t.toHostProgram blockIds) (hraised : d.raised = false) :
    ¬d.SafelyTimed := by
  intro hsafe
  obtain ⟨labels, d₁, hrun, -, htodo₁, -, -⟩ := Inv.exists_run _ h htodo hraised
  obtain ⟨d₂, hs₂, htodo₂, hstop⟩ := Device.step_record htodo₁
  exact hstop.not_measurable
    (hsafe _ d₂ _ _ _ (hrun.trans (.cons trivial hs₂ .refl)) htodo₂).2

/-- A `from_host` of no chunks waits for the kernel stream only. -/
theorem fromHost_nil_not_safelyTimed {p : List t.PipeInstr}
    {d : Device PipeStream PipeEvent (PipeCell.Val t)} {blockIds : List ℕ} {skipBlocks : ℕ}
    (h : Inv m p d) (htodo : d.todo = t.fromHostProgram [] blockIds skipBlocks) :
    ¬d.SafelyTimed := by
  intro hsafe
  obtain ⟨labels, d₁, hrun, -, hnil, htodo₁, -⟩ := h.drain _ rfl
  rw [htodo] at htodo₁
  obtain ⟨mem, todo, pending, last, n, raised⟩ := d₁
  dsimp only at hnil htodo₁
  subst hnil htodo₁
  -- the kernel stream runs the mark of the end, the copy stream waits with that of the begin
  set last₁ := Function.update (Function.update last (.begin .h2d) (some n)) (.stop .h2d)
    (some (n + 1)) with hlast₁
  set d₅ : Device PipeStream PipeEvent (PipeCell.Val t) := ⟨mem, [.elapsed (.begin .h2d)
    (.stop .h2d)], [(.copyStream .h2d, .record n)], last₁, n + 2, raised⟩ with hd₅
  have hrun₅ : Runs ⟨mem, t.fromHostProgram [] blockIds skipBlocks, [], last, n, raised⟩
      [.host, .host, .stream (.kernelStream .h2d), .host] d₅ :=
    .cons trivial rfl (.cons trivial rfl (.cons trivial rfl (.cons trivial rfl .refl)))
  have hdue : d₅.Due (.begin .h2d) (.copyStream .h2d) := ⟨n, rfl, List.mem_cons_self⟩
  exact hdue.not_measurable (hsafe _ d₅ _ _ _ (hrun.trans hrun₅) rfl).1

/-- When the calls before it have returned, both events of a call are sure to be done when it
measures them exactly if it is a `from_host` of at least one chunk. -/
theorem elapsed_safe_iff {calls : List TransferCall} {c : TransferCall}
    {labels : List (Streams.Label PipeStream)} {d : Device PipeStream PipeEvent (PipeCell.Val t)}
    (hrun : Runs (started m (calls ++ [c])) labels d) (hraised : d.raised = false)
    (htodo : d.todo = t.programOf [c]) :
    d.SafelyTimed ↔
      ∃ chunks blockIds skipBlocks, chunks ≠ [] ∧ c = .fromHost chunks blockIds skipBlocks := by
  have hinv := inv_of_returned hrun hraised htodo
  rw [programOf, List.flatMap_singleton] at htodo
  refine ⟨fun hsafe => ?_, ?_⟩
  · cases c with
    | toHost blockIds => exact (toHost_not_safelyTimed hinv htodo hraised hsafe).elim
    | fromHost chunks blockIds skipBlocks =>
      refine ⟨chunks, blockIds, skipBlocks, ?_, rfl⟩
      rintro rfl
      exact fromHost_nil_not_safelyTimed hinv htodo hsafe
  · rintro ⟨chunks, blockIds, skipBlocks, hne, rfl⟩
    refine hinv.safelyTimed hraised ?_
    rw [htodo]
    exact fromHost_timed hne blockIds skipBlocks

/-- After a `to_host` has returned, a `from_host` of one chunk. -/
theorem elapsed_safe_iff_sample : ∃ labels d,
    Runs (started sampleMem [.toHost [0], .fromHost [[1, 2]] [1] 0]) labels d ∧
      d.todo = sample.programOf [.fromHost [[1, 2]] [1] 0] ∧ d.SafelyTimed := by
  obtain ⟨labels, d, hrun, -, htodo, -, hraised⟩ :=
    Inv.exists_run (sample.programOf [.toHost [0]])
      (inv_start (m := sampleMem) (programOf_safe [.toHost [0], .fromHost [[1, 2]] [1] 0]
        settled_all).1) rfl rfl
  have hsafe := @elapsed_safe_iff sample sampleMem [.toHost [0]] (.fromHost [[1, 2]] [1] 0) labels
    d hrun hraised htodo
  exact ⟨labels, d, hrun, htodo, hsafe.mpr ⟨_, _, _, List.cons_ne_nil _ _, rfl⟩⟩

/-- The host and the kernel stream go ahead, and the copy stream stops before the last mark. -/
def slowCopyStream : List (Streams.Label PipeStream) :=
  List.replicate 13 .host ++ List.replicate 5 (.stream (.kernelStream .d2h)) ++
    List.replicate 3 (.stream (.copyStream .d2h)) ++ List.replicate 3 .host

/-- The end of a `to_host` of one chunk is measured before the copy stream has come to it. -/
theorem elapsed_before_end : ¬(started sampleMem [.toHost [0]]).SafelyTimed := by
  intro hsafe
  have htodo : (replay Device.step (fun _ _ => true) (started sampleMem [.toHost [0]])
      slowCopyStream).map Device.todo =
      some [.elapsed (.begin .d2h) (.stop .d2h), .host sample.returnOp] := rfl
  obtain ⟨d, hd, htodo⟩ := Option.map_eq_some_iff.mp htodo
  have hstop : (replay Device.step (fun _ _ => true) (started sampleMem [.toHost [0]])
      slowCopyStream).map (fun d => d.measurable (.stop .d2h)) = some false := by decide
  rw [hd, Option.map_some] at hstop
  have hrun : Runs (started sampleMem [.toHost [0]]) slowCopyStream d :=
    (run_of_replay hd).mono fun _ _ _ => trivial
  have hdone := (hsafe _ d _ _ _ hrun htodo).2
  rw [Option.some.inj hstop] at hdone
  cases hdone

end schedules

end KVTransfer

end MiniLlmcache
