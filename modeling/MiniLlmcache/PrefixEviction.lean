import MiniLlmcache.LastUse
import MiniLlmcache.Recency

/-!
# Eviction and the chunks of a prompt

The chunks of a prompt are stored in consecutive batches, and the write-back loop reads a batch
again. Both end with an event that puts the batch at the warm end of the order, reversed, so the
order is the reversed batches by last use (`order_of_run`).

A chunk is of use only as long as all before it are there. `remaining_prefix_iff` : a round leaves
an initial segment of the prompt, for every target, exactly when the batches were used last in the
opposite order, the first batch last. One batch always is; of two, the first is colder unless it
was written back after the second was stored and written back.
-/

namespace MiniLlmcache

namespace LRUPolicy

theorem keys_onCreated (p : LRUPolicy) {keys : List ChunkKey} (hnd : keys.Nodup) :
    (p.onCreated keys).order.keys = moveToEnd p.order.keys keys.reverse := by
  have hfold : ∀ (ks : List ChunkKey) (d : OrderedDict ChunkKey Unit),
      (ks.foldl (fun order key => order.setLast key ()) d).keys =
        ks.foldl (fun order key => moveToEnd order [key]) d.keys := by
    intro ks
    induction ks with
    | nil => simp
    | cons k ks ih =>
      intro d
      rw [List.foldl_cons, ih, OrderedDict.keys_setLast, List.foldl_cons, moveToEnd]
      simp
  rw [onCreated, hfold, foldl_moveToEnd_singleton _ _ (List.nodup_reverse.mpr hnd)]

end LRUPolicy

namespace L1Manager

variable {l1 l1' : L1Manager}

/-! ## Resident entries -/

/-- No entry is temporary. -/
def Resident (l1 : L1Manager) : Prop := ∀ k e, l1.entries.get? k = some e → e.isTemporary = false

theorem Resident.setEntry (h : l1.Resident) {k : ChunkKey} {e : Entry}
    (he : e.isTemporary = false) :
    (l1.setEntry k e).Resident := by
  intro k' e' he'
  rw [L1Manager.setEntry, OrderedDict.get?_set] at he'
  split_ifs at he' with hk
  · rw [← Option.some.inj he']
    exact he
  · exact h k' e' he'

theorem resident_insertMissing : ∀ (ps : List (ChunkKey × MemoryObj)) {l1 : L1Manager},
    l1.Resident → (l1.insertMissing false ps).Resident
  | [], _, h => h
  | (_, _) :: ps, _, h => resident_insertMissing ps (h.setEntry rfl)

theorem resident_reserveWrite (h : l1.Resident) (keys : List ChunkKey) (n : ℕ) :
    (l1.reserveWrite keys n false).2.Resident := by
  unfold reserveWrite
  dsimp only
  split
  · exact h
  · exact resident_insertMissing _ h

theorem resident_finishWriteLoop {all : List ChunkKey} : ∀ (keys : List ChunkKey)
    {l1 l1' : L1Manager}, l1.Resident → finishWrite.loop all l1 keys = .returned l1' () →
    l1'.Resident
  | [], l1, l1', h, hl => by
    simp only [finishWrite.loop, Outcome.returned.injEq, and_true] at hl
    exact hl ▸ h
  | k :: keys, l1, l1', h, hl => by
    rcases he : l1.entries.get? k with _ | e
    · simp [finishWrite.loop, he] at hl
    · simp only [finishWrite.loop, he] at hl
      have hset : (l1.setEntry k { e with writeLocked := false }).Resident := h.setEntry (h k e he)
      exact resident_finishWriteLoop keys hset hl

theorem resident_reserveRead : ∀ (keys : List ChunkKey) {l1 : L1Manager}, l1.Resident →
    (l1.reserveRead keys).2.Resident
  | [], _, h => h
  | k :: keys, l1, h => by
    rw [reserveRead]
    split
    · exact resident_reserveRead keys h
    · rename_i e he
      have hset : (l1.hold k e).Resident := h.setEntry (h k e he)
      split_ifs
      · exact resident_reserveRead keys hset
      · exact resident_reserveRead keys h

/-- Of resident entries none goes, and all are announced. -/
theorem resident_finishReadLoop : ∀ (keys touched : List ChunkKey) {l1 l1' : L1Manager},
    l1.Resident → finishRead.loop l1 keys [] touched = .returned l1' () →
    l1'.Resident ∧ l1'.listeners = if touched ++ keys ≠ [] then
      l1.listeners.notify (touched ++ keys) .onTouched else l1.listeners
  | [], touched, l1, l1', h, hl => by
    simp only [finishRead.loop, Outcome.returned.injEq, and_true, ne_eq, not_true_eq_false,
      if_false] at hl
    subst hl
    rw [List.append_nil]
    by_cases ht : touched = []
    · simp only [ht, not_true_eq_false, ne_eq, if_false]
      exact ⟨h, trivial⟩
    · simp only [ht, not_false_eq_true, ne_eq, if_true]
      exact ⟨h, rfl⟩
  | k :: keys, touched, l1, l1', h, hl => by
    rcases he : l1.entries.get? k with _ | e
    · simp [finishRead.loop, he] at hl
    · have hstays : ¬(e.readCount - 1 = 0 ∧ e.isTemporary = true) := by simp [h k e he]
      have hset : (l1.setEntry k { e with readCount := e.readCount - 1 }).Resident :=
        h.setEntry (h k e he)
      simp only [finishRead.loop, he, if_neg hstays] at hl
      obtain ⟨h', hlisten⟩ := resident_finishReadLoop keys (touched ++ [k]) hset hl
      rw [List.append_assoc] at hlisten
      exact ⟨h', hlisten⟩

end L1Manager

/-! ## Batches of a prompt -/

/-- Operations on one of the batches. -/
inductive BatchOp
  /-- `reserve_write` and `finish_write` of its STORE. -/
  | reserve (i : ℕ)
  | announce (i : ℕ)
  /-- `reserve_read` and `finish_read` of the write-back loop. -/
  | hold (i : ℕ)
  | release (i : ℕ)

namespace BatchOp

def toL1Op (batches : List (List ChunkKey)) (chunkNbytes : ℕ) : BatchOp → L1Op
  | .reserve i => .reserveWrite (groupAt batches i) chunkNbytes false
  | .announce i => .finishWrite (groupAt batches i)
  | .hold i => .reserveRead (groupAt batches i)
  | .release i => .finishRead (groupAt batches i)

/-- The batches that the policy hears of, in order. -/
def uses (ops : List BatchOp) : List ℕ :=
  ops.filterMap fun op => match op with
    | .announce i | .release i => some i
    | .reserve _ | .hold _ => none

end BatchOp

namespace Callers

open L1Manager BatchOp

variable {batches : List (List ChunkKey)} {chunkNbytes : ℕ} {ops : List BatchOp} {m m' : Callers}

/-- `m` after operations on the batches, from an empty manager. -/
def BatchRun (batches : List (List ChunkKey)) (chunkNbytes : ℕ) (ops : List BatchOp)
    (m : Callers) : Prop :=
  ∃ capacity pool l2, Run (fun m op => m.step (op.toL1Op batches chunkNbytes))
    (fun m op => m.Allowed (op.toL1Op batches chunkNbytes)) (new capacity pool l2) ops m

/-- The order after some uses of batches. -/
def orderAfter (batches : List (List ChunkKey)) (uses : List ℕ) : List ChunkKey :=
  uses.foldl (fun order i => moveToEnd order (groupAt batches i).reverse) []

theorem orderAfter_snoc (uses : List ℕ) (i : ℕ) : orderAfter batches (uses ++ [i]) =
    moveToEnd (orderAfter batches uses) (groupAt batches i).reverse :=
  List.foldl_append

omit ops in
/-- One operation on a batch, and what the policy hears of it. -/
theorem Inv.batch_step {op : BatchOp} (h : m.Inv) (hres : m.l1.Resident)
    (hnd : batches.flatten.Nodup) {us : List ℕ} (horder : m.l1.order = orderAfter batches us)
    (hok : m.Allowed (op.toL1Op batches chunkNbytes))
    (hs : m.step (op.toL1Op batches chunkNbytes) = some m') :
    m'.l1.Resident ∧ m'.l1.order = orderAfter batches (us ++ uses [op]) := by
  have hgroup : ∀ i, (groupAt batches i).Nodup := fun i => by
    rcases lt_or_ge i batches.length with hi | hi
    · refine (List.nodup_flatten.mp hnd).1 _ ?_
      simp [groupAt, hi]
    · simp [groupAt, List.getElem?_eq_none hi]
  have hsilent : uses [op] = [] → m.l1.Silent m'.l1 →
      m'.l1.order = orderAfter batches (us ++ uses [op]) := fun hnil hsilent => by
    rw [order, hsilent.listeners, hnil, List.append_nil]
    exact horder
  rcases op with i | i | i | i
  · obtain rfl := Option.some.inj hs
    exact ⟨resident_reserveWrite hres _ _, hsilent rfl (silent_reserveWrite m.l1 _ _ _)⟩
  · obtain ⟨l1', hfinish, -, -, hlisten⟩ := h.finishWrite hok
    have hres' := resident_finishWriteLoop _ hres hfinish
    simp only [toL1Op, Callers.step, hfinish] at hs
    obtain rfl := Option.some.inj hs
    refine ⟨hres', ?_⟩
    change l1'.order = orderAfter batches (us ++ [i])
    rw [orderAfter_snoc, ← horder, order, hlisten]
    exact LRUPolicy.keys_onCreated _ (hgroup i)
  · obtain rfl := Option.some.inj hs
    exact ⟨resident_reserveRead _ hres, hsilent rfl (silent_reserveRead _ m.l1)⟩
  · rcases hfinish : m.l1.finishRead (groupAt batches i) with ⟨l1', _⟩ | _
    · simp only [toL1Op, Callers.step, hfinish] at hs
      obtain rfl := Option.some.inj hs
      obtain ⟨hres', hlisten⟩ := resident_finishReadLoop _ [] hres hfinish
      refine ⟨hres', ?_⟩
      change l1'.order = orderAfter batches (us ++ [i])
      rw [orderAfter_snoc, ← horder, order, hlisten, List.nil_append]
      split_ifs with hi
      · exact LRUPolicy.keys_onCreated _ (hgroup i)
      · rw [ne_eq, not_not] at hi
        simp [hi, moveToEnd, order]
    · simp [toL1Op, Callers.step, hfinish] at hs

/-- The order is the reversed batches, by last use. -/
theorem order_of_run (hnd : batches.flatten.Nodup) (hrun : BatchRun batches chunkNbytes ops m) :
    m.Inv ∧ m.l1.Listens ∧
      m.l1.order = (uses ops).dedup.flatMap fun i => (groupAt batches i).reverse := by
  obtain ⟨capacity, pool, l2, hrun⟩ := hrun
  have hall : m.Inv ∧ m.l1.Listens ∧ m.l1.Resident ∧
      m.l1.order = orderAfter batches (uses ops) := by
    induction hrun with
    | refl =>
      refine ⟨inv_new capacity pool l2, listens_new capacity pool l2, fun k e he => ?_, rfl⟩
      exact absurd he (by simp [new, L1Manager.new])
    | snoc _ hok hs ih =>
      obtain ⟨hinv, hlistens, hres, horder⟩ := ih
      obtain ⟨m₁, hs₁, hinv'⟩ := hinv.step hok
      obtain rfl := Option.some.inj (hs₁.symm.trans hs)
      rw [uses, List.filterMap_append]
      exact ⟨hinv', hinv.listens_step hlistens hok hs, hinv.batch_step hres hnd horder hok hs⟩
  refine ⟨hall.1, hall.2.1, ?_⟩
  rw [hall.2.2.2, orderAfter, foldl_moveToEnd]
  · simp
  · intro i j k hi hj
    exact groupAt_unique hnd (List.mem_reverse.mp hi) (List.mem_reverse.mp hj)

/-- The chunks of the prompt that a round for target `t` leaves. -/
def remaining (m : Callers) (chunks : List ChunkKey) (t : ℕ) : List ChunkKey :=
  chunks.filter fun k => (m.l1.delete (m.l1.victims t) false).2.entries.contains k

/-- When all chunks of a prompt, and nothing else, are resident and unlocked, a round of any target
leaves an initial segment of them exactly when the batches were used last from the last batch to
the first. -/
theorem remaining_prefix_iff (hnd : batches.flatten.Nodup)
    (hrun : BatchRun batches chunkNbytes ops m)
    (hall : ∀ k ∈ batches.flatten, m.l1.isEvictable k = true) :
    (∀ t, m.remaining batches.flatten t <+: batches.flatten) ↔
      ((uses ops).dedup.filter fun i => groupAt batches i ≠ []).Pairwise (· > ·) := by
  obtain ⟨-, hlistens, horder⟩ := order_of_run hnd hrun
  have hmem : ∀ k, k ∈ m.l1.order ↔ k ∈ batches.flatten := by
    intro k
    constructor
    · intro hk
      rw [horder] at hk
      obtain ⟨i, -, hk⟩ := List.mem_flatMap.mp hk
      exact mem_flatten_iff_groupAt.mpr ⟨i, List.mem_reverse.mp hk⟩
    · intro hk
      obtain ⟨e, he, hu⟩ := isEvictable_iff.mp (hall k hk)
      simp only [Entry.unlocked, Bool.and_eq_true, Bool.not_eq_true'] at hu
      exact (hlistens k).mpr ⟨e, he, hu.1⟩
  have hordernd : m.l1.order.Nodup := m.l1.listeners.lru.order.nodup_keys
  have hev : ∀ k ∈ m.l1.order, m.l1.isEvictable k = true := fun k hk => hall k ((hmem k).mp hk)
  have hvictims : ∀ t, m.l1.victims t = m.l1.order.take t := fun t => by
    rw [victims, LRUPolicy.victimsLoop_eq, List.filter_eq_self.mpr hev]
    rfl
  have hremaining : ∀ t, m.remaining batches.flatten t =
      batches.flatten.filter (· ∉ m.l1.order.take t) := fun t => by
    rw [remaining, hvictims]
    refine List.filter_congr fun k hk => ?_
    obtain ⟨e, he, -⟩ := isEvictable_iff.mp (hall k hk)
    obtain ⟨-, hentries, -⟩ := deleteLoop_evictable (m.l1.order.take t) []
      (hordernd.sublist (List.take_sublist _ _)) fun k hk => hev k (List.mem_of_mem_take hk)
    have hget := hentries k
    change (m.l1.delete (m.l1.order.take t) false).2.entries.get? k = _ at hget
    rw [OrderedDict.contains, hget]
    by_cases hk : k ∈ m.l1.order.take t <;> simp [hk, he]
  have hperm : m.l1.order.Perm batches.flatten :=
    (List.perm_ext_iff_of_nodup hordernd hnd).mpr hmem
  simp only [hremaining]
  rw [filter_prefix_iff_eq_reverse hperm hnd, horder]
  refine flatMap_reverse_eq_iff hnd (List.nodup_dedup _) fun i hi => ?_
  obtain ⟨k, hk⟩ := List.exists_mem_of_ne_nil _ hi
  have hk' := (hmem k).mpr (mem_flatten_iff_groupAt.mpr ⟨i, hk⟩)
  rw [horder] at hk'
  obtain ⟨j, hj, hkj⟩ := List.mem_flatMap.mp hk'
  rwa [groupAt_unique hnd hk (List.mem_reverse.mp hkj)]

/-- A batch is stored and written back. -/
def storedAndMirrored (i : ℕ) : List BatchOp := [.reserve i, .announce i, .hold i, .release i]

theorem batchRun_of_replay {capacity : ℕ} (h : replay
    (fun m op => m.step (op.toL1Op batches chunkNbytes))
    (fun m op => decide (m.Allowed (op.toL1Op batches chunkNbytes)))
    (new capacity (fun _ => 0) true) ops = some m) : BatchRun batches chunkNbytes ops m :=
  ⟨capacity, _, true, (run_of_replay h).mono fun _ _ hok => of_decide_eq_true hok⟩

/-- Two batches, of which the first is written back after the second. -/
theorem remaining_prefix_iff_sample : ∃ (batches : List (List ChunkKey)) (ops : List BatchOp)
    (m : Callers), batches = [[⟨[1], "m", 0⟩, ⟨[2], "m", 0⟩], [⟨[3], "m", 0⟩, ⟨[4], "m", 0⟩]] ∧
      uses ops = [0, 1, 1, 0] ∧ BatchRun batches 1 ops m ∧
      ∀ t, m.remaining batches.flatten t <+: batches.flatten := by
  let batches : List (List ChunkKey) :=
    [[⟨[1], "m", 0⟩, ⟨[2], "m", 0⟩], [⟨[3], "m", 0⟩, ⟨[4], "m", 0⟩]]
  let ops : List BatchOp := [.reserve 0, .announce 0, .reserve 1, .announce 1, .hold 1, .release 1,
    .hold 0, .release 0]
  have hrun : (replay (fun m op => m.step (op.toL1Op batches 1))
      (fun m op => decide (m.Allowed (op.toL1Op batches 1)))
      (new 4 (fun _ => 0) true) ops).map (fun m =>
        batches.flatten.all m.l1.isEvictable) = some true := by decide
  obtain ⟨m, hm, hall⟩ := Option.map_eq_some_iff.mp hrun
  have hbatch := batchRun_of_replay hm
  exact ⟨batches, ops, m, rfl, rfl, hbatch, (remaining_prefix_iff (by decide) hbatch
    fun k hk => List.all_eq_true.mp hall k hk).mpr (by decide)⟩

/-- A prompt of four chunks in two batches. The batch of its first two is the colder one, and the
first victim is its second chunk. -/
theorem earlier_chunk_evicted : ∃ (batches : List (List ChunkKey)) (ops : List BatchOp)
    (m : Callers), batches.flatten.Nodup ∧ BatchRun batches 1 ops m ∧
      (∀ k ∈ batches.flatten, m.l1.isEvictable k = true) ∧
      ∃ t, ¬m.remaining batches.flatten t <+: batches.flatten := by
  let batches : List (List ChunkKey) :=
    [[⟨[1], "m", 0⟩, ⟨[2], "m", 0⟩], [⟨[3], "m", 0⟩, ⟨[4], "m", 0⟩]]
  have hrun : (replay (fun m op => m.step (op.toL1Op batches 1))
      (fun m op => decide (m.Allowed (op.toL1Op batches 1)))
      (new 4 (fun _ => 0) true) (storedAndMirrored 0 ++ storedAndMirrored 1)).map (fun m =>
        (batches.flatten.all m.l1.isEvictable, m.remaining batches.flatten 1)) =
      some (true, [⟨[1], "m", 0⟩, ⟨[3], "m", 0⟩, ⟨[4], "m", 0⟩]) := by decide
  obtain ⟨m, hm, heq⟩ := Option.map_eq_some_iff.mp hrun
  rw [Prod.mk.injEq] at heq
  refine ⟨batches, _, m, by decide, batchRun_of_replay hm,
    fun k hk => List.all_eq_true.mp heq.1 k hk, 1, ?_⟩
  rw [heq.2]
  decide

end Callers

end MiniLlmcache
