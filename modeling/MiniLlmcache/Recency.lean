import MiniLlmcache.Callers

/-!
# What the evictor sees

The LRU policy learns of entries only through the events the manager sends. After any operations
of the manager its order lists exactly the entries that are not write-locked (`Listens`). Inside a
loop of `finish_read` or `delete` the policy lags behind : `Owes` says by which keys, and the events
at the end make it up.

`evictor_exact` : so a round without interference deletes the first unlocked entries in recency
order, as many as it wants, and no operations in between make it delete one that is in use.
-/

namespace MiniLlmcache

namespace LRUPolicy

variable {p : LRUPolicy} {keys : List ChunkKey} {k : ChunkKey}

theorem mem_onCreated : k ∈ (p.onCreated keys).order.keys ↔ k ∈ keys ∨ k ∈ p.order.keys := by
  have hfold : ∀ (ks : List ChunkKey) (d : OrderedDict ChunkKey Unit),
      k ∈ (ks.foldl (fun order key => order.setLast key ()) d).keys ↔ k ∈ ks ∨ k ∈ d.keys := by
    intro ks
    induction ks with
    | nil => simp
    | cons k' ks ih =>
      intro d
      rw [List.foldl_cons, ih, OrderedDict.mem_keys_setLast, List.mem_cons]
      tauto
  rw [onCreated, hfold, List.mem_reverse]

theorem mem_onRemoved : k ∈ (p.onRemoved keys).order.keys ↔ k ∈ p.order.keys ∧ k ∉ keys := by
  have hfold : ∀ (ks : List ChunkKey) (d : OrderedDict ChunkKey Unit),
      k ∈ (ks.foldl (fun order key => order.erase key) d).keys ↔ k ∈ d.keys ∧ k ∉ ks := by
    intro ks
    induction ks with
    | nil => simp
    | cons k' ks ih =>
      intro d
      rw [List.foldl_cons, ih, OrderedDict.mem_keys_erase, List.mem_cons]
      tauto
  rw [onRemoved, hfold]

/-- The loop of `get_victims` takes the first eligible keys. -/
theorem victimsLoop_eq (t : ℕ) (eligible : ChunkKey → Bool) : ∀ order victims : List ChunkKey,
    victimsLoop t eligible order victims =
      victims ++ (order.filter eligible).take (t - victims.length)
  | [], victims => by simp [victimsLoop]
  | k :: order, victims => by
    rw [victimsLoop]
    split_ifs with hfull hk
    · simp [Nat.sub_eq_zero_of_le hfull]
    · have hroom : t - victims.length = t - (victims.length + 1) + 1 := by omega
      rw [victimsLoop_eq t eligible order, List.filter_cons_of_pos hk, hroom, List.take_succ_cons]
      simp
    · rw [victimsLoop_eq t eligible order, List.filter_cons_of_neg hk]

end LRUPolicy

namespace L1Manager

variable {l1 l1' l1'' : L1Manager} {H : Multiset ChunkKey} {S : Multiset Slot}

/-- The order of the LRU policy, the coldest key first. -/
def order (l1 : L1Manager) : List ChunkKey := l1.listeners.lru.order.keys

/-- The policy lists exactly the entries that are not write-locked. -/
def Listens (l1 : L1Manager) : Prop := ∀ k, k ∈ l1.order ↔ l1.Readable k

/-! ## Operations without events -/

/-- Nothing happened that the policy should know. -/
structure Silent (l1 l1' : L1Manager) : Prop where
  listeners : l1'.listeners = l1.listeners
  readable : ∀ k, l1'.Readable k ↔ l1.Readable k

theorem Silent.refl (l1 : L1Manager) : l1.Silent l1 := ⟨rfl, fun _ => Iff.rfl⟩

theorem Silent.trans (h : l1.Silent l1') (h' : l1'.Silent l1'') : l1.Silent l1'' :=
  ⟨h'.listeners.trans h.listeners, fun k => (h'.readable k).trans (h.readable k)⟩

theorem Silent.listens (h : l1.Silent l1') (hl : l1.Listens) : l1'.Listens := fun k => by
  rw [order, h.listeners, h.readable]
  exact hl k

/-- An entry changes, and stays as readable as it was. -/
theorem silent_setEntry {k : ChunkKey} {e : Entry} (h : e.writeLocked = false ↔ l1.Readable k) :
    l1.Silent (l1.setEntry k e) := by
  refine ⟨rfl, fun k' => ?_⟩
  rw [readable_setEntry]
  by_cases hk : k = k'
  · simp [← hk, h]
  · simp [hk]

/-- The entry of `k` is rewritten without touching its write lock. -/
theorem silent_of_get? {k : ChunkKey} {e e' : Entry} (he : l1.entries.get? k = some e)
    (hw : e'.writeLocked = e.writeLocked) : l1.Silent (l1.setEntry k e') := by
  refine silent_setEntry ?_
  simp [Readable, he, hw]

theorem silent_insertMissing {t : Bool} : ∀ (ps : List (ChunkKey × MemoryObj)) {l1 : L1Manager},
    (∀ p ∈ ps, ¬l1.Readable p.1) → l1.Silent (l1.insertMissing t ps)
  | [], l1, _ => .refl l1
  | (k, obj) :: ps, l1, h => by
    have hset : l1.Silent (l1.setEntry k ⟨obj, true, 0, t⟩) :=
      silent_setEntry (by simp [h (k, obj) List.mem_cons_self])
    refine hset.trans (silent_insertMissing ps fun p hp => ?_)
    rw [hset.readable]
    exact h p (List.mem_cons_of_mem _ hp)

theorem silent_reserveWrite (l1 : L1Manager) (keys : List ChunkKey) (n : ℕ) (t : Bool) :
    l1.Silent (l1.reserveWrite keys n t).2 := by
  unfold reserveWrite
  dsimp only
  split
  · exact ⟨rfl, fun _ => Iff.rfl⟩
  · rename_i objs a ha
    have hsilent : l1.Silent { l1 with allocator := a } := ⟨rfl, fun _ => Iff.rfl⟩
    refine hsilent.trans (silent_insertMissing _ fun p hp => ?_)
    rintro ⟨e, he, -⟩
    have hmem := (List.mem_filter.mp (List.of_mem_zip hp).1).2
    have he : l1.entries.get? p.1 = some e := he
    simp [OrderedDict.contains, he] at hmem

theorem silent_reserveRead : ∀ (keys : List ChunkKey) (l1 : L1Manager),
    l1.Silent (l1.reserveRead keys).2
  | [], l1 => .refl l1
  | k :: keys, l1 => by
    rw [reserveRead]
    split
    · exact silent_reserveRead keys l1
    · rename_i e he
      have hset : l1.Silent (l1.hold k e) := silent_of_get? he rfl
      split_ifs
      · exact hset.trans (silent_reserveRead keys (l1.hold k e))
      · exact silent_reserveRead keys l1

theorem silent_holdAll : ∀ (keys : List ChunkKey) (l1 : L1Manager), l1.Silent (l1.holdAll keys)
  | [], l1 => .refl l1
  | k :: keys, l1 => by
    rw [holdAll]
    split
    · exact silent_holdAll keys l1
    · rename_i e he
      have hset : l1.Silent (l1.hold k e) := silent_of_get? he rfl
      exact hset.trans (silent_holdAll keys (l1.hold k e))

theorem silent_promote : ∀ (keys : List ChunkKey) (l1 : L1Manager), l1.Silent (l1.promote keys)
  | [], l1 => .refl l1
  | k :: keys, l1 => by
    rw [promote]
    split
    · exact silent_promote keys l1
    · rename_i e he
      have hset : l1.Silent (l1.setEntry k { e with isTemporary := false }) :=
        silent_of_get? he rfl
      exact hset.trans (silent_promote keys _)

/-! ## Operations that announce at their end -/

/-- What the policy is still to hear of : keys touched, and keys gone. -/
structure Owes (l1 : L1Manager) (touched gone : List ChunkKey) : Prop where
  readable : ∀ k, l1.Readable k → k ∈ l1.order
  listed : ∀ k ∈ l1.order, l1.Readable k ∨ k ∈ gone
  touched : ∀ k ∈ touched, l1.Readable k ∨ k ∈ gone
  gone : ∀ k ∈ gone, ¬l1.Readable k

variable {touched gone : List ChunkKey}

theorem Listens.owes (h : l1.Listens) : l1.Owes [] [] where
  readable k hk := (h k).mpr hk
  listed k hk := Or.inl ((h k).mp hk)
  touched _ hk := absurd hk List.not_mem_nil
  gone _ hk := absurd hk List.not_mem_nil

theorem Owes.free (h : l1.Owes touched gone) (k : ChunkKey) (e : Entry) :
    (l1.freeEntry k e).Owes touched (gone ++ [k]) := by
  have hstill : ∀ k', (l1.Readable k' ∨ k' ∈ gone) →
      (l1.freeEntry k e).Readable k' ∨ k' ∈ gone ++ [k] := fun k' hk' => by
    rw [readable_freeEntry]
    by_cases hne : k = k'
    · exact Or.inr (by simp [hne])
    · exact hk'.imp (fun hr => ⟨hne, hr⟩) (List.mem_append_left _)
  refine ⟨fun k' hk' => h.readable k' (readable_freeEntry.mp hk').2,
    fun k' hk' => hstill k' (h.listed k' hk'), fun k' hk' => hstill k' (h.touched k' hk'), ?_⟩
  intro k' hk' hr
  obtain ⟨hne, hr⟩ := readable_freeEntry.mp hr
  rcases List.mem_append.mp hk' with hk' | hk'
  · exact h.gone k' hk' hr
  · exact hne (List.mem_singleton.mp hk').symm

theorem Owes.touch (h : l1.Owes touched gone) {k : ChunkKey} {e e' : Entry}
    (he : l1.entries.get? k = some e) (hw : e.writeLocked = false)
    (hw' : e'.writeLocked = e.writeLocked) :
    (l1.setEntry k e').Owes (touched ++ [k]) gone := by
  have hsilent := silent_of_get? he hw'
  have hr : l1.Readable k := ⟨e, he, hw⟩
  refine ⟨fun k' hk' => h.readable k' ((hsilent.readable k').mp hk'),
    fun k' hk' => (h.listed k' hk').imp (hsilent.readable k').mpr id, fun k' hk' => ?_,
    fun k' hk' hr' => h.gone k' hk' ((hsilent.readable k').mp hr')⟩
  rw [hsilent.readable]
  rcases List.mem_append.mp hk' with hk' | hk'
  · exact h.touched k' hk'
  · exact Or.inl (List.mem_singleton.mp hk' ▸ hr)

/-- The two events of `finish_read`. -/
theorem Owes.finish (h : l1.Owes touched gone) :
    Listens (if gone ≠ [] then
        (if touched ≠ [] then l1.notify .onTouched touched else l1).notify .onRemoved gone
      else (if touched ≠ [] then l1.notify .onTouched touched else l1)) := by
  have htouch : (if touched ≠ [] then l1.notify .onTouched touched else l1).Owes [] gone := by
    split_ifs
    · refine ⟨fun k hk => LRUPolicy.mem_onCreated.mpr (Or.inr (h.readable k hk)), fun k hk => ?_,
        fun k hk => absurd hk List.not_mem_nil, h.gone⟩
      rcases LRUPolicy.mem_onCreated.mp hk with hk | hk
      · exact h.touched k hk
      · exact h.listed k hk
    · exact ⟨h.readable, h.listed, fun k hk => absurd hk List.not_mem_nil, h.gone⟩
  revert htouch
  generalize (if touched ≠ [] then l1.notify .onTouched touched else l1) = l1
  intro h k
  split_ifs with hgone
  · constructor
    · intro hk
      obtain ⟨hk, hnot⟩ := LRUPolicy.mem_onRemoved.mp hk
      exact (h.listed k hk).resolve_right hnot
    · exact fun hk => LRUPolicy.mem_onRemoved.mpr ⟨h.readable k hk, fun hmem => h.gone k hmem hk⟩
  · rw [ne_eq, not_not] at hgone
    subst hgone
    exact ⟨fun hk => (h.listed k hk).resolve_right List.not_mem_nil, h.readable k⟩

theorem listens_finishReadLoop : ∀ (keys gone touched : List ChunkKey) {l1 l1' : L1Manager},
    l1.Inv (↑keys + H) S Any → l1.Owes touched gone →
    finishRead.loop l1 keys gone touched = .returned l1' () → l1'.Listens
  | [], gone, touched, l1, l1', _, h, hl => by
    simp only [finishRead.loop, Outcome.returned.injEq, and_true] at hl
    exact hl ▸ h.finish
  | k :: keys, gone, touched, l1, l1', hinv, h, hl => by
    rw [← Multiset.cons_coe, Multiset.cons_add] at hinv
    obtain ⟨e, he, hw⟩ := hinv.held k (Multiset.mem_cons_self k _)
    simp only [finishRead.loop, he] at hl
    split_ifs at hl with hc
    · exact listens_finishReadLoop keys (gone ++ [k]) touched
        (hinv.dropFree { e with readCount := e.readCount - 1 } he hc.1 rfl) (h.free k _) hl
    · exact listens_finishReadLoop keys gone (touched ++ [k]) (hinv.drop he hc)
        (h.touch he hw rfl) hl

theorem listens_deleteLoop {force : Bool} : ∀ (keys gone : List ChunkKey) {l1 : L1Manager},
    l1.Owes [] gone → (delete.loop force l1 keys gone).2.Listens
  | [], gone, l1, h => h.finish
  | k :: keys, gone, l1, h => by
    rw [delete.loop]
    split
    · exact listens_deleteLoop keys gone h
    · rename_i e he
      split_ifs
      · exact listens_deleteLoop keys gone h
      · exact listens_deleteLoop keys (gone ++ [k]) (h.free k e)

/-! ## A round of the evictor -/

/-- `get_victims` with its target. -/
def victims (l1 : L1Manager) (target : ℕ) : List ChunkKey :=
  LRUPolicy.victimsLoop target l1.isEvictable l1.order []

theorem getVictims_eq (l1 : L1Manager) (ratio : ℕ × ℕ) :
    l1.listeners.lru.getVictims ratio l1.isEvictable =
      l1.victims (max 1 (l1.order.length * ratio.1 / ratio.2)) := rfl

/-- The number of entries that nothing references. -/
def unlockedCount (l1 : L1Manager) : ℕ := (l1.entries.items.filter fun p => p.2.unlocked).length

/-- The size of the slice of `k`. -/
def nbytesOf (l1 : L1Manager) (k : ChunkKey) : ℕ := (l1.entries.get? k).elim 0 fun e => e.obj.nbytes

theorem isEvictable_iff {k : ChunkKey} :
    l1.isEvictable k = true ↔ ∃ e, l1.entries.get? k = some e ∧ e.unlocked = true := by
  unfold isEvictable
  rcases l1.entries.get? k with _ | e <;> simp

/-- The evictable keys of the order are the unlocked entries. -/
theorem Listens.length_evictable (h : l1.Listens) :
    (l1.order.filter l1.isEvictable).length = l1.unlockedCount := by
  rw [unlockedCount, ← List.length_map (f := Prod.fst)]
  refine List.Perm.length_eq ((List.perm_ext_iff_of_nodup ?_ ?_).mpr fun k => ?_)
  · exact l1.listeners.lru.order.nodup_keys.filter _
  · exact l1.entries.nodup.sublist (List.filter_sublist.map _)
  · rw [List.mem_filter, h k, isEvictable_iff, List.mem_map]
    constructor
    · rintro ⟨-, e, he, hu⟩
      exact ⟨(k, e), List.mem_filter.mpr ⟨OrderedDict.get?_eq_some_iff.mp he, hu⟩, rfl⟩
    · rintro ⟨⟨k, e⟩, hmem, rfl⟩
      obtain ⟨hmem, hu⟩ := List.mem_filter.mp hmem
      have he := OrderedDict.get?_eq_some_iff.mpr hmem
      have hw : e.writeLocked = false := by
        simp only [Entry.unlocked, Bool.and_eq_true, Bool.not_eq_true'] at hu
        exact hu.1
      exact ⟨⟨e, he, hw⟩, e, he, hu⟩

theorem Listens.victims_eq (h : l1.Listens) (t : ℕ) :
    l1.victims t = (l1.order.filter l1.isEvictable).take (min t l1.unlockedCount) := by
  rw [victims, LRUPolicy.victimsLoop_eq, ← h.length_evictable, List.nil_append, List.length_nil,
    Nat.sub_zero, ← List.take_take, List.take_length]

/-- `delete` of distinct unlocked keys deletes them all, and nothing else. -/
theorem deleteLoop_evictable : ∀ (keys deleted : List ChunkKey) {l1 : L1Manager}, keys.Nodup →
    (∀ k ∈ keys, l1.isEvictable k = true) →
    (delete.loop false l1 keys deleted).1 = deleted.length + keys.length ∧
    (∀ k, (delete.loop false l1 keys deleted).2.entries.get? k =
      if k ∈ keys then none else l1.entries.get? k) ∧
    (delete.loop false l1 keys deleted).2.allocator.usedBytes =
      l1.allocator.usedBytes - ((keys.map l1.nbytesOf).sum : ℕ)
  | [], deleted, l1, _, _ => by
    rw [delete.loop]
    split_ifs <;> simp
  | k :: keys, deleted, l1, hnd, hev => by
    obtain ⟨hk, hnd⟩ := List.nodup_cons.mp hnd
    obtain ⟨e, he, hu⟩ := isEvictable_iff.mp (hev k List.mem_cons_self)
    have hget : ∀ k', k' ≠ k → (l1.freeEntry k e).entries.get? k' = l1.entries.get? k' :=
      fun k' hne => l1.entries.get?_erase_ne (Ne.symm hne)
    have hne : ∀ k' ∈ keys, k' ≠ k := fun k' hk' heq => hk (heq ▸ hk')
    have hev' : ∀ k' ∈ keys, (l1.freeEntry k e).isEvictable k' = true := fun k' hk' => by
      rw [isEvictable, hget k' (hne k' hk')]
      exact hev k' (List.mem_cons_of_mem k hk')
    obtain ⟨hcount, hentries, hused⟩ := deleteLoop_evictable keys (deleted ++ [k]) hnd hev'
    have hsizes : keys.map (l1.freeEntry k e).nbytesOf = keys.map l1.nbytesOf :=
      List.map_congr_left fun k' hk' => by rw [nbytesOf, hget k' (hne k' hk'), nbytesOf]
    have hfree : (l1.freeEntry k e).allocator.usedBytes =
        l1.allocator.usedBytes - l1.nbytesOf k := by
      rw [nbytesOf, he]
      rfl
    simp only [delete.loop, he, hu, Bool.not_true, Bool.false_and, Bool.false_eq_true, if_false]
    refine ⟨?_, fun k' => ?_, ?_⟩
    · rw [hcount, List.length_append, List.length_singleton, List.length_cons]
      omega
    · rw [hentries]
      by_cases heq : k' = k
      · simp [heq, freeEntry]
      · simp [heq, hget k' heq]
    · rw [hused, hsizes, hfree, List.map_cons, List.sum_cons]
      omega

/-- `delete` skips what is in use. -/
theorem deleteLoop_keeps {k : ChunkKey} {e : Entry} (hu : e.unlocked = false) :
    ∀ (keys deleted : List ChunkKey) {l1 : L1Manager}, l1.entries.get? k = some e →
    (delete.loop false l1 keys deleted).2.entries.get? k = some e
  | [], deleted, l1, he => by
    rw [delete.loop]
    split_ifs
    · exact he
    · exact he
  | k' :: keys, deleted, l1, he => by
    rw [delete.loop]
    split
    · exact deleteLoop_keeps hu keys deleted he
    · rename_i e' he'
      split_ifs with hskip
      · exact deleteLoop_keeps hu keys deleted he
      · have hne : k' ≠ k := fun heq => by
          obtain rfl := Option.some.inj ((heq ▸ he').symm.trans he)
          simp [hu] at hskip
        exact deleteLoop_keeps hu keys _ ((l1.entries.get?_erase_ne hne).trans he)

end L1Manager

namespace Callers

open L1Manager

variable {m m' : Callers}

/-- An allowed operation keeps the policy's order right. -/
theorem Inv.listens_step {op : L1Op} (h : m.Inv) (hl : m.l1.Listens) (hok : m.Allowed op)
    (hs : m.step op = some m') : m'.l1.Listens := by
  rcases op with ⟨keys, n, t⟩ | keys | keys | keys | keys | keys | keys | keys | keys
  · obtain rfl := Option.some.inj hs
    exact (silent_reserveWrite m.l1 keys n t).listens hl
  · obtain ⟨l1', hfinish, -, hread, hlisten⟩ := h.finishWrite hok
    simp only [Callers.step, hfinish] at hs
    obtain rfl := Option.some.inj hs
    intro k
    rw [order, hlisten, hread, ← hl k]
    exact LRUPolicy.mem_onCreated
  · obtain ⟨l1', hfinish, -, hread, hlisten⟩ := h.finishWriteAndReserveRead hok
    simp only [Callers.step, hfinish] at hs
    obtain rfl := Option.some.inj hs
    intro k
    rw [order, hlisten, hread, ← hl k]
    exact LRUPolicy.mem_onCreated
  · obtain rfl := Option.some.inj hs
    exact (silent_reserveRead keys m.l1).listens hl
  · obtain rfl := Option.some.inj hs
    exact (silent_holdAll _ m.l1).listens hl
  · have hsplit : m.holds = ↑keys + (m.holds - ↑keys) := (add_tsub_cancel_of_le hok).symm
    rw [Inv, hsplit] at h
    rcases hfinish : m.l1.finishRead keys with ⟨l1', _⟩ | _
    · simp only [Callers.step, hfinish] at hs
      obtain rfl := Option.some.inj hs
      exact listens_finishReadLoop keys [] [] h hl.owes hfinish
    · simp [Callers.step, hfinish] at hs
  · obtain rfl := Option.some.inj hs
    exact (silent_promote keys m.l1).listens hl
  · obtain rfl := Option.some.inj hs
    exact listens_deleteLoop keys [] hl.owes
  · obtain rfl := Option.some.inj hs
    exact listens_deleteLoop keys [] hl.owes

theorem listens_new (capacity : ℕ) (pool : ℕ → UInt8) (l2 : Bool) :
    (new capacity pool l2).l1.Listens := by
  simp [Listens, order, new, L1Manager.new, LRUPolicy.new, Readable]

theorem Reachable.listens (h : m.Reachable) : m.l1.Listens := by
  obtain ⟨capacity, pool, l2, ops, hrun⟩ := h
  refine (hrun.invariant (fun m => m.Inv ∧ m.l1.Listens)
    ⟨inv_new capacity pool l2, listens_new capacity pool l2⟩ fun m op m' hi hok hs => ?_).2
  obtain ⟨m₁, hs₁, hi₁⟩ := hi.1.step hok
  obtain rfl := Option.some.inj (hs₁.symm.trans hs)
  exact ⟨hi₁, hi.1.listens_step hi.2 hok hs⟩

/-- The order lists the entries that are not write-locked, each once. A round for target `t`
deletes the first unlocked ones of it, `t` of them or all there are, and frees their bytes; after
any operations in between its `delete` leaves alone what is write-locked or held. -/
theorem evictor_exact (h : m.Reachable) :
    m.l1.order.Nodup ∧
    (∀ k, k ∈ m.l1.order ↔ ∃ e, m.l1.entries.get? k = some e ∧ e.writeLocked = false) ∧
    (∀ t, m.l1.victims t = (m.l1.order.filter m.l1.isEvictable).take (min t m.l1.unlockedCount) ∧
      (m.l1.delete (m.l1.victims t) false).1 = min t m.l1.unlockedCount ∧
      (∀ k, (m.l1.delete (m.l1.victims t) false).2.entries.get? k =
        if k ∈ m.l1.victims t then none else m.l1.entries.get? k) ∧
      (m.l1.delete (m.l1.victims t) false).2.allocator.usedBytes =
        m.l1.allocator.usedBytes - (((m.l1.victims t).map m.l1.nbytesOf).sum : ℕ)) ∧
    ∀ t ops m', Run Callers.step Allowed m ops m' →
      ∀ k e, m'.l1.entries.get? k = some e → e.writeLocked = true ∨ e.readCount ≠ 0 →
        (m'.l1.delete (m.l1.victims t) false).2.entries.get? k = some e := by
  have hl := h.listens
  have hnd := m.l1.listeners.lru.order.nodup_keys
  refine ⟨hnd, hl, fun t => ?_, fun t ops m' _ k e he huse => ?_⟩
  · have hv := hl.victims_eq t
    have hsub : (m.l1.victims t).Sublist (m.l1.order.filter m.l1.isEvictable) :=
      hv ▸ List.take_sublist _ _
    obtain ⟨hcount, hentries, hused⟩ := deleteLoop_evictable (m.l1.victims t) []
      ((hnd.filter _).sublist hsub) fun k hk => (List.mem_filter.mp (hsub.subset hk)).2
    refine ⟨hv, hcount.trans ?_, hentries, hused⟩
    rw [hv, List.length_take, hl.length_evictable, List.length_nil]
    omega
  · refine deleteLoop_keeps ?_ _ [] he
    rcases huse with hw | hr
    · simp [Entry.unlocked, hw]
    · simp [Entry.unlocked, hr]

theorem evictor_exact_sample : ∃ m : Callers, m.Reachable ∧
    m.l1.victims 2 = [⟨[3], "m", 0⟩] ∧
    (m.l1.delete (m.l1.victims 2) false).1 = min 2 m.l1.unlockedCount := by
  have hrun : (replay Callers.step (fun m op => decide (m.Allowed op)) (new 9 (fun _ => 0) true)
      (sampleOps ⟨[1], "m", 0⟩ ⟨[2], "m", 0⟩ ++
        [.reserveWrite [⟨[3], "m", 0⟩] 2 false, .finishWrite [⟨[3], "m", 0⟩]])).map
        (fun m => m.l1.victims 2) = some [⟨[3], "m", 0⟩] := by decide
  obtain ⟨m, hm, hvictims⟩ := Option.map_eq_some_iff.mp hrun
  have hreach : m.Reachable :=
    ⟨9, _, true, _, (run_of_replay hm).mono fun _ _ hok => of_decide_eq_true hok⟩
  exact ⟨m, hreach, hvictims, ((evictor_exact hreach).2.2.1 2).2.1⟩

end Callers

end MiniLlmcache
