import Mathlib.Data.Multiset.Filter
import MiniLlmcache.Runs
import MiniLlmcache.Sections

/-!
# The manager and its callers

Any sequence of operations of one `L1Manager`, from an empty one. `holds` and `slots` are what all
its callers own together : the read holds they took and did not drop, and the write-locked entries
they reserved and did not finish. `Allowed` is what a caller keeps to, it finishes its own slots
and drops its own holds. What slots hold does not matter here, and none counts as ready.

`Inv.step` is the step lemma. The finishing loops meet a key again when it is listed twice, and
then find it readable, or gone; so their lemmas go along the keys, not along the slots.
-/

namespace MiniLlmcache

/-- The operations of `L1Manager` that change it. -/
inductive L1Op
  | reserveWrite (keys : List ChunkKey) (chunkNbytes : ℕ) (isTemporary : Bool)
  | finishWrite (keys : List ChunkKey)
  | finishWriteAndReserveRead (keys : List ChunkKey)
  | reserveRead (keys : List ChunkKey)
  | reserveReadPrefix (keys : List ChunkKey)
  | finishRead (keys : List ChunkKey)
  | promote (keys : List ChunkKey)
  /-- `delete`, without and with `force`. -/
  | delete (keys : List ChunkKey)
  | forceDelete (keys : List ChunkKey)
deriving DecidableEq

/-- A manager with the holds and slots of its callers. -/
structure Callers where
  l1 : L1Manager
  holds : Multiset ChunkKey
  slots : Multiset Slot

namespace Callers

def new (capacity : ℕ) (pool : ℕ → UInt8) (l2 : Bool) : Callers := ⟨.new capacity pool l2, 0, 0⟩

/-- The slots of other keys. -/
def slotsBut (m : Callers) (keys : List ChunkKey) : Multiset Slot :=
  m.slots.filter fun x => x.key ∉ keys

/-- The slots a `reserve_write` handed out. -/
def reservedSlots (reserved : OrderedDict ChunkKey (Option MemoryObj)) (keys : List ChunkKey)
    (isTemporary : Bool) : List Slot :=
  keys.filterMap fun key =>
    (L1Manager.reservedObj reserved key).map fun obj => ⟨key, obj, isTemporary, false⟩

/-- One operation, with nothing when it raises. -/
def step (m : Callers) : L1Op → Option Callers
  | .reserveWrite keys chunkNbytes isTemporary =>
    let (reserved, l1) := m.l1.reserveWrite keys chunkNbytes isTemporary
    some { m with l1, slots := ↑(reservedSlots reserved keys isTemporary) + m.slots }
  | .finishWrite keys =>
    match m.l1.finishWrite keys with
    | .returned l1 _ => some { m with l1, slots := m.slotsBut keys }
    | .raised _ _ => none
  | .finishWriteAndReserveRead keys =>
    match m.l1.finishWriteAndReserveRead keys with
    | .returned l1 _ => some ⟨l1, ↑keys + m.holds, m.slotsBut keys⟩
    | .raised _ _ => none
  | .reserveRead keys =>
    let (result, l1) := m.l1.reserveRead keys
    some { m with l1, holds := ↑((L1Manager.lockedKeys result).map Prod.fst) + m.holds }
  | .reserveReadPrefix keys =>
    let (hit, l1) := m.l1.reserveReadPrefix keys
    some { m with l1, holds := ↑(keys.take hit) + m.holds }
  | .finishRead keys =>
    match m.l1.finishRead keys with
    | .returned l1 _ => some { m with l1, holds := m.holds - ↑keys }
    | .raised _ _ => none
  | .promote keys =>
    -- a slot that is promoted is to be finished like a resident one
    some { m with
      l1 := m.l1.promote keys
      slots := m.slots.map fun x => if x.key ∈ keys then { x with isTemporary := false } else x }
  | .delete keys => some { m with l1 := (m.l1.delete keys false).2 }
  | .forceDelete keys =>
    some { m with l1 := (m.l1.delete keys true).2, slots := m.slotsBut keys }

/-- The keys of the slots, and of those that are not temporary. -/
def slotKeys (m : Callers) : Multiset ChunkKey := m.slots.map Slot.key

def residentKeys (m : Callers) : Multiset ChunkKey :=
  (m.slots.filter fun x => x.isTemporary = false).map Slot.key

/-- What a caller keeps to. -/
def Allowed (m : Callers) : L1Op → Prop
  | .reserveWrite keys _ _ => keys.Nodup
  | .finishWrite keys => ∀ k ∈ keys, k ∈ m.residentKeys
  | .finishWriteAndReserveRead keys | .forceDelete keys => ∀ k ∈ keys, k ∈ m.slotKeys
  | .finishRead keys => (↑keys : Multiset ChunkKey) ≤ m.holds
  | _ => True

instance (m : Callers) (op : L1Op) : Decidable (m.Allowed op) := by
  cases op <;> unfold Allowed <;> infer_instance

end Callers

namespace L1Manager

variable {l1 : L1Manager} {H : Multiset ChunkKey} {S : Multiset Slot}

/-! ## Slots, key by key -/

/-- Any bytes may be read. -/
def Any (_ : ChunkKey) (_ : Bytes) : Prop := True

/-- One slot, taken out. -/
theorem slots_eq_cons (hnd : (S.map Slot.key).Nodup) {x : Slot} (hx : x ∈ S) :
    S = x ::ₘ S.filter fun y => y.key ≠ x.key := by
  obtain ⟨rest, rfl⟩ := Multiset.exists_cons_of_mem hx
  obtain ⟨hne, -⟩ := nodup_slots_cons hnd
  rw [Multiset.filter_cons_of_neg _ (by simp), Multiset.filter_eq_self.mpr hne]

theorem filter_slots_cons (S : Multiset Slot) (k : ChunkKey) (keys : List ChunkKey) :
    (S.filter fun x => x.key ≠ k).filter (fun x => x.key ∉ keys) =
      S.filter fun x => x.key ∉ k :: keys := by
  rw [Multiset.filter_filter]
  refine Multiset.filter_congr fun x _ => ?_
  rw [List.mem_cons, not_or, and_comm]

/-- Slots may change their marks, as long as those of temporary entries stay temporary. -/
theorem Inv.remark {f : Slot → Slot} (h : l1.Inv H S Any) (hkey : ∀ x, (f x).key = x.key)
    (hobj : ∀ x, (f x).obj = x.obj)
    (htmp : ∀ x ∈ S, ∀ e, l1.entries.get? x.key = some e → e.isTemporary = true →
      (f x).isTemporary = true) : l1.Inv H (S.map f) Any := by
  refine ⟨⟨h.count, h.held, ?_, ?_, ?_, h.data⟩, h.alloc⟩
  · intro y hy
    obtain ⟨x, hx, rfl⟩ := Multiset.mem_map.mp hy
    obtain ⟨-, e, he, hw, ho, -⟩ := h.slot x hx
    rw [hkey, hobj]
    exact ⟨fun _ => trivial, e, he, hw, ho, htmp x hx e he⟩
  · rw [Multiset.map_map, show Slot.key ∘ f = Slot.key from funext hkey]
    exact h.nodup
  · intro k e he ht
    rcases h.temporary k e he ht with hl | ⟨x, hx, rfl, hxt⟩
    · exact Or.inl hl
    · exact Or.inr ⟨f x, Multiset.mem_map_of_mem f hx, hkey x, htmp x hx e he ht⟩

theorem get?_promote : ∀ (keys : List ChunkKey) (l1 : L1Manager) (k : ChunkKey),
    (l1.promote keys).entries.get? k = if k ∈ keys then
      (l1.entries.get? k).map fun e => { e with isTemporary := false } else l1.entries.get? k
  | [], l1, k => by simp [promote]
  | k' :: keys, l1, k => by
    rcases he : l1.entries.get? k' with _ | e
    · rw [promote, he, get?_promote keys l1 k]
      by_cases hk : k = k'
      · simp [hk, he]
      · simp [hk]
    · simp only [promote, he, get?_promote keys, setEntry, OrderedDict.get?_set]
      by_cases hk : k = k'
      · simp [hk, he]
      · simp [hk, Ne.symm hk]

/-- Rewriting an entry as it is. -/
theorem Inv.setEntry_self {k : ChunkKey} {e : Entry} (h : l1.Inv H S Any)
    (he : l1.entries.get? k = some e) : (l1.setEntry k e).Inv H S Any := by
  refine ⟨h.setEntry k e (fun _ _ => rfl) (fun _ _ => Iff.rfl) h.nodup (h.count k e he) ?_ ?_
    (h.temporary k e he) fun _ => trivial, h.alloc.perm (objs_setEntry_perm he rfl)⟩
  · intro hk
    obtain ⟨e', he', hr⟩ := h.held k hk
    obtain rfl := Option.some.inj (he'.symm.trans he)
    exact hr
  · rintro x hx rfl
    obtain ⟨-, e', he', hw, hobj, htmp⟩ := h.slot x hx
    obtain rfl := Option.some.inj (he'.symm.trans he)
    exact ⟨fun _ => trivial, hw, hobj, htmp⟩

/-- The key is readable. -/
def Readable (l1 : L1Manager) (k : ChunkKey) : Prop :=
  ∃ e, l1.entries.get? k = some e ∧ e.writeLocked = false

theorem readable_setEntry {k k' : ChunkKey} {e : Entry} :
    (l1.setEntry k e).Readable k' ↔
      (k = k' ∧ e.writeLocked = false) ∨ (k ≠ k' ∧ l1.Readable k') := by
  unfold Readable
  rw [setEntry, OrderedDict.get?_set]
  by_cases h : k = k' <;> simp [h]

theorem readable_freeEntry {k k' : ChunkKey} {e : Entry} :
    (l1.freeEntry k e).Readable k' ↔ k ≠ k' ∧ l1.Readable k' := by
  unfold Readable
  rw [freeEntry, OrderedDict.get?_erase]
  by_cases h : k = k' <;> simp [h]

/-- A key of a finishing loop : a slot of the caller's, or finished by an earlier turn. -/
def Unfinished (l1 : L1Manager) (S : Multiset Slot) (k : ChunkKey) : Prop :=
  (∃ x ∈ S, x.key = k) ∨ l1.Readable k

/-- What a turn at key `k` leaves to the others. -/
theorem unfinished_of_ne {l1' : L1Manager} {k k' : ChunkKey} (h : l1.Unfinished S k') (hne : k ≠ k')
    (hr : l1.Readable k' → l1'.Readable k') :
    l1'.Unfinished (S.filter fun x => x.key ≠ k) k' := by
  rcases h with ⟨x, hx, rfl⟩ | h
  · exact Or.inl ⟨x, Multiset.mem_filter.mpr ⟨hx, Ne.symm hne⟩, rfl⟩
  · exact Or.inr (hr h)

theorem filter_slots_of_readable (h : l1.Inv H S Any) {k : ChunkKey} (hr : l1.Readable k) :
    (S.filter fun x => x.key ≠ k) = S := by
  obtain ⟨e, he, hw⟩ := hr
  exact Multiset.filter_eq_self.mpr fun x hx => h.slot_key_ne he hw hx

/-! ## The finishing loops -/

section turn

variable {k : ChunkKey} {keys : List ChunkKey} {e : Entry}

/-- A turn makes its key readable. -/
theorem readable_of_turn (he : e.writeLocked = false) (k' : ChunkKey) :
    (l1.setEntry k e).Readable k' ↔ k' = k ∨ l1.Readable k' := by
  rw [readable_setEntry]
  by_cases hk : k = k' <;> simp [hk, he, eq_comm]

/-- The keys after a turn at `k`, which may be `k` again. -/
theorem unfinished_of_turn (h : ∀ k' ∈ k :: keys, l1.Unfinished S k')
    (he : e.writeLocked = false) :
    ∀ k' ∈ keys, (l1.setEntry k e).Unfinished (S.filter fun x => x.key ≠ k) k' := by
  intro k' hk'
  by_cases hne : k = k'
  · exact Or.inr ((readable_of_turn he k').mpr (Or.inl hne.symm))
  · exact unfinished_of_ne (h k' (List.mem_cons_of_mem k hk')) hne
      fun hr => (readable_of_turn he k').mpr (Or.inr hr)

/-- A turn and the rest of the loop. -/
theorem readable_of_turns {l1' : L1Manager} (he : e.writeLocked = false)
    (h : ∀ k', l1'.Readable k' ↔ k' ∈ keys ∨ (l1.setEntry k e).Readable k') (k' : ChunkKey) :
    l1'.Readable k' ↔ k' ∈ k :: keys ∨ l1.Readable k' := by
  rw [h, readable_of_turn he, List.mem_cons]
  tauto

end turn

theorem finishWriteLoop_spec {all : List ChunkKey} : ∀ (keys : List ChunkKey) {l1 : L1Manager}
    {S : Multiset Slot}, l1.Inv H S Any → (∀ k ∈ keys, l1.Unfinished S k) →
    (∀ x ∈ S, x.key ∈ keys → x.isTemporary = false) →
    ∃ l1', finishWrite.loop all l1 keys = .returned l1' () ∧
      l1'.Inv H (S.filter fun x => x.key ∉ keys) Any ∧
      (∀ k, l1'.Readable k ↔ k ∈ keys ∨ l1.Readable k) ∧
      l1'.listeners = (l1.listeners.notify all .onCreated).notify all .onWriteFinished
  | [], l1, S, h, _, _ => by
    refine ⟨_, rfl, ?_, fun k => by simp [Readable], rfl⟩
    simpa using (h.notify .onCreated all).notify .onWriteFinished all
  | k :: keys, l1, S, h, hkeys, htmp => by
    -- a slot is unlocked, and a key finished before stays as it is
    obtain ⟨e, he, h'⟩ : ∃ e, l1.entries.get? k = some e ∧
        (l1.setEntry k { e with writeLocked := false }).Inv H
          (S.filter fun x => x.key ≠ k) Any := by
      rcases hkeys k List.mem_cons_self with ⟨x, hx, rfl⟩ | ⟨e, he, hw⟩
      · have hx' := slots_eq_cons h.nodup hx
        obtain ⟨e, he, -, -⟩ := h.entry_of_slot hx
        rw [hx'] at h
        exact ⟨e, he, h.unlock he (htmp x hx List.mem_cons_self) trivial⟩
      · rw [filter_slots_of_readable h ⟨e, he, hw⟩]
        refine ⟨e, he, ?_⟩
        rw [← hw]
        exact h.setEntry_self he
    obtain ⟨l1', hl, hinv, hr, hlisten⟩ := finishWriteLoop_spec keys h'
      (unfinished_of_turn hkeys rfl)
      fun x hx hk => htmp x (Multiset.mem_filter.mp hx).1 (List.mem_cons_of_mem k hk)
    refine ⟨l1', ?_, ?_, readable_of_turns rfl hr, hlisten⟩
    · rw [finishWrite.loop, he]
      exact hl
    · rwa [filter_slots_cons] at hinv

theorem finishWriteAndReserveReadLoop_spec {all : List ChunkKey} : ∀ (keys : List ChunkKey)
    {l1 : L1Manager} {H : Multiset ChunkKey} {S : Multiset Slot}, l1.Inv H S Any →
    (∀ k ∈ keys, l1.Unfinished S k) →
    ∃ l1', finishWriteAndReserveRead.loop all l1 keys = .returned l1' () ∧
      l1'.Inv (↑keys + H) (S.filter fun x => x.key ∉ keys) Any ∧
      (∀ k, l1'.Readable k ↔ k ∈ keys ∨ l1.Readable k) ∧
      l1'.listeners = l1.listeners.notify all .onCreated
  | [], l1, H, S, h, _ => by
    refine ⟨_, rfl, ?_, fun k => by simp [Readable], rfl⟩
    simpa using h.notify .onCreated all
  | k :: keys, l1, H, S, h, hkeys => by
    obtain ⟨e, he, h'⟩ : ∃ e, l1.entries.get? k = some e ∧
        (l1.setEntry k { e with writeLocked := false, readCount := e.readCount + 1 }).Inv
          (k ::ₘ H) (S.filter fun x => x.key ≠ k) Any := by
      rcases hkeys k List.mem_cons_self with ⟨x, hx, rfl⟩ | ⟨e, he, hw⟩
      · have hx' := slots_eq_cons h.nodup hx
        obtain ⟨e, he, -, -⟩ := h.entry_of_slot hx
        rw [hx'] at h
        exact ⟨e, he, h.unlockHold he trivial⟩
      · rw [filter_slots_of_readable h ⟨e, he, hw⟩]
        refine ⟨e, he, ?_⟩
        rw [← hw]
        exact h.hold he hw
    obtain ⟨l1', hl, hinv, hr, hlisten⟩ := finishWriteAndReserveReadLoop_spec keys h'
      (unfinished_of_turn hkeys rfl)
    refine ⟨l1', ?_, ?_, readable_of_turns rfl hr, hlisten⟩
    · rw [finishWriteAndReserveRead.loop, he]
      exact hl
    · rw [filter_slots_cons] at hinv
      rwa [← Multiset.cons_coe, Multiset.cons_add, ← Multiset.add_cons]

theorem inv_forceDeleteLoop : ∀ (keys deleted : List ChunkKey) {l1 : L1Manager}
    {S : Multiset Slot}, l1.Inv H S Any →
    (∀ k ∈ keys, (∃ x ∈ S, x.key = k) ∨ l1.entries.get? k = none) →
    (delete.loop true l1 keys deleted).2.Inv H (S.filter fun x => x.key ∉ keys) Any
  | [], deleted, l1, S, h, _ => by
    have hS : (S.filter fun x => x.key ∉ ([] : List ChunkKey)) = S := by simp
    rw [hS, delete.loop]
    split_ifs
    · exact h.notify _ _
    · exact h
  | k :: keys, deleted, l1, S, h, hkeys => by
    rw [← filter_slots_cons]
    rcases he : l1.entries.get? k with _ | e
    · simp only [delete.loop, he]
      have hS : (S.filter fun x => x.key ≠ k) = S := Multiset.filter_eq_self.mpr fun x hx hk => by
        obtain ⟨e, he', -⟩ := h.entry_of_slot hx
        simp [hk, he] at he'
      rw [hS]
      exact inv_forceDeleteLoop keys deleted h fun k' hk' => hkeys k' (List.mem_cons_of_mem k hk')
    · simp only [delete.loop, he, Bool.not_true, Bool.and_false, Bool.false_eq_true, if_false]
      obtain ⟨x, hx, rfl⟩ := (hkeys k List.mem_cons_self).resolve_right (by simp [he])
      rw [slots_eq_cons h.nodup hx] at h
      refine inv_forceDeleteLoop keys _ (h.deleteSlot he) fun k' hk' => ?_
      rw [freeEntry, OrderedDict.get?_erase]
      by_cases hne : x.key = k'
      · exact Or.inr (if_pos hne)
      · rcases hkeys k' (List.mem_cons_of_mem _ hk') with ⟨y, hy, rfl⟩ | hnone
        · exact Or.inl ⟨y, Multiset.mem_filter.mpr ⟨hy, Ne.symm hne⟩, rfl⟩
        · exact Or.inr (by rw [if_neg hne, hnone])

end L1Manager

namespace Callers

open L1Manager

variable {m m' : Callers}

/-- The callers own what the manager's counters and locks say. -/
def Inv (m : Callers) : Prop := m.l1.Inv m.holds m.slots Any

theorem inv_new (capacity : ℕ) (pool : ℕ → UInt8) (l2 : Bool) : (new capacity pool l2).Inv := by
  refine ⟨⟨?_, by simp [new], by simp [new], by simp [new], ?_, ?_⟩, ?_⟩
  · exact fun k e he => absurd he (by simp [new, L1Manager.new])
  · exact fun k e he => absurd he (by simp [new, L1Manager.new])
  · exact fun k e he => absurd he (by simp [new, L1Manager.new])
  · exact PoolAllocator.inv_new capacity pool

/-- The slots a `reserve_write` hands out, as the ledger has them. -/
theorem reservedSlots_eq {reserved : OrderedDict ChunkKey (Option MemoryObj)}
    {keys : List ChunkKey} {ps : List (ChunkKey × MemoryObj)} (t : Bool) (hnd : keys.Nodup)
    (hres : ∀ k obj, reservedObj reserved k = some obj ↔ (k, obj) ∈ ps)
    (hsub : (ps.map Prod.fst).Sublist keys) :
    (↑(reservedSlots reserved keys t) : Multiset Slot) = ↑(freshSlots t ps) := by
  have hmap : ∀ ks : List ChunkKey, ((reservedSlots reserved ks t).map Slot.key).Sublist ks := by
    intro ks
    induction ks with
    | nil => exact .slnil
    | cons k ks ih =>
      rcases hk : reservedObj reserved k with _ | obj
      · simp only [reservedSlots, List.filterMap_cons, hk, Option.map_none] at ih ⊢
        exact ih.cons k
      · simp only [reservedSlots, List.filterMap_cons, hk, Option.map_some, List.map_cons] at ih ⊢
        exact ih.cons_cons k
  refine (Multiset.Nodup.ext ?_ ?_).mpr fun x => ?_
  · exact Multiset.coe_nodup.mpr (List.Nodup.of_map _ (hnd.sublist (hmap keys)))
  · refine Multiset.coe_nodup.mpr (List.Nodup.of_map Slot.key ?_)
    rw [freshSlots, List.map_map]
    exact hnd.sublist hsub
  · simp only [reservedSlots, freshSlots, Multiset.mem_coe, List.mem_filterMap,
      Option.map_eq_some_iff, List.mem_map, hres]
    constructor
    · rintro ⟨k, -, obj, hp, rfl⟩
      exact ⟨(k, obj), hp, rfl⟩
    · rintro ⟨⟨k, obj⟩, hp, rfl⟩
      exact ⟨k, hsub.subset (List.mem_map.mpr ⟨_, hp, rfl⟩), obj, hp, rfl⟩

theorem mem_slotKeys {k : ChunkKey} : k ∈ m.slotKeys ↔ ∃ x ∈ m.slots, x.key = k :=
  Multiset.mem_map

theorem mem_residentKeys {k : ChunkKey} :
    k ∈ m.residentKeys ↔ ∃ x ∈ m.slots, x.isTemporary = false ∧ x.key = k := by
  simp [residentKeys, and_assoc]

/-- Slots of `keys` are of the caller's. -/
theorem unfinished_of_allowed {keys : List ChunkKey} (h : ∀ k ∈ keys, k ∈ m.slotKeys) :
    ∀ k ∈ keys, m.l1.Unfinished m.slots k :=
  fun k hk => Or.inl (mem_slotKeys.mp (h k hk))

/-- A key of a slot that is not temporary has no other slot. -/
theorem Inv.resident (h : m.Inv) {x : Slot} (hx : x ∈ m.slots) (hk : x.key ∈ m.residentKeys) :
    x.isTemporary = false := by
  obtain ⟨y, hy, htmp, hkey⟩ := mem_residentKeys.mp hk
  rw [← Multiset.inj_on_of_nodup_map h.nodup y hy x hx hkey]
  exact htmp

/-- Finishing one's own slots. -/
theorem Inv.finishWrite (h : m.Inv) {keys : List ChunkKey} (hok : m.Allowed (.finishWrite keys)) :
    ∃ l1', m.l1.finishWrite keys = .returned l1' () ∧ l1'.Inv m.holds (m.slotsBut keys) Any ∧
      (∀ k, l1'.Readable k ↔ k ∈ keys ∨ m.l1.Readable k) ∧
      l1'.listeners = (m.l1.listeners.notify keys .onCreated).notify keys .onWriteFinished := by
  have hslots : ∀ k ∈ keys, k ∈ m.slotKeys := fun k hk => by
    obtain ⟨x, hx, -, hkey⟩ := mem_residentKeys.mp (hok k hk)
    exact mem_slotKeys.mpr ⟨x, hx, hkey⟩
  exact finishWriteLoop_spec keys h (unfinished_of_allowed hslots)
    fun x hx hk => h.resident hx (hok x.key hk)

theorem Inv.finishWriteAndReserveRead (h : m.Inv) {keys : List ChunkKey}
    (hok : m.Allowed (.finishWriteAndReserveRead keys)) :
    ∃ l1', m.l1.finishWriteAndReserveRead keys = .returned l1' () ∧
      l1'.Inv (↑keys + m.holds) (m.slotsBut keys) Any ∧
      (∀ k, l1'.Readable k ↔ k ∈ keys ∨ m.l1.Readable k) ∧
      l1'.listeners = m.l1.listeners.notify keys .onCreated :=
  finishWriteAndReserveReadLoop_spec keys h (unfinished_of_allowed hok)

/-- An allowed operation does not raise, and keeps the ledger. -/
theorem Inv.step {op : L1Op} (h : m.Inv) (hok : m.Allowed op) :
    ∃ m', m.step op = some m' ∧ m'.Inv := by
  rcases op with ⟨keys, n, t⟩ | keys | keys | keys | keys | keys | keys | keys | keys
  · obtain ⟨ps, hinv, -, hres, -, hps⟩ := inv_reserveWrite (n := n) (t := t) h hok
    have hsub : (ps.map Prod.fst).Sublist keys := by
      rcases hps with ⟨rfl, -⟩ | hps
      · exact List.nil_sublist keys
      · exact hps ▸ List.filter_sublist
    refine ⟨_, rfl, ?_⟩
    change (m.l1.reserveWrite keys n t).2.Inv m.holds
      (↑(reservedSlots (m.l1.reserveWrite keys n t).1 keys t) + m.slots) Any
    rwa [reservedSlots_eq t hok hres hsub]
  · obtain ⟨l1', hfinish, hinv, -, -⟩ := h.finishWrite hok
    refine ⟨{ m with l1 := l1', slots := m.slotsBut keys }, ?_, hinv⟩
    simp only [Callers.step, hfinish]
  · obtain ⟨l1', hfinish, hinv, -, -⟩ := h.finishWriteAndReserveRead hok
    refine ⟨⟨l1', (keys : Multiset ChunkKey) + m.holds, m.slotsBut keys⟩, ?_, hinv⟩
    simp only [Callers.step, hfinish]
  · exact ⟨_, rfl, (inv_reserveRead keys h).1⟩
  · exact ⟨_, rfl, (inv_reserveReadPrefix h keys).1⟩
  · have hsplit : m.holds = ↑keys + (m.holds - ↑keys) := (add_tsub_cancel_of_le hok).symm
    rw [Inv, hsplit] at h
    obtain ⟨l1', hl, hinv, -⟩ := inv_finishRead h
    refine ⟨{ m with l1 := l1', holds := m.holds - ↑keys }, ?_, hinv⟩
    simp only [Callers.step, hl]
  · refine ⟨_, rfl, ?_⟩
    have hp := (inv_promote keys h).1
    refine hp.remark (fun x => by split_ifs <;> rfl) (fun x => by split_ifs <;> rfl) ?_
    intro x hx e he ht
    obtain ⟨-, e', he', -, -, htmp⟩ := hp.slot x hx
    obtain rfl := Option.some.inj (he'.symm.trans he)
    split_ifs with hk
    · rw [get?_promote, if_pos hk, Option.map_eq_some_iff] at he
      obtain ⟨e₀, -, rfl⟩ := he
      exact absurd ht (by simp)
    · exact htmp ht
  · exact ⟨_, rfl, (inv_delete h keys).1⟩
  · refine ⟨_, rfl, inv_forceDeleteLoop keys [] h fun k hk => Or.inl (mem_slotKeys.mp (hok k hk))⟩

/-- A state that operations of an empty manager reach. -/
def Reachable (m : Callers) : Prop :=
  ∃ capacity pool l2 ops, Run Callers.step Allowed (new capacity pool l2) ops m

theorem Reachable.inv (h : m.Reachable) : m.Inv := by
  obtain ⟨capacity, pool, l2, ops, hrun⟩ := h
  refine hrun.invariant Inv (inv_new capacity pool l2) fun m op m' hi hok hs => ?_
  obtain ⟨m₁, hs₁, hi₁⟩ := hi.step hok
  obtain rfl := Option.some.inj (hs₁.symm.trans hs)
  exact hi₁

/-- `reserve_write` gives every missing key a slice of its own, or nothing at all. -/
theorem reserveWrite_all_or_none {l1 : L1Manager} {H : Multiset ChunkKey} {S : Multiset Slot}
    {Ok : ChunkKey → Bytes → Prop} (h : l1.Inv H S Ok) {keys : List ChunkKey} (hnd : keys.Nodup)
    (n : ℕ) (t : Bool) :
    (∀ k ∈ keys, l1.entries.get? k = none → ∃ obj e,
      reservedObj (l1.reserveWrite keys n t).1 k = some obj ∧ obj.nbytes = n ∧
      (∀ o ∈ l1.objs, o.Disjoint obj) ∧
      (l1.reserveWrite keys n t).2.entries.get? k = some e ∧ e.obj = obj ∧ e.writeLocked = true) ∨
    ((∀ k, reservedObj (l1.reserveWrite keys n t).1 k = none) ∧
      (l1.reserveWrite keys n t).2.entries = l1.entries ∧
      (l1.reserveWrite keys n t).2.allocator.usedBytes = l1.allocator.usedBytes) := by
  obtain ⟨ps, hinv, hgrows, hres, hsize, hps⟩ := inv_reserveWrite (n := n) (t := t) h hnd
  rcases hps with ⟨rfl, hentries⟩ | hps
  · refine Or.inr ⟨fun k => ?_, hentries, ?_⟩
    · rw [Option.eq_none_iff_forall_ne_some]
      exact fun obj hobj => absurd ((hres k obj).mp hobj) List.not_mem_nil
    · rw [hinv.alloc.used, h.alloc.used, objs, objs, hentries]
  · refine Or.inl fun k hk hnone => ?_
    have hmem : k ∈ ps.map Prod.fst := by
      rw [hps, List.mem_filter]
      exact ⟨hk, by simp [OrderedDict.contains, hnone]⟩
    obtain ⟨⟨k, obj⟩, hp, rfl⟩ := List.mem_map.mp hmem
    obtain ⟨e, he, hw, hobj⟩ := hinv.entry_of_slot (x := ⟨k, obj, t, false⟩)
      (Multiset.mem_add.mpr (Or.inl (Multiset.mem_coe.mpr (List.mem_map.mpr ⟨_, hp, rfl⟩))))
    refine ⟨obj, e, (hres k obj).mpr hp, hsize _ hp, fun o ho => ?_, he, hobj, hw⟩
    obtain ⟨⟨k', e'⟩, hitem, rfl⟩ := List.mem_map.mp ho
    have he' := OrderedDict.get?_eq_some_iff.mpr hitem
    have hne : k' ≠ k := fun heq => by simp [← heq, he'] at hnone
    have hdisjoint := hinv.disjoint hne (hgrows.entry k' e' he') he
    rwa [hobj] at hdisjoint

/-- Accounting of L1 after any operations : the entries' slices are disjoint and inside the pool,
with the free segments they tile it up to the bump pointer, so what is allocated and not free is
one entry's; `used_bytes` is the sum of their sizes; a write-locked entry has no holds, and a
temporary one that is readable has some. -/
theorem l1_accounting (h : m.Reachable) :
    m.l1.objs.Pairwise MemoryObj.Disjoint ∧
    (∀ o ∈ m.l1.objs, o.offset + o.nbytes ≤ m.l1.allocator.capacity) ∧
    Tiles m.l1.allocator.brk (m.l1.objs ++ m.l1.allocator.freeObjs) ∧
    m.l1.allocator.usedBytes = ((m.l1.objs.map MemoryObj.nbytes).sum : ℕ) ∧
    (∀ k e, m.l1.entries.get? k = some e → e.writeLocked = true → e.readCount = 0) ∧
    (∀ k e, m.l1.entries.get? k = some e → e.isTemporary = true → e.writeLocked = false →
      1 ≤ e.readCount) ∧
    ∀ (keys : List ChunkKey) (n : ℕ) (t : Bool), keys.Nodup →
      (∀ k ∈ keys, m.l1.entries.get? k = none → ∃ obj e,
        reservedObj (m.l1.reserveWrite keys n t).1 k = some obj ∧ obj.nbytes = n ∧
        (∀ o ∈ m.l1.objs, o.Disjoint obj) ∧
        (m.l1.reserveWrite keys n t).2.entries.get? k = some e ∧ e.obj = obj ∧
        e.writeLocked = true) ∨
      ((∀ k, reservedObj (m.l1.reserveWrite keys n t).1 k = none) ∧
        (m.l1.reserveWrite keys n t).2.entries = m.l1.entries ∧
        (m.l1.reserveWrite keys n t).2.allocator.usedBytes = m.l1.allocator.usedBytes) := by
  have hinv := h.inv
  have htiles := hinv.alloc.tiles
  refine ⟨(List.pairwise_append.mp htiles.disjoint).1, fun o ho => ?_, htiles, hinv.alloc.used,
    fun k e he hw => ?_, fun k e he ht hw => ?_, fun keys n t hnd =>
      reserveWrite_all_or_none hinv hnd n t⟩
  · exact (htiles.bounded o (List.mem_append_left _ ho)).trans hinv.alloc.brk_le
  · have hk : k ∉ m.holds := fun hk => by
      obtain ⟨e', he', hr⟩ := hinv.held k hk
      obtain rfl := Option.some.inj (he'.symm.trans he)
      simp [hw] at hr
    rw [hinv.count k e he, Multiset.count_eq_zero.mpr hk]
    rfl
  · rw [hinv.count k e he]
    rcases hinv.temporary k e he ht with ⟨-, hk⟩ | ⟨x, hx, rfl, -⟩
    · exact_mod_cast Multiset.one_le_count_iff_mem.mpr hk
    · exact absurd rfl (hinv.slot_key_ne he hw hx)

/-- A chunk is stored and another prefetched, in a pool of five bytes; the first is held, and the
second goes with its last hold. -/
def sampleOps (k k' : ChunkKey) : List L1Op :=
  [.reserveWrite [k] 2 false, .reserveWrite [k'] 3 true, .finishWrite [k],
    .finishWriteAndReserveRead [k'], .reserveRead [k, k'], .finishRead [k', k']]

theorem l1_accounting_sample : ∃ m : Callers, m.Reachable ∧
    m.l1.entries.keys = [⟨[1], "m", 0⟩] ∧
    m.l1.allocator.usedBytes = ((m.l1.objs.map MemoryObj.nbytes).sum : ℕ) := by
  have hrun : (replay Callers.step (fun m op => decide (m.Allowed op)) (new 5 (fun _ => 0) true)
      (sampleOps ⟨[1], "m", 0⟩ ⟨[2], "m", 0⟩)).map (fun m => m.l1.entries.keys) =
      some [⟨[1], "m", 0⟩] := by decide
  obtain ⟨m, hm, hkeys⟩ := Option.map_eq_some_iff.mp hrun
  have hreach : m.Reachable :=
    ⟨5, _, true, _, (run_of_replay hm).mono fun _ _ hok => of_decide_eq_true hok⟩
  exact ⟨m, hreach, hkeys, (l1_accounting hreach).2.2.2.1⟩

end Callers

end MiniLlmcache
