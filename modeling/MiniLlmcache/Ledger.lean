import MiniLlmcache.Manager
import Mathlib.Data.Multiset.Count

/-!
# The hold ledger

Who references an L1 entry is spread over the whole server : sessions keep read holds,
threads take and drop them, and a thread that fills a slot owns its write lock. The
ledger states what the manager's counters mean in terms of all of them :

* `H` is the multiset of keys held by anyone. A held key is resident and readable, and
  `read_count` of an entry is the number of its holds.
* `S` is the multiset of slots somebody is filling. A slot is a write-locked entry of
  its key over its object, and no key has two slots.
* A temporary entry is held, or still a slot of the prefetcher.
* `Ok` is what may be read : a readable entry's bytes are `Ok` for its key, and a slot
  marked ready already holds such bytes.

Each operation of `L1Manager` moves keys between `H`, `S` and the entries, and its
lemma here says how (`inv_reserveWrite`, `inv_finishWrite`, `inv_finishRead`, …). Whoever
runs the operation brings the holds and slots it uses; everybody else's are the rest of
`H` and `S` and stay as they were. `Inv` adds that the entries' slices are exactly the
allocator's slices in use.
-/

namespace MiniLlmcache

/-- A slot being filled : reserved by the prefetcher (`isTemporary`) or by a STORE. -/
structure Slot where
  key : ChunkKey
  obj : MemoryObj
  isTemporary : Bool
  ready : Bool
deriving DecidableEq

namespace L1Manager

variable {l1 l1' : L1Manager} {H H' : Multiset ChunkKey} {S S' : Multiset Slot}
  {Ok : ChunkKey → Bytes → Prop}

def objs (l1 : L1Manager) : List MemoryObj := l1.entries.items.map fun p => p.2.obj

/-- What the counters and locks mean. -/
structure Ledger (l1 : L1Manager) (H : Multiset ChunkKey) (S : Multiset Slot)
    (Ok : ChunkKey → Bytes → Prop) : Prop where
  count : ∀ k e, l1.entries.get? k = some e → e.readCount = H.count k
  held : ∀ k ∈ H, ∃ e, l1.entries.get? k = some e ∧ e.writeLocked = false
  slot : ∀ x ∈ S, (x.ready = true → Ok x.key (l1.bytes x.obj)) ∧
    ∃ e, l1.entries.get? x.key = some e ∧ e.writeLocked = true ∧ e.obj = x.obj ∧
      (e.isTemporary = true → x.isTemporary = true)
  nodup : (S.map Slot.key).Nodup
  temporary : ∀ k e, l1.entries.get? k = some e → e.isTemporary = true →
    (e.writeLocked = false ∧ k ∈ H) ∨ ∃ x ∈ S, x.key = k ∧ x.isTemporary = true
  data : ∀ k e, l1.entries.get? k = some e → e.writeLocked = false → Ok k (l1.bytes e.obj)

/-- The ledger, over an allocator whose slices in use are the entries' slices. -/
structure Inv (l1 : L1Manager) (H : Multiset ChunkKey) (S : Multiset Slot)
    (Ok : ChunkKey → Bytes → Prop) : Prop extends Ledger l1 H S Ok where
  alloc : l1.allocator.Inv l1.objs

/-! ## Changing one entry -/

theorem mem_iff_of_count_eq {k : ChunkKey} (h : H'.count k = H.count k) : k ∈ H' ↔ k ∈ H := by
  rw [← Multiset.one_le_count_iff_mem, ← Multiset.one_le_count_iff_mem, h]

/-- Write the entry of `k`. Holds and slots of other keys are as before; those of `k`
fit the new entry. -/
theorem Ledger.setEntry (h : l1.Ledger H S Ok) (k : ChunkKey) (e : Entry)
    (hH : ∀ k' ≠ k, H'.count k' = H.count k') (hS : ∀ x, x.key ≠ k → (x ∈ S' ↔ x ∈ S))
    (hnd : (S'.map Slot.key).Nodup) (hcount : e.readCount = H'.count k)
    (hheld : k ∈ H' → e.writeLocked = false)
    (hslot : ∀ x ∈ S', x.key = k → (x.ready = true → Ok x.key (l1.bytes x.obj)) ∧
      e.writeLocked = true ∧ e.obj = x.obj ∧ (e.isTemporary = true → x.isTemporary = true))
    (htmp : e.isTemporary = true →
      (e.writeLocked = false ∧ k ∈ H') ∨ ∃ x ∈ S', x.key = k ∧ x.isTemporary = true)
    (hdata : e.writeLocked = false → Ok k (l1.bytes e.obj)) :
    (l1.setEntry k e).Ledger H' S' Ok := by
  have hget : ∀ k', (l1.setEntry k e).entries.get? k' =
      if k = k' then some e else l1.entries.get? k' := fun k' => OrderedDict.get?_set _ _ _ _
  have hmem : ∀ k' ≠ k, (k' ∈ H' ↔ k' ∈ H) := fun k' hne => mem_iff_of_count_eq (hH k' hne)
  refine ⟨?_, ?_, ?_, hnd, ?_, ?_⟩
  · intro k' e' he'
    rw [hget] at he'
    split_ifs at he' with hk
    · cases he'
      rw [hcount, hk]
    · rw [hH k' (Ne.symm hk), h.count k' e' he']
  · intro k' hk'
    rw [hget]
    split_ifs with hk
    · exact ⟨e, rfl, hheld (hk ▸ hk')⟩
    · exact h.held k' ((hmem k' (Ne.symm hk)).mp hk')
  · intro x hx
    rw [hget]
    split_ifs with hk
    · obtain ⟨hr, h1, h2, h3⟩ := hslot x hx hk.symm
      exact ⟨hr, e, rfl, h1, h2, h3⟩
    · exact h.slot x ((hS x (Ne.symm hk)).mp hx)
  · intro k' e' he' ht
    rw [hget] at he'
    split_ifs at he' with hk
    · cases he'
      exact hk ▸ htmp ht
    · rcases h.temporary k' e' he' ht with ⟨hr, hk'⟩ | ⟨x, hx, rfl, hxt⟩
      · exact Or.inl ⟨hr, (hmem k' (Ne.symm hk)).mpr hk'⟩
      · exact Or.inr ⟨x, (hS x (Ne.symm hk)).mpr hx, rfl, hxt⟩
  · intro k' e' he' hr
    rw [hget] at he'
    split_ifs at he' with hk
    · cases he'
      exact hk ▸ hdata hr
    · exact h.data k' e' he' hr

/-- Free the entry of `k`, which nobody holds or fills any more. -/
theorem Ledger.freeEntry (h : l1.Ledger H S Ok) (k : ChunkKey) (e : Entry)
    (hH : ∀ k' ≠ k, H'.count k' = H.count k') (hk : k ∉ H')
    (hS : ∀ x, x.key ≠ k → (x ∈ S' ↔ x ∈ S)) (hSk : ∀ x ∈ S', x.key ≠ k)
    (hnd : (S'.map Slot.key).Nodup) : (l1.freeEntry k e).Ledger H' S' Ok := by
  have hget : ∀ k', (l1.freeEntry k e).entries.get? k' =
      if k = k' then none else l1.entries.get? k' := fun k' => OrderedDict.get?_erase _ _ _
  have hmem : ∀ k' ≠ k, (k' ∈ H' ↔ k' ∈ H) := fun k' hne => mem_iff_of_count_eq (hH k' hne)
  refine ⟨?_, ?_, ?_, hnd, ?_, ?_⟩
  · intro k' e' he'
    rw [hget] at he'
    split_ifs at he' with hk'
    rw [hH k' (Ne.symm hk'), h.count k' e' he']
  · intro k' hk'
    have hne : k' ≠ k := fun e => hk (e ▸ hk')
    rw [hget, if_neg (Ne.symm hne)]
    exact h.held k' ((hmem k' hne).mp hk')
  · intro x hx
    rw [hget, if_neg (Ne.symm (hSk x hx))]
    exact h.slot x ((hS x (hSk x hx)).mp hx)
  · intro k' e' he' ht
    rw [hget] at he'
    split_ifs at he' with hk'
    rcases h.temporary k' e' he' ht with ⟨hr, hm⟩ | ⟨x, hx, rfl, hxt⟩
    · exact Or.inl ⟨hr, (hmem k' (Ne.symm hk')).mpr hm⟩
    · exact Or.inr ⟨x, (hS x (Ne.symm hk')).mpr hx, rfl, hxt⟩
  · intro k' e' he' hr
    rw [hget] at he'
    split_ifs at he' with hk'
    exact h.data k' e' he' hr

/-- The slices of the entries when one entry changes but keeps its slice. -/
theorem objs_setEntry_perm {k : ChunkKey} {e e' : Entry} (he : l1.entries.get? k = some e)
    (hobj : e'.obj = e.obj) : l1.objs.Perm (l1.setEntry k e').objs := by
  have h1 := (OrderedDict.perm_erase he).map fun p => p.2.obj
  have h2 := (OrderedDict.perm_set l1.entries k e').map fun p => p.2.obj
  simp only [List.map_cons, hobj] at h1 h2
  exact h1.trans h2.symm

theorem objs_freeEntry_perm {k : ChunkKey} {e : Entry} (he : l1.entries.get? k = some e)
    (e' : Entry) : l1.objs.Perm (e.obj :: (l1.freeEntry k e').objs) :=
  (OrderedDict.perm_erase he).map fun p : ChunkKey × Entry => p.2.obj

/-- Different keys have disjoint slices. -/
theorem Inv.disjoint (h : l1.Inv H S Ok) {k k' : ChunkKey} {e e' : Entry} (hne : k ≠ k')
    (he : l1.entries.get? k = some e) (he' : l1.entries.get? k' = some e') :
    e.obj.Disjoint e'.obj := by
  have hp := (h.alloc.perm (objs_freeEntry_perm he e)).tiles.disjoint
  rw [List.cons_append, List.pairwise_cons] at hp
  refine hp.1 _ (List.mem_append_left _ ?_)
  have hmem : (l1.freeEntry k e).entries.get? k' = some e' := by
    rw [← he']
    exact OrderedDict.get?_erase_ne _ hne
  exact List.mem_map.mpr ⟨(k', e'), OrderedDict.get?_eq_some_iff.mp hmem, rfl⟩

@[simp] theorem entries_notify (l1 : L1Manager) (ev : Event) (keys : List ChunkKey) :
    (l1.notify ev keys).entries = l1.entries := rfl

@[simp] theorem allocator_notify (l1 : L1Manager) (ev : Event) (keys : List ChunkKey) :
    (l1.notify ev keys).allocator = l1.allocator := rfl

theorem Inv.congr (h : l1.Inv H S Ok) (he : l1'.entries = l1.entries)
    (ha : l1'.allocator = l1.allocator) : l1'.Inv H S Ok := by
  obtain ⟨alloc, entries, listeners⟩ := l1
  obtain ⟨alloc', entries', listeners'⟩ := l1'
  subst he ha
  exact ⟨⟨h.count, h.held, h.slot, h.nodup, h.temporary, h.data⟩, h.alloc⟩

theorem Inv.notify (h : l1.Inv H S Ok) (ev : Event) (keys : List ChunkKey) :
    (l1.notify ev keys).Inv H S Ok :=
  h.congr rfl rfl

/-! ## One key of each loop -/

theorem count_cons_of_ne {k k' : ChunkKey} (h : k' ≠ k) :
    (k ::ₘ H).count k' = H.count k' :=
  Multiset.count_cons_of_ne h H

theorem mem_cons_slot_iff {x y : Slot} (h : y.key ≠ x.key) : y ∈ x ::ₘ S ↔ y ∈ S := by
  rw [Multiset.mem_cons]
  exact ⟨fun h' => h'.resolve_left fun e => h (e ▸ rfl), Or.inr⟩

theorem nodup_slots_cons {x : Slot} (h : ((x ::ₘ S).map Slot.key).Nodup) :
    (∀ y ∈ S, y.key ≠ x.key) ∧ (S.map Slot.key).Nodup := by
  rw [Multiset.map_cons, Multiset.nodup_cons, Multiset.mem_map] at h
  exact ⟨fun y hy e => h.1 ⟨y, hy, e⟩, h.2⟩

/-- A readable entry is not a slot. -/
theorem Ledger.slot_key_ne (h : l1.Ledger H S Ok) {k : ChunkKey} {e : Entry}
    (he : l1.entries.get? k = some e) (hr : e.writeLocked = false) {x : Slot} (hx : x ∈ S) :
    x.key ≠ k := by
  rintro rfl
  obtain ⟨-, e', he', hw, -⟩ := h.slot x hx
  rw [he'] at he
  cases he
  rw [hw] at hr
  cases hr

/-- A slot is not held. -/
theorem Ledger.slot_not_mem (h : l1.Ledger H S Ok) {x : Slot} (hx : x ∈ S) : x.key ∉ H := by
  intro hk
  obtain ⟨e, he, hr⟩ := h.held _ hk
  exact h.slot_key_ne he hr hx rfl

/-- A STORE's slot becomes a readable entry. -/
theorem Inv.unlock {x : Slot} {e : Entry} (h : l1.Inv H (x ::ₘ S) Ok)
    (he : l1.entries.get? x.key = some e) (ht : x.isTemporary = false)
    (hok : Ok x.key (l1.bytes x.obj)) :
    (l1.setEntry x.key { e with writeLocked := false }).Inv H S Ok := by
  have hx := Multiset.mem_cons_self x S
  obtain ⟨hne, hnd⟩ := nodup_slots_cons h.nodup
  obtain ⟨-, e', he', -, hobj, htmp⟩ := h.slot x hx
  obtain rfl : e' = e := Option.some.inj (he'.symm.trans he)
  refine ⟨h.setEntry _ _ (fun _ _ => rfl) (fun y hy => (mem_cons_slot_iff hy).symm) hnd
    (h.count x.key e' he) (fun _ => rfl) (fun y hy e => absurd e (hne y hy)) ?_
    (fun _ => hobj ▸ hok),
    h.alloc.perm (objs_setEntry_perm he rfl)⟩
  intro htrue
  rw [htmp htrue] at ht
  cases ht

/-- A slot becomes a readable entry with one hold. -/
theorem Inv.unlockHold {x : Slot} {e : Entry} (h : l1.Inv H (x ::ₘ S) Ok)
    (he : l1.entries.get? x.key = some e) (hok : Ok x.key (l1.bytes x.obj)) :
    (l1.setEntry x.key { e with writeLocked := false, readCount := e.readCount + 1 }).Inv
      (x.key ::ₘ H) S Ok := by
  have hx := Multiset.mem_cons_self x S
  obtain ⟨hne, hnd⟩ := nodup_slots_cons h.nodup
  obtain ⟨-, e', he', -, hobj, -⟩ := h.slot x hx
  obtain rfl : e' = e := Option.some.inj (he'.symm.trans he)
  refine ⟨h.setEntry _ _ (fun _ hk => count_cons_of_ne hk)
    (fun y hy => (mem_cons_slot_iff hy).symm) hnd ?_ (fun _ => rfl)
    (fun y hy e => absurd e (hne y hy)) (fun _ => Or.inl ⟨rfl, Multiset.mem_cons_self _ _⟩)
    (fun _ => hobj ▸ hok), h.alloc.perm (objs_setEntry_perm he rfl)⟩
  rw [Multiset.count_cons_self, h.count _ _ he]
  rfl

/-- One more hold on a readable entry. -/
theorem Inv.hold {k : ChunkKey} {e : Entry} (h : l1.Inv H S Ok)
    (he : l1.entries.get? k = some e) (hr : e.writeLocked = false) :
    (l1.hold k e).Inv (k ::ₘ H) S Ok := by
  refine ⟨h.setEntry _ _ (fun _ hk => count_cons_of_ne hk) (fun _ _ => Iff.rfl) h.nodup ?_
    (fun _ => hr) (fun x hx e => absurd e (h.slot_key_ne he hr hx))
    (fun _ => Or.inl ⟨hr, Multiset.mem_cons_self _ _⟩) (h.data k e he),
    h.alloc.perm (objs_setEntry_perm he rfl)⟩
  rw [Multiset.count_cons_self, h.count _ _ he]
  rfl

/-- One hold less, on an entry that stays. -/
theorem Inv.drop {k : ChunkKey} {e : Entry} (h : l1.Inv (k ::ₘ H) S Ok)
    (he : l1.entries.get? k = some e) (hkeep : ¬(e.readCount - 1 = 0 ∧ e.isTemporary = true)) :
    (l1.setEntry k { e with readCount := e.readCount - 1 }).Inv H S Ok := by
  obtain ⟨e', he', hr⟩ := h.held k (Multiset.mem_cons_self k H)
  obtain rfl : e' = e := Option.some.inj (he'.symm.trans he)
  have hc := h.count k e' he
  rw [Multiset.count_cons_self] at hc
  refine ⟨h.setEntry _ _ (fun _ hk => (count_cons_of_ne hk).symm) (fun _ _ => Iff.rfl) h.nodup
    (by simp only; omega) (fun _ => hr) (fun x hx e => absurd e (h.slot_key_ne he hr hx)) ?_
    (h.data k e' he), h.alloc.perm (objs_setEntry_perm he rfl)⟩
  intro ht
  refine Or.inl ⟨hr, ?_⟩
  rw [← Multiset.one_le_count_iff_mem]
  by_contra hlt
  exact hkeep ⟨by omega, ht⟩

/-- The last hold of an entry, which is freed with it. -/
theorem Inv.dropFree {k : ChunkKey} {e : Entry} (e' : Entry) (h : l1.Inv (k ::ₘ H) S Ok)
    (he : l1.entries.get? k = some e) (hc : e.readCount - 1 = 0) (hobj : e'.obj = e.obj) :
    (l1.freeEntry k e').Inv H S Ok := by
  obtain ⟨e₁, he₁, hr⟩ := h.held k (Multiset.mem_cons_self k H)
  obtain rfl : e₁ = e := Option.some.inj (he₁.symm.trans he)
  have hcount := h.count k e₁ he
  rw [Multiset.count_cons_self] at hcount
  refine ⟨h.freeEntry _ _ (fun _ hk => (count_cons_of_ne hk).symm) ?_ (fun _ _ => Iff.rfl)
    (fun x hx => h.slot_key_ne he hr hx) h.nodup, ?_⟩
  · rw [← Multiset.one_le_count_iff_mem]
    omega
  · have hp := h.alloc.perm (objs_freeEntry_perm he e')
    rw [← hobj] at hp
    exact PoolAllocator.inv_free hp

/-- Deleting an entry nothing references. -/
theorem Inv.deleteUnlocked {k : ChunkKey} {e : Entry} (h : l1.Inv H S Ok)
    (he : l1.entries.get? k = some e) (hu : e.unlocked = true) :
    (l1.freeEntry k e).Inv H S Ok := by
  simp only [Entry.unlocked, Bool.and_eq_true, Bool.not_eq_true', decide_eq_true_eq] at hu
  have hcount := h.count k e he
  refine ⟨h.freeEntry _ _ (fun _ _ => rfl) ?_ (fun _ _ => Iff.rfl)
    (fun x hx => h.slot_key_ne he hu.1 hx) h.nodup,
    PoolAllocator.inv_free (h.alloc.perm (objs_freeEntry_perm he e))⟩
  rw [← Multiset.one_le_count_iff_mem]
  omega

/-- Deleting a slot by force. -/
theorem Inv.deleteSlot {x : Slot} {e : Entry} (h : l1.Inv H (x ::ₘ S) Ok)
    (he : l1.entries.get? x.key = some e) : (l1.freeEntry x.key e).Inv H S Ok := by
  obtain ⟨hne, hnd⟩ := nodup_slots_cons h.nodup
  exact ⟨h.freeEntry _ _ (fun _ _ => rfl) (h.slot_not_mem (Multiset.mem_cons_self x S))
    (fun y hy => (mem_cons_slot_iff hy).symm) hne hnd,
    PoolAllocator.inv_free (h.alloc.perm (objs_freeEntry_perm he e))⟩

theorem Inv.promoteEntry {k : ChunkKey} {e : Entry} (h : l1.Inv H S Ok)
    (he : l1.entries.get? k = some e) :
    (l1.setEntry k { e with isTemporary := false }).Inv H S Ok := by
  refine ⟨h.setEntry _ _ (fun _ _ => rfl) (fun _ _ => Iff.rfl) h.nodup (h.count k e he) ?_ ?_
    nofun (h.data k e he), h.alloc.perm (objs_setEntry_perm he rfl)⟩
  · intro hk
    obtain ⟨e', he', hr⟩ := h.held k hk
    obtain rfl : e' = e := Option.some.inj (he'.symm.trans he)
    exact hr
  · rintro x hx rfl
    obtain ⟨hready, e', he', hw, hobj, -⟩ := h.slot x hx
    obtain rfl : e' = e := Option.some.inj (he'.symm.trans he)
    exact ⟨hready, hw, hobj, nofun⟩

/-- A fresh write-locked entry over an allocated slice becomes a slot. -/
theorem Ledger.insert {k : ChunkKey} {obj : MemoryObj} {temporary : Bool}
    (h : l1.Ledger H S Ok) (hk : l1.entries.get? k = none) :
    (l1.setEntry k ⟨obj, true, 0, temporary⟩).Ledger H (⟨k, obj, temporary, false⟩ ::ₘ S) Ok := by
  have hkH : k ∉ H := fun hm => by
    obtain ⟨e, he, -⟩ := h.held k hm
    rw [hk] at he
    cases he
  have hkS : ∀ x ∈ S, x.key ≠ k := by
    rintro x hx rfl
    obtain ⟨-, e, he, -⟩ := h.slot x hx
    rw [hk] at he
    cases he
  refine h.setEntry _ _ (fun _ _ => rfl) (fun x hx => mem_cons_slot_iff hx) ?_ ?_
    (fun hm => absurd hm hkH) ?_ (fun ht => Or.inr ⟨_, Multiset.mem_cons_self _ _, rfl, ht⟩)
    nofun
  · rw [Multiset.map_cons, Multiset.nodup_cons, Multiset.mem_map]
    exact ⟨fun ⟨x, hx, e⟩ => hkS x hx e, h.nodup⟩
  · rw [Multiset.count_eq_zero_of_notMem hkH]
    rfl
  · intro x hx hxk
    rcases Multiset.mem_cons.mp hx with rfl | hx
    · exact ⟨nofun, rfl, rfl, id⟩
    · exact absurd hxk (hkS x hx)

/-- Writing into a slot touches no other slice; the slot is ready if the bytes are `Ok`. -/
theorem Inv.copy {x : Slot} {data : Bytes} (ready : Bool) (h : l1.Inv H (x ::ₘ S) Ok)
    (hlen : data.length = x.obj.nbytes) (hok : ready = true → Ok x.key data) :
    (l1.copyInto x.obj data).Inv H ({ x with ready } ::ₘ S) Ok := by
  obtain ⟨hne, hnd⟩ := nodup_slots_cons h.nodup
  obtain ⟨-, ex, hex, hw, hobj, htmp⟩ := h.slot x (Multiset.mem_cons_self x S)
  -- every other entry's slice is disjoint from the slot's
  have hother : ∀ k e, l1.entries.get? k = some e → k ≠ x.key →
      (l1.allocator.copy x.obj data).bytes e.obj = l1.allocator.bytes e.obj := by
    intro k e he hk
    exact PoolAllocator.bytes_copy_of_disjoint _ hlen (hobj ▸ h.disjoint (Ne.symm hk) hex he)
  refine ⟨⟨h.count, h.held, ?_, ?_, ?_, ?_⟩, PoolAllocator.inv_copy h.alloc _ _⟩
  · intro y hy
    rcases Multiset.mem_cons.mp hy with rfl | hy
    · refine ⟨fun hr => ?_, ex, hex, hw, hobj, htmp⟩
      simp only [bytes, copyInto, PoolAllocator.bytes_copy_self _ hlen]
      exact hok hr
    · obtain ⟨hready, e, he, h1, h2, h3⟩ := h.slot y (Multiset.mem_cons_of_mem hy)
      refine ⟨fun hr => ?_, e, he, h1, h2, h3⟩
      have := hother y.key e he (hne y hy)
      rw [h2] at this
      simp only [bytes, copyInto, this]
      exact hready hr
  · rw [Multiset.map_cons, Multiset.nodup_cons, Multiset.mem_map]
    exact ⟨fun ⟨y, hy, e⟩ => hne y hy e, hnd⟩
  · intro k e he ht
    rcases h.temporary k e he ht with hl | ⟨y, hy, hyk, hyt⟩
    · exact Or.inl hl
    · rcases Multiset.mem_cons.mp hy with rfl | hy
      · exact Or.inr ⟨_, Multiset.mem_cons_self _ _, hyk, hyt⟩
      · exact Or.inr ⟨y, Multiset.mem_cons_of_mem hy, hyk, hyt⟩
  · intro k e he hr
    have hk : k ≠ x.key :=
      Ne.symm (h.slot_key_ne he hr (Multiset.mem_cons_self x S))
    simp only [bytes, copyInto, hother k e he hk]
    exact h.data k e he hr

end L1Manager

end MiniLlmcache
