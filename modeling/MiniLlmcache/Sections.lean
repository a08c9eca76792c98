import MiniLlmcache.Ledger

/-!
# The manager's operations on the ledger

One lemma for each operation of `L1Manager`, over the single-key steps of `Ledger` : what
it does to the holds and slots, and that it answers. `inv_finishRead` says that dropping
holds one has never meets a missing key, `inv_finishWrite` that finishing one's own slots
does not either.

`Shrinks` and `Grows` are what an operation does to the entries themselves. An entry found
before and after one step has kept its slice and has not been locked again, and the bytes of
a readable entry stay as they are (`Evolves`).
-/

namespace MiniLlmcache

namespace L1Manager

variable {l1 l1' l1'' : L1Manager} {H : Multiset ChunkKey} {S : Multiset Slot}
  {Ok : ChunkKey → Bytes → Prop}

/-! ## What a section does to the entries -/

/-- The pool is untouched, and every entry was there before, over the same slice and no
less readable. -/
structure Shrinks (l1 l1' : L1Manager) : Prop where
  pool : l1'.allocator.pool = l1.allocator.pool
  entry : ∀ k e', l1'.entries.get? k = some e' → ∃ e, l1.entries.get? k = some e ∧
    e'.obj = e.obj ∧ (e.writeLocked = false → e'.writeLocked = false)

/-- The pool is untouched and every entry stays as it is. -/
structure Grows (l1 l1' : L1Manager) : Prop where
  pool : l1'.allocator.pool = l1.allocator.pool
  entry : ∀ k e, l1.entries.get? k = some e → l1'.entries.get? k = some e

/-- An entry that is there before and after has kept its slice and was not locked again, and
the slice of an entry readable before is not written. -/
structure Evolves (l1 l1' : L1Manager) : Prop where
  entry : ∀ k e e', l1.entries.get? k = some e → l1'.entries.get? k = some e' →
    e'.obj = e.obj ∧ (e.writeLocked = false → e'.writeLocked = false)
  bytes : ∀ k e, l1.entries.get? k = some e → e.writeLocked = false →
    l1'.bytes e.obj = l1.bytes e.obj

theorem shrinks_of_eq (he : l1'.entries = l1.entries) (ha : l1'.allocator = l1.allocator) :
    l1.Shrinks l1' :=
  ⟨congrArg _ ha, fun _ e h => ⟨e, he ▸ h, rfl, id⟩⟩

theorem Shrinks.refl (l1 : L1Manager) : l1.Shrinks l1 := shrinks_of_eq rfl rfl

theorem Shrinks.trans (h : l1.Shrinks l1') (h' : l1'.Shrinks l1'') : l1.Shrinks l1'' where
  pool := h'.pool.trans h.pool
  entry k e'' he'' := by
    obtain ⟨e', he', hobj', hr'⟩ := h'.entry k e'' he''
    obtain ⟨e, he, hobj, hr⟩ := h.entry k e' he'
    exact ⟨e, he, hobj'.trans hobj, fun hw => hr' (hr hw)⟩

theorem Shrinks.after (h' : l1'.Shrinks l1'') (h : l1.Shrinks l1') : l1.Shrinks l1'' := h.trans h'

theorem Shrinks.notify (h : l1.Shrinks l1') (ev : Event) (keys : List ChunkKey) :
    l1.Shrinks (l1'.notify ev keys) :=
  ⟨h.pool, h.entry⟩

theorem Shrinks.evolves (h : l1.Shrinks l1') : l1.Evolves l1' := by
  refine ⟨fun k e e' he he' => ?_, fun _ e _ _ => PoolAllocator.bytes_congr h.pool e.obj⟩
  obtain ⟨e₁, he₁, hobj, hr⟩ := h.entry k e' he'
  obtain rfl : e₁ = e := Option.some.inj (he₁.symm.trans he)
  exact ⟨hobj, hr⟩

theorem Grows.evolves (h : l1.Grows l1') : l1.Evolves l1' := by
  refine ⟨fun k e e' he he' => ?_, fun _ e _ _ => PoolAllocator.bytes_congr h.pool e.obj⟩
  obtain rfl : e = e' := Option.some.inj ((h.entry k e he).symm.trans he')
  exact ⟨rfl, id⟩

theorem Evolves.refl (l1 : L1Manager) : l1.Evolves l1 := (Shrinks.refl l1).evolves

/-- Writing into a slot. -/
theorem Inv.evolves_copyInto {x : Slot} {data : Bytes} (h : l1.Inv H (x ::ₘ S) Ok)
    (hlen : data.length = x.obj.nbytes) : l1.Evolves (l1.copyInto x.obj data) := by
  refine ⟨fun k e e' he he' => ?_, fun k e he hr => ?_⟩
  · obtain rfl : e = e' := Option.some.inj (he.symm.trans he')
    exact ⟨rfl, id⟩
  · obtain ⟨-, ex, hex, -, hobj, -⟩ := h.slot x (Multiset.mem_cons_self x S)
    have hne : x.key ≠ k := h.slot_key_ne he hr (Multiset.mem_cons_self x S)
    exact PoolAllocator.bytes_copy_of_disjoint _ hlen (hobj ▸ h.disjoint hne hex he)

theorem shrinks_setEntry {k : ChunkKey} {e e' : Entry} (he : l1.entries.get? k = some e)
    (hobj : e'.obj = e.obj) (hr : e.writeLocked = false → e'.writeLocked = false) :
    l1.Shrinks (l1.setEntry k e') := by
  refine ⟨rfl, fun k' e₁ he₁ => ?_⟩
  rw [setEntry, OrderedDict.get?_set] at he₁
  split_ifs at he₁ with hk
  · cases he₁
    exact ⟨e, hk ▸ he, hobj, hr⟩
  · exact ⟨e₁, he₁, rfl, id⟩

theorem shrinks_freeEntry (l1 : L1Manager) (k : ChunkKey) (e : Entry) :
    l1.Shrinks (l1.freeEntry k e) := by
  refine ⟨rfl, fun k' e₁ he₁ => ?_⟩
  rw [freeEntry, OrderedDict.get?_erase] at he₁
  split_ifs at he₁
  exact ⟨e₁, he₁, rfl, id⟩

/-! ## Weakening -/

theorem Inv.mono {Ok' : ChunkKey → Bytes → Prop} (h : l1.Inv H S Ok)
    (hok : ∀ k b, Ok k b → Ok' k b) : l1.Inv H S Ok' :=
  ⟨⟨h.count, h.held, fun x hx => ⟨fun hr => hok _ _ ((h.slot x hx).1 hr), (h.slot x hx).2⟩,
    h.nodup, h.temporary, fun k e he hr => hok _ _ (h.data k e he hr)⟩, h.alloc⟩

/-- Nobody has to own the slots of a failed STORE. -/
theorem Inv.forget (xs : Multiset Slot) (h : l1.Inv H (xs + S) Ok)
    (hx : ∀ x ∈ xs, x.isTemporary = false) : l1.Inv H S Ok := by
  refine ⟨⟨h.count, h.held, fun x hx => h.slot x (Multiset.mem_add.mpr (Or.inr hx)), ?_, ?_,
    h.data⟩, h.alloc⟩
  · have hnd := h.nodup
    rw [Multiset.map_add] at hnd
    exact (Multiset.nodup_add.mp hnd).2.1
  · intro k e he ht
    rcases h.temporary k e he ht with hl | ⟨x, hxs, hk, hxt⟩
    · exact Or.inl hl
    · rcases Multiset.mem_add.mp hxs with hxs | hxs
      · rw [hx x hxs] at hxt
        cases hxt
      · exact Or.inr ⟨x, hxs, hk, hxt⟩

/-- It may be forgotten which slots are filled. -/
theorem Inv.unready {xs : Multiset Slot} (h : l1.Inv H (xs + S) Ok) :
    l1.Inv H (xs.map (fun x => { x with ready := false }) + S) Ok := by
  have hslot : ∀ y ∈ xs.map (fun x => { x with ready := false }) + S, ∃ x ∈ xs + S,
      y.key = x.key ∧ y.obj = x.obj ∧ y.isTemporary = x.isTemporary ∧
        (y.ready = true → x.ready = true) := by
    intro y hy
    rcases Multiset.mem_add.mp hy with hy | hy
    · obtain ⟨x, hx, rfl⟩ := Multiset.mem_map.mp hy
      exact ⟨x, Multiset.mem_add.mpr (Or.inl hx), rfl, rfl, rfl, nofun⟩
    · exact ⟨y, Multiset.mem_add.mpr (Or.inr hy), rfl, rfl, rfl, id⟩
  refine ⟨⟨h.count, h.held, ?_, ?_, ?_, h.data⟩, h.alloc⟩
  · intro y hy
    obtain ⟨x, hx, hk, hobj, ht, hr⟩ := hslot y hy
    rw [hk, hobj, ht]
    exact ⟨fun hready => (h.slot x hx).1 (hr hready), (h.slot x hx).2⟩
  · have hnd := h.nodup
    rwa [Multiset.map_add, Multiset.map_map, Function.comp_def, ← Multiset.map_add]
  · intro k e he ht
    rcases h.temporary k e he ht with hl | ⟨x, hx, hk, hxt⟩
    · exact Or.inl hl
    · rcases Multiset.mem_add.mp hx with hx | hx
      · exact Or.inr ⟨_, Multiset.mem_add.mpr (Or.inl (Multiset.mem_map_of_mem _ hx)), hk, hxt⟩
      · exact Or.inr ⟨x, Multiset.mem_add.mpr (Or.inr hx), hk, hxt⟩

/-- A slot of `xs` is a write-locked entry over the slot's slice. -/
theorem Inv.entry_of_slot {x : Slot} (h : l1.Inv H S Ok) (hx : x ∈ S) :
    ∃ e, l1.entries.get? x.key = some e ∧ e.writeLocked = true ∧ e.obj = x.obj := by
  obtain ⟨-, e, he, hw, hobj, -⟩ := h.slot x hx
  exact ⟨e, he, hw, hobj⟩

/-! ## Reserving slots -/

/-- The slots `reserve_write` makes of fresh keys and their slices. -/
def freshSlots (isTemporary : Bool) (ps : List (ChunkKey × MemoryObj)) : List Slot :=
  ps.map fun p => ⟨p.1, p.2, isTemporary, false⟩

theorem ledger_insertMissing {t : Bool} : ∀ (ps : List (ChunkKey × MemoryObj)) {l1 : L1Manager}
    {S : Multiset Slot}, l1.Ledger H S Ok → (ps.map Prod.fst).Nodup →
    (∀ p ∈ ps, l1.entries.get? p.1 = none) →
    (l1.insertMissing t ps).Ledger H (↑(freshSlots t ps) + S) Ok ∧
      l1.Grows (l1.insertMissing t ps) ∧
      (l1.insertMissing t ps).allocator = l1.allocator ∧
      (l1.insertMissing t ps).objs.Perm (ps.map Prod.snd ++ l1.objs)
  | [], l1, S, h, _, _ => by
    refine ⟨?_, ⟨rfl, fun _ _ he => he⟩, rfl, .refl _⟩
    simpa [insertMissing, freshSlots] using h
  | (k, obj) :: ps, l1, S, h, hnd, hk => by
    rw [List.map_cons, List.nodup_cons] at hnd
    have hnone : l1.entries.get? k = none := hk _ List.mem_cons_self
    have hget : ∀ k' ≠ k, (l1.setEntry k ⟨obj, true, 0, t⟩).entries.get? k' =
        l1.entries.get? k' := fun k' hne => OrderedDict.get?_set_ne _ _ (Ne.symm hne)
    have hrest : ∀ p ∈ ps, (l1.setEntry k ⟨obj, true, 0, t⟩).entries.get? p.1 = none := by
      intro p hp
      rw [hget _ fun e => hnd.1 (List.mem_map.mpr ⟨p, hp, e⟩)]
      exact hk p (List.mem_cons_of_mem _ hp)
    obtain ⟨h1, h2, h3, h4⟩ := ledger_insertMissing ps (h.insert hnone) hnd.2 hrest
    refine ⟨?_, ⟨h2.pool, fun k' e he => h2.entry k' e ?_⟩, h3, h4.trans ?_⟩
    · simp only [freshSlots, List.map_cons, ← Multiset.cons_coe, Multiset.cons_add] at h1 ⊢
      rwa [Multiset.add_cons] at h1
    · rw [hget k' ?_, he]
      rintro rfl
      rw [hnone] at he
      cases he
    · -- the new entry stands last in the dictionary
      have hitems := OrderedDict.items_set_of_get?_eq_none (⟨obj, true, 0, t⟩ : Entry) hnone
      simp only [objs, setEntry, hitems, List.map_append, List.map_cons, List.map_nil]
      rw [← List.append_assoc]
      exact List.perm_append_singleton _ _

/-- Reserving : the caller gets new slots, exactly those of the result; every missing key
gets one, or none does. -/
theorem inv_reserveWrite {keys : List ChunkKey} {n : ℕ} {t : Bool} (h : l1.Inv H S Ok)
    (hnd : keys.Nodup) :
    ∃ ps : List (ChunkKey × MemoryObj),
      (l1.reserveWrite keys n t).2.Inv H (↑(freshSlots t ps) + S) Ok ∧
      l1.Grows (l1.reserveWrite keys n t).2 ∧
      (∀ k obj, reservedObj (l1.reserveWrite keys n t).1 k = some obj ↔ (k, obj) ∈ ps) ∧
      (∀ p ∈ ps, p.2.nbytes = n) ∧
      ((ps = [] ∧ (l1.reserveWrite keys n t).2.entries = l1.entries) ∨
        ps.map Prod.fst = keys.filter fun k => !l1.entries.contains k) := by
  have hnd' : (keys.filter fun k => !l1.entries.contains k).Nodup := hnd.filter _
  rcases ha : l1.allocator.allocate (keys.filter fun k => !l1.entries.contains k).length n with
    ⟨_ | objs, a⟩
  · refine ⟨[], ?_, ?_, ?_, nofun, Or.inl ⟨rfl, by simp only [reserveWrite, ha]⟩⟩
    · simp only [reserveWrite, ha, freshSlots, List.map_nil, Multiset.coe_nil, zero_add]
      have hpool : a.pool = l1.allocator.pool := by
        have := PoolAllocator.pool_allocate l1.allocator
          (keys.filter fun k => !l1.entries.contains k).length n
        rwa [ha] at this
      have hbytes : ∀ obj, a.bytes obj = l1.allocator.bytes obj :=
        PoolAllocator.bytes_congr hpool
      refine ⟨⟨h.count, h.held, ?_, h.nodup, h.temporary, ?_⟩,
        PoolAllocator.inv_allocate_none h.alloc ha⟩
      · simpa only [bytes, hbytes] using h.slot
      · simpa only [bytes, hbytes] using h.data
    · have := PoolAllocator.pool_allocate l1.allocator
        (keys.filter fun k => !l1.entries.contains k).length n
      simp only [reserveWrite, ha] at this ⊢
      exact ⟨this, fun _ _ he => he⟩
    · intro k obj
      simp only [reserveWrite, ha, reservedObj, OrderedDict.get?_fromKeys, List.not_mem_nil,
        iff_false]
      split_ifs <;> simp
  · have hpool : a.pool = l1.allocator.pool := by
      have := PoolAllocator.pool_allocate l1.allocator
        (keys.filter fun k => !l1.entries.contains k).length n
      rwa [ha] at this
    have hbytes : ∀ obj, a.bytes obj = l1.allocator.bytes obj := PoolAllocator.bytes_congr hpool
    obtain ⟨hlen, hn, halloc⟩ := PoolAllocator.inv_allocate_some h.alloc ha
    set missing := keys.filter fun k => !l1.entries.contains k with hmissing
    have hfst : (missing.zip objs).map Prod.fst = missing := List.map_fst_zip hlen.ge
    have hsnd : (missing.zip objs).map Prod.snd = objs := List.map_snd_zip hlen.le
    have hled : ({ l1 with allocator := a } : L1Manager).Ledger H S Ok := by
      refine ⟨h.count, h.held, ?_, h.nodup, h.temporary, ?_⟩
      · simpa only [bytes, hbytes] using h.slot
      · simpa only [bytes, hbytes] using h.data
    have hnone : ∀ p ∈ missing.zip objs, l1.entries.get? p.1 = none := by
      intro p hp
      have hmem : p.1 ∈ missing := (List.of_mem_zip hp).1
      rw [hmissing, List.mem_filter, Bool.not_eq_true'] at hmem
      exact OrderedDict.contains_eq_false_iff.mp hmem.2
    obtain ⟨h1, h2, h3, h4⟩ := ledger_insertMissing (t := t) (missing.zip objs) hled
      (by rwa [hfst]) hnone
    have hres : l1.reserveWrite keys n t =
        ((OrderedDict.fromKeys keys none).setAll ((missing.zip objs).map fun p => (p.1, some p.2)),
          insertMissing { l1 with allocator := a } t (missing.zip objs)) := by
      simp only [reserveWrite, ← hmissing, ha]
    refine ⟨missing.zip objs, ?_, ?_, ?_, ?_, Or.inr hfst⟩
    · rw [hres]
      refine ⟨h1, ?_⟩
      rw [h3]
      rw [hsnd] at h4
      exact halloc.perm (List.perm_append_comm.trans h4.symm)
    · rw [hres]
      exact ⟨h2.pool.trans hpool, h2.entry⟩
    · intro k obj
      rw [hres]
      have hkeys : ((missing.zip objs).map fun p => (p.1, some p.2)).map Prod.fst = missing := by
        rw [List.map_map]
        exact hfst
      by_cases hk : k ∈ missing
      · obtain ⟨obj', hobj'⟩ : ∃ obj', (k, obj') ∈ missing.zip objs := by
          rw [← hfst, List.mem_map] at hk
          obtain ⟨⟨_, obj'⟩, hp, rfl⟩ := hk
          exact ⟨obj', hp⟩
        have hget : ((OrderedDict.fromKeys keys none).setAll
            ((missing.zip objs).map fun p => (p.1, some p.2))).get? k = some (some obj') :=
          OrderedDict.get?_setAll_of_mem _ (by rwa [hkeys])
            (List.mem_map.mpr ⟨(k, obj'), hobj', rfl⟩)
        simp only [reservedObj, hget, Option.join_some, Option.some.injEq]
        refine ⟨fun e => e ▸ hobj', fun hp => ?_⟩
        have hinj := List.inj_on_of_nodup_map (by rwa [hfst]) hobj' hp rfl
        exact congrArg Prod.snd hinj
      · rw [reservedObj, OrderedDict.get?_setAll_of_not_mem _ (by rwa [hkeys]),
          OrderedDict.get?_fromKeys]
        have hnot : (k, obj) ∉ missing.zip objs := fun hp => hk (List.of_mem_zip hp).1
        split_ifs <;> simp [hnot]
    · intro p hp
      exact hn _ (List.of_mem_zip hp).2

/-! ## Finishing writes -/

theorem inv_finishWriteLoop {keys : List ChunkKey} : ∀ (xs : List Slot) {l1 : L1Manager},
    l1.Inv H (↑xs + S) Ok → (∀ x ∈ xs, x.isTemporary = false ∧ x.ready = true) →
    ∃ l1', finishWrite.loop keys l1 (xs.map Slot.key) = .returned l1' () ∧ l1'.Inv H S Ok ∧
      l1.Shrinks l1'
  | [], l1, h, _ => by
    refine ⟨_, rfl, ?_, ((Shrinks.refl l1).notify _ _).notify _ _⟩
    simp only [Multiset.coe_nil, zero_add] at h
    exact (h.notify _ _).notify _ _
  | x :: xs, l1, h, hx => by
    rw [← Multiset.cons_coe, Multiset.cons_add] at h
    have hmem : x ∈ x ::ₘ (↑xs + S) := Multiset.mem_cons_self x _
    obtain ⟨hready, e, he, -, -, -⟩ := h.slot x hmem
    obtain ⟨htmp, hr⟩ := hx x List.mem_cons_self
    have h' := h.unlock he htmp (hready hr)
    obtain ⟨l1', hl, hinv, hs⟩ :=
      inv_finishWriteLoop xs h' fun y hy => hx y (List.mem_cons_of_mem x hy)
    refine ⟨l1', ?_, hinv, hs.after (shrinks_setEntry he rfl fun _ => rfl)⟩
    rw [List.map_cons, finishWrite.loop, he]
    exact hl

/-- Finishing one's own filled slots : they become readable entries. -/
theorem inv_finishWrite {xs : List Slot} (h : l1.Inv H (↑xs + S) Ok)
    (hx : ∀ x ∈ xs, x.isTemporary = false ∧ x.ready = true) :
    ∃ l1', l1.finishWrite (xs.map Slot.key) = .returned l1' () ∧ l1'.Inv H S Ok ∧
      l1.Shrinks l1' :=
  inv_finishWriteLoop xs h hx

theorem inv_finishWriteAndReserveReadLoop {keys : List ChunkKey} :
    ∀ (xs : List Slot) {l1 : L1Manager} {H : Multiset ChunkKey},
      l1.Inv H (↑xs + S) Ok → (∀ x ∈ xs, x.ready = true) →
      ∃ l1', finishWriteAndReserveRead.loop keys l1 (xs.map Slot.key) = .returned l1' () ∧
        l1'.Inv (↑(xs.map Slot.key) + H) S Ok ∧ l1.Shrinks l1'
  | [], l1, H, h, _ => by
    refine ⟨_, rfl, ?_, (Shrinks.refl l1).notify _ _⟩
    simp only [List.map_nil, Multiset.coe_nil, zero_add] at h ⊢
    exact h.notify _ _
  | x :: xs, l1, H, h, hx => by
    rw [← Multiset.cons_coe, Multiset.cons_add] at h
    have hmem : x ∈ x ::ₘ (↑xs + S) := Multiset.mem_cons_self x _
    obtain ⟨hready, e, he, -, -, -⟩ := h.slot x hmem
    have h' := h.unlockHold he (hready (hx x List.mem_cons_self))
    obtain ⟨l1', hl, hinv, hs⟩ :=
      inv_finishWriteAndReserveReadLoop xs h' fun y hy => hx y (List.mem_cons_of_mem x hy)
    refine ⟨l1', ?_, ?_, hs.after (shrinks_setEntry he rfl fun _ => rfl)⟩
    · rw [List.map_cons, finishWriteAndReserveRead.loop, he]
      exact hl
    · rwa [List.map_cons, ← Multiset.cons_coe, Multiset.cons_add, ← Multiset.add_cons]

/-- Finishing the prefetcher's filled slots : they become readable entries with one hold
each. -/
theorem inv_finishWriteAndReserveRead {xs : List Slot} (h : l1.Inv H (↑xs + S) Ok)
    (hx : ∀ x ∈ xs, x.ready = true) :
    ∃ l1', l1.finishWriteAndReserveRead (xs.map Slot.key) = .returned l1' () ∧
      l1'.Inv (↑(xs.map Slot.key) + H) S Ok ∧ l1.Shrinks l1' :=
  inv_finishWriteAndReserveReadLoop xs h hx

/-! ## Taking and dropping holds -/

theorem inv_reserveRead : ∀ (keys : List ChunkKey) {l1 : L1Manager} {H : Multiset ChunkKey},
    l1.Inv H S Ok → (l1.reserveRead keys).2.Inv
      (↑((lockedKeys (l1.reserveRead keys).1).map Prod.fst) + H) S Ok ∧
      l1.Shrinks (l1.reserveRead keys).2 ∧
      ∀ p ∈ lockedKeys (l1.reserveRead keys).1,
        ∃ e, (l1.reserveRead keys).2.entries.get? p.1 = some e ∧ e.obj = p.2
  | [], l1, H, h => by
    refine ⟨?_, Shrinks.refl l1, nofun⟩
    simpa [reserveRead, lockedKeys] using h
  | key :: keys, l1, H, h => by
    rcases he : l1.entries.get? key with _ | e
    · obtain ⟨h1, h2, h3⟩ := inv_reserveRead keys h
      simp only [reserveRead, he]
      exact ⟨h1, h2, h3⟩
    · rcases hw : e.writeLocked with _ | _
      · obtain ⟨h1, h2, h3⟩ := inv_reserveRead keys (h.hold he hw)
        have hr : e.readable = true := by rw [Entry.readable, hw]; rfl
        simp only [reserveRead, he, hr, if_true]
        refine ⟨?_, h2.after (shrinks_setEntry he rfl id), ?_⟩
        · simp only [lockedKeys, List.filterMap_cons, Option.map_some, List.map_cons]
          rwa [← Multiset.cons_coe, Multiset.cons_add, ← Multiset.add_cons]
        · intro p hp
          simp only [lockedKeys, List.filterMap_cons, Option.map_some, List.mem_cons] at hp
          rcases hp with rfl | hp
          · -- the hold just taken keeps the entry, and its slice stays
            have hk : key ∈ key ::ₘ H := Multiset.mem_cons_self key H
            obtain ⟨e', he', -⟩ := h1.held key (Multiset.mem_add.mpr (Or.inr hk))
            have hget : (l1.hold key e).entries.get? key =
                some { e with readCount := e.readCount + 1 } := OrderedDict.get?_set_self _ _ _
            exact ⟨e', he', (h2.evolves.entry key _ e' hget he').1⟩
          · exact h3 p hp
      · obtain ⟨h1, h2, h3⟩ := inv_reserveRead keys h
        have hr : ¬e.readable = true := by simp [Entry.readable, hw]
        simp only [reserveRead, he, hr]
        exact ⟨h1, h2, h3⟩

theorem readablePrefix_le (l1 : L1Manager) : ∀ keys : List ChunkKey,
    l1.readablePrefix keys ≤ keys.length
  | [] => le_rfl
  | key :: keys => by
    simp only [readablePrefix, List.length_cons]
    split
    · omega
    · split_ifs
      · have := readablePrefix_le l1 keys
        omega
      · omega

/-- The readable prefix is readable. -/
theorem readable_of_mem_readablePrefix {k : ChunkKey} : ∀ {keys : List ChunkKey},
    k ∈ keys.take (l1.readablePrefix keys) →
    ∃ e, l1.entries.get? k = some e ∧ e.writeLocked = false
  | [], h => by simp at h
  | key :: keys, h => by
    simp only [readablePrefix] at h
    split at h
    · simp at h
    · rename_i e he
      split_ifs at h with hr
      · rw [List.take_succ_cons, List.mem_cons] at h
        rcases h with rfl | h
        · exact ⟨e, he, by simpa [Entry.readable] using hr⟩
        · exact readable_of_mem_readablePrefix h
      · simp at h

theorem inv_holdAll : ∀ (keys : List ChunkKey) {l1 : L1Manager} {H : Multiset ChunkKey},
    l1.Inv H S Ok →
    (∀ k ∈ keys, ∃ e, l1.entries.get? k = some e ∧ e.writeLocked = false) →
    (l1.holdAll keys).Inv (↑keys + H) S Ok ∧ l1.Shrinks (l1.holdAll keys)
  | [], l1, H, h, _ => by
    refine ⟨?_, Shrinks.refl l1⟩
    simpa [holdAll] using h
  | key :: keys, l1, H, h, hk => by
    obtain ⟨e, he, hr⟩ := hk key List.mem_cons_self
    have hkeys : ∀ k ∈ keys, ∃ e', (l1.hold key e).entries.get? k = some e' ∧
        e'.writeLocked = false := by
      intro k hmem
      obtain ⟨e', he', hr'⟩ := hk k (List.mem_cons_of_mem key hmem)
      rw [hold, setEntry, OrderedDict.get?_set]
      split_ifs
      · exact ⟨_, rfl, hr⟩
      · exact ⟨e', he', hr'⟩
    obtain ⟨h1, h2⟩ := inv_holdAll keys (h.hold he hr) hkeys
    simp only [holdAll, he]
    refine ⟨?_, h2.after (shrinks_setEntry he rfl id)⟩
    rwa [← Multiset.cons_coe, Multiset.cons_add, ← Multiset.add_cons]

/-- The prefetcher's holds on the readable prefix. -/
theorem inv_reserveReadPrefix (h : l1.Inv H S Ok) (keys : List ChunkKey) :
    (l1.reserveReadPrefix keys).2.Inv (↑(keys.take (l1.reserveReadPrefix keys).1) + H) S Ok ∧
      l1.Shrinks (l1.reserveReadPrefix keys).2 :=
  inv_holdAll _ h fun _ hk => readable_of_mem_readablePrefix hk

theorem inv_finishReadLoop : ∀ (keys freed touched : List ChunkKey) {l1 : L1Manager},
    l1.Inv (↑keys + H) S Ok →
    ∃ l1', finishRead.loop l1 keys freed touched = .returned l1' () ∧ l1'.Inv H S Ok ∧
      l1.Shrinks l1'
  | [], freed, touched, l1, h => by
    simp only [Multiset.coe_nil, zero_add] at h
    refine ⟨_, rfl, ?_⟩
    have h1 : (if touched ≠ [] then l1.notify .onTouched touched else l1).Inv H S Ok ∧
        l1.Shrinks (if touched ≠ [] then l1.notify .onTouched touched else l1) := by
      split_ifs
      · exact ⟨h.notify _ _, (Shrinks.refl l1).notify _ _⟩
      · exact ⟨h, Shrinks.refl l1⟩
    split_ifs at h1 ⊢
    · exact ⟨h1.1.notify _ _, h1.2.notify _ _⟩
    · exact ⟨h1.1.notify _ _, h1.2.notify _ _⟩
    · exact h1
    · exact h1
  | key :: keys, freed, touched, l1, h => by
    rw [← Multiset.cons_coe, Multiset.cons_add] at h
    have hmem : key ∈ key ::ₘ (↑keys + H) := Multiset.mem_cons_self key _
    obtain ⟨e, he, -⟩ := h.held key hmem
    simp only [finishRead.loop, he]
    split_ifs with hc
    · obtain ⟨l1', hl, hinv, hs⟩ := inv_finishReadLoop keys (freed ++ [key]) touched
        (h.dropFree { e with readCount := e.readCount - 1 } he hc.1 rfl)
      exact ⟨l1', hl, hinv, (shrinks_freeEntry _ _ _).trans hs⟩
    · obtain ⟨l1', hl, hinv, hs⟩ := inv_finishReadLoop keys freed (touched ++ [key])
        (h.drop he hc)
      exact ⟨l1', hl, hinv, hs.after (shrinks_setEntry he rfl id)⟩

/-- Dropping holds one has. -/
theorem inv_finishRead {keys : List ChunkKey} (h : l1.Inv (↑keys + H) S Ok) :
    ∃ l1', l1.finishRead keys = .returned l1' () ∧ l1'.Inv H S Ok ∧ l1.Shrinks l1' :=
  inv_finishReadLoop keys [] [] h

theorem inv_promote : ∀ (keys : List ChunkKey) {l1 : L1Manager}, l1.Inv H S Ok →
    (l1.promote keys).Inv H S Ok ∧ l1.Shrinks (l1.promote keys)
  | [], l1, h => ⟨h, Shrinks.refl l1⟩
  | key :: keys, l1, h => by
    rcases he : l1.entries.get? key with _ | e
    · simpa only [promote, he] using inv_promote keys h
    · obtain ⟨h1, h2⟩ := inv_promote keys (h.promoteEntry he)
      simp only [promote, he]
      exact ⟨h1, h2.after (shrinks_setEntry he rfl id)⟩

/-! ## Deleting -/

theorem inv_deleteLoop : ∀ (keys deleted : List ChunkKey) {l1 : L1Manager}, l1.Inv H S Ok →
    (delete.loop false l1 keys deleted).2.Inv H S Ok ∧
      l1.Shrinks (delete.loop false l1 keys deleted).2
  | [], deleted, l1, h => by
    simp only [delete.loop]
    split_ifs
    · exact ⟨h.notify _ _, (Shrinks.refl l1).notify _ _⟩
    · exact ⟨h, Shrinks.refl l1⟩
  | key :: keys, deleted, l1, h => by
    rcases he : l1.entries.get? key with _ | e
    · simpa only [delete.loop, he] using inv_deleteLoop keys deleted h
    · simp only [delete.loop, he, Bool.not_false, Bool.and_true]
      rcases hu : e.unlocked with _ | _
      · simpa using inv_deleteLoop keys deleted h
      · obtain ⟨h1, h2⟩ := inv_deleteLoop keys (deleted ++ [key]) (h.deleteUnlocked he hu)
        simpa using ⟨h1, (shrinks_freeEntry l1 key e).trans h2⟩

/-- Eviction. -/
theorem inv_delete (h : l1.Inv H S Ok) (keys : List ChunkKey) :
    (l1.delete keys false).2.Inv H S Ok ∧ l1.Shrinks (l1.delete keys false).2 :=
  inv_deleteLoop keys [] h

theorem inv_deleteSlotsLoop : ∀ (xs : List Slot) (deleted : List ChunkKey) {l1 : L1Manager},
    l1.Inv H (↑xs + S) Ok →
    (delete.loop true l1 (xs.map Slot.key) deleted).2.Inv H S Ok ∧
      l1.Shrinks (delete.loop true l1 (xs.map Slot.key) deleted).2 ∧
      ∀ obj : MemoryObj, (obj.offset ∈ l1.allocator.freeList obj.nbytes ∨ ∃ x ∈ xs, x.obj = obj) →
        obj.offset ∈ (delete.loop true l1 (xs.map Slot.key) deleted).2.allocator.freeList obj.nbytes
  | [], deleted, l1, h => by
    simp only [Multiset.coe_nil, zero_add] at h
    have hfree : ∀ obj : MemoryObj, (obj.offset ∈ l1.allocator.freeList obj.nbytes ∨
        ∃ x ∈ ([] : List Slot), x.obj = obj) → obj.offset ∈ l1.allocator.freeList obj.nbytes := by
      rintro obj (hobj | ⟨x, hx, -⟩)
      · exact hobj
      · cases hx
    simp only [List.map_nil, delete.loop]
    split_ifs
    · exact ⟨h.notify _ _, (Shrinks.refl l1).notify _ _, hfree⟩
    · exact ⟨h, Shrinks.refl l1, hfree⟩
  | x :: xs, deleted, l1, h => by
    rw [← Multiset.cons_coe, Multiset.cons_add] at h
    obtain ⟨e, he, -, hobj⟩ := h.entry_of_slot (Multiset.mem_cons_self x _)
    obtain ⟨h1, h2, h3⟩ := inv_deleteSlotsLoop xs (deleted ++ [x.key]) (h.deleteSlot he)
    simp only [List.map_cons, delete.loop, he, Bool.not_true, Bool.and_false, Bool.false_eq_true,
      if_false]
    refine ⟨h1, (shrinks_freeEntry l1 x.key e).trans h2, fun obj hor => h3 obj ?_⟩
    rcases hor with hmem | ⟨y, hy, rfl⟩
    · exact Or.inl (PoolAllocator.mem_freeList_free (Or.inr hmem))
    · rcases List.mem_cons.mp hy with rfl | hy
      · exact Or.inl (PoolAllocator.mem_freeList_free (Or.inl hobj.symm))
      · exact Or.inr ⟨y, hy, rfl⟩

/-- The prefetcher removes its unfilled slots; their slices go back to the free lists. -/
theorem inv_deleteSlots {xs : List Slot} (h : l1.Inv H (↑xs + S) Ok) :
    (l1.delete (xs.map Slot.key) true).2.Inv H S Ok ∧
      l1.Shrinks (l1.delete (xs.map Slot.key) true).2 ∧
      ∀ x ∈ xs, x.obj.offset ∈
        (l1.delete (xs.map Slot.key) true).2.allocator.freeList x.obj.nbytes := by
  obtain ⟨h1, h2, h3⟩ := inv_deleteSlotsLoop xs [] h
  exact ⟨h1, h2, fun x hx => h3 x.obj (Or.inr ⟨x, hx, rfl⟩)⟩

theorem delete_loop_get? : ∀ (keys deleted : List ChunkKey) (l1 : L1Manager) (k : ChunkKey),
    (k ∈ keys ∨ l1.entries.get? k = none) →
    (delete.loop true l1 keys deleted).2.entries.get? k = none
  | [], deleted, l1, k, h => by
    simp only [delete.loop]
    have hk : l1.entries.get? k = none := h.resolve_left List.not_mem_nil
    split_ifs <;> exact hk
  | key :: keys, deleted, l1, k, h => by
    simp only [delete.loop]
    split
    · rename_i he
      refine delete_loop_get? keys deleted l1 k ?_
      rcases h with h | h
      · rcases List.mem_cons.mp h with rfl | h
        · exact Or.inr he
        · exact Or.inl h
      · exact Or.inr h
    · rename_i e he
      simp only [Bool.not_true, Bool.and_false, Bool.false_eq_true, if_false]
      refine delete_loop_get? keys _ _ k ?_
      rw [freeEntry, OrderedDict.get?_erase]
      rcases h with h | h
      · rcases List.mem_cons.mp h with rfl | h
        · exact Or.inr (if_pos rfl)
        · exact Or.inl h
      · split_ifs
        · exact Or.inr rfl
        · exact Or.inr h

/-- A forced delete leaves none of its keys. -/
theorem get?_delete_force (l1 : L1Manager) {keys : List ChunkKey} {k : ChunkKey} (h : k ∈ keys) :
    (l1.delete keys true).2.entries.get? k = none :=
  delete_loop_get? keys [] l1 k (Or.inl h)

end L1Manager

end MiniLlmcache
