import MiniLlmcache.Background

/-!
# What a STORE leaves behind

The handler of a STORE run to its end with no other thread in between : it reserves every
missing key of its operation, copies the blobs it brought, and releases the write locks of the
keys that got one.

`Clean` : what was in the cache is as before, and a key that was missing is readable with a whole
blob, or absent with its memory returned. `store_clean_iff` : a STORE that gets its slots is clean
exactly when each missing key comes with a blob and these blobs have the instance's chunk size.
There is no path that gives a slot back, so a key without a blob stays write-locked, and after a
blob of another size all the new keys do.
-/

namespace MiniLlmcache

namespace L1Manager

variable {l1 : L1Manager}

/-- The entries' slices are in use : the pool does not hand them out again. -/
def InUse (l1 : L1Manager) : Prop := ∃ live, l1.allocator.Inv live ∧ l1.objs ⊆ live

/-- The bytes in use that belong to no entry. -/
def unowned (l1 : L1Manager) : ℤ :=
  l1.allocator.usedBytes - ((l1.objs.map MemoryObj.nbytes).sum : ℕ)

/-- `[key for key in keys if key not in self.entries]`. -/
def missing (l1 : L1Manager) (keys : List ChunkKey) : List ChunkKey :=
  keys.filter fun key => !l1.entries.contains key

/-- What a STORE of `chunks` for `keys` may leave. -/
structure Clean (l1 l1' : L1Manager) (keys : List ChunkKey) (chunks : List Bytes) : Prop where
  kept : ∀ k e, l1.entries.get? k = some e →
    l1'.entries.get? k = some e ∧ l1'.bytes e.obj = l1.bytes e.obj
  settled : ∀ k ∈ keys, l1.entries.get? k = none →
    (∃ e blob, l1'.entries.get? k = some e ∧ e.readable = true ∧ (k, blob) ∈ keys.zip chunks ∧
      l1'.bytes e.obj = blob) ∨
    (l1'.entries.get? k = none ∧ l1'.unowned = l1.unowned)
  others : ∀ k ∉ keys, l1.entries.get? k = none → l1'.entries.get? k = none

theorem mem_missing {keys : List ChunkKey} {k : ChunkKey} :
    k ∈ l1.missing keys ↔ k ∈ keys ∧ l1.entries.get? k = none := by
  rw [missing, List.mem_filter, Bool.not_eq_true', OrderedDict.contains_eq_false_iff]

/-- A clean STORE leaves no entry of its own locked. -/
theorem Clean.readable {l1' : L1Manager} {keys : List ChunkKey} {chunks : List Bytes}
    (h : l1.Clean l1' keys chunks) {k : ChunkKey} {e : Entry} (hnone : l1.entries.get? k = none)
    (he : l1'.entries.get? k = some e) : e.readable = true := by
  by_cases hk : k ∈ keys
  · rcases h.settled k hk hnone with ⟨e', _, he', hr, -⟩ | ⟨habsent, -⟩
    · rw [he] at he'
      cases he'
      exact hr
    · rw [he] at habsent
      cases habsent
  · rw [h.others k hk hnone] at he
    cases he

theorem Inv.inUse {H : Multiset ChunkKey} {S : Multiset Slot} {Ok : ChunkKey → Bytes → Prop}
    (h : l1.Inv H S Ok) : l1.InUse := ⟨l1.objs, h.alloc, fun _ ho => ho⟩

theorem mem_objs {k : ChunkKey} {e : Entry} (he : l1.entries.get? k = some e) : e.obj ∈ l1.objs :=
  List.mem_map.mpr ⟨(k, e), OrderedDict.get?_eq_some_iff.mp he, rfl⟩

/-! ## The slots of a reservation -/

/-- The slice each missing key gets; of equal keys the last one decides. -/
def slices (l1 : L1Manager) (keys : List ChunkKey) (objs : List MemoryObj) :
    OrderedDict ChunkKey MemoryObj :=
  OrderedDict.empty.setAll ((l1.missing keys).zip objs)

theorem entries_insertMissing (t : Bool) : ∀ (ps : List (ChunkKey × MemoryObj)) (l1 : L1Manager),
    (l1.insertMissing t ps).entries =
      l1.entries.setAll (ps.map fun p => (p.1, (⟨p.2, true, 0, t⟩ : Entry)))
  | [], _ => rfl
  | (_, _) :: ps, _ => entries_insertMissing t ps _

theorem allocator_insertMissing (t : Bool) : ∀ (ps : List (ChunkKey × MemoryObj)) (l1 : L1Manager),
    (l1.insertMissing t ps).allocator = l1.allocator
  | [], _ => rfl
  | (_, _) :: ps, _ => allocator_insertMissing t ps _

variable {keys : List ChunkKey} {n : ℕ} {t : Bool} {objs : List MemoryObj} {a : PoolAllocator}

/-- A reservation that the pool cannot satisfy. -/
theorem reserveWrite_of_none (ha : l1.allocator.allocate (l1.missing keys).length n = (none, a)) :
    l1.reserveWrite keys n t = (.fromKeys keys none, { l1 with allocator := a }) := by
  rw [missing] at ha
  simp only [reserveWrite, ha]

theorem reserveWrite_of_some
    (ha : l1.allocator.allocate (l1.missing keys).length n = (some objs, a)) :
    (∀ k, reservedObj (l1.reserveWrite keys n t).1 k = (l1.slices keys objs).get? k) ∧
    (l1.reserveWrite keys n t).2.allocator = a ∧
    ∀ k, (l1.reserveWrite keys n t).2.entries.get? k =
      (((l1.slices keys objs).get? k).map fun obj => (⟨obj, true, 0, t⟩ : Entry)).or
        (l1.entries.get? k) := by
  have hres : l1.reserveWrite keys n t =
      ((OrderedDict.fromKeys keys none).setAll
        (((l1.missing keys).zip objs).map fun p => (p.1, some p.2)),
        insertMissing { l1 with allocator := a } t ((l1.missing keys).zip objs)) := by
    rw [missing] at ha ⊢
    simp only [reserveWrite, ha]
  rw [hres]
  refine ⟨fun k => ?_, allocator_insertMissing _ _ _, fun k => ?_⟩
  · rw [reservedObj, OrderedDict.get?_setAll, OrderedDict.get?_empty_setAll_map,
      OrderedDict.get?_fromKeys, slices]
    rcases (OrderedDict.empty.setAll ((l1.missing keys).zip objs)).get? k with _ | obj
    · split_ifs <;> rfl
    · rfl
  · rw [entries_insertMissing, OrderedDict.get?_setAll, slices, ← OrderedDict.get?_empty_setAll_map]

/-- The slices handed out : one for each missing key, of the wanted size, apart from each other
and from what was in use. -/
structure Slots (l1 : L1Manager) (keys : List ChunkKey) (n : ℕ) (slots : OrderedDict ChunkKey
    MemoryObj) : Prop where
  get?_isSome : ∀ k, (slots.get? k).isSome ↔ k ∈ l1.missing keys
  nbytes : ∀ k obj, slots.get? k = some obj → obj.nbytes = n
  disjoint : ∀ k k' obj obj', slots.get? k = some obj → slots.get? k' = some obj' → k ≠ k' →
    obj.Disjoint obj'
  fresh : ∀ k obj k' e, slots.get? k = some obj → l1.entries.get? k' = some e →
    obj.Disjoint e.obj

theorem slots_of_allocate (h : l1.InUse)
    (ha : l1.allocator.allocate (l1.missing keys).length n = (some objs, a)) :
    l1.Slots keys n (l1.slices keys objs) := by
  obtain ⟨live, hinv, hsub⟩ := h
  obtain ⟨hlen, hn, hinv'⟩ := PoolAllocator.inv_allocate_some hinv ha
  have hmem : ∀ {k obj}, (l1.slices keys objs).get? k = some obj →
      (k, obj) ∈ (l1.missing keys).zip objs := OrderedDict.mem_of_get?_empty_setAll
  have hpair := List.pairwise_append.mp (List.pairwise_append.mp hinv'.tiles.disjoint).1
  have hzip : ((l1.missing keys).zip objs).Pairwise fun p q => p.2.Disjoint q.2 := by
    rw [← List.pairwise_map, List.map_snd_zip hlen.le]
    exact hpair.2.1
  refine ⟨fun k => ?_, fun k obj ho => hn _ (List.of_mem_zip (hmem ho)).2, ?_, ?_⟩
  · rw [Option.isSome_iff_ne_none, slices, ne_eq, OrderedDict.get?_empty_setAll_eq_none, not_not,
      List.map_fst_zip hlen.ge]
  · intro k k' obj obj' ho ho' hne
    have hsymm : Std.Symm fun p q : ChunkKey × MemoryObj => p.2.Disjoint q.2 :=
      ⟨fun _ _ hd => hd.symm⟩
    exact hzip.forall (hmem ho) (hmem ho') fun e => hne (congrArg Prod.fst e)
  · intro k obj k' e ho he
    exact (hpair.2.2 _ (hsub (mem_objs he)) _ (List.of_mem_zip (hmem ho)).2).symm

/-! ## Releasing the write locks -/

/-- `finish_write` of keys that are all there. -/
theorem finishWrite_of_present (keys : List ChunkKey) :
    ∀ (rest : List ChunkKey) (l1 : L1Manager), (∀ k ∈ rest, (l1.entries.get? k).isSome) →
      ∃ l1', finishWrite.loop keys l1 rest = .returned l1' () ∧ l1'.allocator = l1.allocator ∧
        ∀ k, l1'.entries.get? k = (l1.entries.get? k).map fun e =>
          if k ∈ rest then { e with writeLocked := false } else e
  | [], l1, _ => ⟨_, rfl, rfl, fun k => by simp [notify]⟩
  | key :: rest, l1, h => by
    obtain ⟨e, he⟩ := Option.isSome_iff_exists.mp (h key List.mem_cons_self)
    set l1₁ := l1.setEntry key { e with writeLocked := false } with hl1₁
    have hget : ∀ k, l1₁.entries.get? k =
        if key = k then some { e with writeLocked := false } else l1.entries.get? k :=
      fun k => OrderedDict.get?_set _ _ _ _
    obtain ⟨l1', hloop, halloc, hentries⟩ :=
      finishWrite_of_present keys rest l1₁ fun k hk => by
        rw [hget]
        split_ifs
        · rfl
        · exact h k (List.mem_cons_of_mem _ hk)
    refine ⟨l1', ?_, halloc, fun k => ?_⟩
    · simp only [finishWrite.loop, he]
      exact hloop
    · rw [hentries, hget]
      by_cases hk : key = k
      · subst hk
        simp [he]
      · simp [hk, Ne.symm hk]

end L1Manager

/-! ## The copy loop -/

namespace CacheServer

variable {srv : CacheServer}

/-- The server once a STORE of `chunks` has reserved its keys. -/
def reserved (srv : CacheServer) (keys : List ChunkKey) (chunkNbytes : ℕ) (chunks : List Bytes) :
    CacheServer :=
  { srv with
    carried := srv.carried ++ keys.zip chunks
    l1 := (srv.l1.reserveWrite keys chunkNbytes false).2 }

/-- The copies of a STORE, one after the other. -/
def fillAll (srv : CacheServer) (items : List StoreItem) : CacheServer :=
  items.foldl (fun srv item => srv.fill item.key item.obj item.blob) srv

theorem entries_fillAll : ∀ (items : List StoreItem) (srv : CacheServer),
    (srv.fillAll items).l1.entries = srv.l1.entries
  | [], _ => rfl
  | _ :: items, _ => entries_fillAll items _

theorem bytes_fillAll_of_disjoint {obj : MemoryObj} : ∀ (items : List StoreItem)
    (srv : CacheServer), (∀ item ∈ items, item.blob.length = item.obj.nbytes ∧
      item.obj.Disjoint obj) → (srv.fillAll items).l1.bytes obj = srv.l1.bytes obj
  | [], _, _ => rfl
  | item :: items, srv, h => by
    obtain ⟨hlen, hd⟩ := h item List.mem_cons_self
    have hrest : (srv.fillAll (item :: items)).l1.bytes obj =
        (srv.fill item.key item.obj item.blob).l1.bytes obj :=
      bytes_fillAll_of_disjoint items _ fun x hx => h x (List.mem_cons_of_mem _ hx)
    rw [hrest]
    exact PoolAllocator.bytes_copy_of_disjoint _ hlen hd

/-- After the copies each slice holds the last blob of its key. -/
theorem bytes_fillAll {k : ChunkKey} {obj : MemoryObj} : ∀ (items : List StoreItem)
    (srv : CacheServer), (∀ item ∈ items, item.blob.length = item.obj.nbytes ∧
      (item.key = k → item.obj = obj) ∧ (item.key ≠ k → item.obj.Disjoint obj)) →
    k ∈ items.map StoreItem.key →
    ∃ item ∈ items, item.key = k ∧ (srv.fillAll items).l1.bytes obj = item.blob
  | [], _, _, hk => by simp at hk
  | item :: items, srv, h, hk => by
    have hrest : ∀ x ∈ items, _ := fun x hx => h x (List.mem_cons_of_mem _ hx)
    by_cases hin : k ∈ items.map StoreItem.key
    · obtain ⟨x, hx, hxk, hbytes⟩ :=
        bytes_fillAll items (srv.fill item.key item.obj item.blob) hrest hin
      exact ⟨x, List.mem_cons_of_mem _ hx, hxk, hbytes⟩
    · obtain rfl : k = item.key := by simpa [hin] using hk
      obtain ⟨hlen, hobj, -⟩ := h item List.mem_cons_self
      obtain rfl := hobj rfl
      refine ⟨item, List.mem_cons_self, rfl, ?_⟩
      have hlater : (srv.fillAll (item :: items)).l1.bytes item.obj =
          (srv.fill item.key item.obj item.blob).l1.bytes item.obj :=
        bytes_fillAll_of_disjoint items _ fun x hx => by
          refine ⟨(hrest x hx).1, (hrest x hx).2.2 fun e => hin ?_⟩
          exact List.mem_map.mpr ⟨x, hx, e⟩
      rw [hlater]
      exact PoolAllocator.bytes_copy_self _ hlen

end CacheServer

/-! ## Clean or not -/

namespace L1Manager

variable {l1 l1' : L1Manager} {keys : List ChunkKey} {chunks : List Bytes} {n : ℕ}

/-- A new key that stays write-locked. -/
theorem not_clean_of_locked {k : ChunkKey} {e : Entry} (hk : k ∈ l1.missing keys)
    (he : l1'.entries.get? k = some e) (hw : e.writeLocked = true) :
    ¬l1.Clean l1' keys chunks := by
  intro h
  have hr := h.readable (mem_missing.mp hk).2 he
  rw [Entry.readable, hw] at hr
  cases hr

/-- What was reserved : the missing keys are write-locked over their slots. -/
structure Reserved (l1 l1' : L1Manager) (slots : OrderedDict ChunkKey MemoryObj) : Prop where
  pool : l1'.allocator.pool = l1.allocator.pool
  entries : ∀ k, l1'.entries.get? k =
    ((slots.get? k).map fun obj => (⟨obj, true, 0, false⟩ : Entry)).or (l1.entries.get? k)

theorem Slots.get?_eq_none {slots : OrderedDict ChunkKey MemoryObj} (h : l1.Slots keys n slots)
    {k : ChunkKey} {e : Entry} (he : l1.entries.get? k = some e) : slots.get? k = none := by
  by_contra hne
  have hmem := (h.get?_isSome k).mp (Option.isSome_iff_ne_none.mpr hne)
  rw [(mem_missing.mp hmem).2] at he
  cases he

/-- After the copies and the release : clean, if every missing key got its blob. -/
theorem clean_iff_of_filled {slots : OrderedDict ChunkKey MemoryObj} {srv : CacheServer}
    {items : List StoreItem} (hslots : l1.Slots keys n slots) (hres : l1.Reserved srv.l1 slots)
    (hitems : ∀ item ∈ items, (item.key, item.blob) ∈ keys.zip chunks ∧
      slots.get? item.key = some item.obj ∧ item.blob.length = item.obj.nbytes)
    (halloc : l1'.allocator = (srv.fillAll items).l1.allocator)
    (hentries : ∀ k, l1'.entries.get? k = (srv.l1.entries.get? k).map fun e =>
      if k ∈ items.map StoreItem.key then { e with writeLocked := false } else e) :
    l1.Clean l1' keys chunks ↔ ∀ k ∈ l1.missing keys, k ∈ items.map StoreItem.key := by
  have hbytes : ∀ obj, l1'.bytes obj = (srv.fillAll items).l1.bytes obj := fun obj => by
    rw [bytes, halloc, bytes]
  have hnew : ∀ k ∈ l1.missing keys, ∃ obj, slots.get? k = some obj ∧
      l1'.entries.get? k = some ⟨obj, !decide (k ∈ items.map StoreItem.key), 0, false⟩ := by
    intro k hk
    obtain ⟨obj, hobj⟩ := Option.isSome_iff_exists.mp ((hslots.get?_isSome k).mpr hk)
    refine ⟨obj, hobj, ?_⟩
    rw [hentries, hres.entries, hobj]
    by_cases hin : k ∈ items.map StoreItem.key <;> simp [hin]
  constructor
  · intro h k hk
    by_contra hin
    obtain ⟨obj, -, he⟩ := hnew k hk
    exact not_clean_of_locked hk he (by simpa using hin) h
  · intro hall
    refine ⟨fun k e he => ?_, fun k hk hnone => Or.inl ?_, fun k hk hnone => ?_⟩
    · have hno := hslots.get?_eq_none he
      have hnot : k ∉ items.map StoreItem.key := by
        intro hk
        obtain ⟨item, hitem, rfl⟩ := List.mem_map.mp hk
        rw [(hitems item hitem).2.1] at hno
        cases hno
      refine ⟨by rw [hentries, hres.entries, hno, he]; simp [hnot], ?_⟩
      rw [hbytes, CacheServer.bytes_fillAll_of_disjoint]
      · exact PoolAllocator.bytes_congr hres.pool _
      · intro item hitem
        obtain ⟨-, hobj, hlen⟩ := hitems item hitem
        exact ⟨hlen, hslots.fresh _ _ _ _ hobj he⟩
    · have hmiss := mem_missing.mpr ⟨hk, hnone⟩
      obtain ⟨obj, hobj, he⟩ := hnew k hmiss
      have happart : ∀ item ∈ items, item.blob.length = item.obj.nbytes ∧
          (item.key = k → item.obj = obj) ∧ (item.key ≠ k → item.obj.Disjoint obj) := by
        intro item hitem
        obtain ⟨-, hobj', hlen⟩ := hitems item hitem
        refine ⟨hlen, ?_, fun hne => hslots.disjoint _ _ _ _ hobj' hobj hne⟩
        rintro rfl
        exact Option.some.inj (hobj'.symm.trans hobj)
      obtain ⟨item, hitem, rfl, hdata⟩ := CacheServer.bytes_fillAll items srv happart (hall k hmiss)
      refine ⟨_, item.blob, he, ?_, (hitems item hitem).1, (hbytes obj).trans hdata⟩
      simp [Entry.readable, hall _ hmiss]
    · have hno : slots.get? k = none := by
        by_contra hne
        exact hk (mem_missing.mp ((hslots.get?_isSome k).mp (Option.isSome_iff_ne_none.mpr hne))).1
      rw [hentries, hres.entries, hno, hnone]
      rfl

end L1Manager

/-! ## A handler alone -/

namespace Handler

variable (blake3 : Bytes → Bytes)

/-- At most `n` steps of one handler. -/
def runFor : ℕ → CacheServer × Handler → CacheServer × Handler
  | 0, s => s
  | n + 1, s =>
    match s.2.step blake3 s.1 with
    | none => s
    | some s' => runFor n s'

variable {blake3}

@[simp] theorem runFor_done (n : ℕ) (srv : CacheServer) (reply : Reply) :
    runFor blake3 n (srv, done reply) = (srv, done reply) := by
  cases n <;> rfl

/-- Every item of the copy loop has a blob of its slice's length. -/
theorem runFor_storeCopy : ∀ (todo filled : List StoreItem) (srv : CacheServer) (n : ℕ),
    (∀ item ∈ todo, item.blob.length = item.obj.nbytes) →
    runFor blake3 (todo.length + n) (srv, storeCopy filled todo) =
      runFor blake3 n (srv.fillAll todo, storeCopy (filled ++ todo) [])
  | [], filled, srv, n, _ => by simp [CacheServer.fillAll]
  | item :: todo, filled, srv, n, h => by
    have hitem := h item List.mem_cons_self
    rw [List.length_cons, Nat.succ_add]
    simp only [runFor, step, hitem, if_true]
    rw [runFor_storeCopy todo _ _ n fun x hx => h x (List.mem_cons_of_mem _ hx)]
    simp [CacheServer.fillAll]

/-- At a blob of another length the copy loop raises. -/
theorem runFor_storeCopy_of_wrong : ∀ (todo filled : List StoreItem) (srv : CacheServer),
    (∃ item ∈ todo, item.blob.length ≠ item.obj.nbytes) →
    ∃ good, good <+: todo ∧ ∀ n ≥ todo.length, runFor blake3 n (srv, storeCopy filled todo) =
      (srv.fillAll good, done (.error .valueError))
  | [], _, _, h => by simp at h
  | item :: todo, filled, srv, h => by
    by_cases hitem : item.blob.length = item.obj.nbytes
    · obtain ⟨good, hgood, hrun⟩ := runFor_storeCopy_of_wrong todo (filled ++ [item])
        (srv.fill item.key item.obj item.blob) (by simpa [hitem] using h)
      refine ⟨item :: good, List.cons_prefix_cons.mpr ⟨rfl, hgood⟩, fun n hn => ?_⟩
      obtain ⟨n, rfl⟩ : ∃ m, n = m + 1 := ⟨n - 1, by simp at hn; omega⟩
      simp only [runFor, step, hitem, if_true]
      exact hrun n (by simpa using hn)
    · refine ⟨[], List.nil_prefix, fun n hn => ?_⟩
      obtain ⟨n, rfl⟩ : ∃ m, n = m + 1 := ⟨n - 1, by simp at hn; omega⟩
      simp [runFor, step, hitem, CacheServer.fillAll]

/-- The reservation of a STORE whose instance is registered. -/
theorem runFor_store {srv : CacheServer} {p : TransferPayload} {inst : EngineInstance}
    (hinst : srv.instances.get? p.instanceId = some inst) (n : ℕ) :
    runFor blake3 (n + 2) (srv, start (.store p)) = runFor blake3 n
      (srv.reserved (srv.opKeys blake3 p.op inst) inst.chunkNbytes p.chunks,
        storeCopy [] (storeItems
          (srv.l1.reserveWrite (srv.opKeys blake3 p.op inst) inst.chunkNbytes false).1
          (srv.opKeys blake3 p.op inst) p.chunks)) := by
  simp only [runFor, step, dispatch, hinst, CacheServer.reserved]

theorem length_storeItems_le (reserved : OrderedDict ChunkKey (Option MemoryObj))
    (keys : List ChunkKey) (chunks : List Bytes) :
    (storeItems reserved keys chunks).length ≤ chunks.length := by
  refine (List.length_filterMap_le _ _).trans ?_
  rw [List.length_zip]
  exact min_le_right _ _

/-- The release at the end of the copy loop. -/
theorem runFor_finishWrite (srv : CacheServer) (filled : List StoreItem)
    (h : ∀ k ∈ filled.map StoreItem.key, (srv.l1.entries.get? k).isSome) :
    ∃ l1', l1'.allocator = srv.l1.allocator ∧
      (∀ k, l1'.entries.get? k = (srv.l1.entries.get? k).map fun e =>
        if k ∈ filled.map StoreItem.key then { e with writeLocked := false } else e) ∧
      ∀ n ≥ 1, runFor blake3 n (srv, storeCopy filled []) =
        ({ srv with l1 := l1' }, done (.bool true)) := by
  obtain ⟨l1', hloop, halloc, hentries⟩ :=
    L1Manager.finishWrite_of_present (filled.map StoreItem.key) _ _ h
  refine ⟨l1', halloc, hentries, fun n hn => ?_⟩
  obtain ⟨n, rfl⟩ : ∃ m, n = m + 1 := ⟨n - 1, by omega⟩
  have hfin : srv.l1.finishWrite (filled.map StoreItem.key) = .returned l1' () := hloop
  simp only [runFor, step, hfin, runFor_done]

end Handler

namespace CacheServer

variable {blake3 : Bytes → Bytes} {srv : CacheServer} {p : TransferPayload} {inst : EngineInstance}

/-- A STORE that gets no slots changes no entry and no byte. -/
theorem store_without_slots (hinst : srv.instances.get? p.instanceId = some inst)
    (hfull : (srv.l1.allocator.allocate (srv.l1.missing (srv.opKeys blake3 p.op inst)).length
      inst.chunkNbytes).1 = none) :
    ∃ srv' reply, (∀ n ≥ p.chunks.length + 3,
        Handler.runFor blake3 n (srv, .start (.store p)) = (srv', .done reply)) ∧
      srv.l1.Clean srv'.l1 (srv.opKeys blake3 p.op inst) p.chunks := by
  set keys := srv.opKeys blake3 p.op inst with hkeys
  obtain ⟨a, ha⟩ : ∃ a, srv.l1.allocator.allocate (srv.l1.missing keys).length
      inst.chunkNbytes = (none, a) := ⟨_, Prod.ext hfull rfl⟩
  have hres := L1Manager.reserveWrite_of_none (t := false) ha
  have hitems : Handler.storeItems (srv.l1.reserveWrite keys inst.chunkNbytes false).1 keys
      p.chunks = [] := by
    refine List.filterMap_eq_nil_iff.mpr fun q _ => ?_
    rw [hres, L1Manager.reservedObj, OrderedDict.get?_fromKeys]
    split_ifs <;> rfl
  set srv₁ := srv.reserved keys inst.chunkNbytes p.chunks with hsrv₁
  have hl1 : srv₁.l1 = { srv.l1 with allocator := a } := congrArg Prod.snd hres
  have hpool := PoolAllocator.pool_allocate srv.l1.allocator
    (srv.l1.missing keys).length inst.chunkNbytes
  rw [ha] at hpool
  -- without slots the copy loop is empty, and the release announces no key
  set l1' := (srv₁.l1.notify .onCreated []).notify .onWriteFinished [] with hl1'
  have hentries : l1'.entries = srv.l1.entries := by
    have hnotify : l1'.entries = srv₁.l1.entries := rfl
    rw [hnotify, hl1]
  have halloc : l1'.allocator = a := by
    have hnotify : l1'.allocator = srv₁.l1.allocator := rfl
    rw [hnotify, hl1]
  refine ⟨{ srv₁ with l1 := l1' }, .bool true, fun n hn => ?_,
    fun k e he => ⟨by rw [hentries, he], ?_⟩, fun k _ hnone => Or.inr ⟨by rw [hentries, hnone], ?_⟩,
    fun k _ hnone => by rw [hentries, hnone]⟩
  · obtain ⟨n, rfl⟩ : ∃ m, n = m + 1 + 2 := ⟨n - 3, by omega⟩
    rw [Handler.runFor_store hinst, ← hkeys, hitems, ← hsrv₁]
    exact Handler.runFor_done n _ _
  · exact PoolAllocator.bytes_congr (by rw [halloc, hpool]) _
  · rw [L1Manager.unowned, L1Manager.unowned, L1Manager.objs, hentries, halloc,
      PoolAllocator.usedBytes_allocate_none ha]
    rfl

/-- A STORE that gets its slots is clean exactly when each missing key comes with a blob of the
chunk size, and with no other. -/
theorem store_with_slots (h : srv.l1.InUse) (hinst : srv.instances.get? p.instanceId = some inst)
    {objs : List MemoryObj} {a : PoolAllocator}
    (ha : srv.l1.allocator.allocate (srv.l1.missing (srv.opKeys blake3 p.op inst)).length
      inst.chunkNbytes = (some objs, a)) :
    ∃ srv' reply, (∀ n ≥ p.chunks.length + 3,
        Handler.runFor blake3 n (srv, .start (.store p)) = (srv', .done reply)) ∧
      (srv.l1.Clean srv'.l1 (srv.opKeys blake3 p.op inst) p.chunks ↔
        ∀ k ∈ srv.l1.missing (srv.opKeys blake3 p.op inst),
          (∃ blob, (k, blob) ∈ (srv.opKeys blake3 p.op inst).zip p.chunks) ∧
          ∀ blob, (k, blob) ∈ (srv.opKeys blake3 p.op inst).zip p.chunks →
            blob.length = inst.chunkNbytes) := by
  set keys := srv.opKeys blake3 p.op inst with hkeys
  set slots := srv.l1.slices keys objs with hslotsdef
  have hslots : srv.l1.Slots keys inst.chunkNbytes slots := L1Manager.slots_of_allocate h ha
  obtain ⟨hobj, halloc, hentries⟩ := L1Manager.reserveWrite_of_some (t := false) ha
  have hpool := PoolAllocator.pool_allocate srv.l1.allocator
    (srv.l1.missing keys).length inst.chunkNbytes
  rw [ha] at hpool
  set srv₁ := srv.reserved keys inst.chunkNbytes p.chunks with hsrv₁
  have hres : srv.l1.Reserved srv₁.l1 slots := ⟨by rw [← hpool, ← halloc]; rfl, hentries⟩
  set items := Handler.storeItems (srv.l1.reserveWrite keys inst.chunkNbytes false).1 keys
    p.chunks with hitemsdef
  have hlen : items.length ≤ p.chunks.length := Handler.length_storeItems_le _ _ _
  have hmem : ∀ item ∈ items, (item.key, item.blob) ∈ keys.zip p.chunks ∧
      slots.get? item.key = some item.obj := fun item hitem => by
    obtain ⟨hzip, ho⟩ := Handler.mem_storeItems hitem
    exact ⟨hzip, (hobj _).symm.trans ho⟩
  have hitem : ∀ k ∈ srv.l1.missing keys, ∀ blob, (k, blob) ∈ keys.zip p.chunks →
      ∃ item ∈ items, item.key = k ∧ item.blob = blob ∧ item.obj.nbytes = inst.chunkNbytes := by
    intro k hk blob hblob
    obtain ⟨obj, ho⟩ := Option.isSome_iff_exists.mp ((hslots.get?_isSome k).mpr hk)
    refine ⟨⟨k, obj, blob⟩, List.mem_filterMap.mpr ⟨(k, blob), hblob, ?_⟩, rfl, rfl,
      hslots.nbytes k obj ho⟩
    rw [hobj, ho, Option.map_some]
  have hmissing : ∀ item ∈ items, item.key ∈ srv.l1.missing keys := fun item hin => by
    refine (hslots.get?_isSome _).mp ?_
    rw [(hmem item hin).2]
    rfl
  have hstart : ∀ n, Handler.runFor blake3 (n + 2) (srv, .start (.store p)) =
      Handler.runFor blake3 n (srv₁, .storeCopy [] items) := Handler.runFor_store hinst
  by_cases hsized : ∀ item ∈ items, item.blob.length = item.obj.nbytes
  · -- every copy succeeds, and the release unlocks the keys that got a blob
    have hpresent : ∀ k ∈ items.map StoreItem.key,
        ((srv₁.fillAll items).l1.entries.get? k).isSome := by
      intro k hk
      obtain ⟨item, hin, rfl⟩ := List.mem_map.mp hk
      rw [entries_fillAll, hres.entries, (hmem item hin).2]
      rfl
    obtain ⟨l1', halloc', hentries', hrun⟩ := Handler.runFor_finishWrite _ _ hpresent
    refine ⟨{ srv₁.fillAll items with l1 := l1' }, .bool true, fun n hn => ?_, ?_⟩
    · obtain ⟨n, rfl⟩ : ∃ m, n = items.length + m + 2 := ⟨n - 2 - items.length, by omega⟩
      rw [hstart, Handler.runFor_storeCopy items [] srv₁ n hsized]
      exact hrun n (by omega)
    · rw [L1Manager.clean_iff_of_filled hslots hres
        (fun item hin => ⟨(hmem item hin).1, (hmem item hin).2, hsized item hin⟩) halloc'
        (fun k => by rw [hentries', entries_fillAll])]
      refine forall₂_congr fun k hk => ⟨fun hin => ?_, fun ⟨⟨blob, hblob⟩, _⟩ => ?_⟩
      · obtain ⟨item, hitem', rfl⟩ := List.mem_map.mp hin
        refine ⟨⟨_, (hmem item hitem').1⟩, fun blob hblob => ?_⟩
        obtain ⟨item', hin', -, rfl, hn⟩ := hitem _ hk blob hblob
        rw [hsized item' hin', hn]
      · obtain ⟨item, hin, rfl, -, -⟩ := hitem k hk blob hblob
        exact List.mem_map.mpr ⟨item, hin, rfl⟩
  · -- the first blob of another size ends the handler with every new key still locked
    push Not at hsized
    obtain ⟨good, hgood, hrun⟩ := Handler.runFor_storeCopy_of_wrong items [] srv₁ hsized
    obtain ⟨bad, hbad, hwrong⟩ := hsized
    refine ⟨srv₁.fillAll good, .error .valueError, fun n hn => ?_, ?_⟩
    · obtain ⟨n, rfl⟩ : ∃ m, n = m + 2 := ⟨n - 2, by omega⟩
      rw [hstart]
      exact hrun n (by omega)
    · have hnot : ¬srv.l1.Clean (srv₁.fillAll good).l1 keys p.chunks := by
        refine L1Manager.not_clean_of_locked (hmissing bad hbad)
          (e := ⟨bad.obj, true, 0, false⟩) ?_ rfl
        rw [entries_fillAll, hres.entries, (hmem bad hbad).2]
        rfl
      refine iff_of_false hnot fun hall => hwrong ?_
      rw [(hall _ (hmissing bad hbad)).2 _ (hmem bad hbad).1,
        hslots.nbytes _ _ (hmem bad hbad).2]

/-- A STORE always ends, and is clean exactly when the pool has no slots for it, or every missing
key comes with a blob of the chunk size and with no other. -/
theorem store_clean_iff (h : srv.l1.InUse) (hinst : srv.instances.get? p.instanceId = some inst) :
    ∃ srv' reply, (∀ n ≥ p.chunks.length + 3,
        Handler.runFor blake3 n (srv, .start (.store p)) = (srv', .done reply)) ∧
      (srv.l1.Clean srv'.l1 (srv.opKeys blake3 p.op inst) p.chunks ↔
        (srv.l1.allocator.allocate (srv.l1.missing (srv.opKeys blake3 p.op inst)).length
          inst.chunkNbytes).1 = none ∨
        ∀ k ∈ srv.l1.missing (srv.opKeys blake3 p.op inst),
          (∃ blob, (k, blob) ∈ (srv.opKeys blake3 p.op inst).zip p.chunks) ∧
          ∀ blob, (k, blob) ∈ (srv.opKeys blake3 p.op inst).zip p.chunks →
            blob.length = inst.chunkNbytes) := by
  rcases ha : srv.l1.allocator.allocate (srv.l1.missing (srv.opKeys blake3 p.op inst)).length
    inst.chunkNbytes with ⟨_ | objs, a⟩
  · obtain ⟨srv', reply, hrun, hclean⟩ := store_without_slots hinst (congrArg Prod.fst ha)
    exact ⟨srv', reply, hrun, iff_of_true hclean (Or.inl rfl)⟩
  · obtain ⟨srv', reply, hrun, hiff⟩ := store_with_slots h hinst ha
    refine ⟨srv', reply, hrun, hiff.trans ⟨Or.inr, fun hor => ?_⟩⟩
    rcases hor with hnone | hall
    · cases hnone
    · exact hall

/-- Rank 0 of `m` with chunks of two bytes, over an empty pool of four. -/
def sampleRegistered : CacheServer :=
  (new 1 4 (fun _ => 0) false).register ⟨7, "m", 0, 1, 1, 2⟩

theorem inUse_sampleRegistered : sampleRegistered.l1.InUse :=
  ⟨[], PoolAllocator.inv_new _ _, by decide⟩

/-- A STORE of two tokens that brings one chunk returns, and leaves the second key locked. -/
theorem store_leaves_lock : ∃ p inst k, sampleRegistered.l1.InUse ∧
    sampleRegistered.instances.get? p.instanceId = some inst ∧
    k ∈ sampleRegistered.l1.missing (sampleRegistered.opKeys System.sampleDigest p.op inst) ∧
    ∃ srv', Handler.runFor System.sampleDigest 4 (sampleRegistered, .start (.store p)) =
        (srv', .done (.bool true)) ∧
      (srv'.l1.entries.get? k).map Entry.writeLocked = some true ∧
      ¬sampleRegistered.l1.Clean srv'.l1
        (sampleRegistered.opKeys System.sampleDigest p.op inst) p.chunks := by
  set p : TransferPayload := ⟨"a", 7, ⟨[1, 2], [0, 1], 0, 2, 0⟩, [[5, 6]]⟩ with hp
  set inst : EngineInstance := ⟨0, "m", 1, 1, 2⟩ with hinst
  obtain ⟨k, hk⟩ : ∃ k, (sampleRegistered.opKeys System.sampleDigest p.op inst)[1]? = some k :=
    Option.isSome_iff_exists.mp (by decide)
  have hmiss : k ∈ sampleRegistered.l1.missing
      (sampleRegistered.opKeys System.sampleDigest p.op inst) :=
    L1Manager.mem_missing.mpr ⟨List.mem_of_getElem? hk, rfl⟩
  set final := Handler.runFor System.sampleDigest 4 (sampleRegistered, .start (.store p))
  have hlock : (((sampleRegistered.opKeys System.sampleDigest p.op inst)[1]?).bind fun k =>
      final.1.l1.entries.get? k).map Entry.writeLocked = some true := by decide
  rw [hk, Option.bind_some] at hlock
  obtain ⟨e, he, hw⟩ := Option.map_eq_some_iff.mp hlock
  refine ⟨p, inst, k, inUse_sampleRegistered, by decide, hmiss, final.1,
    Prod.ext rfl (by decide), hlock, L1Manager.not_clean_of_locked hmiss he hw⟩

/-- With a chunk for each of the two tokens the same STORE is clean. -/
theorem store_clean_iff_sample : ∃ srv' reply,
    (∀ n ≥ 5, Handler.runFor System.sampleDigest n (sampleRegistered,
      .start (.store ⟨"a", 7, ⟨[1, 2], [0, 1], 0, 2, 0⟩, [[5, 6], [7, 8]]⟩)) =
        (srv', .done reply)) ∧
    sampleRegistered.l1.Clean srv'.l1
      (sampleRegistered.opKeys System.sampleDigest ⟨[1, 2], [0, 1], 0, 2, 0⟩ ⟨0, "m", 1, 1, 2⟩)
      [[5, 6], [7, 8]] := by
  obtain ⟨srv', reply, hrun, hiff⟩ := @store_clean_iff System.sampleDigest sampleRegistered
    ⟨"a", 7, ⟨[1, 2], [0, 1], 0, 2, 0⟩, [[5, 6], [7, 8]]⟩ ⟨0, "m", 1, 1, 2⟩
    inUse_sampleRegistered (by decide)
  have hsized : ∀ q ∈ (sampleRegistered.opKeys System.sampleDigest ⟨[1, 2], [0, 1], 0, 2, 0⟩
      ⟨0, "m", 1, 1, 2⟩).zip [([5, 6] : Bytes), [7, 8]], q.2.length = 2 := by decide
  refine ⟨srv', reply, hrun, hiff.mpr (Or.inr fun k hk => ⟨?_, fun blob hblob => ?_⟩)⟩
  · have hkey := (L1Manager.mem_missing.mp hk).1
    have hzip : (sampleRegistered.opKeys System.sampleDigest ⟨[1, 2], [0, 1], 0, 2, 0⟩
        ⟨0, "m", 1, 1, 2⟩).length ≤ [([5, 6] : Bytes), [7, 8]].length := by decide
    rw [← List.map_fst_zip hzip, List.mem_map] at hkey
    obtain ⟨⟨_, blob⟩, hq, rfl⟩ := hkey
    exact ⟨blob, hq⟩
  · exact hsized _ hblob

end CacheServer

/-- The slices of every reachable cache are in use. -/
theorem System.Reachable.inUse {blake3 : Bytes → Bytes} {s : System} (h : s.Reachable blake3) :
    s.server.l1.InUse := by
  obtain ⟨lost, hinv⟩ := h.inv
  exact hinv.ledger.inUse

end MiniLlmcache
