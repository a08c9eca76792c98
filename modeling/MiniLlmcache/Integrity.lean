import MiniLlmcache.Holds

/-!
# What L1 holds was stored

Every readable entry of L1 holds one blob that a STORE brought for its key
(`readable_bytes_carried`), as long as an L2 adapter loads for a key only what its `store`
was given for it.

The ledger says that a readable entry holds a blob that was completely written for its
key. `Carried` closes the circle through L2 : what is written comes from a STORE or from an
adapter, what an adapter has was read from an entry that the write-back loop holds, and
that entry was readable.
-/

namespace MiniLlmcache

open L1Manager

variable {blake3 : Bytes → Bytes}

/-! ## STORE handlers -/

namespace Handler

/-- The blobs a STORE still has to write were carried by it. -/
def Brings (carried : List (ChunkKey × Bytes)) : Handler → Prop
  | storeReserve keys _ chunks => ∀ p ∈ keys.zip chunks, p ∈ carried
  | storeCopy _ todo => ∀ item ∈ todo, (item.key, item.blob) ∈ carried
  | _ => True

theorem Brings.mono {carried carried' : List (ChunkKey × Bytes)} {hd : Handler}
    (h : hd.Brings carried) (hsub : ∀ p ∈ carried, p ∈ carried') : hd.Brings carried' := by
  cases hd with
  | storeReserve => exact fun p hp => hsub p (h p hp)
  | storeCopy => exact fun item hi => hsub _ (h item hi)
  | _ => trivial

/-- A handler writes only what it carried. -/
theorem brings_step {srv srv' : CacheServer} {hd hd' : Handler}
    (h : hd.Brings srv.carried) (hs : hd.Does blake3 srv srv' hd') :
    (∀ p ∈ srv.carried, p ∈ srv'.carried) ∧
      (∀ p ∈ srv'.written, p ∈ srv.written ∨ p ∈ srv'.carried) ∧ hd'.Brings srv'.carried := by
  cases hs with
  | dispatch m =>
    cases m with
    | store p =>
      simp only [dispatch]
      split
      · exact ⟨fun _ => id, fun _ => Or.inl, trivial⟩
      · exact ⟨fun _ => List.mem_append_left _, fun _ => Or.inl,
          fun _ => List.mem_append_right _⟩
    | retrieve p =>
      simp only [dispatch]
      split <;> exact ⟨fun _ => id, fun _ => Or.inl, trivial⟩
    | _ => exact ⟨fun _ => id, fun _ => Or.inl, trivial⟩
  | reserve keys n chunks =>
    exact ⟨fun _ => id, fun _ => Or.inl, fun item hi => h _ (mem_storeItems hi).1⟩
  | @copy item filled todo hlen =>
    refine ⟨fun _ => id, fun p hp => ?_, fun item' hi => h item' (List.mem_cons_of_mem _ hi)⟩
    rcases List.mem_append.mp hp with hp | hp
    · exact Or.inl hp
    · rw [List.mem_singleton.mp hp]
      exact Or.inr (h item List.mem_cons_self)
  | @finishRead requestId released ending reply l1 hl1 =>
    split_ifs <;> exact ⟨fun _ => id, fun _ => Or.inl, trivial⟩
  | release hrel =>
    rw [CacheServer.eq_of_releaseHeld.1 _ hrel]
    exact ⟨fun _ => id, fun _ => Or.inl, trivial⟩
  | releaseFail hrel =>
    rw [CacheServer.eq_of_releaseHeld.2 _ hrel]
    exact ⟨fun _ => id, fun _ => Or.inl, trivial⟩
  | _ => exact ⟨fun _ => id, fun _ => Or.inl, trivial⟩

end Handler

/-- What adapter `i` has stored. -/
def storedAt (l2s : List Adapter) (i : ℕ) : List (ChunkKey × Bytes) :=
  (l2s[i]?).elim [] Adapter.stored

theorem storedAt_submit (l2s : List Adapter) (i j : ℕ) (task : Task) :
    storedAt (submit l2s j task) i = storedAt l2s i := by
  rw [storedAt, storedAt, submit, List.getElem?_modify]
  cases l2s[i]? with
  | none => rfl
  | some a =>
    simp only [Option.elim_some]
    split_ifs <;> rfl

theorem Worker.Does.ghosts_eq {srv srv' : CacheServer} {l2s l2s' : List Adapter} {w w' : Worker}
    (hs : w.Does srv l2s srv' l2s' w') :
    srv'.carried = srv.carried ∧ srv'.written = srv.written ∧
      ∀ i, storedAt l2s' i = storedAt l2s i := by
  cases hs with
  | submitLookup | submitLoad => exact ⟨rfl, rfl, fun i => storedAt_submit _ _ _ _⟩
  | _ => exact ⟨rfl, rfl, fun _ => rfl⟩

theorem Writeback.Does.ghosts_eq {srv srv' : CacheServer} {l2s l2s' : List Adapter}
    {w w' : Writeback} (hs : w.Does srv l2s srv' l2s' w') :
    srv'.carried = srv.carried ∧ srv'.written = srv.written ∧
      ∀ i, storedAt l2s' i = storedAt l2s i := by
  cases hs with
  | submit => exact ⟨rfl, rfl, fun i => storedAt_submit _ _ _ _⟩
  | _ => exact ⟨rfl, rfl, fun _ => rfl⟩

theorem Evictor.ghosts_eq (srv : CacheServer) (e : Evictor) :
    (e.step srv).1.carried = srv.carried ∧ (e.step srv).1.written = srv.written := by
  cases e <;> exact ⟨rfl, rfl⟩

/-! ## The write-back loop's chunks -/

namespace StoreFuture

/-- The chunks a store still has to take. -/
def todo : StoreFuture → List (ChunkKey × MemoryObj)
  | running todo => todo
  | _ => []

end StoreFuture

namespace Writeback

/-- The chunks of the batch, with the slices read. -/
def chunks : Writeback → List (ChunkKey × MemoryObj)
  | submit locked _ | dead locked _ => locked
  | _ => []

theorem mem_holds_of_mem_chunks {w : Writeback} {p : ChunkKey × MemoryObj} (h : p ∈ w.chunks) :
    p.1 ∈ w.holds := by
  cases w with
  | submit locked futures | dead locked futures =>
    exact Multiset.mem_coe.mpr (List.mem_map.mpr ⟨p, h, rfl⟩)
  | _ => cases h

theorem chunks_setFutures (w : Writeback) (fs : List StoreFuture) :
    (w.setFutures fs).chunks = w.chunks := by
  cases w <;> rfl

theorem mem_futures_setFutures {w : Writeback} {fs : List StoreFuture} {f : StoreFuture}
    (h : f ∈ (w.setFutures fs).futures) : f ∈ fs := by
  cases w with
  | submit | dead => exact h
  | _ => cases h

end Writeback

/-! ## The invariant -/

namespace System

variable {s s' : System} {lost : Multiset ChunkKey}

/-- The slot that the load under way fills next. -/
def loadTarget (s : System) : Option (ChunkKey × MemoryObj) :=
  match s.worker with
  | .loading p _ _ filled none => p.load[p.loaded + filled]?
  | _ => none

variable (blake3) in
/-- Chunk hashes do not collide, and an adapter loads for a key bytes that its `store` was
given for it. -/
def Faithful (s : System) (l : Label) : Prop :=
  s.Distinct blake3 l ∧
    match l with
    | .l2 i (.fill data true) => ∀ p ∈ s.loadTarget, (p.1, data) ∈ storedAt s.l2s i
    | _ => True

instance (s : System) (l : Label) : Decidable (s.Faithful blake3 l) := by
  unfold Faithful
  split <;> infer_instance

/-- Everything written, stored or still to be written was carried by a STORE. -/
structure Carried (s : System) : Prop where
  written : ∀ p ∈ s.server.written, p ∈ s.server.carried
  stored : ∀ i, ∀ p ∈ storedAt s.l2s i, p ∈ s.server.carried
  handlers : ∀ t m h, s.handlers.get? t = some (m, h) → h.Brings s.server.carried
  locked : ∀ p ∈ s.writeback.chunks,
    ∃ e, s.server.l1.entries.get? p.1 = some e ∧ e.obj = p.2
  running : ∀ f ∈ s.writeback.futures, ∀ p ∈ f.todo, p ∈ s.writeback.chunks

theorem carried_new (chunkSize capacity : ℕ) (pool : ℕ → UInt8) (adapters : ℕ) :
    (new chunkSize capacity pool adapters).Carried where
  written p hp := by cases hp
  stored i p hp := by
    simp only [storedAt, new, List.getElem?_replicate] at hp
    split_ifs at hp <;> cases hp
  handlers t m h hget := by cases hget
  locked p hp := by cases hp
  running f hf := by cases hf

theorem Inv.entry_of_chunk (h : s.Inv blake3 lost) {p : ChunkKey × MemoryObj}
    (hp : p ∈ s.writeback.chunks) :
    ∃ e, s.server.l1.entries.get? p.1 = some e ∧ e.writeLocked = false := by
  refine h.ledger.held p.1 ?_
  simp only [holds, Multiset.mem_add]
  exact Or.inl (Or.inr (Writeback.mem_holds_of_mem_chunks hp))

/-- The write-back loop's holds keep its slices in place. -/
theorem Carried.locked_step {lost' : Multiset ChunkKey} (h : s.Carried)
    (hinv' : s'.Inv blake3 lost') (hev : s.server.l1.Evolves s'.server.l1)
    (hw : s'.writeback.chunks = s.writeback.chunks) :
    ∀ p ∈ s'.writeback.chunks, ∃ e, s'.server.l1.entries.get? p.1 = some e ∧ e.obj = p.2 := by
  intro p hp
  obtain ⟨e', he', -⟩ := hinv'.entry_of_chunk hp
  rw [hw] at hp
  obtain ⟨e, he, hobj⟩ := h.locked p hp
  exact ⟨e', he', (hev.entry p.1 e e' he he').1.trans hobj⟩

theorem carried_handler {t : ℕ} {lost' : Multiset ChunkKey} (h : s.Carried)
    (hinv' : s'.Inv blake3 lost') (hev : s.server.l1.Evolves s'.server.l1)
    (hs : s.step blake3 (.handler t) = some s') : s'.Carried := by
  have hlocked := h.locked_step hinv' hev
  obtain ⟨m, hd, srv', hd', hget, hdoes, rfl⟩ := step_handler hs
  obtain ⟨hc, hw, hb⟩ := Handler.brings_step (h.handlers t m hd hget) hdoes
  refine ⟨?_, fun i p hp => hc p (h.stored i p hp), ?_, hlocked rfl, h.running⟩
  · intro p hp
    rcases hw p hp with hp | hp
    · exact hc p (h.written p hp)
    · exact hp
  · intro t' m' h' hget'
    rcases OrderedDict.eq_or_get?_of_set hget' with ⟨-, he⟩ | hget'
    · cases he
      exact hb
    · exact (h.handlers t' m' h' hget').mono hc

theorem carried_worker {lost' : Multiset ChunkKey} (h : s.Carried)
    (hinv' : s'.Inv blake3 lost') (hev : s.server.l1.Evolves s'.server.l1)
    (hs : s.step blake3 .worker = some s') : s'.Carried := by
  have hlocked := h.locked_step hinv' hev
  obtain ⟨srv', l2s', w', hdoes, rfl⟩ := step_worker hs
  obtain ⟨hc, hw, hstored⟩ := hdoes.ghosts_eq
  refine ⟨?_, ?_, ?_, hlocked rfl, h.running⟩
  · rw [hw, hc]
    exact h.written
  · intro i p hp
    rw [hstored] at hp
    rw [hc]
    exact h.stored i p hp
  · rw [hc]
    exact h.handlers

theorem carried_writeback {lost' : Multiset ChunkKey} (h : s.Carried) (hinv : s.Inv blake3 lost)
    (hinv' : s'.Inv blake3 lost') (hev : s.server.l1.Evolves s'.server.l1)
    (hs : s.step blake3 .writeback = some s') : s'.Carried := by
  have hlocked := h.locked_step hinv' hev
  obtain ⟨srv', l2s', w', hdoes, rfl⟩ := step_writeback hs
  obtain ⟨hc, hw, hstored⟩ := hdoes.ghosts_eq
  have hrest : (∀ p ∈ w'.chunks, ∃ e, srv'.l1.entries.get? p.1 = some e ∧ e.obj = p.2) ∧
      ∀ f ∈ w'.futures, ∀ p ∈ f.todo, p ∈ w'.chunks := by
    have hrun := h.running
    revert hlocked hrun
    generalize hwb : s.writeback = w at hdoes ⊢
    intro hlocked hrun
    cases hdoes with
    | @reserve keys _ => exact ⟨(inv_reserveRead keys hinv.ledger).2.2, nofun⟩
    | submit =>
      refine ⟨hlocked rfl, fun f hf p hp => ?_⟩
      rcases List.mem_append.mp hf with hf | hf
      · exact hrun f hf p hp
      · rw [List.mem_singleton.mp hf] at hp
        exact hp
    | raised => exact ⟨hlocked rfl, hrun⟩
    | _ => exact ⟨nofun, nofun⟩
  refine ⟨?_, ?_, ?_, hrest.1, hrest.2⟩
  · rw [hw, hc]
    exact h.written
  · intro i p hp
    rw [hstored] at hp
    rw [hc]
    exact h.stored i p hp
  · rw [hc]
    exact h.handlers

theorem storedAt_modify {l2s : List Adapter} {i j : ℕ} {f : Adapter → Adapter}
    {p : ChunkKey × Bytes} (hp : p ∈ storedAt (l2s.modify j f) i) :
    p ∈ storedAt l2s i ∨ ∃ a, l2s[i]? = some a ∧ p ∈ (f a).stored := by
  rw [storedAt, List.getElem?_modify] at hp
  rcases ha : l2s[i]? with _ | a
  · rw [ha] at hp
    cases hp
  · rw [ha] at hp
    simp only [Option.map_eq_map, Option.map_some, Option.elim_some] at hp
    split_ifs at hp
    · exact Or.inr ⟨a, rfl, hp⟩
    · exact Or.inl (by rwa [storedAt, ha])

theorem storedAt_popTask (s : System) (i j : ℕ) :
    storedAt (s.popTask j).l2s i = storedAt s.l2s i := by
  rw [storedAt, storedAt, popTask, List.getElem?_modify]
  cases s.l2s[i]? with
  | none => rfl
  | some a =>
    simp only [Option.elim_some]
    split_ifs <;> rfl

/-- A step that moves a future along and stores nothing. -/
theorem carried_of_eq (h : s.Carried) (hserver : s'.server = s.server)
    (hstored : ∀ i, storedAt s'.l2s i = storedAt s.l2s i) (hhandlers : s'.handlers = s.handlers)
    (hchunks : s'.writeback.chunks = s.writeback.chunks)
    (hrun : ∀ f ∈ s'.writeback.futures, ∀ p ∈ f.todo, p ∈ s.writeback.chunks) : s'.Carried := by
  refine ⟨?_, ?_, ?_, ?_, ?_⟩
  · rw [hserver]
    exact h.written
  · intro i p hp
    rw [hstored] at hp
    rw [hserver]
    exact h.stored i p hp
  · rw [hserver, hhandlers]
    exact h.handlers
  · rw [hserver, hchunks]
    exact h.locked
  · rw [hchunks]
    exact hrun

/-- Replacing a future by one that has less to do. -/
theorem Carried.running_set (h : s.Carried) {i : ℕ} {f : StoreFuture}
    (hf : ∀ p ∈ f.todo, p ∈ s.writeback.chunks) :
    ∀ g ∈ (s.setStore i f).writeback.futures, ∀ p ∈ g.todo, p ∈ s.writeback.chunks := by
  intro g hg p hp
  rcases List.mem_or_eq_of_mem_set (Writeback.mem_futures_setFutures hg) with hg | rfl
  · exact h.running g hg p hp
  · exact hf p hp

theorem carried_l2 {i : ℕ} {act : L2Act} {lost' : Multiset ChunkKey} (h : s.Carried)
    (hinv : s.Inv blake3 lost) (hinv' : s'.Inv blake3 lost')
    (hev : s.server.l1.Evolves s'.server.l1) (hf : s.Faithful blake3 (.l2 i act))
    (hs : s.step blake3 (.l2 i act) = some s') : s'.Carried := by
  have hlocked := h.locked_step hinv' hev
  cases l2_does hs with
  | found | lookupFail =>
    refine carried_of_eq h (server_setLookup _ _ _) (fun j => ?_) (handlers_setLookup _ _ _)
      (congrArg _ (writeback_setLookup _ _ _)) ?_
    · rw [l2s_setLookup, storedAt_popTask]
    · rw [writeback_setLookup]
      exact h.running
  | @fill p order filled key obj data hw hget hlen =>
    refine ⟨?_, h.stored, h.handlers, hlocked rfl, h.running⟩
    intro q hq
    rcases List.mem_append.mp hq with hq | hq
    · exact h.written q hq
    · have htarget : s.loadTarget = some (key, obj) := by
        rw [loadTarget, hw]
        exact hget
      rw [List.mem_singleton.mp hq]
      exact h.stored i _ (hf.2 _ htarget)
  | scribble hw hget hlen => exact ⟨h.written, h.stored, h.handlers, hlocked rfl, h.running⟩
  | loaded | loadFail =>
    exact carried_of_eq h rfl (fun j => storedAt_popTask _ _ _) rfl rfl h.running
  | @persist key obj todo hfut =>
    have hmem := h.running _ (List.mem_of_getElem? hfut)
    refine ⟨h.written, ?_, h.handlers, ?_, ?_⟩
    · intro j q hq
      rcases storedAt_modify hq with hq | ⟨a, ha, hq⟩
      · exact h.stored j q hq
      · rcases List.mem_append.mp hq with hq | hq
        · refine h.stored j q ?_
          rwa [storedAt, ha]
        · -- the bytes read are those of an entry the write-back loop holds
          have hchunk := hmem (key, obj) List.mem_cons_self
          obtain ⟨e, he, hobj⟩ := h.locked _ hchunk
          obtain ⟨e', he', hr⟩ := hinv.entry_of_chunk hchunk
          obtain rfl : e = e' := Option.some.inj (he.symm.trans he')
          have hok := hinv.ledger.data key e he hr
          rw [hobj] at hok
          rw [List.mem_singleton.mp hq]
          exact h.written _ hok
    · exact hlocked (Writeback.chunks_setFutures _ _)
    · have hrun := h.running_set (i := i) (f := .running todo) fun p hp =>
        hmem p (List.mem_cons_of_mem _ hp)
      intro f hfm p hp
      simp only [setStore, Writeback.chunks_setFutures]
      exact hrun f hfm p hp
  | @skip p todo hfut =>
    have hmem := h.running _ (List.mem_of_getElem? hfut)
    exact carried_of_eq h rfl (fun _ => rfl) rfl (Writeback.chunks_setFutures _ _)
      (h.running_set fun q hq => hmem q (List.mem_cons_of_mem _ hq))
  | stored | storeFail =>
    exact carried_of_eq h rfl (fun j => storedAt_popTask _ _ _) rfl
      (Writeback.chunks_setFutures _ _) (h.running_set nofun)

theorem carried_step {l : Label} (h : s.Carried) (hinv : s.Inv blake3 lost)
    (hf : s.Faithful blake3 l) (hs : s.step blake3 l = some s') : s'.Carried := by
  obtain ⟨hinv', hev, -⟩ := inv_step hinv hf.1 hs
  cases l with
  | recv t m =>
    obtain ⟨-, rfl⟩ := step_recv hs
    refine ⟨h.written, h.stored, ?_, h.locked, h.running⟩
    intro t' m' h' hget'
    rcases OrderedDict.eq_or_get?_of_set hget' with ⟨-, he⟩ | hget'
    · cases he
      trivial
    · exact h.handlers t' m' h' hget'
  | handler t => exact carried_handler h hinv' hev hs
  | worker => exact carried_worker h hinv' hev hs
  | writeback => exact carried_writeback h hinv hinv' hev hs
  | evictor =>
    have hlocked := h.locked_step hinv' hev
    obtain rfl := step_evictor hs
    obtain ⟨hc, hw⟩ := Evictor.ghosts_eq s.server s.evictor
    refine ⟨?_, ?_, ?_, hlocked rfl, h.running⟩
    · simp only [hc, hw]
      exact h.written
    · simp only [hc]
      exact h.stored
    · simp only [hc]
      exact h.handlers
  | l2 i act => exact carried_l2 h hinv hinv' hev hf hs

variable (blake3) in
/-- A state that a run with faithful adapters reaches from an empty cache. -/
def FaithfullyReachable (s : System) : Prop :=
  ∃ chunkSize capacity pool adapters ls,
    Run (step blake3) (Faithful blake3) (new chunkSize capacity pool adapters) ls s

theorem FaithfullyReachable.carried (h : s.FaithfullyReachable blake3) :
    (∃ lost, s.Inv blake3 lost) ∧ s.Carried := by
  obtain ⟨_, _, _, _, _, hrun⟩ := h
  refine hrun.invariant (fun s => (∃ lost, s.Inv blake3 lost) ∧ s.Carried)
    ⟨⟨0, inv_new _ _ _ _⟩, carried_new _ _ _ _⟩ ?_
  rintro s l s' ⟨⟨lost, hinv⟩, hcarried⟩ hf hs
  exact ⟨⟨_, (inv_step hinv hf.1 hs).1⟩, carried_step hcarried hinv hf hs⟩

/-- The slice a step writes into. -/
def writes (s : System) : Label → Option MemoryObj
  | .handler t =>
    match s.handlers.get? t with
    | some (_, .storeCopy _ (item :: _)) => some item.obj
    | _ => none
  | .l2 _ (.fill _ _) => s.loadTarget.map Prod.snd
  | _ => none

/-- A step writes only into a slot, and no slot is readable. -/
theorem Inv.writes_disjoint (h : s.Inv blake3 lost) {l : Label} {obj : MemoryObj}
    (hl : s.writes l = some obj) {k : ChunkKey} {e : Entry}
    (he : s.server.l1.entries.get? k = some e) (hr : e.writeLocked = false) :
    obj.Disjoint e.obj := by
  obtain ⟨x, hx, rfl⟩ : ∃ x ∈ s.slots, x.obj = obj := by
    cases l with
    | handler t =>
      simp only [writes] at hl
      split at hl <;> cases hl
      rename_i m filled item todo hget
      refine ⟨item.slot false, ?_, rfl⟩
      rw [slots, OrderedDict.total_eq _ _ t, OrderedDict.at?, hget]
      simp [Handler.slots]
    | l2 i act =>
      cases act with
      | fill data complete =>
        obtain ⟨⟨key, obj⟩, ht, rfl⟩ := Option.map_eq_some_iff.mp hl
        simp only [loadTarget] at ht
        split at ht
        · rename_i p order j filled hw
          obtain ⟨rest, h0, -⟩ := loadSlots_succ ht
          refine ⟨⟨key, obj, true, false⟩, ?_, rfl⟩
          rw [slots, hw, Worker.slots, h0]
          simp
        · cases ht
      | _ => cases hl
    | _ => cases hl
  obtain ⟨-, ex, hex, -, hobj, -⟩ := h.ledger.slot x hx
  have hne : x.key ≠ k := h.ledger.slot_key_ne he hr hx
  exact hobj ▸ h.ledger.disjoint hne hex he

/-- Data integrity of L1 : a readable entry occupies a slice of the pool whose bytes are a
blob that a STORE carried for its key; a step that writes a slice writes none that
overlaps a readable entry's, and no step changes a readable entry's bytes. -/
theorem readable_bytes_carried (h : s.FaithfullyReachable blake3) {k : ChunkKey} {e : Entry}
    (he : s.server.l1.entries.get? k = some e) (hr : e.writeLocked = false) :
    (k, s.server.l1.bytes e.obj) ∈ s.server.carried ∧
      e.obj.offset + e.obj.nbytes ≤ s.server.l1.allocator.capacity ∧
      (∀ l obj, s.writes l = some obj → obj.Disjoint e.obj) ∧
      ∀ l s', s.Faithful blake3 l → s.step blake3 l = some s' →
        s'.server.l1.bytes e.obj = s.server.l1.bytes e.obj := by
  obtain ⟨⟨lost, hinv⟩, hcarried⟩ := h.carried
  refine ⟨hcarried.written _ (hinv.ledger.data k e he hr), ?_,
    fun l obj hl => hinv.writes_disjoint hl he hr, ?_⟩
  · have hmem : e.obj ∈ s.server.l1.objs :=
      List.mem_map.mpr ⟨(k, e), OrderedDict.get?_eq_some_iff.mp he, rfl⟩
    exact (hinv.ledger.alloc.tiles.bounded _ (List.mem_append_left _ hmem)).trans
      hinv.ledger.alloc.brk_le
  · intro l s' hf hs
    obtain ⟨-, hev, -⟩ := inv_step hinv hf.1 hs
    exact hev.bytes k e he hr

/-- The chunk that request `b` loads back from L2 is the one that request `a` stored. -/
theorem readable_bytes_carried_sample :
    ∃ s, sample (fun s l => decide (s.Faithful sampleDigest l)) 2 sampleReload = some s ∧
      ∃ e, s.server.l1.entries.get? (sampleKey 1) = some e ∧
        (sampleKey 1, s.server.l1.bytes e.obj) ∈ s.server.carried ∧
        s.server.carried = [(sampleKey 1, [5, 6])] := by
  have hentry : (sample (fun s l => decide (s.Faithful sampleDigest l)) 2 sampleReload).map
      (fun s => (s.server.l1.entries.get? (sampleKey 1), s.server.carried)) =
      some (some ⟨⟨0, 2⟩, false, 1, true⟩, [(sampleKey 1, [5, 6])]) := by decide
  obtain ⟨s, hs, he⟩ := Option.map_eq_some_iff.mp hentry
  obtain ⟨he, hc⟩ := Prod.mk.inj he
  have hreach : s.FaithfullyReachable sampleDigest :=
    ⟨1, 2, _, 1, _, (run_of_replay hs).mono fun _ _ hd => of_decide_eq_true hd⟩
  exact ⟨s, hs, _, he, (readable_bytes_carried hreach he rfl).1, hc⟩

end System

end MiniLlmcache
