import MiniLlmcache.Node
import MiniLlmcache.Retrieve
import MiniLlmcache.StoreClean

/-!
# One chunk size for each model

Nothing in the server ties the size of a chunk to its key : a STORE reserves with the size that its
engine registered, a LOOKUP with the one that the last engine of its deployment registered, and a
RETRIEVE sends whatever slice the entry has. `System.Uniform` is what the engines of one model
promise : they register one chunk size, and a STORE carries chunks of that size.

`System.Geometry` is what follows, along every run : each slice that is allocated, reserved, held,
read, loaded or about to be sent has the size of its key's model (`System.geometry`). So no STORE is
refused for the size of a chunk, and the pool is accounted for chunk by chunk.
-/

namespace MiniLlmcache

open L1Manager

variable {blake3 : Bytes → Bytes} {size : String → ℕ}

/-! ## The entries' slices -/

namespace L1Manager

variable {l1 l1' : L1Manager}

theorem shrinks_finishWriteLoop (keys : List ChunkKey) : ∀ (rest : List ChunkKey) (l1 : L1Manager),
    l1.Shrinks (finishWrite.loop keys l1 rest).state
  | [], l1 => ((Shrinks.refl l1).notify _ _).notify _ _
  | k :: rest, l1 => by
    rw [finishWrite.loop]
    split
    · exact .refl l1
    · rename_i e he
      exact (shrinks_finishWriteLoop keys rest _).after (shrinks_setEntry he rfl fun _ => rfl)

theorem shrinks_finishWriteAndReserveReadLoop (keys : List ChunkKey) :
    ∀ (rest : List ChunkKey) (l1 : L1Manager),
      l1.Shrinks (finishWriteAndReserveRead.loop keys l1 rest).state
  | [], l1 => (Shrinks.refl l1).notify _ _
  | k :: rest, l1 => by
    rw [finishWriteAndReserveRead.loop]
    split
    · exact .refl l1
    · rename_i e he
      exact (shrinks_finishWriteAndReserveReadLoop keys rest _).after
        (shrinks_setEntry he rfl fun _ => rfl)

theorem shrinks_reserveRead : ∀ (keys : List ChunkKey) (l1 : L1Manager),
    l1.Shrinks (l1.reserveRead keys).2
  | [], l1 => .refl l1
  | k :: keys, l1 => by
    rw [reserveRead]
    split
    · exact shrinks_reserveRead keys l1
    · rename_i e he
      split
      · exact (shrinks_reserveRead keys _).after (shrinks_setEntry he rfl id)
      · exact shrinks_reserveRead keys l1

theorem shrinks_holdAll : ∀ (keys : List ChunkKey) (l1 : L1Manager), l1.Shrinks (l1.holdAll keys)
  | [], l1 => .refl l1
  | k :: keys, l1 => by
    rw [holdAll]
    split
    · exact shrinks_holdAll keys l1
    · rename_i e he
      exact (shrinks_holdAll keys _).after (shrinks_setEntry he rfl id)

theorem shrinks_finishReadLoop : ∀ (keys freed touched : List ChunkKey) (l1 : L1Manager),
    l1.Shrinks (finishRead.loop l1 keys freed touched).state
  | [], freed, touched, l1 => by
    rw [finishRead.loop]
    dsimp only [Outcome.state]
    split_ifs
    · exact ((Shrinks.refl l1).notify _ _).notify _ _
    · exact (Shrinks.refl l1).notify _ _
    · exact (Shrinks.refl l1).notify _ _
    · exact .refl l1
  | k :: keys, freed, touched, l1 => by
    rw [finishRead.loop]
    split
    · exact .refl l1
    · rename_i e he
      dsimp only
      split_ifs
      · exact (shrinks_finishReadLoop keys _ _ _).after (shrinks_freeEntry l1 k e)
      · exact (shrinks_finishReadLoop keys _ _ _).after (shrinks_setEntry he rfl id)

theorem shrinks_promote : ∀ (keys : List ChunkKey) (l1 : L1Manager), l1.Shrinks (l1.promote keys)
  | [], l1 => .refl l1
  | k :: keys, l1 => by
    rw [promote]
    split
    · exact shrinks_promote keys l1
    · rename_i e he
      exact (shrinks_promote keys _).after (shrinks_setEntry he rfl id)

theorem shrinks_deleteLoop (force : Bool) : ∀ (keys deleted : List ChunkKey) (l1 : L1Manager),
    l1.Shrinks (delete.loop force l1 keys deleted).2
  | [], deleted, l1 => by
    rw [delete.loop]
    dsimp only
    split_ifs
    · exact (Shrinks.refl l1).notify _ _
    · exact .refl l1
  | k :: keys, deleted, l1 => by
    rw [delete.loop]
    split
    · exact shrinks_deleteLoop force keys deleted l1
    · rename_i e he
      split_ifs
      · exact shrinks_deleteLoop force keys deleted l1
      · exact (shrinks_deleteLoop force keys _ _).after (shrinks_freeEntry l1 k e)

variable (size) in
/-- Every entry has the size of its model. -/
def Sized (l1 : L1Manager) : Prop := ∀ k e, l1.entries.get? k = some e → e.obj.nbytes = size k.model

theorem Sized.shrinks (h : l1.Sized size) (hs : l1.Shrinks l1') : l1'.Sized size := by
  intro k e' he'
  obtain ⟨e, he, hobj, -⟩ := hs.entry k e' he'
  rw [hobj]
  exact h k e he

theorem nbytes_of_allocate {a a' : PoolAllocator} {count n : ℕ} {objs : List MemoryObj}
    (h : a.allocate count n = (some objs, a')) : ∀ o ∈ objs, o.nbytes = n := by
  rw [PoolAllocator.allocate] at h
  dsimp only at h
  split_ifs at h
  · cases h
  · rw [Prod.mk.injEq, Option.some.injEq] at h
    obtain ⟨rfl, -⟩ := h
    intro o ho
    obtain ⟨offset, -, rfl⟩ := List.mem_map.mp ho
    rfl

/-- The slots that `reserve_write` hands out have the size asked for. -/
theorem nbytes_of_reserved {keys : List ChunkKey} {n : ℕ} {t : Bool} {k : ChunkKey}
    {obj : MemoryObj} (h : reservedObj (l1.reserveWrite keys n t).1 k = some obj) :
    obj.nbytes = n := by
  unfold reserveWrite at h
  dsimp only at h
  split at h
  · rw [reservedObj, OrderedDict.get?_fromKeys] at h
    split_ifs at h <;> cases h
  · rename_i objs a ha
    rw [reservedObj, OrderedDict.get?_setAll, OrderedDict.get?_fromKeys] at h
    rcases hget : (OrderedDict.empty.setAll (((keys.filter fun key =>
        !l1.entries.contains key).zip objs).map fun p => (p.1, some p.2))).get? k with _ | o
    · rw [hget, Option.none_or] at h
      split_ifs at h <;> cases h
    · rw [hget, Option.some_or, Option.join_some] at h
      obtain ⟨p, hp, he⟩ := List.mem_map.mp (OrderedDict.mem_of_get?_empty_setAll hget)
      cases he
      cases h
      exact nbytes_of_allocate ha _ (List.of_mem_zip hp).2

theorem Sized.reserveWrite (h : l1.Sized size) {keys : List ChunkKey} {n : ℕ} (t : Bool)
    (hn : ∀ k ∈ keys, n = size k.model) : (l1.reserveWrite keys n t).2.Sized size := by
  unfold L1Manager.reserveWrite
  dsimp only
  split
  · exact h
  · rename_i objs a ha
    intro k e he
    rw [entries_insertMissing, OrderedDict.get?_setAll, Option.or_eq_some_iff] at he
    rcases he with he | ⟨-, he⟩
    · obtain ⟨p, hp, hpe⟩ := List.mem_map.mp (OrderedDict.mem_of_get?_empty_setAll he)
      cases hpe
      have hmem := List.of_mem_zip hp
      exact (nbytes_of_allocate ha _ hmem.2).trans (hn _ (List.mem_of_mem_filter hmem.1))
    · exact h k e he

/-- What `reserve_read` returns are slices of entries. -/
theorem entry_of_lockedKeys : ∀ (keys : List ChunkKey) (l1 : L1Manager),
    ∀ x ∈ lockedKeys (l1.reserveRead keys).1, ∃ e, l1.entries.get? x.1 = some e ∧ e.obj = x.2
  | [], l1, x, hx => by cases hx
  | k :: keys, l1, x, hx => by
    rw [reserveRead] at hx
    split at hx
    · exact entry_of_lockedKeys keys l1 x hx
    · rename_i e he
      split at hx
      · rcases List.mem_cons.mp hx with rfl | hx
        · exact ⟨e, he, rfl⟩
        · obtain ⟨e', he', hobj⟩ := entry_of_lockedKeys keys (l1.hold k e) x hx
          have hs : l1.Shrinks (l1.hold k e) := shrinks_setEntry he rfl id
          obtain ⟨e₀, he₀, hobj', -⟩ := hs.entry _ e' he'
          exact ⟨e₀, he₀, hobj'.symm.trans hobj⟩
      · exact entry_of_lockedKeys keys l1 x hx

end L1Manager

/-! ## The threads' slices -/

variable (size)

/-- A LOOKUP reserves slots of the right size. -/
def Job.Sized (job : Job) : Prop :=
  ∀ n, job.chunkNbytes = some n → ∀ k ∈ job.keys, n = size k.model

def Prefetch.Sized (p : Prefetch) : Prop :=
  (∀ k ∈ p.job.keys, p.chunkNbytes = size k.model) ∧
    ∀ x ∈ p.load, x.2.nbytes = size x.1.model

/-- What a handler reserves, fills or sends has the size of its model. -/
def Handler.Sized : Handler → Prop
  | start (.registerKvCache p) => p.chunkNbytes = size p.model
  | startSession job | putJob job => job.Sized size
  | storeReserve keys n chunks =>
    (∀ k ∈ keys, n = size k.model) ∧ ∀ chunk ∈ chunks, chunk.length = n
  | storeCopy filled todo => ∀ item ∈ filled ++ todo,
    item.obj.nbytes = size item.key.model ∧ item.blob.length = item.obj.nbytes
  | retrieveSend _ keys objs => ∀ v ∈ keys.zip objs, v.2.nbytes = size v.1.model
  | _ => True

def Worker.Sized : Worker → Prop
  | prefetch job => job.Sized size
  | lookup job n _ _ => ∀ k ∈ job.keys, n = size k.model
  | reserve p todo => p.Sized size ∧ ∀ k ∈ todo, k ∈ p.job.keys
  | load p _ | loading p _ _ _ _ | finishWrite p | cleanup p => p.Sized size
  | dead _ _ slots => ∀ x ∈ slots, x.2.nbytes = size x.1.model
  | _ => True

structure CacheServer.Sized (srv : CacheServer) : Prop where
  entries : srv.l1.Sized size
  instances : ∀ i inst, srv.instances.get? i = some inst → inst.chunkNbytes = size inst.model
  deployments : ∀ d n, srv.deployments.get? d = some n → n = size d.1
  jobs : ∀ job ∈ srv.jobs, job.Sized size

variable {size}

namespace CacheServer

variable {srv : CacheServer}

theorem model_of_mem_keysFor {hashes : List Bytes} {model : String} {ranks : List ℕ} {k : ChunkKey}
    (hk : k ∈ keysFor hashes model ranks) : k.model = model := by
  obtain ⟨h, -, hk⟩ := List.mem_flatMap.mp hk
  obtain ⟨r, -, rfl⟩ := List.mem_map.mp hk
  rfl

theorem Sized.of_l1 (h : srv.Sized size) {l1 : L1Manager} (hl1 : l1.Sized size) :
    ({ srv with l1 } : CacheServer).Sized size :=
  ⟨hl1, h.instances, h.deployments, h.jobs⟩

theorem Sized.shrinks (h : srv.Sized size) {l1 : L1Manager} (hs : srv.l1.Shrinks l1) :
    ({ srv with l1 } : CacheServer).Sized size :=
  h.of_l1 (h.entries.shrinks hs)

/-- A section that answers, or raises half-way. -/
theorem Sized.outcome (h : srv.Sized size) {o : Outcome L1Manager Unit} {l1 : L1Manager}
    (hs : srv.l1.Shrinks o.state) (ho : o.state = l1) :
    ({ srv with l1 } : CacheServer).Sized size :=
  ho ▸ h.shrinks hs

theorem Sized.lookupJob (h : srv.Sized size) (p : LookupPayload) :
    (srv.lookupJob blake3 p).Sized size := by
  intro n hn k hk
  unfold CacheServer.lookupJob at hn hk
  split at hn
  · cases hn
  · rename_i n' hget
    cases hn
    rw [hget] at hk
    rw [h.deployments _ _ hget, model_of_mem_keysFor hk]

theorem Sized.register (h : srv.Sized size) {p : RegisterPayload}
    (hp : p.chunkNbytes = size p.model) : (srv.register p).Sized size := by
  refine ⟨h.entries, fun i inst hi => ?_, fun d n hd => ?_, h.jobs⟩
  · rcases OrderedDict.eq_or_get?_of_set hi with ⟨-, rfl⟩ | hi
    · exact hp
    · exact h.instances i inst hi
  · rcases OrderedDict.eq_or_get?_of_set hd with ⟨rfl, rfl⟩ | hd
    · exact hp
    · exact h.deployments d n hd

theorem Sized.unregister (h : srv.Sized size) (instanceId : ℕ) :
    (srv.unregister instanceId).2.Sized size := by
  refine ⟨h.entries, fun i inst hi => ?_, h.deployments, h.jobs⟩
  rw [CacheServer.unregister, OrderedDict.get?_erase] at hi
  split_ifs at hi
  exact h.instances i inst hi

end CacheServer

/-! ## Steps -/

namespace Handler

variable {srv srv' : CacheServer} {hd hd' : Handler}

/-- The chunks of a STORE that begins have the size that its engine registered. -/
def StoresWhole (srv : CacheServer) : Handler → Prop
  | start (.store p) => ∀ inst ∈ srv.instances.get? p.instanceId, ∀ chunk ∈ p.chunks,
    chunk.length = inst.chunkNbytes
  | _ => True

instance (srv : CacheServer) (hd : Handler) : Decidable (hd.StoresWhole srv) := by
  unfold StoresWhole
  split <;> infer_instance

theorem sized_dispatch {m : Req} (h : srv.Sized size) (hm : (start m).Sized size)
    (hwhole : (start m).StoresWhole srv) : (dispatch blake3 srv m).1.Sized size ∧
      (dispatch blake3 srv m).2.Sized size := by
  cases m with
  | registerKvCache p => exact ⟨h.register hm, trivial⟩
  | unregisterKvCache i => exact ⟨h.unregister i, trivial⟩
  | lookup p => exact ⟨h, h.lookupJob p⟩
  | retrieve p =>
    simp only [dispatch]
    split <;> exact ⟨h, trivial⟩
  | store p =>
    simp only [dispatch]
    split
    · exact ⟨h, trivial⟩
    · rename_i inst hinst
      refine ⟨⟨h.entries, h.instances, h.deployments, h.jobs⟩, fun k hk => ?_, hwhole inst hinst⟩
      rw [h.instances _ _ hinst, CacheServer.model_of_mem_keysFor hk]
  | _ => exact ⟨h, trivial⟩

theorem sized_step (h : srv.Sized size) (hh : hd.Sized size) (hwhole : hd.StoresWhole srv)
    (hs : hd.Does blake3 srv srv' hd') : srv'.Sized size ∧ hd'.Sized size := by
  cases hs with
  | dispatch m => exact sized_dispatch h hh hwhole
  | startSession job => exact ⟨⟨h.entries, h.instances, h.deployments, h.jobs⟩, hh⟩
  | putJob job =>
    refine ⟨⟨h.entries, h.instances, h.deployments, fun job' hj => ?_⟩, trivial⟩
    rcases List.mem_append.mp hj with hj | hj
    · exact h.jobs job' hj
    · rw [List.mem_singleton.mp hj]
      exact hh
  | reserve keys n chunks =>
    obtain ⟨hkeys, hchunks⟩ := hh
    refine ⟨h.of_l1 (h.entries.reserveWrite false hkeys), fun item hitem => ?_⟩
    obtain ⟨hzip, hobj⟩ := mem_storeItems hitem
    have hmem := List.of_mem_zip hzip
    have hn := nbytes_of_reserved hobj
    exact ⟨hn.trans (hkeys _ hmem.1), (hchunks _ hmem.2).trans hn.symm⟩
  | @copy item filled todo hlen =>
    refine ⟨⟨h.entries, h.instances, h.deployments, h.jobs⟩, fun item' hitem => hh item' ?_⟩
    rwa [List.append_assoc] at hitem
  | finishWrite hl1 | finishWriteFail hl1 =>
    exact ⟨h.outcome (shrinks_finishWriteLoop _ _ _) (congrArg Outcome.state hl1), trivial⟩
  | @read requestId keys worldSize objs hok =>
    refine ⟨h, fun v hv => ?_⟩
    obtain ⟨e, he, hobj⟩ := (read_ok hok).2 v hv
    rw [← hobj]
    exact h.entries _ e he
  | promote requestId keys => exact ⟨h.shrinks (shrinks_promote keys srv.l1), trivial⟩
  | release hrel =>
    rw [CacheServer.eq_of_releaseHeld.1 _ hrel]
    exact ⟨⟨h.entries, h.instances, h.deployments, h.jobs⟩, trivial⟩
  | releaseFail hrel =>
    rw [CacheServer.eq_of_releaseHeld.2 _ hrel]
    exact ⟨⟨h.entries, h.instances, h.deployments, h.jobs⟩, trivial⟩
  | finishRead hl1 =>
    refine ⟨h.outcome (shrinks_finishReadLoop _ _ _ _) (congrArg Outcome.state hl1), ?_⟩
    split_ifs <;> trivial
  | finishReadFail hl1 =>
    exact ⟨h.outcome (shrinks_finishReadLoop _ _ _ _) (congrArg Outcome.state hl1), trivial⟩
  | pop requestId => exact ⟨⟨h.entries, h.instances, h.deployments, h.jobs⟩, trivial⟩
  | _ => exact ⟨h, trivial⟩

end Handler

namespace Worker

variable {srv srv' : CacheServer} {l2s l2s' : List Adapter} {w w' : Worker}

theorem sized_step (h : srv.Sized size) (hw : w.Sized size) (hs : w.Does srv l2s srv' l2s' w') :
    srv'.Sized size ∧ w'.Sized size := by
  cases hs with
  | @take job jobs hjobs =>
    refine ⟨⟨h.entries, h.instances, h.deployments, fun job' hj => ?_⟩, ?_⟩
    · exact h.jobs job' (hjobs ▸ List.mem_cons_of_mem job hj)
    · exact h.jobs job (hjobs ▸ List.mem_cons_self)
  | unknown => exact ⟨h.shrinks (shrinks_holdAll _ _), trivial⟩
  | @allInL1 job n hn hmiss =>
    exact ⟨h.shrinks (shrinks_holdAll _ _), ⟨hw n hn, List.forall_mem_nil _⟩, List.forall_mem_nil _⟩
  | @inL1 job n hn => exact ⟨h.shrinks (shrinks_holdAll _ _), hw n hn⟩
  | lookupRaised => exact ⟨h, List.forall_mem_nil _⟩
  | @lookupDone job n hit futures l2Hits hf =>
    refine ⟨h, ⟨hw, List.forall_mem_nil _⟩, fun k hk => ?_⟩
    exact List.mem_of_mem_drop (List.mem_of_mem_take hk)
  | @full p key todo hnone =>
    obtain ⟨hp, htodo⟩ := hw
    refine ⟨h.of_l1 (h.entries.reserveWrite true fun k hk => ?_), hp⟩
    rw [List.mem_singleton.mp hk]
    exact hp.1 key (htodo key List.mem_cons_self)
  | @reserve p key todo obj hobj =>
    obtain ⟨⟨hp, hload⟩, htodo⟩ := hw
    have hkey := hp key (htodo key List.mem_cons_self)
    refine ⟨h.of_l1 (h.entries.reserveWrite true fun k hk => ?_), ⟨hp, fun x hx => ?_⟩,
      fun k hk => htodo k (List.mem_cons_of_mem key hk)⟩
    · rw [List.mem_singleton.mp hk]
      exact hkey
    · rcases List.mem_append.mp hx with hx | hx
      · exact hload x hx
      · rw [List.mem_singleton.mp hx]
        exact (nbytes_of_reserved hobj).trans hkey
  | reserved => exact ⟨h, hw.1⟩
  | loadRaised => exact ⟨h, hw.2⟩
  | finishWrite hl1 =>
    exact ⟨h.outcome (shrinks_finishWriteAndReserveReadLoop _ _ _) (congrArg Outcome.state hl1), hw⟩
  | finishWriteFail hl1 =>
    exact ⟨h.outcome (shrinks_finishWriteAndReserveReadLoop _ _ _) (congrArg Outcome.state hl1),
      hw.2⟩
  | cleanup p => exact ⟨h.shrinks (shrinks_deleteLoop true _ _ _), trivial⟩
  | publish => exact ⟨⟨h.entries, h.instances, h.deployments, h.jobs⟩, trivial⟩
  | ended => exact ⟨h, trivial⟩
  | finishRead hl1 =>
    exact ⟨h.outcome (shrinks_finishReadLoop _ _ _ _) (congrArg Outcome.state hl1), trivial⟩
  | finishReadFail hl1 =>
    exact ⟨h.outcome (shrinks_finishReadLoop _ _ _ _) (congrArg Outcome.state hl1),
      List.forall_mem_nil _⟩
  | _ => exact ⟨h, hw⟩

end Worker

namespace Writeback

variable {srv srv' : CacheServer} {l2s l2s' : List Adapter} {w w' : Writeback}

theorem sized_step (h : srv.Sized size) (hw : ∀ x ∈ w.chunks, x.2.nbytes = size x.1.model)
    (hs : w.Does srv l2s srv' l2s' w') :
    srv'.Sized size ∧ ∀ x ∈ w'.chunks, x.2.nbytes = size x.1.model := by
  cases hs with
  | take => exact ⟨⟨h.entries, h.instances, h.deployments, h.jobs⟩, List.forall_mem_nil _⟩
  | evicted => exact ⟨h.shrinks (shrinks_reserveRead _ _), List.forall_mem_nil _⟩
  | reserve =>
    refine ⟨h.shrinks (shrinks_reserveRead _ _), fun x hx => ?_⟩
    obtain ⟨e, he, hobj⟩ := entry_of_lockedKeys _ _ x hx
    rw [← hobj]
    exact h.entries _ e he
  | stored => exact ⟨h, List.forall_mem_nil _⟩
  | finishRead hl1 | finishReadFail hl1 =>
    exact ⟨h.outcome (shrinks_finishReadLoop _ _ _ _) (congrArg Outcome.state hl1),
      List.forall_mem_nil _⟩
  | _ => exact ⟨h, hw⟩

end Writeback

namespace System

variable {s s' : System}

variable (size) in
/-- Engines register the chunk size of their model, and a STORE carries chunks of that size. -/
def Uniform (s : System) : Label → Prop
  | .recv _ (.registerKvCache p) => p.chunkNbytes = size p.model
  | .handler t => ∀ q ∈ s.handlers.get? t, q.2.StoresWhole s.server
  | _ => True

instance (s : System) : ∀ l, Decidable (s.Uniform size l)
  | .recv _ (.registerKvCache p) => inferInstanceAs (Decidable (p.chunkNbytes = size p.model))
  | .handler t => inferInstanceAs (Decidable (∀ q ∈ s.handlers.get? t, q.2.StoresWhole s.server))
  | .recv _ .getChunkSize | .recv _ (.unregisterKvCache _) | .recv _ (.lookup _)
  | .recv _ (.queryPrefetchStatus _) | .recv _ (.retrieve _) | .recv _ (.store _)
  | .recv _ (.freeLookupLocks _) | .recv _ (.endSession _) | .recv _ .transferAck
  | .worker | .writeback | .evictor | .l2 _ _ => isTrue trivial

variable (size) in
/-- Every slice in use has the size of its key's model. -/
structure Geometry (s : System) : Prop where
  server : s.server.Sized size
  handlers : ∀ t m hd, s.handlers.get? t = some (m, hd) → hd.Sized size
  worker : s.worker.Sized size
  writeback : ∀ x ∈ s.writeback.chunks, x.2.nbytes = size x.1.model

theorem geometry_new (chunkSize capacity : ℕ) (pool : ℕ → UInt8) (adapters : ℕ) :
    (new chunkSize capacity pool adapters).Geometry size where
  server := ⟨by rintro k e ⟨⟩, by rintro i inst ⟨⟩, by rintro d n ⟨⟩, List.forall_mem_nil _⟩
  handlers := by rintro t m hd ⟨⟩
  worker := trivial
  writeback := List.forall_mem_nil _

/-- A step of an adapter leaves the handlers alone, and the batch that is written back. -/
theorem Geometry.of_eq (h : s.Geometry size) (hserver : s'.server.Sized size)
    (hhandlers : s'.handlers = s.handlers) (hworker : s'.worker.Sized size)
    (hchunks : s'.writeback.chunks = s.writeback.chunks) : s'.Geometry size :=
  ⟨hserver, hhandlers ▸ h.handlers, hworker, hchunks ▸ h.writeback⟩

theorem sized_setLookup (h : s.Geometry size) (i : ℕ) (r : Except Exc ℕ) :
    (s.setLookup i r).worker.Sized size := by
  have hw := h.worker
  rw [setLookup]
  split
  · rename_i job n hit futures heq
    rw [heq] at hw
    exact hw
  · exact hw

theorem Geometry.l2 {i : ℕ} {act : L2Act} (h : s.Geometry size) (hs : s.L2Does i act s') :
    s'.Geometry size := by
  have hw := h.worker
  have hpop : (s.popTask i).Geometry size := h.of_eq h.server rfl hw rfl
  cases hs with
  | found | lookupFail =>
    refine hpop.of_eq ?_ ?_ (sized_setLookup hpop i _) ?_
    · rw [server_setLookup]
      exact h.server
    · exact handlers_setLookup _ _ _
    · rw [writeback_setLookup]
  | fill hload hget hlen =>
    rw [hload] at hw
    exact h.of_eq ⟨h.server.entries, h.server.instances, h.server.deployments, h.server.jobs⟩ rfl hw
      rfl
  | scribble hload hget hlen =>
    exact h.of_eq ⟨h.server.entries, h.server.instances, h.server.deployments, h.server.jobs⟩ rfl hw
      rfl
  | loaded hload | loadFail hload =>
    rw [hload] at hw
    exact h.of_eq h.server rfl hw rfl
  | _ => exact h.of_eq h.server rfl hw (Writeback.chunks_setFutures _ _)

/-- The step lemma. -/
theorem Geometry.step {l : Label} (h : s.Geometry size) (hu : s.Uniform size l)
    (hs : s.step blake3 l = some s') : s'.Geometry size := by
  cases l with
  | recv t m =>
    obtain ⟨-, rfl⟩ := step_recv hs
    refine ⟨h.server, fun t' m' hd hget => ?_, h.worker, h.writeback⟩
    rcases OrderedDict.eq_or_get?_of_set hget with ⟨-, he⟩ | hget
    · cases he
      cases m with
      | registerKvCache p => exact hu
      | _ => trivial
    · exact h.handlers t' m' hd hget
  | handler t =>
    obtain ⟨m, hd, srv', hd', hget, hdoes, rfl⟩ := step_handler hs
    obtain ⟨hsrv, hhd⟩ := Handler.sized_step h.server (h.handlers t m hd hget) (hu _ hget) hdoes
    refine ⟨hsrv, fun t' m' h' hget' => ?_, h.worker, h.writeback⟩
    rcases OrderedDict.eq_or_get?_of_set hget' with ⟨-, he⟩ | hget'
    · cases he
      exact hhd
    · exact h.handlers t' m' h' hget'
  | worker =>
    obtain ⟨srv', l2s', w', hdoes, rfl⟩ := step_worker hs
    obtain ⟨hsrv, hw⟩ := Worker.sized_step h.server h.worker hdoes
    exact ⟨hsrv, h.handlers, hw, h.writeback⟩
  | writeback =>
    obtain ⟨srv', l2s', w', hdoes, rfl⟩ := step_writeback hs
    obtain ⟨hsrv, hw⟩ := Writeback.sized_step h.server h.writeback hdoes
    exact ⟨hsrv, h.handlers, h.worker, hw⟩
  | evictor =>
    obtain rfl := step_evictor hs
    refine ⟨?_, h.handlers, h.worker, h.writeback⟩
    cases s.evictor with
    | delete victims => exact h.server.shrinks (shrinks_deleteLoop false victims [] _)
    | _ => exact h.server
  | l2 i act => exact h.l2 (l2_does hs)

theorem sum_nbytes (h : s.server.l1.Sized size) : ∀ {items : List (ChunkKey × Entry)},
    items ⊆ s.server.l1.entries.items →
    (items.map fun p => p.2.obj.nbytes).sum = (items.map fun p => size p.1.model).sum
  | [], _ => rfl
  | p :: items, hsub => by
    have hget := OrderedDict.get?_eq_some_iff.mpr (hsub List.mem_cons_self)
    rw [List.map_cons, List.map_cons, List.sum_cons, List.sum_cons, h p.1 p.2 hget,
      sum_nbytes h fun q hq => hsub (List.mem_cons_of_mem p hq)]

/-- A view has the size of its model also after its entry is gone. -/
theorem Geometry.length_sends {l : Label} (h : s.Geometry size) :
    ∀ q ∈ s.sends l, q.2.length = size q.1.model := by
  intro q hq
  cases l with
  | handler t =>
    rcases hget : s.handlers.get? t with _ | ⟨m, hd⟩
    · simp [sends, hget] at hq
    · simp only [sends, hget, Option.elim_some] at hq
      obtain ⟨v, hv, rfl⟩ := List.mem_map.mp hq
      obtain ⟨r, keys, objs, rfl⟩ := Handler.exists_of_mem_views hv
      exact (PoolAllocator.length_bytes _ _).trans (h.handlers t m _ hget v hv)
  | _ => cases hq

/-- As long as the engines of a model agree on its chunk size and send whole chunks, every entry of
L1 has the size of its model, and the pool is accounted for entry by entry; a STORE that has begun
to copy never raises; and every chunk that is sent, or handed to an adapter, has the size of its
model. -/
theorem geometry {chunkSize capacity adapters : ℕ} {pool : ℕ → UInt8} {labels : List Label}
    (h : Run (step blake3) (fun s l => s.Distinct blake3 l ∧ s.Uniform size l)
      (new chunkSize capacity pool adapters) labels s) :
    (∀ k e, s.server.l1.entries.get? k = some e → e.obj.nbytes = size k.model) ∧
    s.server.l1.allocator.usedBytes =
      ((s.server.l1.entries.keys.map fun k => size k.model).sum : ℕ) ∧
    (∀ t m filled item todo, s.handlers.get? t = some (m, .storeCopy filled (item :: todo)) →
      ∃ s', s.step blake3 (.handler t) = some s' ∧
        s'.handlers.get? t = some (m, .storeCopy (filled ++ [item]) todo)) ∧
    (∀ l, ∀ q ∈ s.sends l, q.2.length = size q.1.model) ∧
    ∀ q ∈ s.objects s.writeback.chunks, q.2.length = size q.1.model := by
  obtain ⟨⟨lost, hinv⟩, hgeo⟩ := h.invariant (fun s => (∃ lost, s.Inv blake3 lost) ∧
    s.Geometry size) ⟨⟨0, inv_new _ _ _ _⟩, geometry_new _ _ _ _⟩
    fun s l s' ⟨⟨lost, hinv⟩, hgeo⟩ ⟨hd, hu⟩ hs => ⟨⟨_, (inv_step hinv hd hs).1⟩, hgeo.step hu hs⟩
  refine ⟨hgeo.server.entries, ?_, fun t m filled item todo hget => ?_,
    fun _ => hgeo.length_sends, fun q hq => ?_⟩
  · have hsum := sum_nbytes hgeo.server.entries (List.Subset.refl _)
    rw [hinv.ledger.alloc.used, objs, List.map_map, OrderedDict.keys, List.map_map]
    exact congrArg _ hsum
  · have hitem := (hgeo.handlers t m _ hget) item
      (List.mem_append_right _ List.mem_cons_self)
    refine ⟨{ s with
      server := s.server.fill item.key item.obj item.blob
      handlers := s.handlers.set t (m, .storeCopy (filled ++ [item]) todo) }, ?_,
      OrderedDict.get?_set_self _ _ _⟩
    simp only [step, hget, Handler.step, if_pos hitem.2, Option.map_some]
  · obtain ⟨x, hx, rfl⟩ := List.mem_map.mp hq
    exact (PoolAllocator.length_bytes _ _).trans (hgeo.writeback x hx)

/-- Two entries of two bytes. -/
theorem geometry_sample : ∃ s, sample (fun s l =>
      decide (s.Distinct sampleDigest l ∧ s.Uniform (fun _ => 2) l)) 8
        (sampleStore ++ [.recv 5 (.store ⟨"c", 7, sampleOp 2, [[7, 8]]⟩), .handler 5, .handler 5,
          .handler 5, .handler 5]) = some s ∧
    s.server.l1.entries.keys = [sampleKey 1, sampleKey 2] ∧
    s.server.l1.allocator.usedBytes = 4 := by
  have hrun : (sample (fun s l =>
      decide (s.Distinct sampleDigest l ∧ s.Uniform (fun _ => 2) l)) 8
        (sampleStore ++ [.recv 5 (.store ⟨"c", 7, sampleOp 2, [[7, 8]]⟩), .handler 5, .handler 5,
          .handler 5, .handler 5])).map (fun s => s.server.l1.entries.keys) =
      some [sampleKey 1, sampleKey 2] := by decide
  obtain ⟨s, hs, hkeys⟩ := Option.map_eq_some_iff.mp hrun
  obtain ⟨-, hused, -⟩ := geometry ((run_of_replay hs).mono fun _ _ hok => of_decide_eq_true hok)
  refine ⟨s, hs, hkeys, ?_⟩
  rw [hused, hkeys]
  rfl

end System

end MiniLlmcache
