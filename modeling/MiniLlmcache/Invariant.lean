import MiniLlmcache.Sections
import MiniLlmcache.System

/-!
# The invariant of the process

Who holds what, thread by thread. `holds` and `slots` of a handler, of the prefetch worker
and of the write-back loop are the read holds and the slots that thread owns where it
stands; `sessions` are the holds recorded in `held`. `System.Inv` says that the ledger of
L1 has exactly these, and `lost` besides : holds that no thread and no session owns any
more.

Holds are lost in two steps only, when a session's record is thrown away while it still
lists keys (`Label.leaks`). `System.inv_step` is the step lemma; the work in it is done once
for each kind of thread, with the rest of the process as a frame.
-/

namespace MiniLlmcache

open L1Manager

/-! ## Holds and slots of each thread -/

namespace CacheServer

/-- The holds of all sessions. -/
def sessions (srv : CacheServer) : Multiset ChunkKey :=
  srv.held.total fun _ held => (held.keys : Multiset ChunkKey)

/-- What may be read for a key : a blob that was completely written for it. -/
def Ok (srv : CacheServer) (key : ChunkKey) (blob : Bytes) : Prop := (key, blob) ∈ srv.written

/-- The holds of every session but one. -/
def otherSessions (srv : CacheServer) (requestId : String) : Multiset ChunkKey :=
  (srv.held.erase requestId).total fun _ held => (held.keys : Multiset ChunkKey)

theorem sessions_eq (srv : CacheServer) (requestId : String) :
    srv.sessions = ↑(srv.heldKeys requestId) + srv.otherSessions requestId := by
  rw [sessions, OrderedDict.total_eq _ _ requestId, OrderedDict.at?, otherSessions, heldKeys]
  cases srv.held.get? requestId <;> rfl

/-- Writing the record of one session. -/
theorem sessions_set (srv : CacheServer) (requestId : String) (d : OrderedDict ChunkKey Unit) :
    (srv.held.set requestId d).total (fun _ held => (held.keys : Multiset ChunkKey)) =
      ↑d.keys + srv.otherSessions requestId :=
  OrderedDict.total_set _ _ _ _

end CacheServer

def StoreItem.slot (ready : Bool) (item : StoreItem) : Slot := ⟨item.key, item.obj, false, ready⟩

namespace Handler

/-- The holds a handler is about to drop. -/
def holds : Handler → Multiset ChunkKey
  | finishRead _ released _ _ => ↑released
  | _ => 0

/-- The slots a STORE is filling. -/
def slots : Handler → Multiset Slot
  | storeCopy filled todo =>
    ↑(filled.map (StoreItem.slot true)) + ↑(todo.map (StoreItem.slot false))
  | _ => 0

end Handler

/-- The prefetcher's slots, of which it has filled the first `n`. -/
def loadSlots (load : List (ChunkKey × MemoryObj)) (n : ℕ) : List Slot :=
  (load.take n).map (fun p => ⟨p.1, p.2, true, true⟩) ++
    (load.drop n).map fun p => ⟨p.1, p.2, true, false⟩

namespace Worker

def holds : Worker → Multiset ChunkKey
  | lookup job _ hit _ => ↑(job.keys.take hit)
  | reserve p _ | load p _ | loading p _ _ _ _ | finishWrite p => ↑p.l1Keys
  | cleanup p => ↑(p.l1Keys ++ p.loadedKeys)
  | resolve _ l1Keys loadedKeys => ↑(l1Keys ++ loadedKeys)
  | finishRead _ keys => ↑keys
  | dead _ holds _ => ↑holds
  | _ => 0

def slots : Worker → Multiset Slot
  | reserve p _ | load p _ | finishWrite p => ↑(loadSlots p.load p.loaded)
  | loading p _ _ filled _ => ↑(loadSlots p.load (p.loaded + filled))
  | cleanup p => ↑(loadSlots (p.load.drop p.loaded) 0)
  | dead _ _ slots => ↑(loadSlots slots 0)
  | _ => 0

end Worker

namespace Writeback

def holds : Writeback → Multiset ChunkKey
  | submit locked _ | dead locked _ => ↑(locked.map Prod.fst)
  | finishRead keys => ↑keys
  | _ => 0

end Writeback

namespace System

/-- Every hold that somebody owns. -/
def holds (s : System) : Multiset ChunkKey :=
  s.server.sessions + (s.handlers.total fun _ p => p.2.holds) + s.worker.holds + s.writeback.holds

/-- Every slot that somebody owns. -/
def slots (s : System) : Multiset Slot :=
  (s.handlers.total fun _ p => p.2.slots) + s.worker.slots

end System

/-! ## Distinct keys -/

variable (blake3 : Bytes → Bytes)

/-- The chunk hashes of a message's tokens do not collide. -/
def Req.Distinct (chunkSize : ℕ) : Req → Prop
  | .lookup p => (chunkHashes blake3 p.tokenIds chunkSize).Nodup
  | .store p | .retrieve p =>
    (chunkHashes blake3 (p.op.tokenIds.take p.op.stop) chunkSize).Nodup
  | _ => True

instance (chunkSize : ℕ) (m : Req) : Decidable (m.Distinct blake3 chunkSize) := by
  cases m <;> unfold Req.Distinct <;> infer_instance

/-- The key lists of a handler have no duplicates. -/
def Handler.Wf (chunkSize : ℕ) : Handler → Prop
  | .start m => m.Distinct blake3 chunkSize
  | .startSession job | .putJob job => job.keys.Nodup
  | .storeReserve keys _ _ | .retrieveRead _ keys _ | .retrieveSend _ keys _ |
    .retrievePromote _ keys | .release _ (some keys) _ _ => keys.Nodup
  | _ => True

/-- The keys of the job are distinct, the slots are for keys that follow the L1 hits, and a
finished load reports the slots it filled. -/
def Worker.Wf : Worker → Prop
  | .prefetch job | .lookup job _ _ _ => job.keys.Nodup
  | .reserve p todo =>
    p.job.keys.Nodup ∧ p.loaded = 0 ∧ p.load.map Prod.fst ++ todo <+: p.missing
  | .load p _ | .finishWrite p | .cleanup p =>
    p.job.keys.Nodup ∧ p.load.map Prod.fst <+: p.missing
  | .loading p _ _ filled future => p.job.keys.Nodup ∧ p.load.map Prod.fst <+: p.missing ∧
    ∀ n, future = some (.ok n) → n = filled
  | .resolve job l1Keys loadedKeys => job.keys.Nodup ∧ l1Keys ++ loadedKeys <+: job.keys
  | _ => True

theorem nodup_keysFor {hashes : List Bytes} {ranks : List ℕ} (model : String)
    (hh : hashes.Nodup) (hr : ranks.Nodup) :
    (CacheServer.keysFor hashes model ranks).Nodup := by
  unfold CacheServer.keysFor
  rw [List.nodup_flatMap]
  refine ⟨fun h _ => hr.map fun a b e => congrArg ChunkKey.rank e, hh.imp fun {a b} hne => ?_⟩
  change List.Disjoint _ _
  rw [List.disjoint_left]
  intro k ha hb
  obtain ⟨r, -, rfl⟩ := List.mem_map.mp ha
  obtain ⟨r', -, e⟩ := List.mem_map.mp hb
  exact hne (congrArg ChunkKey.chunkHash e).symm

/-! ## Sections of the server -/

namespace CacheServer

theorem keys_perm_erase {d : OrderedDict ChunkKey Unit} {k : ChunkKey} (h : k ∈ d.keys) :
    d.keys.Perm (k :: (d.erase k).keys) := by
  obtain ⟨v, hv⟩ := OrderedDict.mem_keys_iff.mp h
  exact (OrderedDict.perm_erase hv).map Prod.fst

/-- Deleting distinct keys that are there. -/
theorem delAll_returned : ∀ (released : List ChunkKey) {d : OrderedDict ChunkKey Unit},
    released.Nodup → (∀ k ∈ released, k ∈ d.keys) →
    ∃ d', delAll d released = .returned d' () ∧ (↑d.keys : Multiset ChunkKey) = ↑released + ↑d'.keys
  | [], d, _, _ => ⟨d, rfl, by simp⟩
  | k :: released, d, hnd, hmem => by
    rw [List.nodup_cons] at hnd
    have hk := hmem k List.mem_cons_self
    have hrest : ∀ k' ∈ released, k' ∈ (d.erase k).keys := by
      intro k' hk'
      have hin := (keys_perm_erase hk).mem_iff.mp (hmem k' (List.mem_cons_of_mem k hk'))
      exact (List.mem_cons.mp hin).resolve_left fun e => hnd.1 (e ▸ hk')
    obtain ⟨d', hd', hsum⟩ := delAll_returned released hnd.2 hrest
    refine ⟨d', ?_, ?_⟩
    · rw [delAll, if_pos (OrderedDict.contains_iff.mpr hk), hd']
    · rw [Multiset.coe_eq_coe.mpr (keys_perm_erase hk), ← Multiset.cons_coe, hsum,
        ← Multiset.cons_coe, Multiset.cons_add]

theorem nodup_heldKeys (srv : CacheServer) (requestId : String) :
    (srv.heldKeys requestId).Nodup := by
  unfold heldKeys
  cases srv.held.get? requestId with
  | none => exact List.nodup_nil
  | some d => exact d.nodup_keys

/-- The section of `release` moves holds from the session to its caller. -/
theorem releaseHeld_returned (srv : CacheServer) (requestId : String)
    {keys : Option (List ChunkKey)} (hnd : ∀ ks, keys = some ks → ks.Nodup) :
    ∃ held released, srv.releaseHeld requestId keys = .returned { srv with held } released ∧
      srv.sessions = ↑released + ({ srv with held } : CacheServer).sessions := by
  rcases hd : srv.held.get? requestId with _ | d
  · exact ⟨srv.held, [], by rw [releaseHeld, hd], (zero_add _).symm⟩
  · have hnd' : (keys.getD d.keys).Nodup := by
      cases keys with
      | none => exact d.nodup_keys
      | some ks => exact hnd ks rfl
    obtain ⟨d', hd', hsum⟩ := delAll_returned ((keys.getD d.keys).filter d.contains)
      (hnd'.filter _) fun k hk => OrderedDict.contains_iff.mp (List.mem_filter.mp hk).2
    refine ⟨srv.held.set requestId d', (keys.getD d.keys).filter d.contains, ?_, ?_⟩
    · simp only [releaseHeld, hd, hd']
    · rw [sessions_eq srv requestId, sessions, sessions_set, heldKeys, hd, Option.elim_some, hsum,
        add_assoc]

end CacheServer

/-! ## A handler's step -/

/-- What a step of a thread that owns `own` and `slots` afterwards keeps, given the holds
`H` and the slots `S` of everyone else; `leak` are the holds it drops on the floor. -/
structure Kept (srv srv' : CacheServer) (own leak : Multiset ChunkKey) (slots : Multiset Slot)
    (H : Multiset ChunkKey) (S : Multiset Slot) : Prop where
  inv : srv'.l1.Inv (own + srv'.sessions + (leak + H)) (slots + S) srv'.Ok
  evolves : srv.l1.Evolves srv'.l1
  chunkSize : srv'.chunkSize = srv.chunkSize
  jobs : ∀ job ∈ srv'.jobs, job ∈ srv.jobs ∨ job.keys.Nodup

/-- A step that only touches L1. -/
theorem Kept.of_l1 {srv : CacheServer} {l1 : L1Manager} {own : Multiset ChunkKey}
    {slots : Multiset Slot} {H : Multiset ChunkKey} {S : Multiset Slot}
    (h : l1.Inv (own + (srv.sessions + H)) (slots + S) srv.Ok) (he : srv.l1.Evolves l1) :
    Kept srv { srv with l1 } own 0 slots H S :=
  ⟨by rw [zero_add, add_assoc]; exact h, he, rfl, fun _ hj => Or.inl hj⟩

/-- A step that leaves L1 and the sessions alone. -/
theorem Kept.of_eq {srv srv' : CacheServer} {own : Multiset ChunkKey} {slots : Multiset Slot}
    {H : Multiset ChunkKey} {S : Multiset Slot}
    (h : srv.l1.Inv (own + srv.sessions + H) (slots + S) srv.Ok) (hl1 : srv'.l1 = srv.l1)
    (hheld : srv'.held = srv.held) (hw : srv'.written = srv.written)
    (hc : srv'.chunkSize = srv.chunkSize)
    (hj : ∀ job ∈ srv'.jobs, job ∈ srv.jobs ∨ job.keys.Nodup) :
    Kept srv srv' own 0 slots H S := by
  refine ⟨?_, by rw [hl1]; exact Evolves.refl _, hc, hj⟩
  have hs : srv'.sessions = srv.sessions := by rw [CacheServer.sessions, hheld]; rfl
  have hok : srv'.Ok = srv.Ok := by funext k b; simp only [CacheServer.Ok, hw]
  rwa [hl1, hs, hok, zero_add]

namespace Handler

/-- The holds a handler's step drops on the floor. -/
def leaks (srv : CacheServer) : Handler → Multiset ChunkKey
  | popSession requestId => ↑(srv.heldKeys requestId)
  | _ => 0

variable {blake3} {srv srv' : CacheServer} {hd' : Handler} {H : Multiset ChunkKey}
  {S : Multiset Slot}

/-- A step that leaves L1 and the sessions alone, of a handler that owns nothing. -/
theorem kept_of_eq (h : srv.l1.Inv (srv.sessions + H) S srv.Ok) (hl1 : srv'.l1 = srv.l1)
    (hheld : srv'.held = srv.held) (hw : srv'.written = srv.written)
    (hc : srv'.chunkSize = srv.chunkSize)
    (hj : ∀ job ∈ srv'.jobs, job ∈ srv.jobs ∨ job.keys.Nodup) : Kept srv srv' 0 0 0 H S :=
  Kept.of_eq (by rwa [zero_add, zero_add]) hl1 hheld hw hc hj

theorem kept_dispatch {m : Req} (h : srv.l1.Inv (srv.sessions + H) S srv.Ok)
    (hwf : m.Distinct blake3 srv.chunkSize) :
    Kept srv (dispatch blake3 srv m).1 (dispatch blake3 srv m).2.holds 0
        (dispatch blake3 srv m).2.slots H S ∧
      (dispatch blake3 srv m).2.Wf blake3 srv.chunkSize := by
  have hop : ∀ (op : LoadStoreOp) (inst : EngineInstance),
      (chunkHashes blake3 (op.tokenIds.take op.stop) srv.chunkSize).Nodup →
      (srv.opKeys blake3 op inst).Nodup := fun op inst hnd =>
    nodup_keysFor _ (hnd.sublist (List.drop_sublist _ _)) (List.nodup_singleton _)
  cases m with
  | getChunkSize | endSession | transferAck | freeLookupLocks | registerKvCache
  | unregisterKvCache | queryPrefetchStatus =>
    exact ⟨kept_of_eq h rfl rfl rfl rfl fun _ hj => Or.inl hj, trivial⟩
  | lookup p =>
    refine ⟨kept_of_eq h rfl rfl rfl rfl fun _ hj => Or.inl hj, ?_⟩
    simp only [dispatch, Wf, CacheServer.lookupJob]
    split
    · exact List.nodup_nil
    · exact nodup_keysFor _ hwf List.nodup_range
  | retrieve p =>
    simp only [dispatch]
    split
    · exact ⟨kept_of_eq h rfl rfl rfl rfl fun _ hj => Or.inl hj, trivial⟩
    · exact ⟨kept_of_eq h rfl rfl rfl rfl fun _ hj => Or.inl hj, hop _ _ hwf⟩
  | store p =>
    simp only [dispatch]
    split
    · exact ⟨kept_of_eq h rfl rfl rfl rfl fun _ hj => Or.inl hj, trivial⟩
    · exact ⟨kept_of_eq h rfl rfl rfl rfl fun _ hj => Or.inl hj, hop _ _ hwf⟩

theorem storeItems_sublist (reserved : OrderedDict ChunkKey (Option MemoryObj)) :
    ∀ (keys : List ChunkKey) (chunks : List Bytes),
      ((storeItems reserved keys chunks).map StoreItem.key).Sublist keys
  | [], _ => by simp [storeItems]
  | _ :: _, [] => by simp [storeItems]
  | k :: keys, b :: chunks => by
    have ih := storeItems_sublist reserved keys chunks
    rcases hk : L1Manager.reservedObj reserved k with _ | obj
    · simp only [storeItems, List.zip_cons_cons, List.filterMap_cons, hk, Option.map_none] at ih ⊢
      exact ih.cons k
    · simp only [storeItems, List.zip_cons_cons, List.filterMap_cons, hk, Option.map_some,
        List.map_cons] at ih ⊢
      exact ih.cons_cons k

theorem mem_storeItems {reserved : OrderedDict ChunkKey (Option MemoryObj)}
    {keys : List ChunkKey} {chunks : List Bytes} {item : StoreItem}
    (h : item ∈ storeItems reserved keys chunks) :
    (item.key, item.blob) ∈ keys.zip chunks ∧
      L1Manager.reservedObj reserved item.key = some item.obj := by
  obtain ⟨⟨k, b⟩, hp, hi⟩ := List.mem_filterMap.mp h
  obtain ⟨obj, hobj, rfl⟩ := Option.map_eq_some_iff.mp hi
  exact ⟨hp, hobj⟩

/-- The items of a STORE are among the slots just reserved; what it does not fill is
nobody's. -/
theorem kept_storeReserve {keys : List ChunkKey} {n : ℕ} {chunks : List Bytes}
    (h : srv.l1.Inv (srv.sessions + H) S srv.Ok) (hnd : keys.Nodup) :
    Kept srv { srv with l1 := (srv.l1.reserveWrite keys n false).2 } 0 0
      (storeCopy [] (storeItems (srv.l1.reserveWrite keys n false).1 keys chunks)).slots H S := by
  obtain ⟨ps, hinv, hgrows, hres, -, -⟩ := inv_reserveWrite (n := n) (t := false) h hnd
  set items := storeItems (srv.l1.reserveWrite keys n false).1 keys chunks with hitems
  refine Kept.of_l1 ?_ hgrows.evolves
  have hnodup : (items.map (StoreItem.slot false)).Nodup := by
    refine List.Nodup.of_map Slot.key ?_
    rw [List.map_map]
    exact hnd.sublist (storeItems_sublist _ _ _)
  have hsub : (↑(items.map (StoreItem.slot false)) : Multiset Slot) ⊆ ↑(freshSlots false ps) := by
    intro x hx
    obtain ⟨item, hitem, rfl⟩ := List.mem_map.mp (Multiset.mem_coe.mp hx)
    have hp := (hres _ _).mp (mem_storeItems hitem).2
    exact Multiset.mem_coe.mpr (List.mem_map.mpr ⟨_, hp, rfl⟩)
  obtain ⟨rest, hrest⟩ := Multiset.le_iff_exists_add.mp
    ((Multiset.le_iff_subset (Multiset.coe_nodup.mpr hnodup)).mpr hsub)
  have hslots : (storeCopy [] items).slots = ↑(items.map (StoreItem.slot false)) := by
    simp [slots]
  have htmp : ∀ x ∈ rest, x.isTemporary = false := by
    intro x hx
    have hmem : x ∈ (↑(freshSlots false ps) : Multiset Slot) :=
      hrest ▸ Multiset.mem_add.mpr (Or.inr hx)
    obtain ⟨p, -, rfl⟩ := List.mem_map.mp (Multiset.mem_coe.mp hmem)
    rfl
  rw [hslots, zero_add]
  refine Inv.forget rest ?_ htmp
  rwa [← add_assoc, add_comm rest, ← hrest]

/-- One slice of a STORE filled. -/
theorem kept_storeCopy {filled todo : List StoreItem} {item : StoreItem}
    (h : srv.l1.Inv (srv.sessions + H) ((storeCopy filled (item :: todo)).slots + S) srv.Ok)
    (hlen : item.blob.length = item.obj.nbytes) :
    Kept srv (srv.fill item.key item.obj item.blob) 0 0
      (storeCopy (filled ++ [item]) todo).slots H S := by
  have hS : (storeCopy filled (item :: todo)).slots + S = item.slot false ::ₘ
      (↑(filled.map (StoreItem.slot true)) + ↑(todo.map (StoreItem.slot false)) + S) := by
    simp only [slots, List.map_cons, ← Multiset.cons_coe, Multiset.add_cons, Multiset.cons_add]
  have hS' : (storeCopy (filled ++ [item]) todo).slots + S = item.slot true ::ₘ
      (↑(filled.map (StoreItem.slot true)) + ↑(todo.map (StoreItem.slot false)) + S) := by
    simp only [slots, List.map_append, List.map_cons, List.map_nil, ← Multiset.coe_add,
      Multiset.coe_singleton, ← Multiset.singleton_add]
    ac_rfl
  have hmono : ∀ k b, srv.Ok k b → (srv.fill item.key item.obj item.blob).Ok k b :=
    fun k b hb => List.mem_append_left _ hb
  have hok : (srv.fill item.key item.obj item.blob).Ok item.key item.blob :=
    List.mem_append_right _ List.mem_cons_self
  rw [hS] at h
  have hcopy := (h.mono hmono).copy true hlen fun _ => hok
  refine ⟨?_, h.evolves_copyInto hlen, rfl, fun _ hj => Or.inl hj⟩
  rw [hS', zero_add, zero_add]
  exact hcopy

/-- The STORE's slots become readable. -/
theorem kept_storeFinish {filled : List StoreItem}
    (h : srv.l1.Inv (srv.sessions + H) ((storeCopy filled []).slots + S) srv.Ok) :
    ∃ l1, srv.l1.finishWrite (filled.map StoreItem.key) = .returned l1 () ∧
      Kept srv { srv with l1 } 0 0 0 H S := by
  have hS : (storeCopy filled []).slots = ↑(filled.map (StoreItem.slot true)) := by simp [slots]
  rw [hS] at h
  have hx : ∀ x ∈ filled.map (StoreItem.slot true), x.isTemporary = false ∧ x.ready = true := by
    intro x hx
    obtain ⟨item, -, rfl⟩ := List.mem_map.mp hx
    exact ⟨rfl, rfl⟩
  obtain ⟨l1, hl1, hinv, hs⟩ := inv_finishWrite h hx
  rw [List.map_map] at hl1
  exact ⟨l1, hl1, Kept.of_l1 (by rwa [zero_add, zero_add]) hs.evolves⟩

theorem nodup_of_wf {requestId : String} {keys : Option (List ChunkKey)} {ending : Bool}
    {reply : Reply} {c : ℕ} (hwf : (release requestId keys ending reply).Wf blake3 c) :
    ∀ ks, keys = some ks → ks.Nodup := by
  rintro ks rfl
  exact hwf

/-- The section of `release`. -/
theorem kept_release (requestId : String) {keys : Option (List ChunkKey)}
    (h : srv.l1.Inv (srv.sessions + H) S srv.Ok) (hnd : ∀ ks, keys = some ks → ks.Nodup) :
    ∃ held released, srv.releaseHeld requestId keys = .returned { srv with held } released ∧
      Kept srv { srv with held } ↑released 0 0 H S := by
  obtain ⟨held, released, hrel, hsum⟩ := srv.releaseHeld_returned requestId hnd
  refine ⟨held, released, hrel, ?_, Evolves.refl _, rfl, fun _ hj => Or.inl hj⟩
  rw [← hsum, zero_add, zero_add]
  exact h

theorem kept_finishRead {released : List ChunkKey}
    (h : srv.l1.Inv (↑released + srv.sessions + H) (0 + S) srv.Ok) :
    ∃ l1, srv.l1.finishRead released = .returned l1 () ∧ Kept srv { srv with l1 } 0 0 0 H S := by
  rw [add_assoc, zero_add] at h
  obtain ⟨l1, hl1, hinv, hs⟩ := inv_finishRead h
  exact ⟨l1, hl1, Kept.of_l1 (by rwa [zero_add, zero_add]) hs.evolves⟩

theorem kept_popSession {requestId : String} (h : srv.l1.Inv (srv.sessions + H) S srv.Ok) :
    Kept srv (srv.popSession requestId) 0 ↑(srv.heldKeys requestId) 0 H S := by
  refine ⟨?_, Evolves.refl _, rfl, fun _ hj => Or.inl hj⟩
  have hs : (srv.popSession requestId).sessions = srv.otherSessions requestId := rfl
  rw [srv.sessions_eq requestId, add_assoc, add_left_comm] at h
  rw [hs, zero_add, zero_add]
  exact h

/-- One step of a handler. -/
theorem kept_step {hd : Handler}
    (h : srv.l1.Inv (hd.holds + srv.sessions + H) (hd.slots + S) srv.Ok)
    (hwf : hd.Wf blake3 srv.chunkSize) (hs : Does blake3 srv hd srv' hd') :
    Kept srv srv' hd'.holds (hd.leaks srv) hd'.slots H S ∧ hd'.Wf blake3 srv.chunkSize := by
  have hsame : srv.l1.Inv (srv.sessions + H) S srv.Ok → Kept srv srv 0 0 0 H S := fun h =>
    kept_of_eq h rfl rfl rfl rfl fun _ hj => Or.inl hj
  cases hs with
  | dispatch m =>
    simp only [holds, slots, zero_add] at h
    exact kept_dispatch h hwf
  | startSession job =>
    simp only [holds, slots, zero_add] at h
    exact ⟨kept_of_eq h rfl rfl rfl rfl fun _ hj => Or.inl hj, hwf⟩
  | putJob job =>
    simp only [holds, slots, zero_add] at h
    refine ⟨kept_of_eq h rfl rfl rfl rfl fun job' hj => ?_, trivial⟩
    rcases List.mem_append.mp hj with hj | hj
    · exact Or.inl hj
    · rw [List.mem_singleton] at hj
      exact Or.inr (hj ▸ hwf)
  | reserve keys n chunks =>
    simp only [holds, slots, zero_add] at h
    exact ⟨kept_storeReserve h hwf, trivial⟩
  | copy filled todo hlen =>
    simp only [holds, zero_add] at h
    exact ⟨kept_storeCopy h hlen, trivial⟩
  | wrongSize filled todo hlen =>
    simp only [holds, slots, zero_add] at h
    refine ⟨hsame (h.forget _ ?_), trivial⟩
    intro x hx
    simp only [Multiset.mem_add, Multiset.mem_coe, List.mem_map] at hx
    rcases hx with ⟨item, -, rfl⟩ | ⟨item, -, rfl⟩ <;> rfl
  | finishWrite hl1 =>
    simp only [holds, zero_add] at h
    obtain ⟨l1', hl1', hk⟩ := kept_storeFinish h
    rw [hl1'] at hl1
    cases hl1
    exact ⟨hk, trivial⟩
  | finishWriteFail hl1 =>
    simp only [holds, zero_add] at h
    obtain ⟨l1', hl1', -⟩ := kept_storeFinish h
    rw [hl1'] at hl1
    cases hl1
  | read | send =>
    simp only [holds, slots, zero_add] at h
    exact ⟨hsame h, hwf⟩
  | readFail =>
    simp only [holds, slots, zero_add] at h
    exact ⟨hsame h, trivial⟩
  | promote requestId keys =>
    simp only [holds, slots, zero_add] at h
    obtain ⟨h1, h2⟩ := inv_promote keys h
    exact ⟨Kept.of_l1 (by simpa only [holds, slots, zero_add] using h1) h2.evolves, hwf⟩
  | releaseFirst requestId count =>
    simp only [holds, slots, zero_add] at h
    exact ⟨hsame h, (srv.nodup_heldKeys requestId).sublist (List.take_sublist _ _)⟩
  | @release requestId keys ending reply srv' released hrel =>
    simp only [holds, slots, zero_add] at h
    obtain ⟨held, released', hrel', hk⟩ := kept_release requestId h (nodup_of_wf hwf)
    rw [hrel'] at hrel
    cases hrel
    exact ⟨hk, trivial⟩
  | @releaseFail requestId keys ending reply srv' e hrel =>
    simp only [holds, slots, zero_add] at h
    obtain ⟨held, released', hrel', -⟩ := kept_release requestId h (nodup_of_wf hwf)
    rw [hrel'] at hrel
    cases hrel
  | @finishRead requestId released ending reply l1 hl1 =>
    obtain ⟨l1', hl1', hk⟩ := kept_finishRead h
    rw [hl1'] at hl1
    cases hl1
    split_ifs
    · exact ⟨hk, trivial⟩
    · exact ⟨hk, trivial⟩
  | finishReadFail hl1 =>
    obtain ⟨l1', hl1', -⟩ := kept_finishRead h
    rw [hl1'] at hl1
    cases hl1
  | pop requestId =>
    simp only [holds, slots, zero_add] at h
    exact ⟨kept_popSession h, trivial⟩

end Handler

end MiniLlmcache
