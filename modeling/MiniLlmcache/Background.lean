import MiniLlmcache.Invariant
import MiniLlmcache.Runs

/-!
# Every step keeps the invariant

The prefetch worker, the write-back loop, the evictor and the L2 threads, each with the rest
of the process as a frame. `System.inv_step` puts them together : `System.Inv` is kept with
the step's leak added to what is lost, and `System.inv_of_run` says so of whole runs.
-/

namespace MiniLlmcache

open L1Manager

variable {srv srv' : CacheServer} {l2s l2s' : List Adapter} {H : Multiset ChunkKey}
  {S : Multiset Slot}

/-! ## The prefetch worker -/

theorem loadSlots_zero (load : List (ChunkKey × MemoryObj)) :
    loadSlots load 0 = freshSlots true load := by
  simp [loadSlots, freshSlots]

theorem map_key_freshSlots (t : Bool) (ps : List (ChunkKey × MemoryObj)) :
    (freshSlots t ps).map Slot.key = ps.map Prod.fst := by
  simp [freshSlots, Function.comp_def]

theorem loadSlots_unready (load : List (ChunkKey × MemoryObj)) (n : ℕ) :
    (loadSlots load n).map (fun x => { x with ready := false }) = loadSlots load 0 := by
  rw [loadSlots_zero, loadSlots, List.map_append, List.map_map, List.map_map]
  simp only [Function.comp_def, freshSlots]
  rw [← List.map_append, List.take_append_drop]

/-- The slots of a load, split into the filled ones and the rest. -/
theorem coe_loadSlots (load : List (ChunkKey × MemoryObj)) (n : ℕ) :
    (↑(loadSlots load n) : Multiset Slot) =
      ↑((load.take n).map fun p => (⟨p.1, p.2, true, true⟩ : Slot)) +
        ↑(freshSlots true (load.drop n)) :=
  (Multiset.coe_add _ _).symm

/-- Filling the next slot. -/
theorem loadSlots_succ {load : List (ChunkKey × MemoryObj)} {n : ℕ} {p : ChunkKey × MemoryObj}
    (hp : load[n]? = some p) : ∃ rest : Multiset Slot,
      (↑(loadSlots load n) : Multiset Slot) = ⟨p.1, p.2, true, false⟩ ::ₘ rest ∧
      (↑(loadSlots load (n + 1)) : Multiset Slot) = ⟨p.1, p.2, true, true⟩ ::ₘ rest := by
  obtain ⟨hn, rfl⟩ := List.getElem?_eq_some_iff.mp hp
  refine ⟨↑((load.take n).map fun p => (⟨p.1, p.2, true, true⟩ : Slot)) +
    ↑(freshSlots true (load.drop (n + 1))), ?_, ?_⟩
  · rw [coe_loadSlots, List.drop_eq_getElem_cons hn, freshSlots, List.map_cons,
      ← Multiset.cons_coe, Multiset.add_cons]
    rfl
  · rw [coe_loadSlots, List.take_succ_eq_append_getElem hn, List.map_append, ← Multiset.coe_add,
      List.map_cons, List.map_nil, Multiset.coe_singleton, add_right_comm, add_comm,
      ← add_assoc, Multiset.singleton_add, Multiset.cons_add, add_comm]

namespace Worker

/-- The holds the worker's step drops on the floor : `resolve` overwrites the record of a
session that was resolved before. -/
def leaks (srv : CacheServer) : Worker → Multiset ChunkKey
  | resolve job _ _ =>
    if srv.hits.contains job.requestId then ↑(srv.heldKeys job.requestId) else 0
  | _ => 0

/-- Reserving one slot. -/
theorem kept_reserve {p : Prefetch} (key : ChunkKey)
    (h : srv.l1.Inv (↑p.l1Keys + srv.sessions + H) (↑(loadSlots p.load 0) + S) srv.Ok) :
    (reservedObj (srv.l1.reserveWrite [key] p.chunkNbytes true).1 key = none →
      Kept srv { srv with l1 := (srv.l1.reserveWrite [key] p.chunkNbytes true).2 } ↑p.l1Keys 0
        ↑(loadSlots p.load 0) H S) ∧
    ∀ obj, reservedObj (srv.l1.reserveWrite [key] p.chunkNbytes true).1 key = some obj →
      Kept srv { srv with l1 := (srv.l1.reserveWrite [key] p.chunkNbytes true).2 } ↑p.l1Keys 0
        ↑(loadSlots (p.load ++ [(key, obj)]) 0) H S := by
  obtain ⟨ps, hinv, hgrows, hres, -, hps⟩ :=
    inv_reserveWrite (n := p.chunkNbytes) (t := true) h (List.nodup_singleton key)
  rw [add_assoc] at hinv
  -- the only key asked for is `key`
  have hone : ps.map Prod.fst = [] ∨ ps.map Prod.fst = [key] := by
    rcases hps with ⟨rfl, -⟩ | hps
    · exact Or.inl rfl
    · rw [hps, List.filter_cons, List.filter_nil]
      split_ifs
      · exact Or.inr rfl
      · exact Or.inl rfl
  constructor
  · intro hnone
    have hnil : ps = [] := by
      rcases hone with hmap | hmap
      · exact List.map_eq_nil_iff.mp hmap
      · obtain ⟨q, rfl, hq⟩ := List.map_eq_singleton_iff.mp hmap
        have hget := (hres q.1 q.2).mpr List.mem_cons_self
        rw [hq, hnone] at hget
        cases hget
    rw [hnil] at hinv
    refine Kept.of_l1 ?_ hgrows.evolves
    simpa [freshSlots] using hinv
  · intro obj hsome
    have hmem := (hres key obj).mp hsome
    have hsingle : ps = [(key, obj)] := by
      rcases hone with hmap | hmap
      · rw [List.map_eq_nil_iff.mp hmap] at hmem
        cases hmem
      · obtain ⟨q, rfl, -⟩ := List.map_eq_singleton_iff.mp hmap
        rw [List.mem_singleton.mp hmem]
    rw [hsingle] at hinv
    refine Kept.of_l1 ?_ hgrows.evolves
    have happ : (↑(loadSlots (p.load ++ [(key, obj)]) 0) : Multiset Slot) =
        ↑(freshSlots true [(key, obj)]) + ↑(loadSlots p.load 0) := by
      rw [loadSlots_zero, loadSlots_zero, freshSlots, List.map_append, ← Multiset.coe_add, add_comm]
      rfl
    rwa [happ, add_assoc]

/-- The filled slots become readable, with one hold each. -/
theorem kept_finishWrite {p : Prefetch}
    (h : srv.l1.Inv (↑p.l1Keys + srv.sessions + H) (↑(loadSlots p.load p.loaded) + S) srv.Ok) :
    ∃ l1, srv.l1.finishWriteAndReserveRead p.loadedKeys = .returned l1 () ∧
      Kept srv { srv with l1 } ↑(p.l1Keys ++ p.loadedKeys) 0
        ↑(loadSlots (p.load.drop p.loaded) 0) H S := by
  set filled := (p.load.take p.loaded).map fun q => (⟨q.1, q.2, true, true⟩ : Slot) with hfilled
  have h' : srv.l1.Inv (↑p.l1Keys + (srv.sessions + H))
      (↑filled + (↑(freshSlots true (p.load.drop p.loaded)) + S)) srv.Ok := by
    rwa [← add_assoc, ← add_assoc, hfilled, ← coe_loadSlots]
  obtain ⟨l1, hl1, hinv, hs⟩ := inv_finishWriteAndReserveRead h' fun x hx => by
    obtain ⟨q, -, rfl⟩ := List.mem_map.mp hx
    rfl
  have hkeys : filled.map Slot.key = p.loadedKeys := by
    rw [hfilled, List.map_map]
    rfl
  rw [hkeys] at hl1 hinv
  refine ⟨l1, hl1, Kept.of_l1 ?_ hs.evolves⟩
  rw [loadSlots_zero, ← Multiset.coe_add, add_comm (↑p.l1Keys : Multiset ChunkKey), add_assoc]
  exact hinv

/-- The slots that were not filled are removed. -/
theorem kept_cleanup {p : Prefetch} {own : Multiset ChunkKey}
    (h : srv.l1.Inv (own + srv.sessions + H) (↑(loadSlots (p.load.drop p.loaded) 0) + S) srv.Ok) :
    Kept srv { srv with l1 := (srv.l1.delete p.surplusKeys true).2 } own 0 0 H S := by
  rw [loadSlots_zero] at h
  obtain ⟨hinv, hs, -⟩ := inv_deleteSlots h
  rw [map_key_freshSlots] at hinv hs
  refine Kept.of_l1 ?_ hs.evolves
  rw [zero_add, ← add_assoc]
  exact hinv

/-- The worker's holds become the session's. -/
theorem kept_publish {requestId : String} {l1Keys loadedKeys : List ChunkKey}
    (h : srv.l1.Inv (↑(l1Keys ++ loadedKeys) + srv.sessions + H) S srv.Ok)
    (hnd : (l1Keys ++ loadedKeys).Nodup) :
    Kept srv (srv.publish requestId l1Keys loadedKeys) 0 ↑(srv.heldKeys requestId) 0 H S := by
  refine ⟨?_, Evolves.refl _, rfl, fun _ hj => Or.inl hj⟩
  have hs : (srv.publish requestId l1Keys loadedKeys).sessions =
      ↑(l1Keys ++ loadedKeys) + srv.otherSessions requestId := by
    rw [CacheServer.sessions, CacheServer.publish, CacheServer.sessions_set,
      OrderedDict.keys_fromKeys hnd]
  rw [hs, zero_add, zero_add]
  rw [srv.sessions_eq requestId] at h
  have hcomm : (↑(l1Keys ++ loadedKeys) + srv.otherSessions requestId) +
      (↑(srv.heldKeys requestId) + H) = ↑(l1Keys ++ loadedKeys) +
      (↑(srv.heldKeys requestId) + srv.otherSessions requestId) + H := by ac_rfl
  rw [hcomm]
  exact h

theorem prefix_jobKeys {p : Prefetch} {keys : List ChunkKey} (h : keys <+: p.missing) :
    p.l1Keys ++ keys <+: p.job.keys := by
  have hsplit : p.job.keys = p.l1Keys ++ p.missing := (List.take_append_drop _ _).symm
  rw [hsplit]
  exact (List.prefix_append_right_inj _).mpr h

theorem prefix_loadedKeys {p : Prefetch} (h : p.load.map Prod.fst <+: p.missing) :
    p.loadedKeys <+: p.missing := by
  rw [Prefetch.loadedKeys, List.map_take]
  exact (List.take_prefix _ _).trans h

/-- One step of the prefetch worker. -/
theorem kept_step {w w' : Worker}
    (h : srv.l1.Inv (w.holds + srv.sessions + H) (w.slots + S) srv.Ok) (hwf : w.Wf)
    (hjobs : ∀ job ∈ srv.jobs, job.keys.Nodup) (hs : Does srv l2s w srv' l2s' w') :
    Kept srv srv' w'.holds (w.leaks srv) w'.slots H S ∧ w'.Wf := by
  have hsame : ∀ {own : Multiset ChunkKey} {slots : Multiset Slot},
      srv.l1.Inv (own + srv.sessions + H) (slots + S) srv.Ok → Kept srv srv own 0 slots H S :=
    fun h => Kept.of_eq h rfl rfl rfl rfl fun _ hj => Or.inl hj
  have hfirst : ∀ job : Job, srv.l1.Inv (0 + srv.sessions + H) (0 + S) srv.Ok →
      Kept srv { srv with l1 := (srv.l1.reserveReadPrefix job.keys).2 }
        ↑(job.keys.take (srv.l1.reserveReadPrefix job.keys).1) 0 0 H S := by
    intro job h
    rw [zero_add, zero_add] at h
    obtain ⟨hinv, hsh⟩ := inv_reserveReadPrefix h job.keys
    exact Kept.of_l1 (by rwa [zero_add]) hsh.evolves
  cases hs with
  | @take job jobs hj =>
    refine ⟨Kept.of_eq h rfl rfl rfl rfl fun job' hj' => Or.inl ?_, hjobs job ?_⟩
    · rw [hj]
      exact List.mem_cons_of_mem _ hj'
    · rw [hj]
      exact List.mem_cons_self
  | @unknown job =>
    have hk := hfirst job h
    refine ⟨?_, hwf, ?_⟩
    · simpa only [holds, slots, leaks, List.append_nil] using hk
    · rw [List.append_nil]
      exact List.take_prefix _ _
  | allInL1 => exact ⟨hfirst _ h, hwf, rfl, List.nil_prefix⟩
  | inL1 => exact ⟨hfirst _ h, hwf⟩
  | submitLookup => exact ⟨hsame h, hwf⟩
  | lookupRaised => exact ⟨hsame h, trivial⟩
  | lookupDone => exact ⟨hsame h, hwf, rfl, List.take_prefix _ _⟩
  | @full p key todo hr =>
    obtain ⟨hnd, hzero, hpre⟩ := hwf
    simp only [holds, slots, hzero] at h
    have hk := (kept_reserve key h).1 hr
    rw [← hzero] at hk
    exact ⟨hk, hnd, (List.prefix_append _ _).trans hpre⟩
  | @reserve p key todo obj hr =>
    obtain ⟨hnd, hzero, hpre⟩ := hwf
    simp only [holds, slots, hzero] at h
    have hk := (kept_reserve key h).2 obj hr
    rw [← hzero] at hk
    refine ⟨hk, hnd, hzero, ?_⟩
    rw [Prefetch.missing] at hpre ⊢
    simpa using hpre
  | reserved p =>
    obtain ⟨hnd, hzero, hpre⟩ := hwf
    rw [List.append_nil] at hpre
    exact ⟨hsame h, hnd, hpre⟩
  | loadDone => exact ⟨hsame h, hwf⟩
  | submitLoad => exact ⟨hsame h, hwf.1, hwf.2, nofun⟩
  | loaded p order i filled n =>
    obtain ⟨hnd, hpre, hn⟩ := hwf
    obtain rfl := hn n rfl
    exact ⟨hsame h, hnd, hpre⟩
  | loadRaised p order i filled e =>
    refine ⟨hsame ?_, trivial⟩
    have := h.unready
    rwa [slots, Multiset.map_coe, loadSlots_unready] at this
  | finishWrite hl1 =>
    obtain ⟨l1', hl1', hk⟩ := kept_finishWrite h
    rw [hl1'] at hl1
    cases hl1
    exact ⟨hk, hwf⟩
  | finishWriteFail hl1 =>
    obtain ⟨l1', hl1', -⟩ := kept_finishWrite h
    rw [hl1'] at hl1
    cases hl1
  | cleanup p => exact ⟨kept_cleanup h, hwf.1, prefix_jobKeys (prefix_loadedKeys hwf.2)⟩
  | publish hc =>
    simp only [leaks, hc, if_true]
    refine ⟨kept_publish ?_ (hwf.1.sublist hwf.2.sublist), trivial⟩
    simpa only [holds, slots, zero_add] using h
  | ended hc =>
    simp only [leaks, hc]
    exact ⟨hsame h, trivial⟩
  | finishRead hl1 =>
    obtain ⟨l1', hl1', hk⟩ := Handler.kept_finishRead h
    rw [hl1'] at hl1
    cases hl1
    exact ⟨hk, trivial⟩
  | finishReadFail hl1 =>
    obtain ⟨l1', hl1', -⟩ := Handler.kept_finishRead h
    rw [hl1'] at hl1
    cases hl1

end Worker

/-! ## Write-back and eviction -/

namespace Writeback

/-- One step of the write-back loop. -/
theorem kept_step {w w' : Writeback} (h : srv.l1.Inv (w.holds + srv.sessions + H) S srv.Ok)
    (hs : Does srv l2s w srv' l2s' w') : Kept srv srv' w'.holds 0 0 H S := by
  have hsame : ∀ {own : Multiset ChunkKey}, srv.l1.Inv (own + srv.sessions + H) S srv.Ok →
      Kept srv srv own 0 0 H S :=
    fun h => Kept.of_eq (by rwa [zero_add]) rfl rfl rfl rfl fun _ hj => Or.inl hj
  cases hs with
  | @take keys pending hp =>
    have hsh : srv.l1.Shrinks { srv.l1 with listeners.pending := some pending } :=
      shrinks_of_eq rfl rfl
    refine Kept.of_l1 ?_ hsh.evolves
    rw [zero_add, ← add_assoc]
    exact h.congr rfl rfl
  | @evicted keys hlocked =>
    simp only [holds, zero_add] at h
    obtain ⟨hinv, hsh, -⟩ := inv_reserveRead keys h
    refine Kept.of_l1 ?_ hsh.evolves
    rw [zero_add]
    simpa only [hlocked, List.map_nil, Multiset.coe_nil, holds, zero_add] using hinv
  | @reserve keys hlocked =>
    simp only [holds, zero_add] at h
    obtain ⟨hinv, hsh, -⟩ := inv_reserveRead keys h
    exact Kept.of_l1 (by rwa [zero_add]) hsh.evolves
  | submit | stored | raised => exact hsame h
  | finishRead hl1 =>
    obtain ⟨l1', hl1', hk⟩ := Handler.kept_finishRead (by rwa [zero_add])
    rw [hl1'] at hl1
    cases hl1
    exact hk
  | finishReadFail hl1 =>
    obtain ⟨l1', hl1', -⟩ := Handler.kept_finishRead (by rwa [zero_add])
    rw [hl1'] at hl1
    cases hl1

end Writeback

theorem Evictor.kept_step {e : Evictor} (h : srv.l1.Inv (srv.sessions + H) S srv.Ok) :
    Kept srv (e.step srv).1 0 0 0 H S := by
  cases e with
  | idle => exact Handler.kept_of_eq h rfl rfl rfl rfl fun _ hj => Or.inl hj
  | scan | dead => exact Handler.kept_of_eq h rfl rfl rfl rfl fun _ hj => Or.inl hj
  | delete victims =>
    obtain ⟨h1, h2⟩ := inv_delete h victims
    exact Kept.of_l1 (by rwa [zero_add, zero_add]) h2.evolves

/-! ## The system -/

namespace System

variable (blake3 : Bytes → Bytes)

/-- The invariant of the process, with the holds `lost` on the way. -/
structure Inv (s : System) (lost : Multiset ChunkKey) : Prop where
  ledger : s.server.l1.Inv (s.holds + lost) s.slots s.server.Ok
  handlers : ∀ t m h, s.handlers.get? t = some (m, h) → h.Wf blake3 s.server.chunkSize
  jobs : ∀ job ∈ s.server.jobs, job.keys.Nodup
  worker : s.worker.Wf

/-- The holds a step drops on the floor. -/
def leaks (s : System) : Label → Multiset ChunkKey
  | .handler t => (s.handlers.get? t).elim 0 fun p => p.2.leaks s.server
  | .worker => s.worker.leaks s.server
  | _ => 0

/-- The messages received have distinct chunk hashes. -/
def Distinct (s : System) : Label → Prop
  | .recv _ m => m.Distinct blake3 s.server.chunkSize
  | _ => True

instance (s : System) (l : Label) : Decidable (s.Distinct blake3 l) := by
  cases l <;> unfold Distinct <;> infer_instance

variable {blake3} {s s' : System} {lost : Multiset ChunkKey}

theorem inv_new (chunkSize capacity : ℕ) (pool : ℕ → UInt8) (adapters : ℕ) :
    (new chunkSize capacity pool adapters).Inv blake3 0 where
  ledger := by
    refine ⟨⟨?_, ?_, ?_, ?_, ?_, ?_⟩, PoolAllocator.inv_new _ _⟩
    · intro k e he
      cases he
    · intro k hk
      cases hk
    · intro x hx
      cases hx
    · exact Multiset.nodup_zero
    · intro k e he
      cases he
    · intro k e he
      cases he
  handlers t m h hget := by cases hget
  jobs job hj := by cases hj
  worker := trivial

/-- The holds of everyone but one handler thread. -/
def frame (s : System) (t : ℕ) : Multiset ChunkKey :=
  ((s.handlers.erase t).total fun _ p => p.2.holds) + s.worker.holds + s.writeback.holds

theorem inv_handler {t : ℕ} (h : s.Inv blake3 lost) (hs : s.step blake3 (.handler t) = some s') :
    s'.Inv blake3 (s.leaks (.handler t) + lost) ∧ s.server.l1.Evolves s'.server.l1 ∧
      s'.server.chunkSize = s.server.chunkSize := by
  obtain ⟨m, hd, srv', hd', hget, hdoes, rfl⟩ := step_handler hs
  have hholds : s.holds + lost = hd.holds + s.server.sessions + (s.frame t + lost) := by
    rw [holds, OrderedDict.total_eq _ _ t, OrderedDict.at?, hget, Option.elim_some, frame]
    ac_rfl
  have hslots : s.slots = hd.slots +
      (((s.handlers.erase t).total fun _ p => p.2.slots) + s.worker.slots) := by
    rw [slots, OrderedDict.total_eq _ _ t, OrderedDict.at?, hget, Option.elim_some, add_assoc]
  have hl := h.ledger
  rw [hholds, hslots] at hl
  obtain ⟨hk, hwf⟩ := Handler.kept_step hl (h.handlers t m hd hget) hdoes
  refine ⟨⟨?_, ?_, ?_, h.worker⟩, hk.evolves, hk.chunkSize⟩
  · have hholds' : ({ s with
        server := srv', handlers := s.handlers.set t (m, hd') } : System).holds +
        (s.leaks (.handler t) + lost) =
        hd'.holds + srv'.sessions + (hd.leaks s.server + (s.frame t + lost)) := by
      rw [holds, OrderedDict.total_set, frame, leaks, hget, Option.elim_some]
      ac_rfl
    have hslots' : ({ s with
        server := srv', handlers := s.handlers.set t (m, hd') } : System).slots =
        hd'.slots + (((s.handlers.erase t).total fun _ p => p.2.slots) + s.worker.slots) := by
      rw [slots, OrderedDict.total_set, add_assoc]
    rw [hholds', hslots']
    exact hk.inv
  · intro t' m' h' hget'
    rw [hk.chunkSize]
    rcases OrderedDict.eq_or_get?_of_set hget' with ⟨-, he⟩ | hget'
    · cases he
      exact hwf
    · exact h.handlers t' m' h' hget'
  · intro job hj
    rcases hk.jobs job hj with hj | hnd
    · exact h.jobs job hj
    · exact hnd

theorem inv_worker (h : s.Inv blake3 lost) (hs : s.step blake3 .worker = some s') :
    s'.Inv blake3 (s.leaks .worker + lost) ∧ s.server.l1.Evolves s'.server.l1 ∧
      s'.server.chunkSize = s.server.chunkSize := by
  obtain ⟨srv', l2s', w', hdoes, rfl⟩ := step_worker hs
  set rest := (s.handlers.total fun _ p => p.2.holds) + s.writeback.holds with hrest
  have hholds : s.holds + lost = s.worker.holds + s.server.sessions + (rest + lost) := by
    rw [holds, hrest]
    ac_rfl
  have hl := h.ledger
  rw [hholds, slots, add_comm (OrderedDict.total _ _)] at hl
  obtain ⟨hk, hwf⟩ := Worker.kept_step hl h.worker h.jobs hdoes
  refine ⟨⟨?_, ?_, ?_, hwf⟩, hk.evolves, hk.chunkSize⟩
  · have hholds' : ({ s with server := srv', l2s := l2s', worker := w' } : System).holds +
        (s.leaks .worker + lost) =
        w'.holds + srv'.sessions + (s.worker.leaks s.server + (rest + lost)) := by
      rw [holds, hrest, leaks]
      ac_rfl
    rw [hholds', slots, add_comm (OrderedDict.total _ _)]
    exact hk.inv
  · rw [hk.chunkSize]
    exact h.handlers
  · intro job hj
    rcases hk.jobs job hj with hj | hnd
    · exact h.jobs job hj
    · exact hnd

/-- A step of a thread without slots that leaves the handlers and the worker alone. -/
theorem inv_of_kept {srv' : CacheServer} (own own' rest : Multiset ChunkKey)
    (h : s.Inv blake3 lost) (hholds : s.holds = own + s.server.sessions + rest)
    (hk : s.server.l1.Inv (own + s.server.sessions + (rest + lost)) s.slots s.server.Ok →
      Kept s.server srv' own' 0 0 (rest + lost) s.slots)
    (hserver : s'.server = srv') (hhandlers : s'.handlers = s.handlers)
    (hworker : s'.worker = s.worker) (hholds' : s'.holds = own' + srv'.sessions + rest) :
    s'.Inv blake3 lost ∧ s.server.l1.Evolves s'.server.l1 ∧
      s'.server.chunkSize = s.server.chunkSize := by
  subst hserver
  have hl := h.ledger
  rw [hholds, add_assoc] at hl
  have hk := hk hl
  refine ⟨⟨?_, ?_, ?_, hworker ▸ h.worker⟩, hk.evolves, hk.chunkSize⟩
  · have hslots : s'.slots = s.slots := by rw [slots, hhandlers, hworker, slots]
    have hi := hk.inv
    rwa [zero_add, zero_add, ← add_assoc, ← hholds', ← hslots] at hi
  · rw [hk.chunkSize, hhandlers]
    exact h.handlers
  · intro job hj
    rcases hk.jobs job hj with hj | hnd
    · exact h.jobs job hj
    · exact hnd

theorem inv_writeback (h : s.Inv blake3 lost) (hs : s.step blake3 .writeback = some s') :
    s'.Inv blake3 lost ∧ s.server.l1.Evolves s'.server.l1 ∧
      s'.server.chunkSize = s.server.chunkSize := by
  obtain ⟨srv', l2s', w', hdoes, rfl⟩ := step_writeback hs
  refine inv_of_kept s.writeback.holds w'.holds
    ((s.handlers.total fun _ p => p.2.holds) + s.worker.holds) h ?_
    (fun hl => Writeback.kept_step hl hdoes) rfl rfl rfl ?_
  · rw [holds]
    ac_rfl
  · rw [holds]
    ac_rfl

theorem inv_evictor (h : s.Inv blake3 lost) (hs : s.step blake3 .evictor = some s') :
    s'.Inv blake3 lost ∧ s.server.l1.Evolves s'.server.l1 ∧
      s'.server.chunkSize = s.server.chunkSize := by
  cases hs
  refine inv_of_kept 0 0
    ((s.handlers.total fun _ p => p.2.holds) + s.worker.holds + s.writeback.holds) h ?_
    (fun hl => Evictor.kept_step (by rwa [zero_add] at hl)) rfl rfl rfl ?_
  · rw [holds]
    ac_rfl
  · rw [holds]
    ac_rfl

/-! ## The L2 threads -/

theorem holds_setFutures (w : Writeback) (fs : List StoreFuture) :
    (w.setFutures fs).holds = w.holds := by
  cases w <;> rfl

theorem holds_setLookup (s : System) (i : ℕ) (r : Except Exc ℕ) :
    (s.setLookup i r).worker.holds = s.worker.holds := by
  unfold setLookup
  split
  · rename_i hw
    rw [hw]
    rfl
  · rfl

theorem slots_setLookup (s : System) (i : ℕ) (r : Except Exc ℕ) :
    (s.setLookup i r).worker.slots = s.worker.slots := by
  unfold setLookup
  split
  · rename_i hw
    rw [hw]
    rfl
  · rfl

theorem wf_setLookup (s : System) (i : ℕ) (r : Except Exc ℕ) (h : s.worker.Wf) :
    (s.setLookup i r).worker.Wf := by
  unfold setLookup
  split
  · rename_i hw
    rw [hw] at h
    exact h
  · exact h

theorem server_setLookup (s : System) (i : ℕ) (r : Except Exc ℕ) :
    (s.setLookup i r).server = s.server := by
  unfold setLookup
  split <;> rfl

theorem handlers_setLookup (s : System) (i : ℕ) (r : Except Exc ℕ) :
    (s.setLookup i r).handlers = s.handlers := by
  unfold setLookup
  split <;> rfl

theorem l2s_setLookup (s : System) (i : ℕ) (r : Except Exc ℕ) :
    (s.setLookup i r).l2s = s.l2s := by
  unfold setLookup
  split <;> rfl

theorem writeback_setLookup (s : System) (i : ℕ) (r : Except Exc ℕ) :
    (s.setLookup i r).writeback = s.writeback := by
  unfold setLookup
  split <;> rfl

/-- A step that only moves a future along. -/
theorem inv_of_eq (h : s.Inv blake3 lost) (hserver : s'.server = s.server)
    (hhandlers : s'.handlers = s.handlers) (hholds : s'.worker.holds = s.worker.holds)
    (hslots : s'.worker.slots = s.worker.slots) (hwf : s'.worker.Wf)
    (hwb : s'.writeback.holds = s.writeback.holds) :
    s'.Inv blake3 lost ∧ s.server.l1.Evolves s'.server.l1 ∧
      s'.server.chunkSize = s.server.chunkSize := by
  refine ⟨⟨?_, ?_, ?_, hwf⟩, by rw [hserver]; exact Evolves.refl _, by rw [hserver]⟩
  · have h1 : s'.holds = s.holds := by rw [holds, holds, hserver, hhandlers, hholds, hwb]
    have h2 : s'.slots = s.slots := by rw [slots, slots, hhandlers, hslots]
    rw [hserver, h1, h2]
    exact h.ledger
  · rw [hserver, hhandlers]
    exact h.handlers
  · rw [hserver]
    exact h.jobs

/-- An adapter writes into the next slot of its load. -/
theorem inv_fill {p : Prefetch} {order : List ℕ} {i filled : ℕ} {key : ChunkKey}
    {obj : MemoryObj} {data : Bytes} (h : s.Inv blake3 lost)
    (hw : s.worker = .loading p order i filled none)
    (hget : p.load[p.loaded + filled]? = some (key, obj)) (hlen : data.length = obj.nbytes) :
    ({ s with
        server := s.server.fill key obj data
        worker := .loading p order i (filled + 1) none } : System).Inv blake3 lost ∧
      ({ s with server.l1 := s.server.l1.copyInto obj data } : System).Inv blake3 lost ∧
      s.server.l1.Evolves (s.server.l1.copyInto obj data) := by
  obtain ⟨rest, h0, h1⟩ := loadSlots_succ hget
  have hwf := h.worker
  have hslots : s.slots = ⟨key, obj, true, false⟩ ::ₘ
      ((s.handlers.total fun _ p => p.2.slots) + rest) := by
    rw [slots, hw, Worker.slots, h0, Multiset.add_cons]
  have hslots' : ({ s with
      server := s.server.fill key obj data
      worker := .loading p order i (filled + 1) none } : System).slots = ⟨key, obj, true, true⟩ ::ₘ
      ((s.handlers.total fun _ p => p.2.slots) + rest) := by
    rw [slots, Worker.slots, ← add_assoc, h1, Multiset.add_cons]
  have hl := h.ledger
  rw [hslots] at hl
  refine ⟨?_, ?_, hl.evolves_copyInto hlen⟩
  · have hmono : ∀ k b, s.server.Ok k b → (s.server.fill key obj data).Ok k b :=
      fun k b hb => List.mem_append_left _ hb
    have hok : (s.server.fill key obj data).Ok key data :=
      List.mem_append_right _ List.mem_cons_self
    have hcopy := (hl.mono hmono).copy true hlen fun _ => hok
    refine ⟨?_, h.handlers, h.jobs, ?_⟩
    · rw [hslots']
      have hholds : ({ s with
          server := s.server.fill key obj data
          worker := .loading p order i (filled + 1) none } : System).holds = s.holds := by
        rw [holds, holds, hw]
        rfl
      rw [hholds]
      exact hcopy
    · rw [hw] at hwf
      exact ⟨hwf.1, hwf.2.1, nofun⟩
  · have hcopy := hl.copy false hlen nofun
    refine ⟨?_, h.handlers, h.jobs, hwf⟩
    rw [← hslots] at hcopy
    exact hcopy

theorem inv_l2 {i : ℕ} {act : L2Act} (h : s.Inv blake3 lost)
    (hs : s.step blake3 (.l2 i act) = some s') :
    s'.Inv blake3 lost ∧ s.server.l1.Evolves s'.server.l1 ∧
      s'.server.chunkSize = s.server.chunkSize := by
  have hwf := h.worker
  cases l2_does hs with
  | found | lookupFail =>
    exact inv_of_eq h (server_setLookup _ _ _) (handlers_setLookup _ _ _)
      (holds_setLookup _ _ _) (slots_setLookup _ _ _) (wf_setLookup _ _ _ hwf)
      (congrArg _ (writeback_setLookup _ _ _))
  | fill hw hget hlen =>
    obtain ⟨h1, -, hev⟩ := inv_fill h hw hget hlen
    exact ⟨h1, hev, rfl⟩
  | scribble hw hget hlen =>
    obtain ⟨-, h2, hev⟩ := inv_fill h hw hget hlen
    exact ⟨h2, hev, rfl⟩
  | loaded hw =>
    rw [hw] at hwf
    refine inv_of_eq h rfl rfl (by rw [hw]; rfl) (by rw [hw]; rfl) ⟨hwf.1, hwf.2.1, ?_⟩ rfl
    intro n hn
    cases hn
    rfl
  | loadFail hw =>
    rw [hw] at hwf
    exact inv_of_eq h rfl rfl (by rw [hw]; rfl) (by rw [hw]; rfl) ⟨hwf.1, hwf.2.1, nofun⟩ rfl
  | persist | skip | stored | storeFail =>
    exact inv_of_eq h rfl rfl rfl rfl hwf (holds_setFutures _ _)

/-! ## Every step and every run -/

theorem inv_recv {t : ℕ} {m : Req} (h : s.Inv blake3 lost)
    (hd : m.Distinct blake3 s.server.chunkSize) (hs : s.step blake3 (.recv t m) = some s') :
    s'.Inv blake3 lost ∧ s.server.l1.Evolves s'.server.l1 ∧
      s'.server.chunkSize = s.server.chunkSize := by
  obtain ⟨hnone, rfl⟩ := step_recv hs
  have herase : s.handlers.erase t = s.handlers := OrderedDict.erase_of_get?_eq_none hnone
  refine ⟨⟨?_, ?_, h.jobs, h.worker⟩, Evolves.refl _, rfl⟩
  · have h1 : ({ s with handlers := s.handlers.set t (m, .start m) } : System).holds = s.holds := by
      rw [holds, OrderedDict.total_set, herase, holds]
      exact congrArg (· + _ + _) (congrArg _ (zero_add _))
    have h2 : ({ s with handlers := s.handlers.set t (m, .start m) } : System).slots = s.slots := by
      rw [slots, OrderedDict.total_set, herase, slots]
      exact congrArg (· + _) (zero_add _)
    rw [h1, h2]
    exact h.ledger
  · intro t' m' h' hget'
    rcases OrderedDict.eq_or_get?_of_set hget' with ⟨-, he⟩ | hget'
    · cases he
      exact hd
    · exact h.handlers t' m' h' hget'

/-- One step of the process. -/
theorem inv_step {l : Label} (h : s.Inv blake3 lost) (hd : s.Distinct blake3 l)
    (hs : s.step blake3 l = some s') :
    s'.Inv blake3 (s.leaks l + lost) ∧ s.server.l1.Evolves s'.server.l1 ∧
      s'.server.chunkSize = s.server.chunkSize := by
  cases l with
  | recv t m => exact (zero_add lost).symm ▸ inv_recv h hd hs
  | handler t => exact inv_handler h hs
  | worker => exact inv_worker h hs
  | writeback => exact (zero_add lost).symm ▸ inv_writeback h hs
  | evictor => exact (zero_add lost).symm ▸ inv_evictor h hs
  | l2 i act => exact (zero_add lost).symm ▸ inv_l2 h hs

/-- A state the process can reach, from a start with an empty cache, when the chunk hashes
of no message collide. -/
def Reachable (blake3 : Bytes → Bytes) (s : System) : Prop :=
  ∃ chunkSize capacity pool adapters ls,
    Run (step blake3) (Distinct blake3) (new chunkSize capacity pool adapters) ls s

theorem Reachable.snoc (h : s.Reachable blake3) {l : Label} (hd : s.Distinct blake3 l)
    (hs : s.step blake3 l = some s') : s'.Reachable blake3 := by
  obtain ⟨chunkSize, capacity, pool, adapters, ls, hrun⟩ := h
  exact ⟨chunkSize, capacity, pool, adapters, _, hrun.snoc hd hs⟩

theorem Reachable.inv (h : s.Reachable blake3) : ∃ lost, s.Inv blake3 lost := by
  obtain ⟨_, _, _, _, _, hrun⟩ := h
  refine hrun.invariant (fun s => ∃ lost, s.Inv blake3 lost) ⟨0, inv_new _ _ _ _⟩ ?_
  rintro s l s' ⟨lost, hinv⟩ hd hs
  exact ⟨_, (inv_step hinv hd hs).1⟩

/-! ## Runs on concrete messages -/

/-- A digest of 32 bytes that tells short inputs apart. -/
def sampleDigest (b : Bytes) : Bytes := (b.reverse ++ List.replicate 32 0).take 32

/-- Run a server with chunks of one token, a pool of `capacity` bytes and one L2 adapter,
checking `ok` on the way. -/
def sample (ok : System → Label → Bool) (capacity : ℕ) (ls : List Label) : Option System :=
  replay (step sampleDigest) ok (new 1 capacity (fun _ => 0) 1) ls

/-- `Distinct`, as a check. -/
def distinct (s : System) (l : Label) : Bool := decide (s.Distinct sampleDigest l)

theorem reachable_of_sample {capacity : ℕ} {ls : List Label}
    (h : sample distinct capacity ls = some s) : s.Reachable sampleDigest :=
  ⟨1, capacity, _, 1, ls, (run_of_replay h).mono fun _ _ hd => of_decide_eq_true hd⟩

/-- An operation on the one chunk of the prompt `[t]`. -/
def sampleOp (t : ℕ) : LoadStoreOp := ⟨[t], [0], 0, 1, 0⟩

/-- Rank 0 of `m` registers with chunks of two bytes and stores `[5, 6]` for the prompt
`[1]`; the chunk is written back. -/
def sampleStore : List Label :=
  [.recv 0 (.registerKvCache ⟨7, "m", 0, 1, 1, 2⟩), .handler 0,
    .recv 1 (.store ⟨"a", 7, sampleOp 1, [[5, 6]]⟩), .handler 1, .handler 1, .handler 1, .handler 1,
    .writeback, .writeback, .writeback, .l2 0 (.persist false), .l2 0 .stored, .writeback,
    .writeback]

/-- `sampleStore`, then request `b` looks the prompt up and its job is resolved. -/
def sampleLookup : List Label :=
  sampleStore ++ [.recv 2 (.lookup ⟨"b", [1], "m", 1⟩), .handler 2, .handler 2, .handler 2,
    .worker, .worker, .worker, .worker, .worker, .worker, .worker]

/-- In a pool of two bytes : `sampleStore`, the chunk is evicted, and request `b` loads it
back from L2. -/
def sampleReload : List Label :=
  sampleStore ++ [.evictor, .evictor, .evictor,
    .recv 2 (.lookup ⟨"b", [1], "m", 1⟩), .handler 2, .handler 2, .handler 2,
    .worker, .worker, .worker, .l2 0 (.found 1), .worker, .worker, .worker, .worker,
    .l2 0 (.fill [5, 6] true), .l2 0 .loaded, .worker, .worker, .worker, .worker, .worker]

/-- The key of that chunk. -/
def sampleKey (t : ℕ) : ChunkKey :=
  ⟨hashOne sampleDigest (noneHash sampleDigest) [t], "m", 0⟩

end System

end MiniLlmcache
