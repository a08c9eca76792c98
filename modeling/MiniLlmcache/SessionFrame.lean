import MiniLlmcache.Retrieve
import MiniLlmcache.Sessions

/-!
# One session among others

What the threads of other requests, and the background threads, do to the session of a
request `r` : nothing, while no job of `r` is queued or under way (`Handler.touches_step`,
`System.held_background`). And what a handler of `r` does : the section of `release` takes
keys out of what is held and keeps the order of the rest (`releaseHeld_spec`), and
`finish_read` lowers the read counts by the keys it drops (`Inv.readCount_handler`).
-/

namespace MiniLlmcache

open L1Manager

variable {blake3 : Bytes → Bytes}

/-! ## Sections of one session -/

namespace CacheServer

/-- `del held[key]` keeps the order of what stays. -/
theorem keys_delAll : ∀ (released : List ChunkKey) {d d' : OrderedDict ChunkKey Unit},
    delAll d released = .returned d' () → d'.keys = d.keys.filter fun k => k ∉ released
  | [], d, d', h => by
    cases h
    simp
  | key :: rest, d, d', h => by
    rw [delAll] at h
    split_ifs at h
    rw [keys_delAll rest h, OrderedDict.keys_erase, List.filter_filter]
    refine List.filter_congr fun k _ => ?_
    simp [Bool.and_comm]

theorem heldKeys_set (srv : CacheServer) (r : String) (d : OrderedDict ChunkKey Unit) :
    ({ srv with held := srv.held.set r d } : CacheServer).heldKeys r = d.keys := by
  rw [heldKeys, OrderedDict.get?_set_self]
  rfl

/-- The section of `release` : what it takes, and what stays of the session. -/
theorem releaseHeld_spec {srv srv' : CacheServer} {r : String} {keys : Option (List ChunkKey)}
    {released : List ChunkKey} (h : srv.releaseHeld r keys = .returned srv' released) :
    released = (keys.getD (srv.heldKeys r)).filter (fun k => k ∈ srv.heldKeys r) ∧
      srv'.heldKeys r = (srv.heldKeys r).filter (fun k => k ∉ released) := by
  rcases hd : srv.held.get? r with _ | d
  · simp only [releaseHeld, hd] at h
    cases h
    simp [heldKeys, hd]
  · have hheld : srv.heldKeys r = d.keys := by
      rw [heldKeys, hd]
      rfl
    simp only [releaseHeld, hd] at h
    split at h
    · rename_i d' _ hdel
      cases h
      rw [hheld, heldKeys_set, keys_delAll _ hdel]
      refine ⟨List.filter_congr fun k _ => ?_, rfl⟩
      rw [Bool.eq_iff_iff, OrderedDict.contains_iff, decide_eq_true_iff]
    · cases h

/-- It leaves the other sessions alone. -/
theorem get?_held_releaseHeld {srv srv' : CacheServer} {r r' : String}
    {keys : Option (List ChunkKey)} (hne : r ≠ r') :
    (∀ released, srv.releaseHeld r keys = .returned srv' released →
      srv'.held.get? r' = srv.held.get? r') ∧
    ∀ e, srv.releaseHeld r keys = .raised srv' e → srv'.held.get? r' = srv.held.get? r' := by
  unfold releaseHeld
  constructor
  · intro released h
    split at h
    · cases h
      rfl
    · dsimp only at h
      split at h <;> cases h
      exact OrderedDict.get?_set_ne _ _ hne
  · intro e h
    split at h
    · cases h
    · dsimp only at h
      split at h <;> cases h
      exact OrderedDict.get?_set_ne _ _ hne

end CacheServer

/-! ## Threads of other requests -/

/-- The message is about the session of `r`. -/
def Req.touches (r : String) : Req → Bool
  | .lookup p => p.requestId = r
  | .retrieve p => p.requestId = r
  | .freeLookupLocks p => p.requestId = r
  | .endSession requestId => requestId = r
  | _ => false

namespace Handler

/-- The handler works on the session of `r`. -/
def touches (r : String) : Handler → Bool
  | start m => m.touches r
  | startSession job | putJob job => job.requestId = r
  | retrieveRead requestId _ _ | retrieveSend requestId _ _ | retrievePromote requestId _ |
    releaseFirst requestId _ | release requestId _ _ _ | finishRead requestId _ _ _ |
    popSession requestId => requestId = r
  | _ => false

variable {srv srv' : CacheServer} {hd hd' : Handler} {r : String}

theorem touches_dispatch (srv : CacheServer) {m : Req} (h : m.touches r = false) :
    (dispatch blake3 srv m).2.touches r = false := by
  cases m with
  | lookup p =>
    simp only [dispatch, touches, requestId_lookupJob]
    exact h
  | retrieve p =>
    simp only [dispatch]
    split
    · rfl
    · exact h
  | store p =>
    simp only [dispatch]
    split <;> rfl
  | freeLookupLocks p | endSession requestId => exact h
  | _ => rfl

/-- A handler of another request leaves the session alone, and makes no job for it. -/
theorem touches_step (h : hd.touches r = false) (hs : hd.Does blake3 srv srv' hd') :
    hd'.touches r = false ∧ srv'.held.get? r = srv.held.get? r ∧
      ∀ job ∈ srv'.jobs, job ∈ srv.jobs ∨ job.requestId ≠ r := by
  cases hs with
  | dispatch m =>
    obtain ⟨hheld, -, hjobs⟩ := dispatch_frame blake3 srv m
    rw [hheld, hjobs]
    exact ⟨touches_dispatch srv h, rfl, fun _ hj => Or.inl hj⟩
  | putJob job =>
    refine ⟨rfl, rfl, fun job' hj => ?_⟩
    rcases List.mem_append.mp hj with hj | hj
    · exact Or.inl hj
    · rw [List.mem_singleton.mp hj]
      exact Or.inr (of_decide_eq_false h)
  | release hrel =>
    refine ⟨h, (CacheServer.get?_held_releaseHeld (of_decide_eq_false h)).1 _ hrel, ?_⟩
    rw [CacheServer.eq_of_releaseHeld.1 _ hrel]
    exact fun _ hj => Or.inl hj
  | releaseFail hrel =>
    refine ⟨rfl, (CacheServer.get?_held_releaseHeld (of_decide_eq_false h)).2 _ hrel, ?_⟩
    rw [CacheServer.eq_of_releaseHeld.2 _ hrel]
    exact fun _ hj => Or.inl hj
  | @finishRead requestId released ending reply l1 hl1 =>
    split_ifs
    · exact ⟨h, rfl, fun _ hj => Or.inl hj⟩
    · exact ⟨rfl, rfl, fun _ hj => Or.inl hj⟩
  | pop requestId =>
    exact ⟨rfl, OrderedDict.get?_erase_ne _ (of_decide_eq_false h), fun _ hj => Or.inl hj⟩
  | startSession | read | send | promote | releaseFirst =>
    exact ⟨h, rfl, fun _ hj => Or.inl hj⟩
  | _ => exact ⟨rfl, rfl, fun _ hj => Or.inl hj⟩

end Handler

/-! ## How far a handler has come -/

namespace Handler

/-- The handler is past the section of `release`. -/
def released : Handler → Bool
  | finishRead _ _ _ _ | popSession _ | done _ => true
  | _ => false

/-- The handler is past `finish_read`. -/
def finished : Handler → Bool
  | popSession _ | done _ => true
  | _ => false

theorem released_of_finished {hd : Handler} (h : hd.finished = true) : hd.released = true := by
  cases hd with
  | popSession | done => rfl
  | _ => cases h

variable {srv srv' : CacheServer} {hd hd' : Handler}

/-- A handler does not go back. -/
theorem released_step (h : hd.released = true) (hs : hd.Does blake3 srv srv' hd') :
    hd'.released = true := by
  cases hs with
  | finishRead => split_ifs <;> rfl
  | finishReadFail | pop => rfl
  | _ => cases h

theorem finished_step (h : hd.finished = true) (hs : hd.Does blake3 srv srv' hd') :
    hd'.finished = true := by
  cases hs with
  | pop => rfl
  | _ => cases h

/-- The keys of the `finish_read` it is about to make. -/
def dropping : Handler → List ChunkKey
  | finishRead _ released _ _ => released
  | _ => []

/-- The keys of a RETRIEVE of `r`, from its `read` up to the section of `release`. -/
def reading (r : String) : Handler → List ChunkKey
  | retrieveRead requestId keys _ | retrieveSend requestId keys _ |
    retrievePromote requestId keys | release requestId (some keys) false .chunks =>
    if requestId = r then keys else []
  | _ => []

end Handler

namespace System

variable {s s' : System}

/-- The handler of `m` has returned. -/
def Handled (s : System) (m : Req) : Prop :=
  ∃ q ∈ s.handlers.items, q.2.1 = m ∧ q.2.2.isDone = true

instance (s : System) (m : Req) : Decidable (s.Handled m) := by
  unfold Handled
  infer_instance

/-- The keys of the `finish_read` that the handler of a message of `r` makes in this step. -/
def drops (s : System) (r : String) : Label → List ChunkKey
  | .handler t => (s.handlers.get? t).elim [] fun q => if q.1.touches r then q.2.dropping else []
  | _ => []

variable (blake3) in
/-- The system beside the keys of `r` that were dropped so far (a ghost). -/
def dropStep (r : String) (p : System × List ChunkKey) (l : Label) :
    Option (System × List ChunkKey) :=
  (p.1.step blake3 l).map fun s => (s, p.2 ++ p.1.drops r l)

theorem handlers_background {l : Label} (hs : s.step blake3 l = some s')
    (hl : ∀ t, l ≠ .handler t) (hrecv : ∀ t m, l ≠ .recv t m) : s'.handlers = s.handlers := by
  cases l with
  | recv t m => exact (hrecv t m rfl).elim
  | handler t => exact (hl t rfl).elim
  | worker =>
    obtain ⟨srv', l2s', w', -, rfl⟩ := step_worker hs
    rfl
  | writeback =>
    obtain ⟨srv', l2s', w', -, rfl⟩ := step_writeback hs
    rfl
  | evictor => rw [step_evictor hs]
  | l2 i act =>
    cases l2_does hs with
    | found | lookupFail =>
      rw [handlers_setLookup]
      rfl
    | _ => rfl

/-- The requests whose job is queued or under way. -/
def queued (s : System) : Multiset String :=
  ↑(s.server.jobs.map Job.requestId) + s.worker.jobIds

/-- The other threads leave the session of a request without a job alone. -/
theorem held_background {l : Label} (hs : s.step blake3 l = some s') (hl : ∀ t, l ≠ .handler t)
    {r : String} (hr : r ∉ s.queued) :
    s'.server.held.get? r = s.server.held.get? r ∧ r ∉ s'.queued := by
  cases l with
  | recv t m =>
    obtain ⟨-, rfl⟩ := step_recv hs
    exact ⟨rfl, hr⟩
  | handler t => exact (hl t rfl).elim
  | worker =>
    obtain ⟨srv', l2s', w', hdoes, rfl⟩ := step_worker hs
    have hle : ↑(srv'.jobs.map Job.requestId) + w'.jobIds ≤ s.queued := by
      rw [queued, add_comm, add_comm (↑(s.server.jobs.map Job.requestId) : Multiset String)]
      exact Worker.jobIds_step hdoes
    refine ⟨?_, fun h => hr (Multiset.mem_of_le hle h)⟩
    rcases Worker.sessions_step hdoes with ⟨hheld, -⟩ | ⟨job, l1Keys, loadedKeys, hw, -, -, rfl⟩
    · rw [hheld]
    · refine OrderedDict.get?_set_ne _ _ ?_
      rintro rfl
      exact hr (Multiset.mem_add.mpr (Or.inr (hw ▸ Multiset.mem_singleton_self _)))
  | writeback =>
    obtain ⟨srv', l2s', w', hdoes, rfl⟩ := step_writeback hs
    obtain ⟨hheld, -, hjobs⟩ := Writeback.sessions_step hdoes
    refine ⟨congrArg (OrderedDict.get? · r) hheld, ?_⟩
    rwa [queued, hjobs]
  | evictor =>
    rw [step_evictor hs]
    rcases s.evictor with _ | _ | _ <;> exact ⟨rfl, hr⟩
  | l2 i act =>
    cases l2_does hs with
    | found | lookupFail =>
      rw [queued, jobIds_setLookup, server_setLookup]
      exact ⟨rfl, hr⟩
    | fill hw | loaded hw | loadFail hw =>
      rw [queued, hw] at hr
      exact ⟨rfl, hr⟩
    | _ => exact ⟨rfl, hr⟩

end System

/-! ## Read counts -/

/-- What the handler owned before its step, it owns afterwards, has dropped or has leaked. -/
theorem Handler.holds_step {srv srv' : CacheServer} {hd hd' : Handler} {c : ℕ}
    (hwf : hd.Wf blake3 c) (hs : hd.Does blake3 srv srv' hd') :
    hd'.holds + srv'.sessions + hd.leaks srv + hd.dropping = hd.holds + srv.sessions := by
  cases hs with
  | dispatch m =>
    have hheld := (dispatch_frame blake3 srv m).1
    have hsess : (dispatch blake3 srv m).1.sessions = srv.sessions := by
      rw [CacheServer.sessions, hheld]
      rfl
    have hholds : (dispatch blake3 srv m).2.holds = 0 := by
      cases m with
      | retrieve p | store p =>
        simp only [dispatch]
        split <;> rfl
      | _ => rfl
    rw [hsess, hholds]
    simp [leaks, dropping, holds]
  | @release r keys ending reply srv' released hrel =>
    obtain ⟨held, released', hrel', hsum⟩ := srv.releaseHeld_returned r (nodup_of_wf hwf)
    rw [hrel'] at hrel
    cases hrel
    simp [leaks, dropping, holds, hsum]
  | @releaseFail r keys ending reply srv' e hrel =>
    obtain ⟨held, released', hrel', -⟩ := srv.releaseHeld_returned r (nodup_of_wf hwf)
    rw [hrel'] at hrel
    cases hrel
  | @finishRead r released ending reply l1 hl1 =>
    split_ifs <;> simp [leaks, dropping, holds, CacheServer.sessions, add_comm]
  | finishReadFail => simp [leaks, dropping, holds, CacheServer.sessions, add_comm]
  | pop r =>
    have hsess : (srv.popSession r).sessions = srv.otherSessions r := rfl
    rw [hsess, srv.sessions_eq r]
    simp [leaks, dropping, holds, add_comm]
  | _ => simp [leaks, dropping, holds, CacheServer.sessions, CacheServer.startSession,
      CacheServer.putJob, CacheServer.fill]

namespace System

variable {s s' : System} {lost : Multiset ChunkKey}

/-- The read count of a key; a key that is not in L1 has none. -/
def readCount (s : System) (k : ChunkKey) : ℤ :=
  (s.server.l1.entries.get? k).elim 0 Entry.readCount

theorem Inv.readCount_eq (h : s.Inv blake3 lost) (k : ChunkKey) :
    s.readCount k = (s.holds + lost).count k := by
  rw [readCount]
  rcases he : s.server.l1.entries.get? k with _ | e
  · have hnot : k ∉ s.holds + lost := fun hk => by
      obtain ⟨e, he', -⟩ := h.ledger.held k hk
      rw [he] at he'
      cases he'
    rw [Multiset.count_eq_zero.mpr hnot]
    rfl
  · exact h.ledger.count k e he

theorem handler_step {t : ℕ} {m : Req} {hd : Handler} (hg : s.handlers.get? t = some (m, hd))
    (hs : s.step blake3 (.handler t) = some s') :
    ∃ srv' hd', hd.step blake3 s.server = some (srv', hd') ∧
      s' = { s with server := srv', handlers := s.handlers.set t (m, hd') } := by
  simp only [step, hg] at hs
  obtain ⟨⟨srv', hd'⟩, hstep, rfl⟩ := Option.map_eq_some_iff.mp hs
  exact ⟨srv', hd', hstep, rfl⟩

/-- A handler lowers the read counts by what it drops. -/
theorem Inv.readCount_handler (h : s.Inv blake3 lost) {t : ℕ} {m : Req} {hd : Handler}
    (hg : s.handlers.get? t = some (m, hd)) (hs : s.step blake3 (.handler t) = some s')
    (k : ChunkKey) : s'.readCount k + hd.dropping.count k = s.readCount k := by
  obtain ⟨hinv', -, -⟩ := inv_step h (l := .handler t) trivial hs
  rw [hinv'.readCount_eq, h.readCount_eq]
  obtain ⟨m', hd₁, srv', hd', hg', hdoes, rfl⟩ := step_handler hs
  rw [hg] at hg'
  cases hg'
  have hsum := Handler.holds_step (h.handlers t m hd hg) hdoes
  have hholds : s.holds = hd.holds + s.server.sessions + s.frame t := by
    rw [holds, OrderedDict.total_eq _ _ t, OrderedDict.at?, hg, Option.elim_some, frame]
    ac_rfl
  have hholds' : ({ s with server := srv', handlers := s.handlers.set t (m, hd') } : System).holds =
      hd'.holds + srv'.sessions + s.frame t := by
    rw [holds, OrderedDict.total_set, frame]
    ac_rfl
  have hleaks : s.leaks (.handler t) = hd.leaks s.server := by rw [leaks, hg, Option.elim_some]
  rw [hholds', hleaks, hholds, ← hsum]
  simp only [Multiset.count_add, Multiset.coe_count]
  omega

end System

/-- A handler that has returned stays. -/
theorem System.Handled.step {s s' : System} {m : Req} {l : Label} (h : s.Handled m)
    (hs : s.step blake3 l = some s') : s'.Handled m := by
  obtain ⟨⟨t, m, hd⟩, hq, rfl, hdone⟩ := h
  have hg := OrderedDict.get?_eq_some_iff.mpr hq
  rcases System.handlers_step hs t with heq | ⟨hnone, -⟩ | ⟨-, m', hd₁, hd₂, hg₁, -, hdoes⟩
  · exact ⟨(t, m, hd), OrderedDict.get?_eq_some_iff.mp (heq.trans hg), rfl, hdone⟩
  · rw [hg] at hnone
    cases hnone
  · rw [hg] at hg₁
    cases hg₁
    cases hd with
    | done reply => cases hdoes
    | _ => cases hdone

end MiniLlmcache
