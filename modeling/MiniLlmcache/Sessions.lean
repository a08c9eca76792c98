import MiniLlmcache.Hits

/-!
# Holds and the end of a session

`end_session` releases a session in one section and forgets it in a later one. If the
prefetch worker publishes hits in between, the last section throws away a record that
still lists keys, and their holds stay for good (`hold_outlives_session`).

In every run in which that section finds nothing held (`EndsClean`), no hold is ever lost :
`no_hold_outlives_session`. Each request is looked up once, and its LOOKUP is handled before
its END_SESSION comes in (`LookedUpOnce`), so a request has one job, its job publishes at
most once, and what is known of a session that ended is gone for good (`SessionInv`).
-/

namespace MiniLlmcache

open L1Manager

variable {blake3 : Bytes → Bytes}

/-! ## Which request a thread works for -/

/-- The LOOKUP of a request. -/
def Req.looksUp (requestId : String) : Req → Bool
  | .lookup p => p.requestId = requestId
  | _ => false

/-- A message that neither opens nor ends a session. -/
def Req.plain : Req → Bool
  | .lookup _ | .endSession _ => false
  | _ => true

namespace Handler

/-- The states of handlers of plain messages. -/
def plain : Handler → Bool
  | start _ | startSession _ | putJob _ | popSession _ => false
  | release _ _ ending _ | finishRead _ _ ending _ => !ending
  | _ => true

/-- The states a handler of `m` goes through. -/
inductive Serves : Req → Handler → Prop
  | start (m : Req) : Serves m (start m)
  | startSession {p : LookupPayload} {job : Job} (h : job.requestId = p.requestId) :
      Serves (.lookup p) (startSession job)
  | putJob {p : LookupPayload} {job : Job} (h : job.requestId = p.requestId) :
      Serves (.lookup p) (putJob job)
  | release (requestId : String) (reply : Reply) :
      Serves (.endSession requestId) (release requestId none true reply)
  | finishRead (requestId : String) (released : List ChunkKey) (reply : Reply) :
      Serves (.endSession requestId) (finishRead requestId released true reply)
  | popSession (requestId : String) : Serves (.endSession requestId) (popSession requestId)
  | done (m : Req) (reply : Reply) : Serves m (done reply)
  | plain {m : Req} {hd : Handler} (hm : m.plain = true) (h : hd.plain = true) : Serves m hd

/-- The handler has returned. -/
def isDone : Handler → Bool
  | done _ => true
  | _ => false

/-- The requests whose job this handler has still to queue. -/
def jobIds : Handler → Multiset String
  | startSession job | putJob job => {job.requestId}
  | _ => 0

/-- The request whose job a handler makes in this step. -/
def opens : Handler → Multiset String
  | start (.lookup p) => {p.requestId}
  | _ => 0

variable {srv srv' : CacheServer} {hd hd' : Handler}

theorem requestId_lookupJob (srv : CacheServer) (p : LookupPayload) :
    (srv.lookupJob blake3 p).requestId = p.requestId := by
  unfold CacheServer.lookupJob
  split <;> rfl

theorem plain_step (h : hd.plain = true) (hs : hd.Does blake3 srv srv' hd') :
    hd'.plain = true := by
  cases hs with
  | @finishRead requestId released ending reply l1 hl1 =>
    simp only [plain, Bool.not_eq_true'] at h
    rw [h]
    rfl
  | release => exact h
  | _ => first | rfl | cases h

theorem serves_step {m : Req} (h : Serves m hd) (hs : hd.Does blake3 srv srv' hd') :
    Serves m hd' := by
  cases h with
  | start m =>
    cases hs
    cases m with
    | lookup p => exact .startSession (requestId_lookupJob srv p)
    | endSession r => exact .release r _
    | retrieve p | store p =>
      refine .plain rfl ?_
      simp only [dispatch]
      split <;> rfl
    | _ => exact .plain rfl rfl
  | startSession h =>
    cases hs
    exact .putJob h
  | putJob h =>
    cases hs
    exact .done _ _
  | release r reply =>
    cases hs
    · exact .finishRead r _ reply
    · exact .done _ _
  | finishRead r released reply =>
    cases hs
    · exact .popSession r
    · exact .done _ _
  | popSession r =>
    cases hs
    exact .done _ _
  | done m reply => cases hs
  | plain hm h => exact .plain hm (plain_step h hs)

/-- Only the handler of a LOOKUP opens a session. -/
theorem Serves.lookup {m : Req} {job : Job} (h : Serves m (Handler.startSession job)) :
    ∃ p, m = .lookup p ∧ p.requestId = job.requestId := by
  cases h with
  | startSession h => exact ⟨_, rfl, h.symm⟩
  | plain _ h => cases h

/-- Only the handler of a LOOKUP makes a job. -/
theorem exists_of_mem_opens {r : String} (h : r ∈ hd.opens) :
    ∃ p, hd = start (.lookup p) ∧ p.requestId = r := by
  cases hd with
  | start m =>
    cases m with
    | lookup p => exact ⟨p, rfl, (Multiset.mem_singleton.mp h).symm⟩
    | _ => cases h
  | _ => cases h

variable (blake3) in
theorem dispatch_frame (srv : CacheServer) (m : Req) :
    (dispatch blake3 srv m).1.held = srv.held ∧ (dispatch blake3 srv m).1.hits = srv.hits ∧
      (dispatch blake3 srv m).1.jobs = srv.jobs := by
  cases m with
  | retrieve p | store p =>
    simp only [dispatch]
    split <;> exact ⟨rfl, rfl, rfl⟩
  | _ => exact ⟨rfl, rfl, rfl⟩

theorem held_releaseHeld {requestId r : String} {keys : Option (List ChunkKey)}
    (h : srv.held.get? r = none) :
    (∀ released, srv.releaseHeld requestId keys = .returned srv' released →
      srv'.held.get? r = none) ∧
    ∀ e, srv.releaseHeld requestId keys = .raised srv' e → srv'.held.get? r = none := by
  rcases hd : srv.held.get? requestId with _ | d
  · constructor
    · intro released hrel
      simp only [CacheServer.releaseHeld, hd] at hrel
      cases hrel
      exact h
    · intro e hrel
      simp only [CacheServer.releaseHeld, hd] at hrel
      cases hrel
  · have hne : requestId ≠ r := by
      rintro rfl
      rw [hd] at h
      cases h
    have hset : ∀ d', (srv.held.set requestId d').get? r = none := fun d' => by
      rw [OrderedDict.get?_set_ne _ _ hne, h]
    constructor
    · intro released hrel
      simp only [CacheServer.releaseHeld, hd] at hrel
      split at hrel <;> cases hrel
      exact hset _
    · intro e hrel
      simp only [CacheServer.releaseHeld, hd] at hrel
      split at hrel <;> cases hrel
      exact hset _

/-- No handler gives a session something to hold, and only `startSession` opens one. -/
theorem sessions_step (hs : hd.Does blake3 srv srv' hd') {r : String} :
    (srv.held.get? r = none → srv'.held.get? r = none) ∧
      (srv.hits.get? r = none → srv'.hits.get? r = none ∨
        ∃ job, hd = startSession job ∧ job.requestId = r) := by
  cases hs with
  | dispatch m =>
    obtain ⟨hheld, hhits, -⟩ := dispatch_frame blake3 srv m
    rw [hheld, hhits]
    exact ⟨id, Or.inl⟩
  | startSession job =>
    refine ⟨id, fun h => ?_⟩
    by_cases hr : job.requestId = r
    · exact Or.inr ⟨job, rfl, hr⟩
    · refine Or.inl ?_
      rw [CacheServer.startSession, OrderedDict.get?_set_ne _ _ hr, h]
  | release hrel =>
    refine ⟨fun h => (held_releaseHeld h).1 _ hrel, fun h => Or.inl ?_⟩
    rwa [CacheServer.eq_of_releaseHeld.1 _ hrel]
  | releaseFail hrel =>
    refine ⟨fun h => (held_releaseHeld h).2 _ hrel, fun h => Or.inl ?_⟩
    rwa [CacheServer.eq_of_releaseHeld.2 _ hrel]
  | pop requestId =>
    simp only [CacheServer.popSession, OrderedDict.get?_erase]
    refine ⟨fun h => ?_, fun h => Or.inl ?_⟩
    · split_ifs
      · rfl
      · exact h
    · split_ifs
      · rfl
      · exact h
  | _ => exact ⟨id, Or.inl⟩

theorem ne_start_of_does (hs : hd.Does blake3 srv srv' hd') (m : Req) : hd' ≠ start m := by
  rintro rfl
  generalize he : start m = hd₁ at hs
  cases hs with
  | dispatch m' =>
    cases m' with
    | retrieve p | store p =>
      simp only [dispatch] at he
      split at he <;> cases he
    | _ => cases he
  | @finishRead requestId released ending reply l1 hl1 => split_ifs at he
  | _ => cases he

/-- A job is made by its LOOKUP and moves to the queue. -/
theorem jobIds_step (hs : hd.Does blake3 srv srv' hd') :
    hd'.jobIds + (srv'.jobs.map Job.requestId : Multiset String) =
      hd.jobIds + (srv.jobs.map Job.requestId : Multiset String) + hd.opens := by
  cases hs with
  | dispatch m =>
    rw [(dispatch_frame blake3 srv m).2.2]
    cases m with
    | lookup p =>
      simp only [dispatch, jobIds, requestId_lookupJob, opens, zero_add]
      exact add_comm _ _
    | retrieve p | store p =>
      simp only [dispatch]
      split <;> simp [jobIds, opens]
    | _ => simp [dispatch, jobIds, opens]
  | putJob job =>
    simp only [jobIds, CacheServer.putJob, List.map_append, List.map_cons, List.map_nil,
      ← Multiset.coe_add, Multiset.coe_singleton, zero_add, opens, add_zero]
    exact add_comm _ _
  | release hrel =>
    rw [CacheServer.eq_of_releaseHeld.1 _ hrel]
    simp [jobIds, opens]
  | releaseFail hrel =>
    rw [CacheServer.eq_of_releaseHeld.2 _ hrel]
    simp [jobIds, opens]
  | @finishRead requestId released ending reply l1 hl1 =>
    split_ifs <;> simp [jobIds, opens]
  | _ => simp [jobIds, opens, CacheServer.startSession, CacheServer.fill, CacheServer.popSession]

end Handler

/-! ## The job of a request -/

namespace Worker

/-- The request whose job is under way. -/
def jobIds : Worker → Multiset String
  | idle => 0
  | prefetch job | lookup job _ _ _ | resolve job _ _ | finishRead job _ | dead job _ _ =>
    {job.requestId}
  | reserve p _ | load p _ | loading p _ _ _ _ | finishWrite p | cleanup p => {p.job.requestId}

variable {srv srv' : CacheServer} {l2s l2s' : List Adapter} {w w' : Worker}

theorem jobIds_step (hs : w.Does srv l2s srv' l2s' w') :
    w'.jobIds + (srv'.jobs.map Job.requestId : Multiset String) ≤
      w.jobIds + (srv.jobs.map Job.requestId : Multiset String) := by
  cases hs with
  | take hj =>
    rw [hj, List.map_cons, ← Multiset.cons_coe, jobIds, jobIds, zero_add, Multiset.singleton_add]
  | publish | finishRead => exact Multiset.add_le_add_right (Multiset.zero_le _)
  | _ => exact le_rfl

/-- What a worker's step does to the sessions : nothing, or one live session is resolved. -/
theorem sessions_step (hs : w.Does srv l2s srv' l2s' w') :
    (srv'.held = srv.held ∧ srv'.hits = srv.hits) ∨
      ∃ job l1Keys loadedKeys, w = resolve job l1Keys loadedKeys ∧ w' = idle ∧
        srv.hits.contains job.requestId = true ∧
        srv' = srv.publish job.requestId l1Keys loadedKeys := by
  cases hs with
  | publish hc => exact Or.inr ⟨_, _, _, rfl, rfl, hc, rfl⟩
  | _ => exact Or.inl ⟨rfl, rfl⟩

end Worker

/-! ## Sessions of the system -/

namespace System

/-- The LOOKUP of `r` is past its first access to the server. -/
def Opened (s : System) (r : String) : Prop :=
  ∃ t p hd, s.handlers.get? t = some (.lookup p, hd) ∧ p.requestId = r ∧ hd ≠ .start (.lookup p)

/-- The LOOKUP of `r` was handled. -/
def LookedUp (s : System) (r : String) : Prop :=
  ∃ t p reply, s.handlers.get? t = some (.lookup p, .done reply) ∧ p.requestId = r

/-- `end_session(r)` has returned. -/
def Ended (s : System) (r : String) : Prop :=
  ∃ t reply, s.handlers.get? t = some (.endSession r, .done reply)

/-- A `release` of `r` stands between its two sections. -/
def Releasing (s : System) (r : String) : Prop :=
  ∃ t m released ending reply, s.handlers.get? t = some (m, .finishRead r released ending reply)

/-- The requests whose job has not finished. -/
def jobIds (s : System) : Multiset String :=
  (s.handlers.total fun _ p => p.2.jobIds) + ↑(s.server.jobs.map Job.requestId) + s.worker.jobIds

/-- Each request is looked up once, and its LOOKUP is handled before its END_SESSION
comes in. -/
def LookedUpOnce (s : System) : Label → Prop
  | .recv _ (.lookup p) => ∀ q ∈ s.handlers.items, q.2.1.looksUp p.requestId = false
  | .recv _ (.endSession r) =>
    ∃ q ∈ s.handlers.items, q.2.1.looksUp r = true ∧ q.2.2.isDone = true
  | _ => True

/-- The last section of `end_session` finds nothing held. -/
def EndsClean (s : System) : Label → Prop
  | .handler t =>
    match s.handlers.get? t with
    | some (_, .popSession r) => s.server.heldKeys r = []
    | _ => True
  | _ => True

instance (s : System) (l : Label) : Decidable (s.LookedUpOnce l) := by
  unfold LookedUpOnce
  split <;> infer_instance

theorem endsClean_iff (s : System) (t : ℕ) : (((s.handlers.get? t).map Prod.snd).all fun
    | .popSession r => decide (s.server.heldKeys r = [])
    | _ => true) = true ↔ s.EndsClean (.handler t) := by
  rw [EndsClean]
  rcases s.handlers.get? t with _ | ⟨m, hd⟩
  · simp
  · cases hd <;> simp

instance (s : System) : ∀ l, Decidable (s.EndsClean l)
  | .handler t => decidable_of_iff _ (endsClean_iff s t)
  | .recv _ _ | .worker | .writeback | .evictor | .l2 _ _ => isTrue trivial

/-! ## What is known of a session -/

/-- A request has one LOOKUP and one job; what the server knows of a session comes from
there, and is gone when `end_session` has returned. -/
structure SessionInv (s : System) : Prop where
  serves : ∀ t m hd, s.handlers.get? t = some (m, hd) → hd.Serves m
  once : ∀ t t' p p' hd hd', s.handlers.get? t = some (.lookup p, hd) →
    s.handlers.get? t' = some (.lookup p', hd') → p.requestId = p'.requestId → t = t'
  jobs : s.jobIds.Nodup
  job : ∀ r ∈ s.jobIds, s.server.held.get? r = none ∧ s.Opened r
  live : ∀ r, s.server.hits.get? r ≠ none → s.Opened r
  heldLive : ∀ r, s.server.held.get? r ≠ none → s.Opened r
  ending : ∀ t r hd, s.handlers.get? t = some (.endSession r, hd) → s.LookedUp r
  ended : ∀ r, s.Ended r → s.server.hits.get? r = none ∧ s.server.held.get? r = none

variable {s s' : System} {lost : Multiset ChunkKey}

theorem sessionInv_new (chunkSize capacity : ℕ) (pool : ℕ → UInt8) (adapters : ℕ) :
    (new chunkSize capacity pool adapters).SessionInv where
  serves t m hd h := by cases h
  once t t' p p' hd hd' h := by cases h
  jobs := Multiset.nodup_zero
  job r hr := by cases hr
  live r h := (h rfl).elim
  heldLive r h := (h rfl).elim
  ending t r hd h := by cases h
  ended r h := by
    obtain ⟨t, reply, h⟩ := h
    cases h

/-- A step that leaves the sessions and their handlers alone. -/
theorem SessionInv.of_eq (h : s.SessionInv) (hhandlers : s'.handlers = s.handlers)
    (hheld : s'.server.held = s.server.held) (hhits : s'.server.hits = s.server.hits)
    (hjobs : s'.jobIds = s.jobIds) : s'.SessionInv := by
  constructor <;>
    simp only [Opened, LookedUp, Ended, hhandlers, hheld, hhits, hjobs]
  · exact h.serves
  · exact h.once
  · exact h.jobs
  · exact h.job
  · exact h.live
  · exact h.heldLive
  · exact h.ending
  · exact h.ended

theorem SessionInv.recv {t : ℕ} {m : Req} (h : s.SessionInv) (hok : s.LookedUpOnce (.recv t m))
    (hs : s.step blake3 (.recv t m) = some s') : s'.SessionInv := by
  obtain ⟨hnone, rfl⟩ := step_recv hs
  have hget : ∀ {t' m' hd'}, (s.handlers.set t (m, .start m)).get? t' = some (m', hd') →
      (t = t' ∧ m' = m ∧ hd' = .start m) ∨ s.handlers.get? t' = some (m', hd') := by
    intro t' m' hd' hg
    rcases OrderedDict.eq_or_get?_of_set hg with ⟨ht, he⟩ | hg
    · cases he
      exact Or.inl ⟨ht, rfl, rfl⟩
    · exact Or.inr hg
  have hold : ∀ {t' q}, s.handlers.get? t' = some q →
      (s.handlers.set t (m, .start m)).get? t' = some q := by
    intro t' q hg
    have hne : t ≠ t' := by
      rintro rfl
      rw [hnone] at hg
      cases hg
    rwa [OrderedDict.get?_set_ne _ _ hne]
  have hopened : ∀ r, s.Opened r → ({ s with handlers := s.handlers.set t (m, .start m) } :
      System).Opened r := by
    rintro r ⟨t', p, hd, hg, hr, hne⟩
    exact ⟨t', p, hd, hold hg, hr, hne⟩
  have hjobs : ({ s with handlers := s.handlers.set t (m, .start m) } : System).jobIds =
      s.jobIds := by
    rw [jobIds, OrderedDict.total_set, OrderedDict.erase_of_get?_eq_none hnone, jobIds]
    exact congrArg (· + _ + _) (zero_add _)
  -- a second LOOKUP of a request is not received
  have hfresh : ∀ {p t' p' hd'}, m = .lookup p → s.handlers.get? t' = some (.lookup p', hd') →
      p.requestId ≠ p'.requestId := by
    rintro p t' p' hd' rfl hg heq
    have := hok _ (OrderedDict.get?_eq_some_iff.mp hg)
    simp [Req.looksUp, heq] at this
  constructor
  · intro t' m' hd' hg
    rcases hget hg with ⟨-, rfl, rfl⟩ | hg
    · exact .start _
    · exact h.serves _ _ _ hg
  · intro t₁ t₂ p₁ p₂ hd₁ hd₂ hg₁ hg₂ heq
    rcases hget hg₁ with ⟨ht₁, hm₁, -⟩ | hg₁ <;> rcases hget hg₂ with ⟨ht₂, hm₂, -⟩ | hg₂
    · exact ht₁.symm.trans ht₂
    · exact (hfresh hm₁.symm hg₂ heq).elim
    · exact (hfresh hm₂.symm hg₁ heq.symm).elim
    · exact h.once _ _ _ _ _ _ hg₁ hg₂ heq
  · rw [hjobs]
    exact h.jobs
  · intro r hr
    rw [hjobs] at hr
    exact ⟨(h.job r hr).1, hopened r (h.job r hr).2⟩
  · exact fun r hr => hopened r (h.live r hr)
  · exact fun r hr => hopened r (h.heldLive r hr)
  · intro t' r hd hg
    have hup : s.LookedUp r := by
      rcases hget hg with ⟨-, rfl, -⟩ | hg
      · obtain ⟨⟨t₁, m₁, hd₁⟩, hq, hlook, hdone⟩ := hok
        cases m₁ <;> simp [Req.looksUp] at hlook
        cases hd₁ <;> simp [Handler.isDone] at hdone
        exact ⟨t₁, _, _, OrderedDict.get?_eq_some_iff.mpr hq, hlook⟩
      · exact h.ending _ _ _ hg
    obtain ⟨t₁, p, reply, hg₁, hr⟩ := hup
    exact ⟨t₁, p, reply, hold hg₁, hr⟩
  · rintro r ⟨t', reply, hg⟩
    rcases hget hg with ⟨-, -, hd⟩ | hg
    · cases hd
    · exact h.ended r ⟨t', reply, hg⟩

/-- The last step of `end_session` forgets the session. -/
theorem Inv.popped (h : s.Inv blake3 lost) {t : ℕ} {r : String} {hd : Handler}
    {srv' : CacheServer} {reply : Reply} (hget : s.handlers.get? t = some (.endSession r, hd))
    (hserves : hd.Serves (.endSession r)) (hdoes : hd.Does blake3 s.server srv' (.done reply)) :
    srv' = s.server.popSession r := by
  generalize hd₁ : Handler.done reply = hd' at hdoes
  cases hserves with
  | start =>
    cases hdoes
    cases hd₁
  | release r reply =>
    cases hdoes with
    | release => cases hd₁
    | releaseFail hrel =>
      obtain ⟨held, released, hok, -⟩ :=
        s.server.releaseHeld_returned r (Handler.nodup_of_wf (h.handlers _ _ _ hget))
      rw [hok] at hrel
      cases hrel
  | finishRead r released reply =>
    cases hdoes with
    | finishRead => cases hd₁
    | finishReadFail hl1 =>
      have hfin : s.finishing (.handler t) = some released := by simp only [finishing, hget]
      obtain ⟨l1, hok, -⟩ := h.finishRead_returned hfin
      rw [hok] at hl1
      cases hl1
  | popSession r =>
    cases hdoes
    rfl
  | done => cases hdoes
  | plain hm => cases hm

theorem jobIds_handler {t : ℕ} {m : Req} {hd hd' : Handler} {srv' : CacheServer}
    (hget : s.handlers.get? t = some (m, hd)) (hdoes : hd.Does blake3 s.server srv' hd') :
    ({ s with server := srv', handlers := s.handlers.set t (m, hd') } : System).jobIds =
      s.jobIds + hd.opens := by
  have hstep := Handler.jobIds_step hdoes
  rw [jobIds, jobIds, OrderedDict.total_set, OrderedDict.total_eq s.handlers _ t,
    OrderedDict.at?, hget, Option.elim_some]
  dsimp only
  rw [add_right_comm hd'.jobIds, hstep]
  ac_rfl

theorem SessionInv.handler {t : ℕ} (h : s.SessionInv) (hinv : s.Inv blake3 lost)
    (hs : s.step blake3 (.handler t) = some s') : s'.SessionInv := by
  obtain ⟨m, hd, srv', hd', hget, hdoes, rfl⟩ := step_handler hs
  have hserves := h.serves _ _ _ hget
  have hsess := fun r => Handler.sessions_step hdoes (r := r)
  have hjobs := jobIds_handler hget hdoes
  set s' : System := { s with server := srv', handlers := s.handlers.set t (m, hd') } with hs'
  have hget' : ∀ {t₁ m₁ hd₁}, s'.handlers.get? t₁ = some (m₁, hd₁) →
      (t = t₁ ∧ m = m₁ ∧ hd' = hd₁) ∨ s.handlers.get? t₁ = some (m₁, hd₁) := fun hg =>
    (OrderedDict.eq_or_get?_of_set hg).imp_left fun ⟨ht, he⟩ => ⟨ht, Prod.mk.inj he⟩
  -- the messages stay, a handler that has returned stays, the others are past their start
  have hmsg : ∀ {t₁ m₁ hd₁}, s'.handlers.get? t₁ = some (m₁, hd₁) →
      ∃ hd₂, s.handlers.get? t₁ = some (m₁, hd₂) := by
    intro t₁ m₁ hd₁ hg
    rcases hget' hg with ⟨rfl, rfl, -⟩ | hg
    · exact ⟨hd, hget⟩
    · exact ⟨hd₁, hg⟩
  have hopened : ∀ r, s.Opened r → s'.Opened r := by
    rintro r ⟨t₁, p, hd₁, hg, hr, hne⟩
    by_cases ht : t = t₁
    · subst ht
      rw [hget] at hg
      cases hg
      exact ⟨t, p, hd', OrderedDict.get?_set_self _ _ _, hr, Handler.ne_start_of_does hdoes _⟩
    · exact ⟨t₁, p, hd₁, by rw [hs', OrderedDict.get?_set_ne _ _ ht, hg], hr, hne⟩
  have hdone : ∀ r, s.LookedUp r → s'.LookedUp r := by
    rintro r ⟨t₁, p, reply, hg, hr⟩
    have ht : t ≠ t₁ := by
      rintro rfl
      rw [hget] at hg
      cases hg
      cases hdoes
    exact ⟨t₁, p, reply, by rw [hs', OrderedDict.get?_set_ne _ _ ht, hg], hr⟩
  -- a LOOKUP that is at its start has not opened its session
  have hunopened : ∀ p, m = .lookup p → hd = .start m → ¬s.Opened p.requestId := by
    rintro p rfl rfl ⟨t₁, p₁, hd₁, hg, hr, hne⟩
    obtain rfl := h.once _ _ _ _ _ _ hget hg hr.symm
    rw [hget] at hg
    cases hg
    exact hne rfl
  have hnew : ∀ r ∈ hd.opens, ¬s.Opened r ∧ s'.Opened r := by
    intro r hr
    obtain ⟨p, rfl, rfl⟩ := Handler.exists_of_mem_opens hr
    obtain rfl : m = .lookup p := by
      cases hserves with
      | start => rfl
      | plain _ h => cases h
    exact ⟨hunopened p rfl rfl, t, p, hd', OrderedDict.get?_set_self _ _ _, rfl,
      Handler.ne_start_of_does hdoes _⟩
  constructor
  · intro t₁ m₁ hd₁ hg
    rcases hget' hg with ⟨rfl, rfl, rfl⟩ | hg
    · exact Handler.serves_step hserves hdoes
    · exact h.serves _ _ _ hg
  · intro t₁ t₂ p₁ p₂ hd₁ hd₂ hg₁ hg₂ heq
    obtain ⟨_, hg₁⟩ := hmsg hg₁
    obtain ⟨_, hg₂⟩ := hmsg hg₂
    exact h.once _ _ _ _ _ _ hg₁ hg₂ heq
  · rw [hjobs, Multiset.nodup_add]
    refine ⟨h.jobs, ?_, ?_⟩
    · cases hd with
      | start m =>
        cases m with
        | lookup p => exact Multiset.nodup_singleton _
        | _ => exact Multiset.nodup_zero
      | _ => exact Multiset.nodup_zero
    · rw [Multiset.disjoint_left]
      exact fun hr hr' => (hnew _ hr').1 (h.job _ hr).2
  · intro r hr
    rw [hjobs, Multiset.mem_add] at hr
    rcases hr with hr | hr
    · exact ⟨(hsess r).1 (h.job r hr).1, hopened r (h.job r hr).2⟩
    · refine ⟨(hsess r).1 ?_, (hnew r hr).2⟩
      by_contra hne
      exact (hnew r hr).1 (h.heldLive r hne)
  · intro r hr
    by_cases hn : s.server.hits.get? r = none
    · rcases (hsess r).2 hn with hn' | ⟨job, rfl, rfl⟩
      · exact (hr hn').elim
      · obtain ⟨p, rfl, hp⟩ := hserves.lookup
        exact hopened _ ⟨t, p, _, hget, hp, nofun⟩
    · exact hopened r (h.live r hn)
  · intro r hr
    by_cases hn : s.server.held.get? r = none
    · exact (hr ((hsess r).1 hn)).elim
    · exact hopened r (h.heldLive r hn)
  · intro t₁ r hd₁ hg
    obtain ⟨_, hg⟩ := hmsg hg
    exact hdone r (h.ending _ _ _ hg)
  · rintro r ⟨t₁, reply, hg'⟩
    rcases hget' hg' with ⟨rfl, rfl, rfl⟩ | hg
    · rw [show s'.server = s.server.popSession r from hinv.popped hget hserves hdoes]
      exact ⟨OrderedDict.get?_erase_self _ _, OrderedDict.get?_erase_self _ _⟩
    · obtain ⟨hhits, hheld⟩ := h.ended r ⟨t₁, reply, hg⟩
      refine ⟨?_, (hsess r).1 hheld⟩
      rcases (hsess r).2 hhits with hn | ⟨job, rfl, rfl⟩
      · exact hn
      · -- the LOOKUP of a session that ends has returned
        obtain ⟨p, rfl, hp⟩ := hserves.lookup
        obtain ⟨t₂, p₂, reply₂, hg₂, hr₂⟩ := h.ending _ _ _ hg
        obtain rfl := h.once _ _ _ _ _ _ hget hg₂ (hp.trans hr₂.symm)
        rw [hget] at hg₂
        cases hg₂

theorem SessionInv.worker (h : s.SessionInv) (hs : s.step blake3 .worker = some s') :
    s'.SessionInv := by
  obtain ⟨srv', l2s', w', hdoes, rfl⟩ := step_worker hs
  set s' : System := { s with server := srv', l2s := l2s', worker := w' } with hs'
  have hle : s'.jobIds ≤ s.jobIds := by
    rw [jobIds, jobIds, add_assoc, add_assoc]
    refine Multiset.add_le_add_left ?_
    rw [add_comm, add_comm (↑(s.server.jobs.map Job.requestId) : Multiset String)]
    exact Worker.jobIds_step hdoes
  have hmem : ∀ r ∈ s'.jobIds, r ∈ s.jobIds := fun r hr => Multiset.mem_of_le hle hr
  have hnodup : s'.jobIds.Nodup := Multiset.nodup_of_le hle h.jobs
  rcases Worker.sessions_step hdoes with
    ⟨hheld, hhits⟩ | ⟨job, l1Keys, loadedKeys, hw, hw', hlive, rfl⟩
  · refine ⟨h.serves, h.once, hnodup, fun r hr => ?_, fun r hr => ?_, fun r hr => ?_, h.ending,
      fun r hr => ?_⟩
    · rw [show s'.server.held = s.server.held from hheld]
      exact h.job r (hmem r hr)
    · rw [show s'.server.hits = s.server.hits from hhits] at hr
      exact h.live r hr
    · rw [show s'.server.held = s.server.held from hheld] at hr
      exact h.heldLive r hr
    · rw [show s'.server.held = s.server.held from hheld,
        show s'.server.hits = s.server.hits from hhits]
      exact h.ended r hr
  · have hsome : s.server.hits.get? job.requestId ≠ none := by
      intro hn
      rw [OrderedDict.contains_eq_false_iff.mpr hn] at hlive
      cases hlive
    -- the only job of the request is over
    have hover : ∀ r ∈ s'.jobIds, job.requestId ≠ r := by
      rintro r hr rfl
      have hsplit : s.jobIds = job.requestId ::ₘ s'.jobIds := by
        rw [jobIds, jobIds, hw, hs', hw', Worker.jobIds, Worker.jobIds, add_zero,
          ← Multiset.singleton_add, add_comm]
        rfl
      have hnd := h.jobs
      rw [hsplit, Multiset.nodup_cons] at hnd
      exact hnd.1 hr
    have hhits : ∀ r, job.requestId ≠ r → s'.server.hits.get? r = s.server.hits.get? r :=
      fun r hne => OrderedDict.get?_set_ne _ _ hne
    have hheld : ∀ r, job.requestId ≠ r → s'.server.held.get? r = s.server.held.get? r :=
      fun r hne => OrderedDict.get?_set_ne _ _ hne
    refine ⟨h.serves, h.once, hnodup, fun r hr => ?_, fun r hr => ?_, fun r hr => ?_, h.ending,
      fun r hr => ?_⟩
    · rw [hheld r (hover r hr)]
      exact h.job r (hmem r hr)
    · by_cases hr' : job.requestId = r
      · exact hr' ▸ h.live _ hsome
      · rw [hhits r hr'] at hr
        exact h.live r hr
    · by_cases hr' : job.requestId = r
      · exact hr' ▸ h.live _ hsome
      · rw [hheld r hr'] at hr
        exact h.heldLive r hr
    · obtain ⟨hn, hn'⟩ := h.ended r hr
      have hr' : job.requestId ≠ r := by
        rintro rfl
        exact hsome hn
      rw [hheld r hr', hhits r hr']
      exact ⟨hn, hn'⟩

theorem jobIds_setLookup (s : System) (i : ℕ) (r : Except Exc ℕ) :
    (s.setLookup i r).worker.jobIds = s.worker.jobIds := by
  unfold setLookup
  split
  · rename_i hw
    rw [hw]
    rfl
  · rfl

theorem SessionInv.l2 {i : ℕ} {act : L2Act} (h : s.SessionInv)
    (hs : s.step blake3 (.l2 i act) = some s') : s'.SessionInv := by
  cases l2_does hs with
  | found | lookupFail =>
    refine h.of_eq (handlers_setLookup _ _ _) ?_ ?_ ?_
    · rw [server_setLookup]
      rfl
    · rw [server_setLookup]
      rfl
    · rw [jobIds, jobIds_setLookup, handlers_setLookup, server_setLookup]
      rfl
  | fill hw | loaded hw | loadFail hw =>
    refine h.of_eq rfl rfl rfl ?_
    rw [jobIds, jobIds, hw]
    rfl
  | scribble | persist | skip | stored | storeFail => exact h.of_eq rfl rfl rfl rfl

/-- One step of a run in which every session ends with nothing held. -/
theorem SessionInv.step {l : Label} (h : s.SessionInv) (hinv : s.Inv blake3 lost)
    (hok : s.LookedUpOnce l) (hs : s.step blake3 l = some s') : s'.SessionInv := by
  cases l with
  | recv t m => exact h.recv hok hs
  | handler t => exact h.handler hinv hs
  | worker => exact h.worker hs
  | writeback =>
    obtain ⟨srv', l2s', w', hdoes, rfl⟩ := step_writeback hs
    obtain ⟨hheld, hhits, hjobs⟩ := Writeback.sessions_step hdoes
    exact h.of_eq rfl hheld hhits (congrArg (fun jobs : List Job =>
      _ + (↑(jobs.map Job.requestId) : Multiset String) + s.worker.jobIds) hjobs)
  | evictor =>
    rw [step_evictor hs]
    rcases s.evictor with _ | _ | _ <;> exact h.of_eq rfl rfl rfl rfl
  | l2 i act => exact h.l2 hs

/-- A job publishes for a session that holds nothing yet. -/
theorem SessionInv.leaks_eq {l : Label} (h : s.SessionInv) (hok : s.EndsClean l) :
    s.leaks l = 0 := by
  cases l with
  | handler t =>
    simp only [EndsClean] at hok
    rw [leaks]
    rcases hget : s.handlers.get? t with _ | ⟨m, hd⟩
    · rfl
    · cases hd with
      | popSession r =>
        rw [hget] at hok
        exact congrArg _ hok
      | _ => rfl
  | worker =>
    rw [leaks]
    rcases hw : s.worker with _ | _ | _ | _ | _ | _ | _ | _ | ⟨job, l1Keys, loadedKeys⟩ | _ | _
    case resolve =>
      have hmem : job.requestId ∈ s.jobIds := by
        rw [jobIds, hw]
        exact Multiset.mem_add.mpr (Or.inr (Multiset.mem_singleton_self _))
      rw [Worker.leaks, CacheServer.heldKeys, (h.job _ hmem).1]
      exact ite_self _
    all_goals rfl
  | _ => rfl

/-! ## Runs -/

variable (blake3) in
/-- The steps of runs in which chunk hashes do not collide, each request is looked up once
and before it ends, and every session ends with nothing held. -/
def Orderly (s : System) (l : Label) : Prop :=
  s.Distinct blake3 l ∧ s.LookedUpOnce l ∧ s.EndsClean l

instance (s : System) (l : Label) : Decidable (s.Orderly blake3 l) := by
  unfold Orderly
  infer_instance

/-- A state reached by such steps only. -/
def OrderlyReachable (blake3 : Bytes → Bytes) (s : System) : Prop :=
  ∃ chunkSize capacity pool adapters ls,
    Run (System.step blake3) (Orderly blake3) (new chunkSize capacity pool adapters) ls s

/-- In such a run no hold is lost. -/
theorem OrderlyReachable.inv (h : s.OrderlyReachable blake3) : s.Inv blake3 0 ∧ s.SessionInv := by
  obtain ⟨chunkSize, capacity, pool, adapters, ls, hrun⟩ := h
  refine hrun.invariant (fun s => s.Inv blake3 0 ∧ s.SessionInv)
    ⟨inv_new _ _ _ _, sessionInv_new _ _ _ _⟩ ?_
  rintro s l s' ⟨hinv, hsess⟩ ⟨hd, hlook, hclean⟩ hs
  have hinv' := (inv_step hinv hd hs).1
  rw [hsess.leaks_eq hclean, zero_add] at hinv'
  exact ⟨hinv', hsess.step hinv hlook hs⟩

end System

/-! ## The holds of everybody else -/

/-- The holds of a handler of another request than `r`. -/
def Handler.holdsBut (r : String) : Handler → Multiset ChunkKey
  | finishRead requestId released _ _ => if requestId = r then 0 else ↑released
  | _ => 0

namespace System

/-- The holds that were not taken for `r` : those of other sessions, of their releases and
their jobs, and of write-back. -/
def holdsOfOthers (s : System) (r : String) : Multiset ChunkKey :=
  s.server.otherSessions r + (s.handlers.total fun _ p => p.2.holdsBut r) +
    (if r ∈ s.worker.jobIds then 0 else s.worker.holds) + s.writeback.holds

variable {s s' : System} {lost : Multiset ChunkKey}

/-- A request that ended, whose job has finished and of which nothing is being released,
holds nothing. -/
theorem SessionInv.holds_eq (h : s.SessionInv) {r : String} (hended : s.Ended r)
    (hjob : r ∉ s.jobIds) (hrel : ¬s.Releasing r) : s.holds = s.holdsOfOthers r := by
  have hheld : s.server.heldKeys r = [] := by
    rw [CacheServer.heldKeys, (h.ended r hended).2]
    rfl
  have hworker : r ∉ s.worker.jobIds := fun hr => hjob (Multiset.mem_add.mpr (Or.inr hr))
  have hhandlers : (s.handlers.total fun _ p => p.2.holds) =
      s.handlers.total fun _ p => p.2.holdsBut r := by
    refine OrderedDict.total_congr fun t p hp => ?_
    obtain ⟨m, hd⟩ := p
    cases hd with
    | finishRead requestId released ending reply =>
      have hne : requestId ≠ r := by
        rintro rfl
        exact hrel ⟨t, m, released, ending, reply, hp⟩
      exact (if_neg hne).symm
    | _ => rfl
  rw [holds, holdsOfOthers, hhandlers, s.server.sessions_eq r, hheld, if_neg hworker,
    Multiset.coe_nil, zero_add]

theorem Worker.eq_idle {w : Worker} (h : w.jobIds = 0) : w = .idle := by
  cases w with
  | idle => rfl
  | _ => exact (Multiset.singleton_ne_zero _ h).elim

/-- When every session is over and nothing is under way, nobody holds anything. -/
theorem SessionInv.quiet (h : s.SessionInv)
    (hended : ∀ t p hd, s.handlers.get? t = some (.lookup p, hd) →
      s.Ended p.requestId ∧ p.requestId ∉ s.jobIds)
    (hrel : ∀ r, ¬s.Releasing r) (hwb : s.writeback = .idle) :
    s.holds = 0 ∧ s.worker = .idle := by
  have hopened : ∀ r, s.Opened r → s.Ended r ∧ r ∉ s.jobIds := by
    rintro r ⟨t, p, hd, hg, rfl, -⟩
    exact hended t p hd hg
  have hidle : s.worker = .idle := by
    refine Worker.eq_idle (Multiset.eq_zero_of_forall_notMem fun r hr => ?_)
    have hmem : r ∈ s.jobIds := Multiset.mem_add.mpr (Or.inr hr)
    exact (hopened r (h.job r hmem).2).2 hmem
  have hsessions : s.server.sessions = 0 := by
    refine Multiset.eq_zero_of_forall_notMem fun k hk => ?_
    obtain ⟨⟨r, d⟩, hp, -⟩ := OrderedDict.mem_total.mp hk
    have hget : s.server.held.get? r = some d := OrderedDict.get?_eq_some_iff.mpr hp
    have hnone := (h.ended r (hopened r (h.heldLive r (by simp [hget]))).1).2
    rw [hget] at hnone
    cases hnone
  have hhandlers : (s.handlers.total fun _ p => p.2.holds) = 0 := by
    refine Multiset.eq_zero_of_forall_notMem fun k hk => ?_
    obtain ⟨⟨t, m, hd⟩, hp, hk⟩ := OrderedDict.mem_total.mp hk
    cases hd with
    | finishRead requestId released ending reply =>
      exact hrel requestId ⟨t, m, released, ending, reply, OrderedDict.get?_eq_some_iff.mpr hp⟩
    | _ => cases hk
  exact ⟨by rw [holds, hsessions, hhandlers, hidle, hwb]; rfl, hidle⟩

/-- In a run in which every session ends with nothing held, no hold outlives its session :
when `end_session(r)` has returned, the job of `r` has finished and no release of `r` is
between its sections, the read counts are those of everybody else; and when that is so of
every request and write-back is idle, all are zero and nothing temporary is left. -/
theorem no_hold_outlives_session (h : s.OrderlyReachable blake3) :
    (∀ r, s.Ended r → r ∉ s.jobIds → ¬s.Releasing r →
      ∀ k e, s.server.l1.entries.get? k = some e → e.readCount = (s.holdsOfOthers r).count k) ∧
    ((∀ t p hd, s.handlers.get? t = some (.lookup p, hd) →
        s.Ended p.requestId ∧ p.requestId ∉ s.jobIds) →
      (∀ r, ¬s.Releasing r) → s.writeback = .idle →
      ∀ k e, s.server.l1.entries.get? k = some e → e.readCount = 0 ∧ e.isTemporary = false) := by
  obtain ⟨hinv, hsess⟩ := h.inv
  have hcount : ∀ k e, s.server.l1.entries.get? k = some e → e.readCount = s.holds.count k := by
    intro k e he
    rw [hinv.ledger.count k e he, add_zero]
  refine ⟨fun r hended hjob hrel k e he => ?_, fun hended hrel hwb k e he => ?_⟩
  · rw [hcount k e he, hsess.holds_eq hended hjob hrel]
  · obtain ⟨hholds, hidle⟩ := hsess.quiet hended hrel hwb
    refine ⟨by rw [hcount k e he, hholds]; rfl, ?_⟩
    by_contra ht
    rw [Bool.not_eq_false] at ht
    have hk := (hinv.temporary_held (by rw [hidle]; rfl) he ht).2
    rw [hholds, add_zero] at hk
    exact Multiset.notMem_zero k hk

/-! ## A session that ends in time, and one that does not -/

/-- Every handler has returned. -/
def allDone (s : System) : Bool := s.handlers.items.all fun q => q.2.2.isDone

theorem not_releasing (h : s.allDone = true) (r : String) : ¬s.Releasing r := by
  rintro ⟨t, m, released, ending, reply, hg⟩
  cases List.all_eq_true.mp h _ (OrderedDict.get?_eq_some_iff.mp hg)

/-- The LOOKUP and the END_SESSION of request `b`, both handled. -/
def sampleSession : List (ℕ × Req × Handler) :=
  [(2, .lookup ⟨"b", [1], "m", 1⟩, .done (.bool true)), (3, .endSession "b", .done (.bool true))]

theorem ended_of_sampleSession
    (hmsgs : (s.handlers.items.filter fun q => !(q.2.1.plain)) = sampleSession)
    (hjobs : s.jobIds = 0) (t : ℕ) (p : LookupPayload) (hd : Handler)
    (hg : s.handlers.get? t = some (.lookup p, hd)) :
    s.Ended p.requestId ∧ p.requestId ∉ s.jobIds := by
  have hlook := List.mem_filter (p := fun q : ℕ × Req × Handler => !(q.2.1.plain)).mpr
    ⟨OrderedDict.get?_eq_some_iff.mp hg, rfl⟩
  have hend : (3, Req.endSession "b", Handler.done (.bool true)) ∈
      s.handlers.items.filter fun q => !(q.2.1.plain) := by
    rw [hmsgs]
    exact List.mem_cons_of_mem _ List.mem_cons_self
  rw [hmsgs] at hlook
  rcases List.mem_pair.mp hlook with heq | heq
  · cases heq
    refine ⟨⟨3, _, OrderedDict.get?_eq_some_iff.mpr (List.mem_filter.mp hend).1⟩, ?_⟩
    rw [hjobs]
    exact Multiset.notMem_zero _
  · cases heq

/-- What the two runs below end with : both messages handled, and nothing under way. -/
def sampleEnds (s : System) : Bool :=
  decide (s.allDone = true ∧ s.writeback = .idle ∧ s.jobIds = 0) &&
    decide ((s.handlers.items.filter fun q => !(q.2.1.plain)) = sampleSession)

/-- Request `b` finds the chunk in L1 and ends after its job has published. -/
theorem no_hold_outlives_session_sample : ∃ s e,
    sample (fun s l => decide (s.Orderly sampleDigest l)) 4
      (sampleLookup ++ [.recv 3 (.endSession "b"), .handler 3, .handler 3, .handler 3,
        .handler 3]) = some s ∧
    s.server.l1.entries.get? (sampleKey 1) = some e ∧ e.readCount = 0 ∧
    e.isTemporary = false := by
  set run := sample (fun s l => decide (s.Orderly sampleDigest l)) 4
    (sampleLookup ++ [.recv 3 (.endSession "b"), .handler 3, .handler 3, .handler 3,
      .handler 3]) with hrun
  have hshape : run.map (fun s => (sampleEnds s,
      (s.server.l1.entries.get? (sampleKey 1)).isSome)) = some (true, true) := by decide
  obtain ⟨s, hs, hshape⟩ := Option.map_eq_some_iff.mp hshape
  simp only [Prod.mk.injEq, sampleEnds, Bool.and_eq_true, decide_eq_true_eq] at hshape
  obtain ⟨⟨⟨hdone, hwb, hjobs⟩, hmsgs⟩, he⟩ := hshape
  obtain ⟨e, he⟩ := Option.isSome_iff_exists.mp he
  have hreach : s.OrderlyReachable sampleDigest :=
    ⟨1, 4, _, 1, _, (run_of_replay (hrun ▸ hs)).mono fun _ _ hok => of_decide_eq_true hok⟩
  exact ⟨s, e, hs, he, (no_hold_outlives_session hreach).2 (ended_of_sampleSession hmsgs hjobs)
    (not_releasing hdone) hwb _ e he⟩

/-- The job of request `b` loads the chunk from L2 and publishes after `end_session` has
released the session and before it forgets it : the chunk stays in L1 as a temporary entry
with a read count of one. -/
theorem hold_outlives_session : ∃ s,
    sample (fun s l => decide (s.Distinct sampleDigest l ∧ s.LookedUpOnce l)) 2
      (sampleReload.dropLast ++ [.recv 3 (.endSession "b"), .handler 3, .handler 3, .worker,
        .handler 3, .handler 3]) = some s ∧
    (∀ t p hd, s.handlers.get? t = some (.lookup p, hd) →
      s.Ended p.requestId ∧ p.requestId ∉ s.jobIds) ∧
    (∀ r, ¬s.Releasing r) ∧ s.writeback = .idle ∧
    ∃ e, s.server.l1.entries.get? (sampleKey 1) = some e ∧ e.readCount = 1 ∧
      e.isTemporary = true := by
  set run := sample (fun s l => decide (s.Distinct sampleDigest l ∧ s.LookedUpOnce l)) 2
    (sampleReload.dropLast ++ [.recv 3 (.endSession "b"), .handler 3, .handler 3, .worker,
      .handler 3, .handler 3])
  have hshape : run.map (fun s => (sampleEnds s,
      (s.server.l1.entries.get? (sampleKey 1)).map fun e => (e.readCount, e.isTemporary))) =
      some (true, some (1, true)) := by decide
  obtain ⟨s, hs, hshape⟩ := Option.map_eq_some_iff.mp hshape
  simp only [Prod.mk.injEq, sampleEnds, Bool.and_eq_true, decide_eq_true_eq] at hshape
  obtain ⟨⟨⟨hdone, hwb, hjobs⟩, hmsgs⟩, he⟩ := hshape
  obtain ⟨e, he, hcount⟩ := Option.map_eq_some_iff.mp he
  obtain ⟨hcount, htmp⟩ := Prod.mk.inj hcount
  exact ⟨s, hs, ended_of_sampleSession hmsgs hjobs, not_releasing hdone, hwb, e, he, hcount, htmp⟩

end System

end MiniLlmcache
