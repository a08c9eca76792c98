import MiniLlmcache.SessionFrame
import MiniLlmcache.LoadRequest

/-!
# Progressive unlock

The handlers of a `LoadRequest` in the running process : one FREE_LOOKUP_LOCKS, the RETRIEVEs
of all ranks, and an END_SESSION after them, beside whatever else the process does.

`Unlocks` says where the handler of each message can stand. `UnlockInv` says what the session
holds meanwhile : its keys in their order, without those of the messages whose handlers are
past the section of `release`. So the first keys that FREE_LOOKUP_LOCKS finds are always its
own, a RETRIEVE reads keys that stay held until its `post_send`, and what is left in the end
does not depend on the order (`progressive_unlock`).
-/

namespace MiniLlmcache

open L1Manager

variable {blake3 : Bytes → Bytes}

/-! ## Where the handlers of the request stand -/

namespace LoadRequest

variable (u : LoadRequest)

variable (blake3) in
/-- Where the handler of a message can stand. -/
inductive Unlocks : Req → Handler → Prop
  /-- It has nothing to do with the session. -/
  | other {m : Req} {hd : Handler} (hm : m.touches u.requestId = false)
      (h : hd.touches u.requestId = false) : Unlocks m hd
  /-- The LOOKUP was handled before. -/
  | lookup (p : LookupPayload) (reply : Reply) : Unlocks (.lookup p) (.done reply)
  | start {m : Req} (hm : m ∈ u.messages) : Unlocks m (.start m)
  | releaseFirst (hm : u.free ∈ u.messages) :
      Unlocks u.free (.releaseFirst u.requestId (u.first * u.worldSize))
  | read {rank : ℕ} (hr : rank < u.worldSize) :
      Unlocks (u.retrieve rank)
        (.retrieveRead u.requestId (u.keysOf blake3 (u.retrieve rank)) u.worldSize)
  | send {rank : ℕ} (hr : rank < u.worldSize) (objs : List MemoryObj) :
      Unlocks (u.retrieve rank)
        (.retrieveSend u.requestId (u.keysOf blake3 (u.retrieve rank)) objs)
  | promote {rank : ℕ} (hr : rank < u.worldSize) :
      Unlocks (u.retrieve rank)
        (.retrievePromote u.requestId (u.keysOf blake3 (u.retrieve rank)))
  | release {m : Req} (hm : m ∈ u.messages) (hne : m ≠ .endSession u.requestId) {reply : Reply}
      (hreply : ∀ e, reply ≠ .error e) :
      Unlocks m (.release u.requestId (some (u.keysOf blake3 m)) false reply)
  | releaseAll : Unlocks (.endSession u.requestId) (.release u.requestId none true (.bool true))
  | finishRead {m : Req} (hm : m ∈ u.messages) {reply : Reply} (hreply : ∀ e, reply ≠ .error e) :
      Unlocks m (.finishRead u.requestId (u.keysOf blake3 m) (m = .endSession u.requestId) reply)
  | pop : Unlocks (.endSession u.requestId) (.popSession u.requestId)
  | done {m : Req} (hm : m ∈ u.messages) {reply : Reply} (hreply : ∀ e, reply ≠ .error e) :
      Unlocks m (.done reply)

variable {u}

theorem touches_of_mem {m : Req} (hm : m ∈ u.messages) : m.touches u.requestId = true := by
  rcases u.mem_messages.mp hm with ⟨-, rfl⟩ | ⟨rank, -, rfl⟩ | rfl <;> exact decide_eq_true rfl

theorem keysOf_of_touches {m : Req} (hm : m.touches u.requestId = false) :
    u.keysOf blake3 m = [] := by
  cases m with
  | freeLookupLocks | retrieve | endSession => exact if_neg (of_decide_eq_false hm)
  | _ => rfl

/-- The request's own messages, those of others, and the LOOKUP. -/
theorem Unlocks.of_request {m : Req} {hd : Handler} (h : u.Unlocks blake3 m hd) :
    m ∈ u.messages ∨ (m.touches u.requestId = false ∧ hd.touches u.requestId = false) ∨
      (∃ p, m = .lookup p) ∧ ∃ reply, hd = .done reply := by
  cases h with
  | other hm h => exact Or.inr (Or.inl ⟨hm, h⟩)
  | lookup p reply => exact Or.inr (Or.inr ⟨⟨p, rfl⟩, reply, rfl⟩)
  | start hm | releaseFirst hm | release hm | finishRead hm | done hm => exact Or.inl hm
  | read hr | send hr | promote hr =>
    exact Or.inl (u.mem_messages.mpr (Or.inr (Or.inl ⟨_, hr, rfl⟩)))
  | releaseAll | pop => exact Or.inl (u.mem_messages.mpr (Or.inr (Or.inr rfl)))

/-- Only the messages of the request unlock its keys. -/
theorem Unlocks.mem {m : Req} {hd : Handler} {k : ChunkKey} (h : u.Unlocks blake3 m hd)
    (hk : k ∈ u.keysOf blake3 m) : m ∈ u.messages := by
  rcases h.of_request with hm | ⟨hm, -⟩ | ⟨⟨p, rfl⟩, -⟩
  · exact hm
  · rw [keysOf_of_touches hm] at hk
    cases hk
  · cases hk

variable (u)

variable (blake3) in
/-- The keys of the messages whose handlers have come as far as `f` says. -/
def past (f : Handler → Bool) (s : System) : List ChunkKey :=
  s.handlers.items.flatMap fun q => if f q.2.2 then u.keysOf blake3 q.2.1 else []

variable (blake3) in
/-- The session is resolved, with the LOOKUP's first `hits` keys held, and nothing else of the
request was received or is under way. -/
structure Resolved (s : System) : Prop where
  chunkSize : s.server.chunkSize = u.connector.chunkSize
  hits : ∃ l1 l2, s.server.hits.get? u.requestId = some (some (l1, l2)) ∧ l1 + l2 = u.hits
  held : s.server.heldKeys u.requestId = u.keys blake3
  length : (u.keys blake3).length = u.hits
  messages : ∀ q ∈ s.handlers.items, q.2.1.touches u.requestId = true →
    q.2.1.looksUp u.requestId = true ∧ q.2.2.isDone = true
  others : ∀ q ∈ s.handlers.items, q.2.1.touches u.requestId = false →
    q.2.2.touches u.requestId = false
  queued : u.requestId ∉ s.queued

/-- The engine of every rank is registered. -/
def Registered (s : System) : Prop :=
  ∀ rank < u.worldSize, ∃ inst, s.server.instances.get? (u.engine rank) = some inst ∧
    inst.rank = rank ∧ inst.model = u.connector.model ∧ inst.worldSize = u.worldSize

/-- Each message of the request comes in once, and END_SESSION when the others were handled. -/
def InTurn (s : System) : Label → Prop
  | .recv _ m => m.touches u.requestId = true →
    m ∈ u.messages ∧ (∀ q ∈ s.handlers.items, q.2.1 ≠ m) ∧
      (m = .endSession u.requestId →
        ∀ m' ∈ u.messages, m' ≠ .endSession u.requestId → s.Handled m')
  | _ => True

variable (blake3) in
/-- The steps while the request unlocks its session. -/
def Unlocking (s : System) (l : Label) : Prop :=
  s.Distinct blake3 l ∧ u.Registered s ∧ u.InTurn s l

instance (u : LoadRequest) (s : System) : Decidable (u.Registered s) := by
  unfold Registered
  have hiff : ∀ (o : Option EngineInstance) (rank : ℕ),
      (o.any fun inst : EngineInstance => decide (inst.rank = rank ∧
        inst.model = u.connector.model ∧ inst.worldSize = u.worldSize)) = true ↔
      ∃ inst, o = some inst ∧ inst.rank = rank ∧ inst.model = u.connector.model ∧
        inst.worldSize = u.worldSize := by
    intro o rank
    cases o <;> simp
  exact @Nat.decidableBallLT _ _ fun rank _ => decidable_of_iff _ (hiff _ rank)

instance (u : LoadRequest) (s : System) : ∀ l, Decidable (u.InTurn s l)
  | .recv _ m => inferInstanceAs (Decidable (m.touches u.requestId = true →
      m ∈ u.messages ∧ (∀ q ∈ s.handlers.items, q.2.1 ≠ m) ∧
        (m = .endSession u.requestId →
          ∀ m' ∈ u.messages, m' ≠ .endSession u.requestId → s.Handled m')))
  | .handler _ | .worker | .writeback | .evictor | .l2 _ _ => isTrue trivial

instance (u : LoadRequest) (s : System) (l : Label) : Decidable (u.Unlocking blake3 s l) := by
  unfold Unlocking
  infer_instance

variable (blake3) in
/-- What holds all along, with the keys `dropped` on the way. -/
structure UnlockInv (s : System) (dropped : List ChunkKey) : Prop where
  inv : ∃ lost, s.Inv blake3 lost
  chunkSize : s.server.chunkSize = u.connector.chunkSize
  nodup : (u.keys blake3).Nodup
  length : (u.keys blake3).length = u.hits
  queued : u.requestId ∉ s.queued
  unlocks : ∀ t m hd, s.handlers.get? t = some (m, hd) → u.Unlocks blake3 m hd
  once : ∀ t t' m hd hd', m ∈ u.messages → s.handlers.get? t = some (m, hd) →
    s.handlers.get? t' = some (m, hd') → t = t'
  ending : ∀ t hd, s.handlers.get? t = some (.endSession u.requestId, hd) →
    ∀ m ∈ u.messages, m ≠ .endSession u.requestId → s.Handled m
  held : s.server.heldKeys u.requestId =
    (u.keys blake3).filter fun k => k ∉ u.past blake3 Handler.released s
  dropped_nodup : dropped.Nodup
  mem_dropped : ∀ k, k ∈ dropped ↔ k ∈ u.past blake3 Handler.finished s

variable {u} {s s' : System} {f : Handler → Bool} {dropped : List ChunkKey}

theorem mem_past {k : ChunkKey} : k ∈ u.past blake3 f s ↔
    ∃ t m hd, s.handlers.get? t = some (m, hd) ∧ f hd = true ∧ k ∈ u.keysOf blake3 m := by
  rw [past, List.mem_flatMap]
  constructor
  · rintro ⟨⟨t, m, hd⟩, hq, hk⟩
    split_ifs at hk with hf
    · exact ⟨t, m, hd, OrderedDict.get?_eq_some_iff.mpr hq, hf, hk⟩
    · cases hk
  · rintro ⟨t, m, hd, hq, hf, hk⟩
    exact ⟨(t, m, hd), OrderedDict.get?_eq_some_iff.mp hq, by rwa [if_pos hf]⟩

/-- A handler that comes as far adds the keys of its message. -/
theorem mem_past_set {t : ℕ} {m : Req} {hd hd' : Handler} (hg : s.handlers.get? t = some (m, hd))
    (hmono : f hd = true → f hd' = true) (hs : s'.handlers = s.handlers.set t (m, hd'))
    {k : ChunkKey} : k ∈ u.past blake3 f s' ↔
      k ∈ u.past blake3 f s ∨ (f hd' = true ∧ k ∈ u.keysOf blake3 m) := by
  rw [mem_past, mem_past, hs]
  constructor
  · rintro ⟨t', m', hd₁, hg', hf, hk⟩
    rw [OrderedDict.get?_set] at hg'
    split_ifs at hg' with ht
    · cases hg'
      exact Or.inr ⟨hf, hk⟩
    · exact Or.inl ⟨t', m', hd₁, hg', hf, hk⟩
  · rintro (⟨t', m', hd₁, hg', hf, hk⟩ | ⟨hf, hk⟩)
    · by_cases ht : t = t'
      · subst ht
        rw [hg] at hg'
        cases hg'
        exact ⟨t, m, hd', OrderedDict.get?_set_self _ _ _, hmono hf, hk⟩
      · exact ⟨t', m', hd₁, by rwa [OrderedDict.get?_set_ne _ _ ht], hf, hk⟩
    · exact ⟨t, m, hd', OrderedDict.get?_set_self _ _ _, hf, hk⟩

/-! ## What is held -/

namespace UnlockInv

variable {t : ℕ} {m : Req} {hd : Handler}

/-- The keys of a message whose handler has not released them are held. -/
theorem keysOf_held (h : u.UnlockInv blake3 s dropped) (hm : m ∈ u.messages)
    (hwait : ∀ t hd, s.handlers.get? t = some (m, hd) → hd.released = false) :
    ∀ k ∈ u.keysOf blake3 m, k ∈ s.server.heldKeys u.requestId := by
  intro k hk
  rw [h.held, List.mem_filter, decide_eq_true_iff, mem_past]
  refine ⟨(keysOf_sublist m).mem hk, ?_⟩
  rintro ⟨t, m', hd, hg, hrel, hk'⟩
  obtain rfl := keysOf_unique h.nodup hm ((h.unlocks t m' hd hg).mem hk') hk hk'
  rw [hwait t hd hg] at hrel
  cases hrel

theorem wait_of_get (h : u.UnlockInv blake3 s dropped) (hm : m ∈ u.messages)
    (hg : s.handlers.get? t = some (m, hd)) (hrel : hd.released = false) :
    ∀ t' hd', s.handlers.get? t' = some (m, hd') → hd'.released = false := by
  intro t' hd' hg'
  obtain rfl := h.once t t' m hd hd' hm hg hg'
  rw [hg] at hg'
  cases hg'
  exact hrel

/-- FREE_LOOKUP_LOCKS finds its own keys first. -/
theorem take_held (h : u.UnlockInv blake3 s dropped) (hm : u.free ∈ u.messages)
    (hwait : ∀ t hd, s.handlers.get? t = some (u.free, hd) → hd.released = false) :
    (s.server.heldKeys u.requestId).take (u.first * u.worldSize) = u.keysOf blake3 u.free := by
  have hfirst := h.keysOf_held hm hwait
  set n := u.first * u.worldSize with hn
  have hle : n ≤ (u.keys blake3).length := by
    rw [h.length]
    exact (Nat.mul_le_mul_right _ u.first_lt.le).trans u.chunks_mul_le
  rw [keysOf_free, ← hn] at hfirst ⊢
  have hkeep : ((u.keys blake3).take n).filter
      (fun k => k ∉ u.past blake3 Handler.released s) = (u.keys blake3).take n := by
    refine List.filter_eq_self.mpr fun k hk => ?_
    have hheld := hfirst k hk
    rw [h.held] at hheld
    exact (List.mem_filter.mp hheld).2
  have hsplit : (u.keys blake3).filter (fun k => k ∉ u.past blake3 Handler.released s) =
      (u.keys blake3).take n ++ ((u.keys blake3).drop n).filter
        fun k => k ∉ u.past blake3 Handler.released s := by
    rw [← hkeep, ← List.filter_append, List.take_append_drop]
  rw [h.held, hsplit, List.take_append_of_le_length (by simp [hle]), List.take_take, Nat.min_self]

theorem released_of_handled (hhandled : s.Handled m) :
    ∃ t hd, s.handlers.get? t = some (m, hd) ∧ hd.released = true ∧ hd.finished = true := by
  obtain ⟨⟨t, m', hd⟩, hq, rfl, hdone⟩ := hhandled
  refine ⟨t, hd, OrderedDict.get?_eq_some_iff.mpr hq, ?_⟩
  cases hd with
  | done reply => exact ⟨rfl, rfl⟩
  | _ => cases hdone

/-- When the other messages were handled, what END_SESSION unlocks is left. -/
theorem held_last (h : u.UnlockInv blake3 s dropped)
    (hall : ∀ m ∈ u.messages, m ≠ .endSession u.requestId → s.Handled m)
    (hwait : ∀ t hd, s.handlers.get? t = some (.endSession u.requestId, hd) →
      hd.released = false) :
    s.server.heldKeys u.requestId = u.keysOf blake3 (.endSession u.requestId) := by
  have hmem : Req.endSession u.requestId ∈ u.messages := u.mem_messages.mpr (Or.inr (Or.inr rfl))
  have hgone : ∀ k ∈ (u.keys blake3).take (u.chunks * u.worldSize),
      k ∈ u.past blake3 Handler.released s := by
    intro k hk
    obtain ⟨m, hm, hne, hkm⟩ := (mem_take_iff h.nodup).mp hk
    obtain ⟨t, hd, hg, hrel, -⟩ := released_of_handled (hall m hm hne)
    exact mem_past.mpr ⟨t, m, hd, hg, hrel, hkm⟩
  have hkeep : ∀ k ∈ (u.keys blake3).drop (u.chunks * u.worldSize),
      decide (k ∉ u.past blake3 Handler.released s) = true := by
    intro k hk
    have hheld := h.keysOf_held hmem hwait k (by rwa [keysOf_endSession])
    rw [h.held] at hheld
    exact (List.mem_filter.mp hheld).2
  rw [h.held, keysOf_endSession]
  conv_lhs => rw [← List.take_append_drop (u.chunks * u.worldSize) (u.keys blake3)]
  rw [List.filter_append, List.filter_eq_self.mpr hkeep, List.filter_eq_nil_iff.mpr,
    List.nil_append]
  intro k hk
  simpa using hgone k hk

/-- When all of them have released their keys, nothing is left. -/
theorem held_nil (h : u.UnlockInv blake3 s dropped)
    (hall : ∀ m ∈ u.messages, ∃ t hd, s.handlers.get? t = some (m, hd) ∧ hd.released = true) :
    s.server.heldKeys u.requestId = [] := by
  rw [h.held, List.filter_eq_nil_iff]
  intro k hk
  obtain ⟨m, hm, hkm⟩ := exists_keysOf hk
  obtain ⟨t, hd, hg, hrel⟩ := hall m hm
  simpa using mem_past.mpr ⟨t, m, hd, hg, hrel, hkm⟩

end UnlockInv

/-! ## One step of a handler of the request -/

variable (blake3 u) in
/-- What a step of the handler of `m` does to the sessions. -/
structure Effect (m : Req) (hd hd' : Handler) (srv srv' : CacheServer) : Prop where
  unlocks : u.Unlocks blake3 m hd'
  held : srv'.heldKeys u.requestId = (srv.heldKeys u.requestId).filter
    fun k => ¬(hd'.released = true ∧ k ∈ u.keysOf blake3 m)
  others : ∀ r, r ≠ u.requestId → srv'.held.get? r = srv.held.get? r
  jobs : srv'.jobs = srv.jobs
  drops : (hd'.finished = hd.finished ∧ hd.dropping = []) ∨
    (hd.finished = false ∧ hd'.finished = true ∧ hd.dropping = u.keysOf blake3 m)

/-- A step that leaves the sessions alone. -/
theorem Effect.of_held {m : Req} {hd hd' : Handler} {srv srv' : CacheServer}
    (hunlocks : u.Unlocks blake3 m hd') (hheld : srv'.held = srv.held)
    (hjobs : srv'.jobs = srv.jobs)
    (hrel : hd'.released = hd.released)
    (hgone : hd.released = true → ∀ k ∈ u.keysOf blake3 m, k ∉ srv.heldKeys u.requestId)
    (hdrops : (hd'.finished = hd.finished ∧ hd.dropping = []) ∨
      (hd.finished = false ∧ hd'.finished = true ∧ hd.dropping = u.keysOf blake3 m)) :
    u.Effect blake3 m hd hd' srv srv' := by
  refine ⟨hunlocks, ?_, fun r _ => by rw [hheld], hjobs, hdrops⟩
  rw [CacheServer.heldKeys, hheld, ← CacheServer.heldKeys, eq_comm, List.filter_eq_self]
  intro k hk
  rw [decide_eq_true_iff, hrel]
  exact fun hk' => hgone hk'.1 k hk'.2 hk

namespace UnlockInv

variable {t : ℕ} {m : Req} {hd hd' : Handler} {srv' : CacheServer}

/-- What was released is not held. -/
theorem not_held (h : u.UnlockInv blake3 s dropped) (hg : s.handlers.get? t = some (m, hd))
    (hrel : hd.released = true) : ∀ k ∈ u.keysOf blake3 m, k ∉ s.server.heldKeys u.requestId := by
  intro k hk hheld
  rw [h.held, List.mem_filter, decide_eq_true_iff] at hheld
  exact hheld.2 (mem_past.mpr ⟨t, m, hd, hg, hrel, hk⟩)

/-- The dispatch of a message of the request. -/
theorem dispatch (h : u.UnlockInv blake3 s dropped) (hreg : u.Registered s) (hm : m ∈ u.messages) :
    (Handler.dispatch blake3 s.server m).1 = s.server ∧
      (Handler.dispatch blake3 s.server m).2.released = false ∧
      u.Unlocks blake3 m (Handler.dispatch blake3 s.server m).2 := by
  rcases u.mem_messages.mp hm with ⟨-, rfl⟩ | ⟨rank, hr, rfl⟩ | rfl
  · exact ⟨rfl, rfl, .releaseFirst hm⟩
  · obtain ⟨inst, hinst, rfl, hmodel, hworld⟩ := hreg rank hr
    have hkeys := opKeys_eq h.chunkSize hmodel hr h.length
    have hread : Handler.dispatch blake3 s.server (u.retrieve inst.rank) = (s.server,
        .retrieveRead u.requestId (u.keysOf blake3 (u.retrieve inst.rank)) u.worldSize) := by
      rw [← hkeys, ← hworld]
      simp only [retrieve, Handler.dispatch, hinst]
    rw [hread]
    exact ⟨rfl, rfl, .read hr⟩
  · exact ⟨rfl, rfl, .releaseAll⟩

/-- The section of `release` takes exactly the keys of the message. -/
theorem release (h : u.UnlockInv blake3 s dropped) (hm : m ∈ u.messages) {ending : Bool}
    {reply : Reply} {keys : Option (List ChunkKey)}
    (hg : s.handlers.get? t = some (m, .release u.requestId keys ending reply))
    (hkeys : keys = some (u.keysOf blake3 m) ∨
      keys = none ∧ s.server.heldKeys u.requestId = u.keysOf blake3 m) :
    ∃ held, s.server.releaseHeld u.requestId keys =
        .returned { s.server with held } (u.keysOf blake3 m) ∧
      ({ s.server with held } : CacheServer).heldKeys u.requestId =
        (s.server.heldKeys u.requestId).filter (fun k => k ∉ u.keysOf blake3 m) := by
  have hheld := h.keysOf_held hm (h.wait_of_get hm hg rfl)
  obtain ⟨lost, hinv⟩ := h.inv
  obtain ⟨held, released, hrel, -⟩ := s.server.releaseHeld_returned u.requestId
    (Handler.nodup_of_wf (hinv.handlers _ _ _ hg))
  obtain ⟨hreleased, hleft⟩ := CacheServer.releaseHeld_spec hrel
  have hget : keys.getD (s.server.heldKeys u.requestId) = u.keysOf blake3 m := by
    rcases hkeys with rfl | ⟨rfl, heq⟩
    · rfl
    · exact heq
  rw [hget, List.filter_eq_self.mpr fun k hk => decide_eq_true (hheld k hk)] at hreleased
  subst hreleased
  exact ⟨held, hrel, hleft⟩

/-- The handlers of the request do what they should, and never fail. -/
theorem effect (h : u.UnlockInv blake3 s dropped) (hreg : u.Registered s) (hm : m ∈ u.messages)
    (hg : s.handlers.get? t = some (m, hd)) (hstep : hd.step blake3 s.server = some (srv', hd')) :
    u.Effect blake3 m hd hd' s.server srv' := by
  obtain ⟨lost, hinv⟩ := h.inv
  cases h.unlocks t m hd hg with
  | other hm' =>
    rw [touches_of_mem hm] at hm'
    cases hm'
  | lookup | done => cases hstep
  | start =>
    obtain ⟨hsrv, hrel, hunlocks⟩ := h.dispatch hreg hm
    have hdispatch : Handler.dispatch blake3 s.server m = (srv', hd') := Option.some.inj hstep
    rw [hdispatch] at hsrv hrel hunlocks
    refine .of_held hunlocks (congrArg _ hsrv) (congrArg _ hsrv) hrel (by rintro ⟨⟩)
      (Or.inl ⟨?_, rfl⟩)
    refine Bool.eq_false_iff.mpr fun hfin => ?_
    rw [Handler.released_of_finished hfin] at hrel
    cases hrel
  | releaseFirst =>
    cases hstep
    have hfirst : s.server.firstHeld u.requestId (u.first * u.worldSize) =
        u.keysOf blake3 u.free := h.take_held hm (h.wait_of_get hm hg rfl)
    rw [hfirst]
    exact .of_held (.release hm (by rintro ⟨⟩) (by rintro _ ⟨⟩)) rfl rfl rfl (by rintro ⟨⟩)
      (Or.inl ⟨rfl, rfl⟩)
  | @read rank hr =>
    have hheld := h.keysOf_held hm (h.wait_of_get hm hg rfl)
    obtain ⟨objs, hobjs⟩ := read_of_resident fun k hk =>
      (hinv.entry_of_held (hheld k hk)).imp fun _ he => he.1
    have hne : objs ≠ [] := by
      rintro rfl
      exact share_ne_nil hr h.length (List.eq_nil_of_length_eq_zero (read_ok hobjs).1)
    simp only [Handler.step, hobjs, u.worldSize_pos.ne', hne, if_false] at hstep
    cases hstep
    exact .of_held (.send hr objs) rfl rfl rfl (by rintro ⟨⟩) (Or.inl ⟨rfl, rfl⟩)
  | send hr objs =>
    cases hstep
    exact .of_held (.promote hr) rfl rfl rfl (by rintro ⟨⟩) (Or.inl ⟨rfl, rfl⟩)
  | promote hr =>
    cases hstep
    exact .of_held (.release hm (by rintro ⟨⟩) (by rintro _ ⟨⟩)) rfl rfl rfl (by rintro ⟨⟩)
      (Or.inl ⟨rfl, rfl⟩)
  | release _ hne hreply =>
    obtain ⟨held, hrel, hleft⟩ := h.release hm hg (Or.inl rfl)
    simp only [Handler.step, hrel] at hstep
    cases hstep
    have hunlocks : u.Unlocks blake3 m (.finishRead u.requestId (u.keysOf blake3 m) _ _) :=
      .finishRead hm hreply
    rw [decide_eq_false hne] at hunlocks
    refine ⟨hunlocks, ?_, fun r hr => ?_, rfl, Or.inl ⟨rfl, rfl⟩⟩
    · rw [hleft]
      simp [Handler.released]
    · exact (CacheServer.get?_held_releaseHeld hr.symm).1 _ hrel
  | releaseAll =>
    have hlast := h.held_last (h.ending t _ hg) (h.wait_of_get hm hg rfl)
    obtain ⟨held, hrel, hleft⟩ := h.release hm hg (Or.inr ⟨rfl, hlast⟩)
    simp only [Handler.step, hrel] at hstep
    cases hstep
    have hunlocks : u.Unlocks blake3 (.endSession u.requestId) (.finishRead u.requestId
        (u.keysOf blake3 (.endSession u.requestId)) _ (.bool true)) :=
      .finishRead hm (by rintro _ ⟨⟩)
    rw [decide_eq_true rfl] at hunlocks
    refine ⟨hunlocks, ?_, fun r hr => ?_, rfl, Or.inl ⟨rfl, rfl⟩⟩
    · rw [hleft]
      simp [Handler.released]
    · exact (CacheServer.get?_held_releaseHeld hr.symm).1 _ hrel
  | finishRead _ hreply =>
    have hfin : s.finishing (.handler t) = some (u.keysOf blake3 m) := by
      simp only [System.finishing, hg]
    obtain ⟨l1, hl1, -⟩ := hinv.finishRead_returned hfin
    simp only [Handler.step, hl1, decide_eq_true_eq] at hstep
    cases hstep
    split_ifs with hend
    · subst hend
      exact .of_held .pop rfl rfl rfl (fun _ => h.not_held hg rfl) (Or.inr ⟨rfl, rfl, rfl⟩)
    · exact .of_held (.done hm hreply) rfl rfl rfl (fun _ => h.not_held hg rfl)
        (Or.inr ⟨rfl, rfl, rfl⟩)
  | pop =>
    cases hstep
    have hnil : s.server.heldKeys u.requestId = [] := by
      refine h.held_nil fun m hm => ?_
      by_cases hend : m = .endSession u.requestId
      · subst hend
        exact ⟨t, _, hg, rfl⟩
      · obtain ⟨t', hd', hg', hrel, -⟩ := released_of_handled (h.ending t _ hg m hm hend)
        exact ⟨t', hd', hg', hrel⟩
    refine ⟨.done hm (by rintro _ ⟨⟩), ?_, fun r hr => ?_, rfl, Or.inl ⟨rfl, rfl⟩⟩
    · rw [hnil, CacheServer.heldKeys, CacheServer.popSession, OrderedDict.get?_erase_self]
      rfl
    · exact OrderedDict.get?_erase_ne _ hr.symm

/-! ## Every step -/

/-- A message comes in. -/
theorem recv (h : u.UnlockInv blake3 s dropped) (hok : u.InTurn s (.recv t m))
    (hd : s.Distinct blake3 (.recv t m)) (hs : s.step blake3 (.recv t m) = some s') :
    u.UnlockInv blake3 s' dropped := by
  obtain ⟨lost, hinv⟩ := h.inv
  obtain ⟨hinv', -, -⟩ := System.inv_step hinv hd hs
  have hhandled : ∀ m', s.Handled m' → s'.Handled m' := fun m' hm' => hm'.step hs
  obtain ⟨hnone, rfl⟩ := System.step_recv hs
  have hget : ∀ {t' m' hd'}, (s.handlers.set t (m, .start m)).get? t' = some (m', hd') →
      (t = t' ∧ m = m' ∧ .start m = hd') ∨ s.handlers.get? t' = some (m', hd') := fun hg =>
    (OrderedDict.eq_or_get?_of_set hg).imp_left fun ⟨ht, he⟩ => ⟨ht, Prod.mk.inj he⟩
  have hpast : ∀ {f : Handler → Bool}, f (.start m) = false → ∀ k,
      k ∈ u.past blake3 f { s with handlers := s.handlers.set t (m, .start m) } ↔
        k ∈ u.past blake3 f s := by
    intro f hf k
    rw [mem_past, mem_past]
    constructor
    · rintro ⟨t', m', hd', hg, hf', hk⟩
      rcases hget hg with ⟨-, -, rfl⟩ | hg
      · rw [hf] at hf'
        cases hf'
      · exact ⟨t', m', hd', hg, hf', hk⟩
    · rintro ⟨t', m', hd', hg, hf', hk⟩
      have hne : t ≠ t' := by
        rintro rfl
        rw [hnone] at hg
        cases hg
      exact ⟨t', m', hd', by rwa [OrderedDict.get?_set_ne _ _ hne], hf', hk⟩
  -- a message of the request was not received before
  have hfresh : ∀ {t' hd'}, m ∈ u.messages → s.handlers.get? t' ≠ some (m, hd') := by
    intro t' hd' hm hg
    exact (hok (touches_of_mem hm)).2.1 _ (OrderedDict.get?_eq_some_iff.mp hg) rfl
  refine ⟨⟨_, hinv'⟩, h.chunkSize, h.nodup, h.length, h.queued, ?_, ?_, ?_, ?_, h.dropped_nodup,
    fun k => (h.mem_dropped k).trans (hpast rfl k).symm⟩
  · intro t' m' hd' hg
    rcases hget hg with ⟨-, rfl, rfl⟩ | hg
    · rcases hm : m.touches u.requestId with _ | _
      · exact .other hm hm
      · exact .start (hok hm).1
    · exact h.unlocks t' m' hd' hg
  · intro t₁ t₂ m' hd₁ hd₂ hm hg₁ hg₂
    rcases hget hg₁ with ⟨rfl, rfl, -⟩ | hg₁ <;> rcases hget hg₂ with ⟨rfl, hm₂, -⟩ | hg₂
    · rfl
    · exact (hfresh hm hg₂).elim
    · subst hm₂
      exact (hfresh hm hg₁).elim
    · exact h.once t₁ t₂ m' hd₁ hd₂ hm hg₁ hg₂
  · intro t' hd' hg m' hm hne
    refine hhandled m' ?_
    rcases hget hg with ⟨-, rfl, -⟩ | hg
    · exact (hok (decide_eq_true rfl)).2.2 rfl m' hm hne
    · exact h.ending t' hd' hg m' hm hne
  · refine h.held.trans (List.filter_congr fun k _ => decide_eq_decide.mpr (not_congr ?_))
    exact (hpast rfl k).symm

/-- A handler makes its step. -/
theorem handler (h : u.UnlockInv blake3 s dropped) (hreg : u.Registered s)
    (hs : s.step blake3 (.handler t) = some s') :
    u.UnlockInv blake3 s' (dropped ++ s.drops u.requestId (.handler t)) := by
  obtain ⟨lost, hinv⟩ := h.inv
  obtain ⟨hinv', -, hsize⟩ := System.inv_step hinv (l := .handler t) trivial hs
  have hhandled : ∀ m', s.Handled m' → s'.Handled m' := fun m' hm' => hm'.step hs
  obtain ⟨m, hd, -, -, hg, -⟩ := System.step_handler hs
  obtain ⟨srv', hd', hstep, rfl⟩ := System.handler_step hg hs
  have hget : ∀ {t' m' hd₁}, (s.handlers.set t (m, hd')).get? t' = some (m', hd₁) →
      (t = t' ∧ m = m' ∧ hd' = hd₁) ∨ s.handlers.get? t' = some (m', hd₁) := fun hg' =>
    (OrderedDict.eq_or_get?_of_set hg').imp_left fun ⟨ht, he⟩ => ⟨ht, Prod.mk.inj he⟩
  have hmsg : ∀ {t' m' hd₁}, (s.handlers.set t (m, hd')).get? t' = some (m', hd₁) →
      ∃ hd₂, s.handlers.get? t' = some (m', hd₂) := by
    intro t' m' hd₁ hg'
    rcases hget hg' with ⟨rfl, rfl, -⟩ | hg'
    · exact ⟨hd, hg⟩
    · exact ⟨hd₁, hg'⟩
  have hdrops : s.drops u.requestId (.handler t) =
      if m.touches u.requestId then hd.dropping else [] := by
    rw [System.drops, hg, Option.elim_some]
  have hdoes := Handler.does_of_step hstep
  have hmem : ∀ {f : Handler → Bool}, (f hd = true → f hd' = true) → ∀ {k},
      k ∈ u.past blake3 f { s with server := srv', handlers := s.handlers.set t (m, hd') } ↔
        k ∈ u.past blake3 f s ∨ (f hd' = true ∧ k ∈ u.keysOf blake3 m) :=
    fun hmono => mem_past_set hg hmono rfl
  -- what the step does to the session, whether the message is of this request or not
  obtain ⟨hunlocks, hheld, hqueued, hdropped⟩ : u.Unlocks blake3 m hd' ∧
      srv'.heldKeys u.requestId = (s.server.heldKeys u.requestId).filter
        (fun k => ¬(hd'.released = true ∧ k ∈ u.keysOf blake3 m)) ∧
      u.requestId ∉ ↑(srv'.jobs.map Job.requestId) + s.worker.jobIds ∧
      (s.drops u.requestId (.handler t) = [] ∧
          (hd'.finished = hd.finished ∨ u.keysOf blake3 m = []) ∨
        hd.finished = false ∧ hd'.finished = true ∧
          s.drops u.requestId (.handler t) = u.keysOf blake3 m) := by
    rcases (h.unlocks t m hd hg).of_request with hm | ⟨hm, htouch⟩ | ⟨-, reply, rfl⟩
    · have heff := h.effect hreg hm hg hstep
      refine ⟨heff.unlocks, heff.held, by rw [heff.jobs]; exact h.queued, ?_⟩
      rw [hdrops, touches_of_mem hm, if_pos rfl]
      rcases heff.drops with ⟨heq, hnil⟩ | hdrop
      · exact Or.inl ⟨hnil, Or.inl heq⟩
      · exact Or.inr hdrop
    · obtain ⟨htouch', hheld, hjobs⟩ := Handler.touches_step htouch hdoes
      have hnil : u.keysOf blake3 m = [] := keysOf_of_touches hm
      refine ⟨.other hm htouch', ?_, fun hr => h.queued ?_, Or.inl ⟨?_, Or.inr hnil⟩⟩
      · rw [CacheServer.heldKeys, hheld, hnil]
        simp [CacheServer.heldKeys]
      · rw [System.queued]
        simp only [Multiset.mem_add, Multiset.mem_coe, List.mem_map] at hr ⊢
        refine hr.imp_left ?_
        rintro ⟨job, hj, heq⟩
        exact ⟨job, (hjobs job hj).resolve_right fun hne => hne heq, heq⟩
      · rw [hdrops, hm]
        rfl
    · cases hstep
  refine ⟨⟨_, hinv'⟩, hsize.trans h.chunkSize, h.nodup, h.length, hqueued, ?_, ?_, ?_, ?_, ?_, ?_⟩
  · intro t' m' hd₁ hg'
    rcases hget hg' with ⟨-, rfl, rfl⟩ | hg'
    · exact hunlocks
    · exact h.unlocks t' m' hd₁ hg'
  · intro t₁ t₂ m' hd₁ hd₂ hm hg₁ hg₂
    obtain ⟨_, hg₁⟩ := hmsg hg₁
    obtain ⟨_, hg₂⟩ := hmsg hg₂
    exact h.once t₁ t₂ m' _ _ hm hg₁ hg₂
  · intro t' hd₁ hg' m' hm hne
    obtain ⟨_, hg'⟩ := hmsg hg'
    exact hhandled m' (h.ending t' _ hg' m' hm hne)
  · rw [hheld, h.held, List.filter_filter]
    refine List.filter_congr fun k _ => ?_
    rw [← Bool.decide_and, decide_eq_decide, hmem fun hr => Handler.released_step hr hdoes]
    tauto
  · rcases hdropped with ⟨hnil, -⟩ | ⟨hfin, hfin', heq⟩
    · rw [hnil, List.append_nil]
      exact h.dropped_nodup
    · rw [heq, List.nodup_append']
      refine ⟨h.dropped_nodup, h.nodup.sublist (keysOf_sublist m), ?_⟩
      intro k hk hkm
      obtain ⟨t', m', hd₁, hg', hf, hk'⟩ := mem_past.mp ((h.mem_dropped k).mp hk)
      have hm := (h.unlocks t m hd hg).mem hkm
      obtain rfl := keysOf_unique h.nodup hm ((h.unlocks t' m' hd₁ hg').mem hk') hkm hk'
      obtain rfl := h.once t t' m hd hd₁ hm hg hg'
      rw [hg] at hg'
      cases hg'
      rw [hfin] at hf
      cases hf
  · intro k
    rw [List.mem_append, h.mem_dropped, hmem fun hf => Handler.finished_step hf hdoes]
    rcases hdropped with ⟨hnil, heq | hkeys⟩ | ⟨-, hfin', heq⟩
    · rw [hnil]
      constructor
      · rintro (hk | hk)
        · exact Or.inl hk
        · cases hk
      · rintro (hk | ⟨hf, hk⟩)
        · exact Or.inl hk
        · exact Or.inl (mem_past.mpr ⟨t, m, hd, hg, heq ▸ hf, hk⟩)
    · rw [hnil, hkeys]
      simp
    · rw [heq, hfin']
      simp

/-- Another thread makes its step. -/
theorem background {l : Label} (h : u.UnlockInv blake3 s dropped)
    (hl : ∀ t, l ≠ .handler t) (hrecv : ∀ t m, l ≠ .recv t m) (hd : s.Distinct blake3 l)
    (hs : s.step blake3 l = some s') : u.UnlockInv blake3 s' dropped := by
  obtain ⟨lost, hinv⟩ := h.inv
  obtain ⟨hinv', -, hsize⟩ := System.inv_step hinv hd hs
  obtain ⟨hheld, hqueued⟩ := System.held_background hs hl h.queued
  have hhandlers : s'.handlers = s.handlers := System.handlers_background hs hl hrecv
  have hpast : ∀ f, u.past blake3 f s' = u.past blake3 f s := fun f => by
    rw [past, hhandlers, past]
  refine ⟨⟨_, hinv'⟩, hsize.trans h.chunkSize, h.nodup, h.length, hqueued, ?_, ?_, ?_, ?_,
    h.dropped_nodup, ?_⟩
  · rw [hhandlers]
    exact h.unlocks
  · rw [hhandlers]
    exact h.once
  · rw [hhandlers]
    exact fun t hd hg m hm hne => (h.ending t hd hg m hm hne).step hs
  · rw [CacheServer.heldKeys, hheld, ← CacheServer.heldKeys, hpast]
    exact h.held
  · rw [hpast]
    exact h.mem_dropped

/-- One step of the process. -/
theorem step {l : Label} (h : u.UnlockInv blake3 s dropped) (hok : u.Unlocking blake3 s l)
    (hs : s.step blake3 l = some s') :
    u.UnlockInv blake3 s' (dropped ++ s.drops u.requestId l) := by
  obtain ⟨hd, hreg, hturn⟩ := hok
  cases l with
  | recv t m =>
    have h' := h.recv hturn hd hs
    rwa [← List.append_nil dropped] at h'
  | handler t => exact h.handler hreg hs
  | worker | writeback | evictor | l2 =>
    have h' := h.background (by simp) (by simp) hd hs
    rwa [← List.append_nil dropped] at h'

end UnlockInv

/-! ## Runs -/

/-- A resolved session has everything to unlock. -/
theorem Resolved.unlockInv (h : u.Resolved blake3 s) (hreach : s.Reachable blake3) :
    u.UnlockInv blake3 s [] := by
  have hlook : ∀ {t m hd}, s.handlers.get? t = some (m, hd) → m.touches u.requestId = true →
      (∃ p, m = .lookup p) ∧ ∃ reply, hd = .done reply := by
    intro t m hd hg hm
    obtain ⟨hup, hdone⟩ := h.messages _ (OrderedDict.get?_eq_some_iff.mp hg) hm
    constructor
    · cases m with
      | lookup p => exact ⟨p, rfl⟩
      | _ => cases hup
    · cases hd with
      | done reply => exact ⟨reply, rfl⟩
      | _ => cases hdone
  have hnone : ∀ {t m hd}, m ∈ u.messages → s.handlers.get? t ≠ some (m, hd) := by
    intro t m hd hm hg
    obtain ⟨⟨p, rfl⟩, -⟩ := hlook hg (touches_of_mem hm)
    rcases u.mem_messages.mp hm with ⟨-, heq⟩ | ⟨rank, -, heq⟩ | heq <;> cases heq
  have hunlocks : ∀ t m hd, s.handlers.get? t = some (m, hd) → u.Unlocks blake3 m hd := by
    intro t m hd hg
    rcases hm : m.touches u.requestId with _ | _
    · exact .other hm (h.others _ (OrderedDict.get?_eq_some_iff.mp hg) hm)
    · obtain ⟨⟨p, rfl⟩, reply, rfl⟩ := hlook hg hm
      exact .lookup p reply
  have hpast : ∀ f k, k ∉ u.past blake3 f s := by
    intro f k hk
    obtain ⟨t, m, hd, hg, -, hk⟩ := mem_past.mp hk
    exact hnone ((hunlocks t m hd hg).mem hk) hg
  have hend : Req.endSession u.requestId ∈ u.messages := u.mem_messages.mpr (Or.inr (Or.inr rfl))
  refine ⟨hreach.inv, h.chunkSize, ?_, h.length, h.queued, hunlocks, ?_, ?_, ?_, List.nodup_nil, ?_⟩
  · rw [← h.held]
    exact s.server.nodup_heldKeys _
  · exact fun t t' m hd hd' hm hg _ => (hnone hm hg).elim
  · exact fun t hd hg => (hnone hend hg).elim
  · rw [h.held, eq_comm, List.filter_eq_self]
    exact fun k _ => decide_eq_true (hpast _ k)
  · exact fun k => iff_of_false List.not_mem_nil (hpast _ k)

variable {ls : List Label}

theorem UnlockInv.of_run (h : u.UnlockInv blake3 s [])
    (hrun : Run (System.dropStep blake3 u.requestId) (fun p l => u.Unlocking blake3 p.1 l) (s, [])
      ls (s', dropped)) : u.UnlockInv blake3 s' dropped := by
  refine hrun.invariant (fun p => u.UnlockInv blake3 p.1 p.2) h ?_
  rintro ⟨s, dropped⟩ l ⟨s', dropped'⟩ h hok hs
  obtain ⟨s₁, hs₁, heq⟩ := Option.map_eq_some_iff.mp hs
  cases heq
  exact h.step hok hs₁

namespace UnlockInv

variable {t : ℕ} {m : Req} {hd : Handler}

/-- What a RETRIEVE reads is held until its own `post_send`. -/
theorem reading_held (h : u.UnlockInv blake3 s dropped) (hg : s.handlers.get? t = some (m, hd)) :
    ∀ k ∈ hd.reading u.requestId, k ∈ s.server.heldKeys u.requestId := by
  have hkeys : ∀ {keys : List ChunkKey}, hd.reading u.requestId = keys → m ∈ u.messages →
      hd.released = false → keys = u.keysOf blake3 m →
      ∀ k ∈ keys, k ∈ s.server.heldKeys u.requestId := by
    rintro keys - hm hrel rfl
    exact h.keysOf_held hm (h.wait_of_get hm hg hrel)
  cases h.unlocks t m hd hg with
  | other hm h =>
    cases hd with
    | retrieveRead | retrieveSend | retrievePromote =>
      simp only [Handler.reading, if_neg (of_decide_eq_false h)]
      exact nofun
    | release r keys ending reply =>
      have hne : r ≠ u.requestId := of_decide_eq_false h
      cases keys <;> cases ending <;> cases reply <;>
        simp [Handler.reading, hne]
    | _ => exact nofun
  | read hr | send hr | promote hr =>
    have hm := u.mem_messages.mpr (Or.inr (Or.inl ⟨_, hr, rfl⟩))
    simp only [Handler.reading, if_true] at hkeys ⊢
    exact hkeys rfl hm rfl rfl
  | @release _ hm hne reply hreply =>
    cases reply with
    | chunks =>
      simp only [Handler.reading, if_true] at hkeys ⊢
      exact hkeys rfl hm rfl rfl
    | _ => exact nofun
  | _ => exact nofun

/-- No handler of the request fails. -/
theorem not_error (h : u.UnlockInv blake3 s dropped) (hg : s.handlers.get? t = some (m, hd))
    (hm : m ∈ u.messages) (e : Exc) : hd ≠ .done (.error e) := by
  rintro rfl
  cases h.unlocks t m _ hg with
  | other hm' =>
    rw [touches_of_mem hm] at hm'
    cases hm'
  | lookup p =>
    rcases u.mem_messages.mp hm with ⟨-, heq⟩ | ⟨rank, -, heq⟩ | heq <;> cases heq
  | done _ hreply => exact hreply e rfl

/-- What was dropped is not held. -/
theorem dropped_spec (h : u.UnlockInv blake3 s dropped) :
    ∀ k ∈ dropped, k ∈ u.keys blake3 ∧ k ∉ s.server.heldKeys u.requestId := by
  intro k hk
  obtain ⟨t, m, hd, hg, hfin, hkm⟩ := mem_past.mp ((h.mem_dropped k).mp hk)
  exact ⟨(keysOf_sublist m).mem hkm, h.not_held hg (Handler.released_of_finished hfin) k hkm⟩

/-- When all messages but END_SESSION were handled, all keys of whole chunks were dropped. -/
theorem dropped_perm (h : u.UnlockInv blake3 s dropped)
    (hall : ∀ m ∈ u.messages, m ≠ .endSession u.requestId → s.Handled m)
    (hwait : ∀ t hd, s.handlers.get? t ≠ some (.endSession u.requestId, hd)) :
    dropped.Perm ((u.keys blake3).take (u.chunks * u.worldSize)) := by
  rw [List.perm_ext_iff_of_nodup h.dropped_nodup (h.nodup.sublist (List.take_sublist _ _))]
  intro k
  rw [h.mem_dropped, mem_past, mem_take_iff h.nodup]
  constructor
  · rintro ⟨t, m, hd, hg, -, hk⟩
    exact ⟨m, (h.unlocks t m hd hg).mem hk, fun heq => hwait t hd (heq ▸ hg), hk⟩
  · rintro ⟨m, hm, hne, hk⟩
    obtain ⟨t, hd, hg, -, hfin⟩ := released_of_handled (hall m hm hne)
    exact ⟨t, m, hd, hg, hfin, hk⟩

/-- When END_SESSION was handled too, all keys were. -/
theorem dropped_all (h : u.UnlockInv blake3 s dropped)
    (hend : s.Handled (.endSession u.requestId)) :
    s.server.heldKeys u.requestId = [] ∧ dropped.Perm (u.keys blake3) := by
  have hall : ∀ m ∈ u.messages, ∃ t hd, s.handlers.get? t = some (m, hd) ∧
      hd.released = true ∧ hd.finished = true := by
    intro m hm
    by_cases hne : m = .endSession u.requestId
    · exact released_of_handled (hne ▸ hend)
    · obtain ⟨t, hd, hg, -⟩ := released_of_handled hend
      exact released_of_handled (h.ending t hd hg m hm hne)
  constructor
  · refine h.held_nil fun m hm => ?_
    obtain ⟨t, hd, hg, hrel, -⟩ := hall m hm
    exact ⟨t, hd, hg, hrel⟩
  · rw [List.perm_ext_iff_of_nodup h.dropped_nodup h.nodup]
    intro k
    rw [h.mem_dropped, mem_past]
    constructor
    · rintro ⟨t, m, hd, -, -, hk⟩
      exact (keysOf_sublist m).mem hk
    · intro hk
      obtain ⟨m, hm, hkm⟩ := exists_keysOf hk
      obtain ⟨t, hd, hg, -, hfin⟩ := hall m hm
      exact ⟨t, m, hd, hg, hfin, hkm⟩

end UnlockInv

/-- The keys of the incomplete last chunk. -/
theorem length_last (hlen : (u.keys blake3).length = u.hits) :
    ((u.keys blake3).drop (u.chunks * u.worldSize)).length = u.hits % u.worldSize := by
  rw [List.length_drop, hlen, chunks, Nat.mod_eq_sub_div_mul]

/-- The step in which the prefetch worker publishes the hits of the request resolves it. -/
theorem resolved_of_publish (h : s.Reachable blake3) {job : Job} {l1Keys loadedKeys : List ChunkKey}
    (hw : s.worker = .resolve job l1Keys loadedKeys) (hid : job.requestId = u.requestId)
    (hlive : s.server.hits.contains job.requestId = true)
    (hkeys : job.keys.take u.hits = u.keys blake3)
    (hhits : l1Keys.length + loadedKeys.length = u.hits)
    (hsize : s.server.chunkSize = u.connector.chunkSize)
    (hmessages : ∀ q ∈ s.handlers.items, q.2.1.touches u.requestId = true →
      q.2.1.looksUp u.requestId = true ∧ q.2.2.isDone = true)
    (hothers : ∀ q ∈ s.handlers.items, q.2.1.touches u.requestId = false →
      q.2.2.touches u.requestId = false)
    (hjobs : ∀ job ∈ s.server.jobs, job.requestId ≠ u.requestId) :
    ∃ s', s.step blake3 .worker = some s' ∧ u.Resolved blake3 s' := by
  obtain ⟨lost, hinv⟩ := h.inv
  have hwf := hinv.worker
  rw [hw] at hwf
  have hstep : s.step blake3 .worker = some { s with
      server := s.server.publish job.requestId l1Keys loadedKeys
      worker := .idle } := by
    simp only [System.step, hw, Worker.step, hlive, if_true, Option.map_some]
  obtain ⟨s', hs, -, -, hres, hheld⟩ := hinv.publish hw hlive
  rw [hstep] at hs
  cases hs
  refine ⟨_, hstep, hsize, ⟨_, _, hid ▸ hres, hhits⟩, ?_, ?_, hmessages, hothers, ?_⟩
  · rw [← hid, hheld, hhits, hkeys]
  · rw [← hkeys, List.length_take, Nat.min_eq_left]
    rw [← hhits, ← List.length_append]
    exact hwf.2.length_le
  · rw [System.queued, Worker.jobIds, add_zero, Multiset.mem_coe, List.mem_map]
    rintro ⟨job', hj, heq⟩
    exact hjobs job' hj heq

/-- Progressive unlock does not depend on the order. In every run from a state in which the
session of the request is resolved, in which the FREE_LOOKUP_LOCKS of its connector and one
RETRIEVE of each rank come in, and END_SESSION after them :
the keys that a RETRIEVE has read are held until its own `post_send`; no handler of the request
fails; no key is dropped twice, and what was dropped is not held; a step of these handlers
leaves the other sessions alone and lowers the read counts by what it drops.
When all but END_SESSION were handled, the keys of the incomplete last chunk are held and the
others were dropped; END_SESSION drops exactly those. -/
theorem progressive_unlock (h : s.Reachable blake3) (hres : u.Resolved blake3 s)
    (hrun : Run (System.dropStep blake3 u.requestId) (fun p l => u.Unlocking blake3 p.1 l) (s, [])
      ls (s', dropped)) :
    (∀ t m hd, s'.handlers.get? t = some (m, hd) →
      ∀ k ∈ hd.reading u.requestId, k ∈ s'.server.heldKeys u.requestId) ∧
    (∀ t m hd, s'.handlers.get? t = some (m, hd) → m ∈ u.messages → ∀ e, hd ≠ .done (.error e)) ∧
    (dropped.Nodup ∧ ∀ k ∈ dropped, k ∈ u.keys blake3 ∧ k ∉ s'.server.heldKeys u.requestId) ∧
    (∀ t m hd s'', s'.handlers.get? t = some (m, hd) → m ∈ u.messages → u.Registered s' →
      s'.step blake3 (.handler t) = some s'' →
      (∀ r, r ≠ u.requestId → s''.server.held.get? r = s'.server.held.get? r) ∧
      ∀ k, s''.readCount k + (s'.drops u.requestId (.handler t)).count k = s'.readCount k) ∧
    ((∀ m ∈ u.messages, m ≠ .endSession u.requestId → s'.Handled m) →
      (∀ t hd, s'.handlers.get? t ≠ some (.endSession u.requestId, hd)) →
      s'.server.heldKeys u.requestId = (u.keys blake3).drop (u.chunks * u.worldSize) ∧
      (s'.server.heldKeys u.requestId).length = u.hits % u.worldSize ∧
      dropped.Perm ((u.keys blake3).take (u.chunks * u.worldSize))) ∧
    (∀ t r released ending reply,
      s'.handlers.get? t = some (.endSession u.requestId, .finishRead r released ending reply) →
      released = (u.keys blake3).drop (u.chunks * u.worldSize)) ∧
    (s'.Handled (.endSession u.requestId) →
      s'.server.heldKeys u.requestId = [] ∧ dropped.Perm (u.keys blake3)) := by
  have hinv := (hres.unlockInv h).of_run hrun
  have hend : Req.endSession u.requestId ∈ u.messages := u.mem_messages.mpr (Or.inr (Or.inr rfl))
  refine ⟨fun t m hd hg => hinv.reading_held hg, fun t m hd hg hm => hinv.not_error hg hm,
    ⟨hinv.dropped_nodup, hinv.dropped_spec⟩, ?_, fun hall hwait => ?_, ?_, hinv.dropped_all⟩
  · intro t m hd s'' hg hm hreg hs
    obtain ⟨lost, hl⟩ := hinv.inv
    constructor
    · obtain ⟨srv', hd', hstep, rfl⟩ := System.handler_step hg hs
      exact (hinv.effect hreg hm hg hstep).others
    · intro k
      rw [System.drops, hg, Option.elim_some, touches_of_mem hm, if_pos rfl]
      exact hl.readCount_handler hg hs k
  · have hlast := hinv.held_last hall fun t hd hg => (hwait t hd hg).elim
    rw [keysOf_endSession] at hlast
    refine ⟨hlast, ?_, hinv.dropped_perm hall hwait⟩
    rw [hlast, length_last hinv.length]
  · intro t r released ending reply hg
    rw [← keysOf_endSession]
    cases hinv.unlocks _ _ _ hg with
    | other hm =>
      rw [touches_of_mem hend] at hm
      cases hm
    | finishRead => rfl

/-! ## Three handlers at once -/

/-- Request `b` of a deployment of two ranks, which has five keys : vLLM has computed the first
of its two hit chunks. -/
def sample : LoadRequest where
  connector := {
    chunkSize := 1
    blockSize := 1
    model := "m"
    worldSize := 2
    trackers := .set .empty "b" { tokenIds := [1, 2, 3], lmcacheHits := 2, vllmHits := 1 }
    chunkSize_pos := Nat.one_pos
    blockSize_pos := Nat.one_pos
    whole := rfl }
  requestId := "b"
  promptTokenIds := [1, 2, 3]
  tracker := { tokenIds := [1, 2, 3], lmcacheHits := 2, vllmHits := 1 }
  groupBlocks := [0, 1, 2]
  numExternalTokens := 1
  engine rank := 7 + rank
  hits := 5
  known := by decide
  fresh := rfl
  loads := Nat.one_pos
  prompt := List.prefix_rfl
  reported := rfl
  lt := by decide
  engines a b h := by simpa using h

/-- Rank 0 stores three chunks and rank 1 two, and the lookup of `b` is resolved. -/
def sampleResolved : Option System :=
  replay (System.step System.sampleDigest) System.distinct (.new 1 10 (fun _ => 0) 0)
    [.recv 0 (.registerKvCache ⟨7, "m", 0, 2, 1, 2⟩), .handler 0,
      .recv 1 (.registerKvCache ⟨8, "m", 1, 2, 1, 2⟩), .handler 1,
      .recv 2 (.store ⟨"a", 7, ⟨[1, 2, 3], [0, 1, 2], 0, 3, 0⟩, [[1, 2], [3, 4], [5, 6]]⟩),
      .handler 2, .handler 2, .handler 2, .handler 2, .handler 2, .handler 2,
      .recv 3 (.store ⟨"a", 8, ⟨[1, 2], [0, 1], 0, 2, 0⟩, [[7, 8], [9, 0]]⟩),
      .handler 3, .handler 3, .handler 3, .handler 3, .handler 3,
      .recv 4 (.lookup ⟨"b", [1, 2, 3], "m", 2⟩), .handler 4, .handler 4, .handler 4,
      .worker, .worker, .worker, .worker, .worker, .worker, .worker, .worker]

/-- Its FREE_LOOKUP_LOCKS and two RETRIEVEs, step by step beside each other. -/
def sampleUnlock (s : System) : Option (System × List ChunkKey) :=
  replay (System.dropStep System.sampleDigest "b")
    (fun p l => decide (sample.Unlocking System.sampleDigest p.1 l)) (s, [])
    [.recv 5 sample.free, .recv 6 (sample.retrieve 0), .recv 7 (sample.retrieve 1),
      .handler 6, .handler 5, .handler 6, .handler 7, .handler 7, .handler 7, .handler 6,
      .handler 7, .handler 7, .handler 6, .handler 6, .handler 5, .handler 7, .handler 5,
      .handler 6, .handler 5]

/-- The session of `b` as it was resolved, and everything but END_SESSION handled. -/
def sampleChecks (s s' : System) : Bool :=
  decide (s.server.chunkSize = 1 ∧ s.server.hits.get? "b" = some (some (5, 0)) ∧
    s.server.heldKeys "b" = sample.keys System.sampleDigest ∧ "b" ∉ s.queued) &&
  decide ((∀ q ∈ s.handlers.items, q.2.1.touches "b" = true →
      q.2.1.looksUp "b" = true ∧ q.2.2.isDone = true) ∧
    ∀ q ∈ s.handlers.items, q.2.1.touches "b" = false → q.2.2.touches "b" = false) &&
  decide ((∀ m ∈ sample.messages, m ≠ .endSession "b" → s'.Handled m) ∧
    ∀ q ∈ s'.handlers.items, q.2.1 ≠ .endSession "b")

/-- The first chunk was freed, each rank has its share of the second, and the session still
holds the one key of the third. -/
theorem progressive_unlock_sample : ∃ s s' dropped, sampleResolved = some s ∧
    sampleUnlock s = some (s', dropped) ∧
    s'.server.heldKeys "b" = [⟨hashOne System.sampleDigest
      (hashOne System.sampleDigest (hashOne System.sampleDigest
        (noneHash System.sampleDigest) [1]) [2]) [3], "m", 0⟩] ∧
    dropped.Perm ((sample.keys System.sampleDigest).take 4) := by
  have hshape : (sampleResolved.bind fun s => (sampleUnlock s).map fun p =>
      sampleChecks s p.1) = some true := by decide
  obtain ⟨s, hs, hshape⟩ := Option.bind_eq_some_iff.mp hshape
  obtain ⟨⟨s', dropped⟩, hunlock, hshape⟩ := Option.map_eq_some_iff.mp hshape
  simp only [sampleChecks, Bool.and_eq_true, decide_eq_true_eq] at hshape
  obtain ⟨⟨⟨hsize, hhits, hheld, hqueued⟩, hmessages, hothers⟩, hall, hend⟩ := hshape
  have hreach : s.Reachable System.sampleDigest :=
    ⟨1, 10, _, 0, _, (run_of_replay hs).mono fun _ _ hd => of_decide_eq_true hd⟩
  have hres : sample.Resolved System.sampleDigest s :=
    ⟨hsize, ⟨5, 0, hhits, rfl⟩, hheld, by decide, hmessages, hothers, hqueued⟩
  have hrun : Run (System.dropStep System.sampleDigest "b")
      (fun p l => sample.Unlocking System.sampleDigest p.1 l) (s, []) _ (s', dropped) :=
    (run_of_replay hunlock).mono fun _ _ hok => of_decide_eq_true hok
  obtain ⟨-, -, -, -, hfinal, -⟩ := progressive_unlock hreach hres hrun
  obtain ⟨hlast, -, hperm⟩ := hfinal hall fun t hd hg =>
    hend _ (OrderedDict.get?_eq_some_iff.mp hg) rfl
  refine ⟨s, s', dropped, hs, hunlock, ?_, hperm⟩
  have hkeys : (sample.keys System.sampleDigest).drop (sample.chunks * sample.worldSize) =
      [⟨hashOne System.sampleDigest (hashOne System.sampleDigest (hashOne System.sampleDigest
        (noneHash System.sampleDigest) [1]) [2]) [3], "m", 0⟩] := by decide
  exact hlast.trans hkeys

end LoadRequest

end MiniLlmcache
