import MiniLlmcache.OrderedDict
import MiniLlmcache.Protocol
import MiniLlmcache.Runs

/-!
# Request and reply

`mq.py` : any number of clients, each with its own uid counter, and one server. A `submit` draws a
uid, registers its future in `pending` and only then queues the request; the I/O thread of the
client sends what is queued, and for a reply pops the future and sets it. The server runs each
request in a thread of its own, which replies to the identity the request came from, and may reply
once more with an exception when something fails after its first reply. A request that it cannot
unpickle it answers without a uid.

`R` are the requests with their payloads, `V` the values a handler may return, `E` exceptions.
Messages arrive intact and in any order, and a reply unpickles at the client. `served` is a log of
the replies that handler threads gave, with the request they were handling.

`Client.Known` is what carries the proof : a request that is out has its future registered, popped
or resolved. So a reply with a uid that finds no future has a resolved one (`replies_matched`). A
reply without one finds none, and its future is never resolved (`unpickled_reply_dropped`).
-/

namespace MiniLlmcache

namespace MQ

variable {R V E : Type}

/-- The pickled `(uid, req, payload)`. -/
structure Request (R : Type) where
  uid : ℕ
  req : R
deriving DecidableEq

/-- What a future is resolved with : a value or `None`, chunk bytes, or an exception. -/
inductive Reply (V E : Type)
  | value (v : Option V)
  | chunks (first : Bytes) (rest : List Bytes)
  | exception (e : E)
deriving DecidableEq

def Reply.isException : Reply V E → Bool
  | .exception _ => true
  | _ => false

/-- The frames of a reply : the pickled `(uid, ok, value)`, and chunk frames. The uid is `None` when
the request did not unpickle. -/
structure Frames (V E : Type) where
  uid : Option ℕ
  result : Except E (Option V)
  rest : List Bytes

/-- The frames `MQServer.handle` makes of a result. -/
def Reply.frames (uid : Option ℕ) : Reply V E → Frames V E
  | .value v => ⟨uid, .ok v, []⟩
  | .chunks first rest => ⟨uid, .ok none, first :: rest⟩
  | .exception e => ⟨uid, .error e, []⟩

/-- What `MQClient.on_recv` makes of the frames. -/
def Frames.reply (m : Frames V E) : Reply V E :=
  match m.result, m.rest with
  | .ok none, first :: rest => .chunks first rest
  | .ok v, _ => .value v
  | .error e, _ => .exception e

@[simp] theorem reply_frames (uid : Option ℕ) : ∀ r : Reply V E, (r.frames uid).reply = r
  | .value none => rfl
  | .value (some _) => rfl
  | .chunks _ _ => rfl
  | .exception _ => rfl

@[simp] theorem uid_frames (uid : Option ℕ) : ∀ r : Reply V E, (r.frames uid).uid = uid
  | .value _ => rfl
  | .chunks _ _ => rfl
  | .exception _ => rfl

/-! ## Clients -/

/-- A future, with the request it was created for and what was set on it. -/
structure Future (R V E : Type) where
  request : Request R
  results : List (Reply V E)

/-- `MQClient`. `drawn` and `registered` are the calls of `submit` before and after they have put
their future into `pending`; `receiving` is the future that `on_recv` has popped, with its reply. -/
structure Client (R V E : Type) where
  uidCounter : ℕ
  futures : List (Future R V E)
  drawn : List (Request R × ℕ)
  registered : List (Request R)
  pending : OrderedDict ℕ ℕ
  sendQueue : List (Request R)
  receiving : Option (ℕ × Reply V E)

namespace Client

def new : Client R V E := ⟨0, [], [], [], .empty, [], none⟩

/-- `uid, fut = next(self.uid_counter), Future()`. -/
def submit (cl : Client R V E) (req : R) : Client R V E :=
  { cl with
    uidCounter := cl.uidCounter + 1
    futures := cl.futures ++ [⟨⟨cl.uidCounter, req⟩, []⟩]
    drawn := cl.drawn ++ [(⟨cl.uidCounter, req⟩, cl.futures.length)] }

/-- `self.pending[uid] = fut`. -/
def register (cl : Client R V E) (n : ℕ) : Option (Client R V E) :=
  cl.drawn[n]?.map fun p =>
    { cl with
      drawn := cl.drawn.eraseIdx n
      pending := cl.pending.set p.1.uid p.2
      registered := cl.registered ++ [p.1] }

/-- `self.send([...])`. -/
def enqueue (cl : Client R V E) (n : ℕ) : Option (Client R V E) :=
  cl.registered[n]?.map fun q =>
    { cl with registered := cl.registered.eraseIdx n, sendQueue := cl.sendQueue ++ [q] }

/-- The I/O thread sends the first of the queue. -/
def flush (cl : Client R V E) : Option (Request R × Client R V E) :=
  match cl.receiving, cl.sendQueue with
  | none, q :: queue => some (q, { cl with sendQueue := queue })
  | _, _ => none

/-- `on_recv` up to `self.pending.pop`; an unknown reply is ignored. -/
def onRecv (cl : Client R V E) (m : Frames V E) : Option (Client R V E) :=
  match cl.receiving, m.uid with
  | some _, _ => none
  | none, none => some cl
  | none, some uid =>
    match cl.pending.get? uid with
    | none => some cl
    | some fut => some { cl with pending := cl.pending.erase uid, receiving := some (fut, m.reply) }

/-- `fut.set_result(value)`, or `fut.set_exception(value)`. -/
def resolve (cl : Client R V E) : Option (Client R V E) :=
  cl.receiving.map fun p =>
    { cl with
      futures := cl.futures.modify p.1 fun f => { f with results := f.results ++ [p.2] }
      receiving := none }

end Client

/-! ## The server -/

/-- A thread in `MQServer.handle`; `replied` once it has sent or queued the result. -/
structure Handler (R : Type) where
  identity : ℕ
  request : Request R
  replied : Bool

end MQ

open MQ in
/-- The clients, the server and what is under way between them. -/
structure MQ (R V E : Type) where
  clients : ℕ → Client R V E
  toServer : List (ℕ × Request R)
  handlers : List (Handler R)
  serverQueue : List (ℕ × Frames V E)
  toClient : List (ℕ × Frames V E)
  served : List (ℕ × Request R × Reply V E)

namespace MQ

variable {R V E : Type}

def new : MQ R V E := ⟨fun _ => .new, [], [], [], [], []⟩

inductive Label (R V E : Type)
  | submit (c : ℕ) (req : R)
  | register (c n : ℕ)
  | enqueue (c n : ℕ)
  | flush (c : ℕ)
  /-- `MQServer.on_recv`. -/
  | spawn (n : ℕ)
  /-- The request does not unpickle : the thread replies with that exception. -/
  | reject (t : ℕ) (e : E)
  /-- The handler returns or raises, and its thread replies. -/
  | handle (t : ℕ) (r : Reply V E)
  /-- After the result is out, `post_send` raises, or the wakeup does. -/
  | fail (t : ℕ) (e : E)
  /-- The thread ends; an exception that cannot be sent ends it without a reply. -/
  | finish (t : ℕ)
  | serverFlush
  /-- `MQClient.on_recv`. -/
  | recv (n : ℕ)
  | resolve (c : ℕ)

def setClient (s : MQ R V E) (c : ℕ) (cl : Client R V E) : MQ R V E :=
  { s with clients := Function.update s.clients c cl }

/-- Thread `h` replies : chunks it sends itself, the rest goes through the queue. -/
def sendReply (s : MQ R V E) (h : Handler R) (r : Reply V E) : MQ R V E :=
  let message := (h.identity, r.frames (some h.request.uid))
  let s := { s with served := (h.identity, h.request, r) :: s.served }
  match r with
  | .chunks _ _ => { s with toClient := s.toClient ++ [message] }
  | _ => { s with serverQueue := s.serverQueue ++ [message] }

def step (s : MQ R V E) : Label R V E → Option (MQ R V E)
  | .submit c req => some (s.setClient c ((s.clients c).submit req))
  | .register c n => ((s.clients c).register n).map (s.setClient c)
  | .enqueue c n => ((s.clients c).enqueue n).map (s.setClient c)
  | .flush c => (s.clients c).flush.map fun p =>
    { s.setClient c p.2 with toServer := s.toServer ++ [(c, p.1)] }
  | .spawn n => s.toServer[n]?.map fun p =>
    { s with toServer := s.toServer.eraseIdx n, handlers := s.handlers ++ [⟨p.1, p.2, false⟩] }
  | .reject t e => s.handlers[t]?.bind fun h =>
    if h.replied then none
    else some { s with
      handlers := s.handlers.eraseIdx t
      serverQueue := s.serverQueue ++ [(h.identity, (Reply.exception e).frames none)] }
  | .handle t r => s.handlers[t]?.bind fun h =>
    if h.replied then none
    else if r.isException then some (sendReply { s with handlers := s.handlers.eraseIdx t } h r)
    else some (sendReply { s with handlers := s.handlers.set t { h with replied := true } } h r)
  | .fail t e => s.handlers[t]?.bind fun h =>
    if h.replied then
      some (sendReply { s with handlers := s.handlers.eraseIdx t } h (.exception e))
    else none
  | .finish t => s.handlers[t]?.map fun _ => { s with handlers := s.handlers.eraseIdx t }
  | .serverFlush =>
    match s.serverQueue with
    | [] => none
    | m :: queue => some { s with serverQueue := queue, toClient := s.toClient ++ [m] }
  | .recv n => s.toClient[n]?.bind fun p =>
    ((s.clients p.1).onRecv p.2).map fun cl =>
      { s.setClient p.1 cl with toClient := s.toClient.eraseIdx n }
  | .resolve c => (s.clients c).resolve.map (s.setClient c)

/-! ## What a client knows -/

namespace Client

variable {cl cl' : Client R V E} {Served Served' : Request R → Reply V E → Prop}

/-- The future of `q` is registered, popped or resolved. -/
def Known (cl : Client R V E) (q : Request R) : Prop :=
  ∃ f, cl.futures[q.uid]? = some f ∧ f.request = q ∧
    (cl.pending.get? q.uid = some q.uid ∨ (∃ r, cl.receiving = some (q.uid, r)) ∨ f.results ≠ [])

/-- Future `i` is yet to be resolved, and was created for a request of uid `i`. -/
def Open (cl : Client R V E) (i : ℕ) : Prop :=
  ∃ f, cl.futures[i]? = some f ∧ f.results = []

/-- Every open future is in one place, and what was set on a future was served for its request. -/
structure Inv (cl : Client R V E) (Served : Request R → Reply V E → Prop) : Prop where
  counter : cl.futures.length = cl.uidCounter
  uid : ∀ (i : ℕ) (f : Future R V E), cl.futures[i]? = some f → f.request.uid = i
  once : ∀ (i : ℕ) (f : Future R V E), cl.futures[i]? = some f → f.results.length ≤ 1
  served : ∀ (i : ℕ) (f : Future R V E), cl.futures[i]? = some f →
    ∀ r ∈ f.results, Served f.request r
  drawn : ∀ p ∈ cl.drawn, p.1.uid = p.2 ∧
    (∃ f : Future R V E, cl.futures[p.2]? = some f ∧ f.request = p.1 ∧ f.results = []) ∧
    cl.pending.get? p.2 = none ∧ ∀ r, cl.receiving ≠ some (p.2, r)
  nodup : (cl.drawn.map Prod.snd).Nodup
  registered : ∀ q ∈ cl.registered, cl.Known q
  pending : ∀ u i, cl.pending.get? u = some i →
    i = u ∧ cl.Open u ∧ ∀ r, cl.receiving ≠ some (u, r)
  queued : ∀ q ∈ cl.sendQueue, cl.Known q
  receiving : ∀ i r, cl.receiving = some (i, r) → cl.Open i ∧
    ∀ f : Future R V E, cl.futures[i]? = some f → Served f.request r

theorem inv_new : (new : Client R V E).Inv Served := by
  constructor <;> simp [new]

theorem Inv.mono (h : cl.Inv Served) (hs : ∀ q r, Served q r → Served' q r) : cl.Inv Served' where
  counter := h.counter
  uid := h.uid
  once := h.once
  served i f hf r hr := hs _ _ (h.served i f hf r hr)
  drawn := h.drawn
  nodup := h.nodup
  registered := h.registered
  pending := h.pending
  queued := h.queued
  receiving i r hr := ⟨(h.receiving i r hr).1, fun f hf => hs _ _ ((h.receiving i r hr).2 f hf)⟩

/-- A step of the client that keeps the invariant and what is known. -/
def Steps (Served : Request R → Reply V E → Prop) (cl cl' : Client R V E) : Prop :=
  cl'.Inv Served ∧ ∀ q, cl.Known q → cl'.Known q

theorem Inv.submit (h : cl.Inv Served) (req : R) : Steps Served cl (cl.submit req) := by
  set new : Future R V E := ⟨⟨cl.uidCounter, req⟩, []⟩ with hnew
  have hfutures : (cl.submit req).futures = cl.futures ++ [new] := rfl
  have hlt : ∀ {i} {f : Future R V E}, cl.futures[i]? = some f → i < cl.futures.length :=
    fun hf => (List.getElem?_eq_some_iff.mp hf).1
  have hold : ∀ {i} {f : Future R V E}, cl.futures[i]? = some f →
      (cl.submit req).futures[i]? = some f :=
    fun hf => by rw [hfutures, List.getElem?_append_left (hlt hf), hf]
  have hlast : (cl.submit req).futures[cl.futures.length]? = some new := by
    rw [hfutures, List.getElem?_concat_length]
  have hcases : ∀ {i} {f : Future R V E}, (cl.submit req).futures[i]? = some f →
      cl.futures[i]? = some f ∨ (i = cl.futures.length ∧ f = new) := by
    intro i f hf
    rcases lt_trichotomy i cl.futures.length with hi | rfl | hi
    · rw [hfutures, List.getElem?_append_left hi] at hf
      exact Or.inl hf
    · exact Or.inr ⟨rfl, (Option.some.inj (hlast.symm.trans hf)).symm⟩
    · have hi' := (List.getElem?_eq_some_iff.mp hf).1
      rw [hfutures, List.length_append, List.length_singleton] at hi'
      omega
  have hopen : ∀ {i}, cl.Open i → (cl.submit req).Open i := fun ⟨f, hf, hr⟩ => ⟨f, hold hf, hr⟩
  have hknown : ∀ q, cl.Known q → (cl.submit req).Known q :=
    fun q ⟨f, hf, hq, hwhere⟩ => ⟨f, hold hf, hq, hwhere⟩
  refine ⟨⟨?_, fun i f hf => ?_, fun i f hf => ?_, fun i f hf r hr => ?_, fun p hp => ?_, ?_,
    fun q hq => hknown q (h.registered q hq), fun u i hu => ?_,
    fun q hq => hknown q (h.queued q hq), fun i r hr => ?_⟩, hknown⟩
  · rw [hfutures, List.length_append, h.counter]
    rfl
  · rcases hcases hf with hf | ⟨rfl, rfl⟩
    · exact h.uid i f hf
    · exact h.counter.symm
  · rcases hcases hf with hf | ⟨-, rfl⟩
    · exact h.once i f hf
    · exact Nat.zero_le _
  · rcases hcases hf with hf | ⟨-, rfl⟩
    · exact h.served i f hf r hr
    · exact absurd hr List.not_mem_nil
  · rcases List.mem_append.mp hp with hp | hp
    · obtain ⟨huid, ⟨f, hf, hq⟩, hplace⟩ := h.drawn p hp
      exact ⟨huid, ⟨f, hold hf, hq⟩, hplace⟩
    · obtain rfl := List.mem_singleton.mp hp
      refine ⟨h.counter.symm, ⟨new, hlast, rfl, rfl⟩, ?_, fun r hr => ?_⟩
      · rw [Option.eq_none_iff_forall_ne_some]
        intro i hi
        obtain ⟨f, hf, -⟩ := (h.pending _ i hi).2.1
        exact lt_irrefl _ (hlt hf)
      · obtain ⟨f, hf, -⟩ := (h.receiving _ r hr).1
        exact lt_irrefl _ (hlt hf)
  · change ((cl.drawn ++ [(_, cl.futures.length)]).map Prod.snd).Nodup
    rw [List.map_append, List.nodup_append]
    refine ⟨h.nodup, by simp, fun a ha b hb hab => ?_⟩
    obtain ⟨p, hp, rfl⟩ := List.mem_map.mp ha
    obtain ⟨-, ⟨f, hf, -⟩, -⟩ := h.drawn p hp
    have hb : b = cl.futures.length := by simpa using hb
    exact (hlt hf).ne (hab.trans hb)
  · obtain ⟨hi, hopen', hr⟩ := h.pending u i hu
    exact ⟨hi, hopen hopen', hr⟩
  · obtain ⟨hopen', hserved⟩ := h.receiving i r hr
    refine ⟨hopen hopen', fun f hf => ?_⟩
    obtain ⟨f₀, hf₀, -⟩ := hopen'
    obtain rfl := Option.some.inj ((hold hf₀).symm.trans hf)
    exact hserved f₀ hf₀

/-- The drawn call `n`, and what is left of the others. -/
theorem Inv.drawn_eraseIdx (h : cl.Inv Served) {n : ℕ} {p : Request R × ℕ}
    (hp : cl.drawn[n]? = some p) :
    ((cl.drawn.eraseIdx n).map Prod.snd).Nodup ∧ ∀ p' ∈ cl.drawn.eraseIdx n, p'.2 ≠ p.2 := by
  obtain ⟨hn, rfl⟩ := List.getElem?_eq_some_iff.mp hp
  have hnd := ((List.getElem_cons_eraseIdx_perm hn).map Prod.snd).nodup_iff.mpr h.nodup
  obtain ⟨hnot, hnd⟩ := List.nodup_cons.mp hnd
  exact ⟨hnd, fun p' hp' heq => hnot (heq ▸ List.mem_map_of_mem hp')⟩

theorem Inv.register (h : cl.Inv Served) {n : ℕ} (hs : cl.register n = some cl') :
    Steps Served cl cl' := by
  obtain ⟨p, hp, rfl⟩ := Option.map_eq_some_iff.mp hs
  obtain ⟨huid, ⟨f, hf, hq, hres⟩, hnone, hidle⟩ := h.drawn p (List.mem_of_getElem? hp)
  obtain ⟨hnd, hne⟩ := h.drawn_eraseIdx hp
  have hget : ∀ u, (cl.pending.set p.1.uid p.2).get? u =
      if p.2 = u then some p.2 else cl.pending.get? u := fun u => by
    rw [OrderedDict.get?_set, huid]
  have hknown : ∀ q, cl.Known q → Known { cl with
      drawn := cl.drawn.eraseIdx n
      pending := cl.pending.set p.1.uid p.2
      registered := cl.registered ++ [p.1] } q := by
    rintro q ⟨f', hf', hq', hwhere⟩
    refine ⟨f', hf', hq', hwhere.imp_left fun hpend => ?_⟩
    rw [hget]
    split_ifs with heq
    · rw [heq]
    · exact hpend
  refine ⟨⟨h.counter, h.uid, h.once, h.served, fun p' hp' => ?_, hnd, fun q hq' => ?_,
    fun u i hu => ?_, fun q hq' => hknown q (h.queued q hq'), h.receiving⟩, hknown⟩
  · obtain ⟨huid', hfut, hnone', hidle'⟩ := h.drawn p' (List.mem_of_mem_eraseIdx hp')
    refine ⟨huid', hfut, ?_, hidle'⟩
    rw [hget, if_neg (Ne.symm (hne p' hp')), hnone']
  · rcases List.mem_append.mp hq' with hq' | hq'
    · exact hknown q (h.registered q hq')
    · obtain rfl := List.mem_singleton.mp hq'
      refine ⟨f, huid ▸ hf, hq, Or.inl ?_⟩
      rw [hget, if_pos huid.symm, huid]
  · rw [hget] at hu
    split_ifs at hu with heq
    · obtain rfl := Option.some.inj hu
      exact ⟨heq, heq ▸ ⟨f, hf, hres⟩, heq ▸ hidle⟩
    · exact h.pending u i hu

theorem Inv.enqueue (h : cl.Inv Served) {n : ℕ} (hs : cl.enqueue n = some cl') :
    Steps Served cl cl' := by
  obtain ⟨p, hp, rfl⟩ := Option.map_eq_some_iff.mp hs
  refine ⟨⟨h.counter, h.uid, h.once, h.served, h.drawn, h.nodup,
    fun q hq => h.registered q (List.mem_of_mem_eraseIdx hq), h.pending, fun q hq => ?_,
    h.receiving⟩, fun _ => id⟩
  rcases List.mem_append.mp hq with hq | hq
  · exact h.queued q hq
  · obtain rfl := List.mem_singleton.mp hq
    exact h.registered q (List.mem_of_getElem? hp)

theorem Inv.flush (h : cl.Inv Served) {q : Request R} (hs : cl.flush = some (q, cl')) :
    Steps Served cl cl' ∧ cl'.Known q := by
  unfold Client.flush at hs
  split at hs
  · rename_i q' queue _ hqueue
    obtain ⟨rfl, rfl⟩ := Prod.mk.inj (Option.some.inj hs)
    have hmem : ∀ q ∈ q' :: queue, cl.Known q := fun q hq => h.queued q (hqueue ▸ hq)
    exact ⟨⟨⟨h.counter, h.uid, h.once, h.served, h.drawn, h.nodup, h.registered, h.pending,
      fun q hq => hmem q (List.mem_cons_of_mem _ hq), h.receiving⟩, fun _ => id⟩,
      hmem q' List.mem_cons_self⟩
  · exact absurd hs (by simp)

/-- A reply is ignored, or its future is popped. -/
theorem onRecv_eq {m : Frames V E} (hs : cl.onRecv m = some cl') : cl.receiving = none ∧
    (((∀ u, m.uid = some u → cl.pending.get? u = none) ∧ cl' = cl) ∨
      ∃ u i, m.uid = some u ∧ cl.pending.get? u = some i ∧
        cl' = { cl with pending := cl.pending.erase u, receiving := some (i, m.reply) }) := by
  unfold onRecv at hs
  split at hs
  · cases hs
  · rename_i hidle huid
    refine ⟨hidle, Or.inl ⟨fun u hu => ?_, (Option.some.inj hs).symm⟩⟩
    cases huid.symm.trans hu
  · rename_i u hidle huid
    split at hs
    · rename_i hnone
      refine ⟨hidle, Or.inl ⟨fun u' hu' => ?_, (Option.some.inj hs).symm⟩⟩
      cases huid.symm.trans hu'
      exact hnone
    · rename_i i hpend
      exact ⟨hidle, Or.inr ⟨u, i, huid, hpend, (Option.some.inj hs).symm⟩⟩

theorem exists_onRecv (hidle : cl.receiving = none) (m : Frames V E) :
    ∃ cl', cl.onRecv m = some cl' := by
  unfold onRecv
  rw [hidle]
  cases m.uid with
  | none => exact ⟨cl, rfl⟩
  | some u =>
    dsimp only
    split
    · exact ⟨_, rfl⟩
    · exact ⟨_, rfl⟩

/-- `on_recv` of a reply that, if it has a uid, was served for that known request. -/
theorem Inv.onRecv (h : cl.Inv Served) {m : Frames V E} {q : Request R} (hq : cl.Known q)
    (hm : ∀ u, m.uid = some u → q.uid = u ∧ Served q m.reply) (hs : cl.onRecv m = some cl') :
    Steps Served cl cl' := by
  obtain ⟨hidle, ⟨-, rfl⟩ | ⟨u, i, hu, hpend, rfl⟩⟩ := onRecv_eq hs
  · exact ⟨h, fun _ => id⟩
  · obtain ⟨rfl, hserved⟩ := hm u hu
    obtain ⟨rfl, hopen, -⟩ := h.pending _ _ hpend
    obtain ⟨f, hf, hfq, -⟩ := hq
    have hknown : ∀ q', cl.Known q' → Known { cl with
        pending := cl.pending.erase q.uid, receiving := some (q.uid, m.reply) } q' := by
      rintro q' ⟨f, hf, hfq, hwhere⟩
      refine ⟨f, hf, hfq, ?_⟩
      by_cases hu : q.uid = q'.uid
      · exact Or.inr (Or.inl ⟨m.reply, by rw [hu]⟩)
      · rcases hwhere with hpend' | ⟨r, hr⟩ | hres
        · exact Or.inl ((cl.pending.get?_erase_ne hu).trans hpend')
        · exact absurd (hidle.symm.trans hr) (by simp)
        · exact Or.inr (Or.inr hres)
    refine ⟨⟨h.counter, h.uid, h.once, h.served, fun p hp => ?_, h.nodup,
      fun q hq => hknown q (h.registered q hq), fun u i hu => ?_,
      fun q hq => hknown q (h.queued q hq), fun i r hr => ?_⟩, hknown⟩
    · obtain ⟨hpu, hfut, hnone, -⟩ := h.drawn p hp
      have hne : q.uid ≠ p.2 := fun heq => by simp [← heq, hpend] at hnone
      refine ⟨hpu, hfut, (cl.pending.get?_erase_ne hne).trans hnone, fun r hr => ?_⟩
      exact hne (Prod.mk.inj (Option.some.inj hr)).1
    · rw [OrderedDict.get?_erase] at hu
      split_ifs at hu with heq
      obtain ⟨hi, hopen', -⟩ := h.pending u i hu
      refine ⟨hi, hopen', fun r hr => ?_⟩
      exact heq (Prod.mk.inj (Option.some.inj hr)).1
    · obtain ⟨rfl, rfl⟩ := Prod.mk.inj (Option.some.inj hr)
      refine ⟨hopen, fun f' hf' => ?_⟩
      obtain rfl := Option.some.inj (hf.symm.trans hf')
      exact hfq ▸ hserved

theorem Inv.resolve (h : cl.Inv Served) (hs : cl.resolve = some cl') : Steps Served cl cl' := by
  obtain ⟨⟨i, r⟩, hrecv, rfl⟩ := Option.map_eq_some_iff.mp hs
  obtain ⟨⟨f, hf, hres⟩, hserved⟩ := h.receiving i r hrecv
  set cl' : Client R V E := { cl with
    futures := cl.futures.modify i fun f => { f with results := f.results ++ [r] }
    receiving := none } with hcl'
  have hself : cl'.futures[i]? = some { f with results := [r] } := by
    simp [hcl', hf, hres]
  have hother : ∀ {j : ℕ}, j ≠ i → cl'.futures[j]? = cl.futures[j]? := fun hj => by
    simp [hcl', Ne.symm hj]
  have hcases : ∀ {j : ℕ} {f' : Future R V E}, cl'.futures[j]? = some f' →
      (j = i ∧ f' = { f with results := [r] }) ∨ (j ≠ i ∧ cl.futures[j]? = some f') := by
    intro j f' hf'
    by_cases hj : j = i
    · subst hj
      exact Or.inl ⟨rfl, (Option.some.inj (hself.symm.trans hf')).symm⟩
    · exact Or.inr ⟨hj, hother hj ▸ hf'⟩
  have hopen : ∀ {j}, j ≠ i → cl.Open j → cl'.Open j := fun hj ⟨f', hf', hr⟩ =>
    ⟨f', (hother hj).trans hf', hr⟩
  have hknown : ∀ q, cl.Known q → cl'.Known q := by
    rintro q ⟨f', hf', hfq, hwhere⟩
    by_cases hj : q.uid = i
    · rw [hj] at hf'
      obtain rfl := Option.some.inj (hf.symm.trans hf')
      exact ⟨{ f with results := [r] }, hj ▸ hself, hfq, Or.inr (Or.inr (by simp))⟩
    · refine ⟨f', (hother hj).trans hf', hfq, ?_⟩
      rcases hwhere with hpend | ⟨r', hr'⟩ | hne
      · exact Or.inl hpend
      · exact absurd (Prod.mk.inj (Option.some.inj (hrecv.symm.trans hr'))).1.symm hj
      · exact Or.inr (Or.inr hne)
  refine ⟨⟨?_, fun j f' hf' => ?_, fun j f' hf' => ?_, fun j f' hf' r' hr' => ?_, fun p hp => ?_,
    h.nodup, fun q hq => hknown q (h.registered q hq), fun u j hu => ?_,
    fun q hq => hknown q (h.queued q hq), fun j r' hr' => absurd hr' (by simp [hcl'])⟩, hknown⟩
  · rw [hcl', List.length_modify, h.counter]
  · rcases hcases hf' with ⟨rfl, rfl⟩ | ⟨-, hf'⟩
    · exact h.uid j f hf
    · exact h.uid j f' hf'
  · rcases hcases hf' with ⟨rfl, rfl⟩ | ⟨-, hf'⟩
    · exact le_refl 1
    · exact h.once j f' hf'
  · rcases hcases hf' with ⟨rfl, rfl⟩ | ⟨-, hf'⟩
    · obtain rfl := List.mem_singleton.mp hr'
      exact hserved f hf
    · exact h.served j f' hf' r' hr'
  · obtain ⟨hpu, ⟨f', hf', hfut⟩, hnone, hidle⟩ := h.drawn p hp
    have hne : p.2 ≠ i := fun heq => hidle r (heq ▸ hrecv)
    exact ⟨hpu, ⟨f', (hother hne).trans hf', hfut⟩, hnone, fun r' hr' => by simp [hcl'] at hr'⟩
  · obtain ⟨hj, hopen', hidle⟩ := h.pending u j hu
    have hne : u ≠ i := fun heq => hidle r (heq ▸ hrecv)
    exact ⟨hj, hopen hne hopen', fun r' hr' => by simp [hcl'] at hr'⟩

end Client

/-! ## Requests and replies under way -/

variable {s s' : MQ R V E} {c : ℕ}

/-- Request `q` of client `c` was served with `r`. -/
def Served (s : MQ R V E) (c : ℕ) (q : Request R) (r : Reply V E) : Prop := (c, q, r) ∈ s.served

/-- The message replies to a known request of its client; if it has a uid, it is that of the
request, and the request was served with it. -/
def Replies (s : MQ R V E) (m : ℕ × Frames V E) : Prop :=
  ∃ q : Request R, (s.clients m.1).Known q ∧
    ∀ u, m.2.uid = some u → q.uid = u ∧ s.Served m.1 q m.2.reply

structure Inv (s : MQ R V E) : Prop where
  clients : ∀ c, (s.clients c).Inv (s.Served c)
  toServer : ∀ p ∈ s.toServer, (s.clients p.1).Known p.2
  handlers : ∀ h ∈ s.handlers, (s.clients h.identity).Known h.request
  serverQueue : ∀ m ∈ s.serverQueue, s.Replies m
  toClient : ∀ m ∈ s.toClient, s.Replies m

theorem inv_new : (new : MQ R V E).Inv := by
  refine ⟨fun c => Client.inv_new, ?_, ?_, ?_, ?_⟩ <;> simp [new]

@[simp] theorem clients_setClient_self (cl : Client R V E) : (s.setClient c cl).clients c = cl := by
  simp [setClient]

theorem clients_setClient_ne (cl : Client R V E) {c' : ℕ} (hc : c' ≠ c) :
    (s.setClient c cl).clients c' = s.clients c' := by
  simp [setClient, hc]

theorem known_setClient {cl : Client R V E} (h : ∀ q, (s.clients c).Known q → cl.Known q) {c' : ℕ}
    {q : Request R} (hq : (s.clients c').Known q) : ((s.setClient c cl).clients c').Known q := by
  by_cases hc : c' = c
  · subst hc
    simpa using h q hq
  · rwa [clients_setClient_ne cl hc]

/-- A step of one client. -/
theorem Inv.setClient (h : s.Inv) {cl : Client R V E}
    (hs : (s.clients c).Steps (s.Served c) cl) : (s.setClient c cl).Inv := by
  have hknown : ∀ {c' q}, (s.clients c').Known q → ((s.setClient c cl).clients c').Known q :=
    fun hq => known_setClient hs.2 hq
  refine ⟨fun c' => ?_, fun p hp => hknown (h.toServer p hp), fun t ht => hknown (h.handlers t ht),
    fun m hm => ?_, fun m hm => ?_⟩
  · by_cases hc : c' = c
    · subst hc
      rw [clients_setClient_self]
      exact hs.1
    · rw [clients_setClient_ne cl hc]
      exact h.clients c'
  · obtain ⟨q, hq, hserved⟩ := h.serverQueue m hm
    exact ⟨q, hknown hq, hserved⟩
  · obtain ⟨q, hq, hserved⟩ := h.toClient m hm
    exact ⟨q, hknown hq, hserved⟩

/-- A reply to a known request. -/
theorem Inv.sendReply (h : s.Inv) {t : Handler R} (ht : (s.clients t.identity).Known t.request)
    (r : Reply V E) : (s.sendReply t r).Inv := by
  set s' : MQ R V E := { s with served := (t.identity, t.request, r) :: s.served } with hs'
  have hmore : ∀ {c q r}, s.Served c q r → s'.Served c q r := List.mem_cons_of_mem _
  have hreplies : ∀ m, s.Replies m → s'.Replies m := fun m ⟨q, hq, hserved⟩ =>
    ⟨q, hq, fun u hu => (hserved u hu).imp_right hmore⟩
  have hnew : s'.Replies (t.identity, r.frames (some t.request.uid)) := by
    refine ⟨t.request, ht, fun u hu => ?_⟩
    rw [uid_frames] at hu
    rw [reply_frames]
    exact ⟨Option.some.inj hu, List.mem_cons_self⟩
  have happend : ∀ ms : List (ℕ × Frames V E), (∀ m ∈ ms, s.Replies m) →
      ∀ m ∈ ms ++ [(t.identity, r.frames (some t.request.uid))], s'.Replies m := by
    intro ms hms m hm
    rcases List.mem_append.mp hm with hm | hm
    · exact hreplies m (hms m hm)
    · exact List.mem_singleton.mp hm ▸ hnew
  have hclients : ∀ c, (s'.clients c).Inv (s'.Served c) :=
    fun c => (h.clients c).mono fun _ _ => hmore
  unfold MQ.sendReply
  dsimp only
  split
  · exact ⟨hclients, h.toServer, h.handlers, fun m hm => hreplies m (h.serverQueue m hm),
      happend _ h.toClient⟩
  · exact ⟨hclients, h.toServer, h.handlers, happend _ h.serverQueue,
      fun m hm => hreplies m (h.toClient m hm)⟩

theorem Inv.setHandlers (h : s.Inv) {handlers : List (Handler R)}
    (hh : ∀ t ∈ handlers, (s.clients t.identity).Known t.request) :
    ({ s with handlers } : MQ R V E).Inv :=
  ⟨h.clients, h.toServer, hh, h.serverQueue, h.toClient⟩

theorem Inv.eraseHandler (h : s.Inv) (t : ℕ) :
    ({ s with handlers := s.handlers.eraseIdx t } : MQ R V E).Inv :=
  h.setHandlers fun x hx => h.handlers x (List.mem_of_mem_eraseIdx hx)

theorem Inv.step {l : Label R V E} (h : s.Inv) (hs : s.step l = some s') : s'.Inv := by
  rcases l with ⟨c, req⟩ | ⟨c, n⟩ | ⟨c, n⟩ | c | n | ⟨t, e⟩ | ⟨t, r⟩ | ⟨t, e⟩ | t | _ | n | c
  · obtain rfl := Option.some.inj hs
    exact h.setClient ((h.clients c).submit req)
  · obtain ⟨cl, hcl, rfl⟩ := Option.map_eq_some_iff.mp hs
    exact h.setClient ((h.clients c).register hcl)
  · obtain ⟨cl, hcl, rfl⟩ := Option.map_eq_some_iff.mp hs
    exact h.setClient ((h.clients c).enqueue hcl)
  · obtain ⟨⟨q, cl⟩, hcl, rfl⟩ := Option.map_eq_some_iff.mp hs
    obtain ⟨hsteps, hq⟩ := (h.clients c).flush hcl
    have h' := h.setClient hsteps
    refine ⟨h'.clients, fun p hp => ?_, h'.handlers, h'.serverQueue, h'.toClient⟩
    rcases List.mem_append.mp hp with hp | hp
    · exact h'.toServer p hp
    · obtain rfl := List.mem_singleton.mp hp
      exact (clients_setClient_self (s := s) (c := c) cl).symm ▸ hq
  · obtain ⟨p, hp, rfl⟩ := Option.map_eq_some_iff.mp hs
    refine ⟨h.clients, fun p' hp' => h.toServer p' (List.mem_of_mem_eraseIdx hp'), fun t ht => ?_,
      h.serverQueue, h.toClient⟩
    rcases List.mem_append.mp ht with ht | ht
    · exact h.handlers t ht
    · obtain rfl := List.mem_singleton.mp ht
      exact h.toServer p (List.mem_of_getElem? hp)
  · obtain ⟨x, hx, hs⟩ := Option.bind_eq_some_iff.mp hs
    have hq := h.handlers x (List.mem_of_getElem? hx)
    split_ifs at hs
    obtain rfl := Option.some.inj hs
    have h' := h.eraseHandler t
    refine ⟨h'.clients, h'.toServer, h'.handlers, fun m hm => ?_, h'.toClient⟩
    rcases List.mem_append.mp hm with hm | hm
    · exact h'.serverQueue m hm
    · obtain rfl := List.mem_singleton.mp hm
      exact ⟨x.request, hq, nofun⟩
  · obtain ⟨x, hx, hs⟩ := Option.bind_eq_some_iff.mp hs
    have hq := h.handlers x (List.mem_of_getElem? hx)
    split_ifs at hs with hreplied hexc
    · obtain rfl := Option.some.inj hs
      exact (h.eraseHandler t).sendReply hq r
    · obtain rfl := Option.some.inj hs
      have hset : ∀ y ∈ s.handlers.set t { x with replied := true },
          (s.clients y.identity).Known y.request := fun y hy => by
        rcases List.mem_or_eq_of_mem_set hy with hy | rfl
        · exact h.handlers y hy
        · exact hq
      exact (h.setHandlers hset).sendReply hq r
  · obtain ⟨x, hx, hs⟩ := Option.bind_eq_some_iff.mp hs
    have hq := h.handlers x (List.mem_of_getElem? hx)
    split_ifs at hs
    obtain rfl := Option.some.inj hs
    exact (h.eraseHandler t).sendReply hq _
  · obtain ⟨x, -, rfl⟩ := Option.map_eq_some_iff.mp hs
    exact h.eraseHandler t
  · simp only [MQ.step] at hs
    split at hs
    · exact absurd hs (by simp)
    · rename_i m queue hqueue
      obtain rfl := Option.some.inj hs
      have hmem : ∀ m' ∈ m :: queue, s.Replies m' := fun m' hm' =>
        h.serverQueue m' (hqueue ▸ hm')
      refine ⟨h.clients, h.toServer, h.handlers,
        fun m' hm' => hmem m' (List.mem_cons_of_mem m hm'), fun m' hm' => ?_⟩
      rcases List.mem_append.mp hm' with hm' | hm'
      · exact h.toClient m' hm'
      · exact List.mem_singleton.mp hm' ▸ hmem m List.mem_cons_self
  · obtain ⟨m, hm, hs⟩ := Option.bind_eq_some_iff.mp hs
    obtain ⟨cl, hcl, rfl⟩ := Option.map_eq_some_iff.mp hs
    obtain ⟨q, hq, hserved⟩ := h.toClient m (List.mem_of_getElem? hm)
    have h' := h.setClient ((h.clients m.1).onRecv hq hserved hcl)
    exact ⟨h'.clients, h'.toServer, h'.handlers, h'.serverQueue,
      fun m' hm' => h'.toClient m' (List.mem_of_mem_eraseIdx hm')⟩
  · obtain ⟨cl, hcl, rfl⟩ := Option.map_eq_some_iff.mp hs
    exact h.setClient ((h.clients c).resolve hcl)

/-- A state that any interleaving reaches. -/
def Reachable (s : MQ R V E) : Prop := ∃ ls, Run MQ.step (fun _ _ => True) new ls s

theorem Reachable.inv (h : s.Reachable) : s.Inv := by
  obtain ⟨ls, hrun⟩ := h
  exact hrun.invariant Inv inv_new fun s l s' hi _ hs => hi.step hs

/-- The server unpickles the request. -/
def Unpickles : Label R V E → Prop
  | .reject _ _ => False
  | _ => True

instance : ∀ l : Label R V E, Decidable (Unpickles l)
  | .reject _ _ => isFalse id
  | .submit _ _ | .register _ _ | .enqueue _ _ | .flush _ | .spawn _ | .handle _ _ | .fail _ _
  | .finish _ | .serverFlush | .recv _ | .resolve _ => isTrue trivial

/-- No reply is without a uid. -/
structure Named (s : MQ R V E) : Prop where
  serverQueue : ∀ m ∈ s.serverQueue, m.2.uid ≠ none
  toClient : ∀ m ∈ s.toClient, m.2.uid ≠ none

theorem Named.setHandlers (h : s.Named) (handlers : List (Handler R)) :
    ({ s with handlers } : MQ R V E).Named := ⟨h.serverQueue, h.toClient⟩

theorem Named.sendReply (h : s.Named) (t : Handler R) (r : Reply V E) :
    (s.sendReply t r).Named := by
  have happend : ∀ ms : List (ℕ × Frames V E), (∀ m ∈ ms, m.2.uid ≠ none) →
      ∀ m ∈ ms ++ [(t.identity, r.frames (some t.request.uid))], m.2.uid ≠ none := by
    intro ms hms m hm
    rcases List.mem_append.mp hm with hm | hm
    · exact hms m hm
    · rw [List.mem_singleton.mp hm, uid_frames]
      exact Option.some_ne_none _
  unfold MQ.sendReply
  dsimp only
  split
  · exact ⟨h.serverQueue, happend _ h.toClient⟩
  · exact ⟨happend _ h.serverQueue, h.toClient⟩

theorem Named.step {l : Label R V E} (h : s.Named) (hl : Unpickles l)
    (hs : s.step l = some s') : s'.Named := by
  cases l with
  | submit c req =>
    obtain rfl := Option.some.inj hs
    exact ⟨h.serverQueue, h.toClient⟩
  | register | enqueue | resolve | flush | spawn | finish =>
    obtain ⟨_, -, rfl⟩ := Option.map_eq_some_iff.mp hs
    exact ⟨h.serverQueue, h.toClient⟩
  | reject t e => exact hl.elim
  | handle t r =>
    obtain ⟨x, hx, hs⟩ := Option.bind_eq_some_iff.mp hs
    split_ifs at hs
    · obtain rfl := Option.some.inj hs
      exact (h.setHandlers _).sendReply x r
    · obtain rfl := Option.some.inj hs
      exact (h.setHandlers _).sendReply x r
  | fail t e =>
    obtain ⟨x, hx, hs⟩ := Option.bind_eq_some_iff.mp hs
    split_ifs at hs
    obtain rfl := Option.some.inj hs
    exact (h.setHandlers _).sendReply x _
  | serverFlush =>
    simp only [MQ.step] at hs
    split at hs
    · cases hs
    · rename_i m queue hqueue
      obtain rfl := Option.some.inj hs
      refine ⟨fun m' hm' => h.serverQueue m' (hqueue ▸ List.mem_cons_of_mem m hm'),
        fun m' hm' => ?_⟩
      rcases List.mem_append.mp hm' with hm' | hm'
      · exact h.toClient m' hm'
      · exact List.mem_singleton.mp hm' ▸ h.serverQueue m (hqueue ▸ List.mem_cons_self)
  | recv n =>
    obtain ⟨m, hm, hs⟩ := Option.bind_eq_some_iff.mp hs
    obtain ⟨cl, hcl, rfl⟩ := Option.map_eq_some_iff.mp hs
    exact ⟨h.serverQueue, fun m' hm' => h.toClient m' (List.mem_of_mem_eraseIdx hm')⟩

/-- Client `c` gets reply `m` : a handler thread gave it to a request of the client, whose future is
popped to be set, unless it is resolved. -/
def Matched (s s' : MQ R V E) (c : ℕ) (m : Frames V E) : Prop :=
  ∃ (u : ℕ) (f : Future R V E), m.uid = some u ∧ (s.clients c).futures[u]? = some f ∧
    (c, f.request, m.reply) ∈ s.served ∧
    (f.results = [] → (s'.clients c).receiving = some (u, m.reply))

/-- In every run in which the server unpickles the requests : of a client's futures no two have one
uid; each is set at most once, with a reply that a handler thread gave to the client's own request;
and `on_recv` ignores a reply only if it answers a request whose future is resolved. -/
theorem replies_matched {ls : List (Label R V E)}
    (hrun : Run MQ.step (fun _ l => Unpickles l) new ls s) (c : ℕ) :
    (∀ (i : ℕ) (f : Future R V E), (s.clients c).futures[i]? = some f →
      f.request.uid = i ∧ f.results.length ≤ 1 ∧ ∀ r ∈ f.results, (c, f.request, r) ∈ s.served) ∧
    ∀ (n : ℕ) (m : Frames V E) (s' : MQ R V E), s.toClient[n]? = some (c, m) →
      s.step (.recv n) = some s' → s.Matched s' c m := by
  have hinv := Reachable.inv ⟨ls, hrun.mono fun _ _ _ => trivial⟩
  have hnamed := hrun.invariant Named ⟨by simp [new], by simp [new]⟩ fun _ _ _ h hl hs =>
    h.step hl hs
  refine ⟨fun i f hf => ?_, fun n m s' hm hs => ?_⟩
  · exact ⟨(hinv.clients c).uid i f hf, (hinv.clients c).once i f hf,
      (hinv.clients c).served i f hf⟩
  · obtain ⟨u, hu⟩ := Option.ne_none_iff_exists'.mp (hnamed.toClient _ (List.mem_of_getElem? hm))
    obtain ⟨q, ⟨f, hf, rfl, hwhere⟩, hserved⟩ := hinv.toClient _ (List.mem_of_getElem? hm)
    obtain ⟨rfl, hserved⟩ := hserved u hu
    refine ⟨_, f, hu, hf, hserved, fun hnil => ?_⟩
    obtain ⟨m', hm', hs⟩ := Option.bind_eq_some_iff.mp hs
    obtain rfl := Option.some.inj (hm.symm.trans hm')
    obtain ⟨cl, hcl, rfl⟩ := Option.map_eq_some_iff.mp hs
    -- a future that is open is registered, as nothing else is being received
    obtain ⟨hidle, hrecv⟩ := Client.onRecv_eq hcl
    have hpend : (s.clients c).pending.get? f.request.uid = some f.request.uid := by
      rcases hwhere with hpend | ⟨r, hr⟩ | hres
      · exact hpend
      · cases hidle.symm.trans hr
      · exact absurd hnil hres
    rcases hrecv with ⟨hnone, -⟩ | ⟨u, i, hu', hi, rfl⟩
    · cases hpend.symm.trans (hnone _ hu)
    · obtain rfl := Option.some.inj (hu.symm.trans hu')
      obtain rfl := Option.some.inj (hpend.symm.trans hi)
      change ((s.setClient c _).clients c).receiving = _
      rw [clients_setClient_self]

/-- Two clients with one request each, both of uid 0. The first gets chunks and then, as `post_send`
raises, an exception; the second a value. -/
def sampleLabels : List (Label ℕ ℕ ℕ) :=
  [.submit 0 7, .submit 1 8, .register 0 0, .register 1 0, .enqueue 1 0, .enqueue 0 0, .flush 1,
    .flush 0, .spawn 0, .spawn 0, .handle 1 (.chunks [1] []), .fail 1 9,
    .handle 0 (.value (some 5)),
    .serverFlush, .serverFlush, .recv 2, .resolve 1, .recv 0, .resolve 0]

/-- The exception comes when the chunks have resolved the future, and is ignored. -/
theorem replies_matched_sample : ∃ s s' : MQ ℕ ℕ ℕ, ∃ m : Frames ℕ ℕ,
    s.toClient[0]? = some (0, m) ∧ s.step (.recv 0) = some s' ∧ s.Matched s' 0 m ∧
    (∀ (i : ℕ) (f : Future ℕ ℕ ℕ), (s.clients 0).futures[i]? = some f →
      f.request.uid = i ∧ f.results.length ≤ 1 ∧
        ∀ r ∈ f.results, (0, f.request, r) ∈ s.served) := by
  have hrun : (replay MQ.step (fun _ l => decide (Unpickles l)) new sampleLabels).map
      (fun s => (s.toClient.map Prod.fst, (s.step (.recv 0)).isSome)) = some ([0], true) := by
    decide
  obtain ⟨s, hs, hleft⟩ := Option.map_eq_some_iff.mp hrun
  obtain ⟨hone, hstep⟩ := Prod.mk.inj hleft
  obtain ⟨⟨c, m⟩, hm, rfl⟩ := List.map_eq_singleton_iff.mp hone
  obtain ⟨s', hs'⟩ := Option.isSome_iff_exists.mp hstep
  have hget : s.toClient[0]? = some (0, m) := by
    rw [hm]
    rfl
  obtain ⟨hfutures, hmatched⟩ :=
    replies_matched ((run_of_replay hs).mono fun _ _ hok => of_decide_eq_true hok) 0
  exact ⟨s, s', m, hget, hs', hmatched 0 m s' hget hs', hfutures⟩

/-- The server cannot unpickle the request of client 0 : its reply has no uid, so the client ignores
it, and nothing is left that could resolve the future. -/
theorem unpickled_reply_dropped : ∃ s s' : MQ ℕ ℕ ℕ, s.Reachable ∧
    s.toClient = [(0, (Reply.exception 9).frames none)] ∧ s.step (.recv 0) = some s' ∧
    ¬s.Matched s' 0 ((Reply.exception 9).frames none) ∧
    (s'.clients 0).futures = [⟨⟨0, 7⟩, []⟩] ∧ (s'.clients 0).receiving = none ∧
    s'.toServer = [] ∧ s'.handlers = [] ∧ s'.serverQueue = [] ∧ s'.toClient = [] := by
  refine ⟨_, _, ⟨[.submit 0 7, .register 0 0, .enqueue 0 0, .flush 0, .spawn 0, .reject 0 9,
    .serverFlush], (@run_of_replay _ _ MQ.step (fun _ _ => true) _ _ _ rfl).mono
      fun _ _ _ => trivial⟩, rfl, rfl,
    ?_, rfl, rfl, rfl, rfl, rfl, rfl⟩
  rintro ⟨u, f, hu, -⟩
  cases hu

end MQ

end MiniLlmcache
