import Mathlib.Data.Finset.Basic
import MiniLlmcache.Connector
import MiniLlmcache.Runs

/-!
# The connector on vLLM's worker side

The part of `integration/vllm_connector.py` that runs beside the model : `start_load_kv`,
`wait_for_save` and `get_finished`, the futures they leave behind, and one `_finish_load`
thread for each RETRIEVE. vLLM calls the hooks one after the other; replies of the cache server
and the steps of the threads come in between, in any order, and so do the writes of the model's
forward pass.

`from_host` issues its rows to the device, which writes them some time later, in order;
`kernel_stream.synchronize()` waits for them. A thread may raise at any point before that has
returned, and what it has issued by then is written all the same. What the server answers, and
where a thread raises, is free : it comes with the label of the step. `written` of a RETRIEVE is a
ghost, the rows written for it, and so is `raised`.
-/

namespace MiniLlmcache

/-- Where a `_finish_load` thread stands. -/
inductive LoadThread
  /-- `future.result()`. -/
  | waiting
  /-- `from_host`, with the rows still to issue, and what it raises after them. -/
  | scatter (todo : List BlockWrite) (exc : Option Exc)
  /-- `kernel_stream.synchronize()`. -/
  | synchronize
  /-- `finally`, before `done.set()`. -/
  | ending
  | done
deriving DecidableEq

/-- What the future of a RETRIEVE gets : the chunks, nothing, or an exception. -/
abbrev RetrieveReply := Except Exc (Option (List Bytes))

/-- One RETRIEVE submitted. -/
structure LoadCall where
  requestId : String
  op : LoadStoreOp
  reply : Option RetrieveReply
  thread : LoadThread
  /-- The rows issued that the device has yet to write. -/
  inFlight : List BlockWrite
  written : List BlockWrite
  /-- How many rows were issued when something other than the reply made the thread raise. -/
  raised : Option ℕ

/-- One STORE submitted; `replied` when its future is done, with a result or an exception. -/
structure StoreCall where
  requestId : String
  op : LoadStoreOp
  chunks : List Bytes
  replied : Bool

namespace LoadCall

/-- `submit_transfers` of a RETRIEVE. -/
def submit (m : ReqMeta) : LoadCall := ⟨m.requestId, m.op, none, .waiting, [], [], none⟩

/-- `DeviceFuture.done` : the message arrived and the event is set. -/
def done (l : LoadCall) : Bool := l.reply.isSome && l.thread = .done

/-- Its thread is inside `from_host`. -/
def scattering (l : LoadCall) : Bool :=
  match l.thread with
  | .scatter _ _ | .synchronize => true
  | _ => false

/-- The rows `from_host` has issued. -/
def issued (l : LoadCall) : List BlockWrite := l.written ++ l.inFlight

end LoadCall

/-- The state of the hooks and of the transfers they submitted. The futures in the two tables
are places in the lists of calls. -/
structure WorkerConnector (e : Engine) where
  kv : KVCache e.transfer.blockNbytes
  stores : List StoreCall
  loads : List LoadCall
  storeFutures : OrderedDict String (List ℕ)
  loadFutures : OrderedDict String ℕ
  pendingSends : Finset String

namespace WorkerConnector

variable {e : Engine}

def new (kv : KVCache e.transfer.blockNbytes) : WorkerConnector e :=
  ⟨kv, [], [], .empty, .empty, ∅⟩

variable (w : WorkerConnector e)

/-! ## Hooks -/

/-- `self.load_futures.update(self.submit_transfers(Req.RETRIEVE))`. -/
def startLoadKv (m : Metadata) : WorkerConnector e :=
  let ops := opsOf .retrieve m.requests
  { w with
    loads := w.loads ++ ops.map LoadCall.submit
    loadFutures := w.loadFutures.setAll ((ops.map ReqMeta.requestId).zipIdx w.loads.length) }

/-- `submit_transfers(Req.STORE)` : the STOREs submitted, and whether `to_host` raised. -/
def submitStores : List ReqMeta → List StoreCall × Option Exc
  | [] => ([], none)
  | m :: ms =>
    match e.transfer.toHost w.kv m.op.blockIds with
    | .error x => ([], some x)
    | .ok chunks =>
      let (calls, x) := submitStores ms
      (⟨m.requestId, m.op, chunks, false⟩ :: calls, x)

/-- `self.store_futures.setdefault(req_id, []).append(future)`. -/
def addFuture (futures : OrderedDict String (List ℕ)) (requestId : String) (i : ℕ) :
    OrderedDict String (List ℕ) :=
  futures.set requestId ((futures.get? requestId).getD [] ++ [i])

/-- The loop of `wait_for_save` over the futures, from place `i` on. -/
def addFutures (futures : OrderedDict String (List ℕ)) :
    ℕ → List StoreCall → OrderedDict String (List ℕ)
  | _, [] => futures
  | i, c :: calls => addFutures (addFuture futures c.requestId i) (i + 1) calls

def waitForSave (m : Metadata) : Outcome (WorkerConnector e) Unit :=
  match w.submitStores (opsOf .store m.requests) with
  | (calls, some x) => .raised { w with stores := w.stores ++ calls } x
  | (calls, none) =>
    .returned { w with
      stores := w.stores ++ calls
      storeFutures := addFutures w.storeFutures w.stores.length calls } ()

def storeDone (i : ℕ) : Bool := (w.stores[i]?).any StoreCall.replied

def loadDone (i : ℕ) : Bool := (w.loads[i]?).any LoadCall.done

/-- The STORE futures that are not done. -/
def liveStores : OrderedDict String (List ℕ) :=
  w.storeFutures.prune fun futures =>
    let live := futures.filter fun i => !w.storeDone i
    if live = [] then none else some live

/-- Report requests whose async store/load has fully completed :
`(finished_sending, finished_recving)`. -/
def getFinished (finishedReqIds : Finset String) :
    (Finset String × Finset String) × WorkerConnector e :=
  let pendingSends := w.pendingSends ∪ finishedReqIds
  let storeFutures := w.liveStores
  let finishedSending := pendingSends.filter fun r => storeFutures.contains r = false
  let finishedRecving :=
    (w.loadFutures.keys.filter fun r => (w.loadFutures.get? r).any w.loadDone).toFinset
  ((finishedSending, finishedRecving), { w with
    storeFutures
    pendingSends := pendingSends \ finishedSending
    loadFutures := w.loadFutures.prune fun i => if w.loadDone i then none else some i })

/-! ## Threads -/

def setLoad (i : ℕ) (l : LoadCall) : WorkerConnector e := { w with loads := w.loads.set i l }

/-- One step of the thread of RETRIEVE `i`. What raises in it is caught, and printed. -/
def finishLoad (i : ℕ) (l : LoadCall) : Option (WorkerConnector e) :=
  match l.thread, l.reply with
  | .waiting, none => none
  | .waiting, some (.ok (some chunks)) =>
    -- the pipeline has a lock
    if w.loads.any LoadCall.scattering then none
    else
      let (todo, exc) := e.finishLoad l.op chunks
      some (w.setLoad i { l with thread := .scatter todo exc })
  | .waiting, some _ => some (w.setLoad i { l with thread := .ending })
  | .scatter (x :: todo) exc, _ =>
    some (w.setLoad i { l with thread := .scatter todo exc, inFlight := l.inFlight ++ [x] })
  | .scatter [] (some _), _ => some (w.setLoad i { l with thread := .ending })
  | .scatter [] none, _ => some (w.setLoad i { l with thread := .synchronize })
  | .synchronize, _ =>
    if l.inFlight = [] then some (w.setLoad i { l with thread := .ending }) else none
  | .ending, _ => some (w.setLoad i { l with thread := .done })
  | .done, _ => none

/-- `set_device`, an allocation or the device makes the thread of RETRIEVE `i` raise. -/
def raises (i : ℕ) (l : LoadCall) : Option (WorkerConnector e) :=
  match l.thread with
  | .waiting | .scatter _ _ | .synchronize =>
    some (w.setLoad i { l with thread := .ending, raised := some l.issued.length })
  | .ending | .done => none

/-- The device writes the next row of RETRIEVE `i`. -/
def kernel (i : ℕ) (l : LoadCall) : Option (WorkerConnector e) :=
  match l.inFlight with
  | [] => none
  | x :: rest =>
    some { w.setLoad i { l with inFlight := rest, written := l.written ++ [x] } with
      kv := w.kv.write x }

end WorkerConnector

/-- What happens next on the worker side. -/
inductive WorkerLabel
  | startLoadKv (m : Metadata)
  | waitForSave (m : Metadata)
  | getFinished (finishedReqIds : Finset String)
  /-- The reply to STORE `i`. -/
  | storeReply (i : ℕ)
  /-- The reply to RETRIEVE `i`. -/
  | loadReply (i : ℕ) (reply : RetrieveReply)
  /-- A step of the thread of RETRIEVE `i`. -/
  | finishLoad (i : ℕ)
  /-- Something in the thread of RETRIEVE `i` raises. -/
  | raises (i : ℕ)
  /-- The device writes a row of RETRIEVE `i`. -/
  | kernel (i : ℕ)
  /-- The model writes KV blocks. -/
  | forward (rows : List BlockWrite)

namespace WorkerConnector

variable {e : Engine}

def step (w : WorkerConnector e) : WorkerLabel → Option (WorkerConnector e)
  | .startLoadKv m => some (w.startLoadKv m)
  | .waitForSave m =>
    match w.waitForSave m with
    | .returned w _ | .raised w _ => some w
  | .getFinished ids => some (w.getFinished ids).2
  | .storeReply i =>
    match w.stores[i]? with
    | some c =>
      if c.replied then none
      else some { w with stores := w.stores.set i { c with replied := true } }
    | none => none
  | .loadReply i reply =>
    match w.loads[i]? with
    | some l =>
      if l.reply = none then some (w.setLoad i { l with reply := some reply }) else none
    | none => none
  | .finishLoad i => (w.loads[i]?).bind (w.finishLoad i)
  | .raises i => (w.loads[i]?).bind (w.raises i)
  | .kernel i => (w.loads[i]?).bind (w.kernel i)
  | .forward rows => some { w with kv := w.kv.writeAll rows }

/-- What a step does to a RETRIEVE. -/
inductive Moves (e : Engine) (l : LoadCall) : LoadCall → Prop
  | replied (reply : RetrieveReply) (h : l.reply = none) : Moves e l { l with reply := some reply }
  | scatter {chunks : List Bytes} (ht : l.thread = .waiting)
      (hr : l.reply = some (.ok (some chunks))) :
      Moves e l { l with
        thread := .scatter (e.finishLoad l.op chunks).1 (e.finishLoad l.op chunks).2 }
  | caught {reply : RetrieveReply} (ht : l.thread = .waiting) (hr : l.reply = some reply)
      (hno : ∀ chunks, reply ≠ .ok (some chunks)) : Moves e l { l with thread := .ending }
  | issued {x : BlockWrite} {todo : List BlockWrite} {exc : Option Exc}
      (ht : l.thread = .scatter (x :: todo) exc) :
      Moves e l { l with thread := .scatter todo exc, inFlight := l.inFlight ++ [x] }
  | failed {x : Exc} (ht : l.thread = .scatter [] (some x)) : Moves e l { l with thread := .ending }
  | scattered (ht : l.thread = .scatter [] none) : Moves e l { l with thread := .synchronize }
  | synchronized (ht : l.thread = .synchronize) (hf : l.inFlight = []) :
      Moves e l { l with thread := .ending }
  | ended (ht : l.thread = .ending) : Moves e l { l with thread := .done }
  | raised (ht : l.thread ≠ .ending ∧ l.thread ≠ .done) :
      Moves e l { l with thread := .ending, raised := some l.issued.length }
  | wrote {x : BlockWrite} {rest : List BlockWrite} (hf : l.inFlight = x :: rest) :
      Moves e l { l with inFlight := rest, written := l.written ++ [x] }

theorem Moves.requestId_eq {l l' : LoadCall} (h : Moves e l l') :
    l'.requestId = l.requestId ∧ l'.op = l.op := by
  cases h <;> exact ⟨rfl, rfl⟩

/-- A RETRIEVE that is done stays so. -/
theorem Moves.done {l l' : LoadCall} (h : Moves e l l') (hd : l.done = true) : l'.done = true := by
  rw [LoadCall.done, Bool.and_eq_true, decide_eq_true_eq] at hd
  obtain ⟨hreply, hthread⟩ := hd
  cases h with
  | replied reply hnone =>
    rw [hnone] at hreply
    cases hreply
  | scatter ht | caught ht | issued ht | failed ht | scattered ht | synchronized ht | ended ht =>
    rw [ht] at hthread
    cases hthread
  | raised ht => exact absurd hthread ht.2
  | wrote hf => simp only [LoadCall.done, hreply, hthread, decide_true, Bool.and_self]

variable {w w' : WorkerConnector e}

/-- A step of thread `i` moves it. -/
theorem finishLoad_eq {i : ℕ} {l : LoadCall} (hs : w.finishLoad i l = some w') :
    ∃ l', Moves e l l' ∧ w' = w.setLoad i l' := by
  unfold finishLoad at hs
  split at hs
  · cases hs
  · rename_i chunks ht hr
    split_ifs at hs
    cases hs
    exact ⟨_, .scatter ht hr, rfl⟩
  · rename_i reply hno ht hr
    cases hs
    refine ⟨_, .caught ht hr fun chunks h => hno chunks ?_, rfl⟩
    exact h
  · cases hs
    exact ⟨_, .issued ‹_›, rfl⟩
  · cases hs
    exact ⟨_, .failed ‹_›, rfl⟩
  · cases hs
    exact ⟨_, .scattered ‹_›, rfl⟩
  · split_ifs at hs with hf
    cases hs
    exact ⟨_, .synchronized ‹_› hf, rfl⟩
  · cases hs
    exact ⟨_, .ended ‹_›, rfl⟩
  · cases hs

theorem raises_eq {i : ℕ} {l : LoadCall} (hs : w.raises i l = some w') :
    ∃ l', Moves e l l' ∧ w' = w.setLoad i l' := by
  unfold raises at hs
  split at hs
  case h_4 | h_5 => cases hs
  all_goals
    rename_i ht
    cases hs
    exact ⟨_, .raised (by simp [ht]), rfl⟩

/-- The device writes one row. -/
theorem kernel_eq {i : ℕ} {l : LoadCall} (hs : w.kernel i l = some w') :
    ∃ l' kv, Moves e l l' ∧ w' = { w.setLoad i l' with kv } := by
  unfold kernel at hs
  split at hs
  · cases hs
  · rename_i x rest hf
    cases hs
    exact ⟨_, w.kv.write x, .wrote hf, rfl⟩

/-- What a step can do, case by case. -/
inductive Does (w : WorkerConnector e) : WorkerLabel → WorkerConnector e → Prop
  | startLoadKv (m : Metadata) : Does w (.startLoadKv m) (w.startLoadKv m)
  | saved {m : Metadata} {calls : List StoreCall}
      (h : w.submitStores (opsOf .store m.requests) = (calls, none)) :
      Does w (.waitForSave m) { w with
        stores := w.stores ++ calls
        storeFutures := addFutures w.storeFutures w.stores.length calls }
  | raised {m : Metadata} {calls : List StoreCall} {x : Exc}
      (h : w.submitStores (opsOf .store m.requests) = (calls, some x)) :
      Does w (.waitForSave m) { w with stores := w.stores ++ calls }
  | getFinished (ids : Finset String) : Does w (.getFinished ids) (w.getFinished ids).2
  | storeReply {i : ℕ} {c : StoreCall} (hget : w.stores[i]? = some c) :
      Does w (.storeReply i) { w with stores := w.stores.set i { c with replied := true } }
  | loadReply {i : ℕ} {l : LoadCall} (reply : RetrieveReply) (hget : w.loads[i]? = some l)
      (h : l.reply = none) :
      Does w (.loadReply i reply) (w.setLoad i { l with reply := some reply })
  | finishLoad {i : ℕ} {l l' : LoadCall} (hget : w.loads[i]? = some l) (hm : Moves e l l') :
      Does w (.finishLoad i) (w.setLoad i l')
  | raises {i : ℕ} {l l' : LoadCall} (hget : w.loads[i]? = some l) (hm : Moves e l l') :
      Does w (.raises i) (w.setLoad i l')
  | kernel {i : ℕ} {l l' : LoadCall} (kv : KVCache e.transfer.blockNbytes)
      (hget : w.loads[i]? = some l) (hm : Moves e l l') :
      Does w (.kernel i) { w.setLoad i l' with kv }
  | forward (rows : List BlockWrite) : Does w (.forward rows) { w with kv := w.kv.writeAll rows }

theorem does_of_step {lab : WorkerLabel} (hs : w.step lab = some w') : w.Does lab w' := by
  cases lab with
  | startLoadKv m =>
    cases hs
    exact .startLoadKv m
  | waitForSave m =>
    rcases hcalls : w.submitStores (opsOf .store m.requests) with ⟨calls, _ | x⟩
    · simp only [step, waitForSave, hcalls, Option.some.injEq] at hs
      exact hs ▸ .saved hcalls
    · simp only [step, waitForSave, hcalls, Option.some.injEq] at hs
      exact hs ▸ .raised hcalls
  | getFinished ids =>
    cases hs
    exact .getFinished ids
  | storeReply i =>
    simp only [step] at hs
    split at hs
    · split_ifs at hs
      cases hs
      exact .storeReply ‹_›
    · cases hs
  | loadReply i reply =>
    simp only [step] at hs
    split at hs
    · split_ifs at hs with hreply
      cases hs
      exact .loadReply reply ‹_› hreply
    · cases hs
  | finishLoad i =>
    obtain ⟨l, hget, hs⟩ := Option.bind_eq_some_iff.mp hs
    obtain ⟨l', hm, rfl⟩ := finishLoad_eq hs
    exact .finishLoad hget hm
  | raises i =>
    obtain ⟨l, hget, hs⟩ := Option.bind_eq_some_iff.mp hs
    obtain ⟨l', hm, rfl⟩ := raises_eq hs
    exact .raises hget hm
  | kernel i =>
    obtain ⟨l, hget, hs⟩ := Option.bind_eq_some_iff.mp hs
    obtain ⟨l', kv, hm, rfl⟩ := kernel_eq hs
    exact .kernel kv hget hm
  | forward rows =>
    cases hs
    exact .forward rows

/-- What a step does to RETRIEVE `i` : nothing, it submits it, or it moves it. -/
theorem Does.load {lab : WorkerLabel} (hs : w.Does lab w') {i : ℕ} {l' : LoadCall}
    (h : w'.loads[i]? = some l') : w.loads[i]? = some l' ∨
      (∃ m, lab = .startLoadKv m ∧ w.loads.length ≤ i ∧
        ∃ x, (opsOf .retrieve m.requests)[i - w.loads.length]? = some x ∧ l' = .submit x) ∨
      ∃ l, w.loads[i]? = some l ∧ Moves e l l' := by
  have hset : ∀ {j : ℕ} {l l₁ : LoadCall}, w.loads[j]? = some l → Moves e l l₁ →
      (w.loads.set j l₁)[i]? = some l' → w.loads[i]? = some l' ∨
        ∃ l, w.loads[i]? = some l ∧ Moves e l l' := by
    intro j l l₁ hget hm hi
    rw [List.getElem?_set] at hi
    split_ifs at hi with hj
    · cases hi
      exact Or.inr ⟨l, hj ▸ hget, hm⟩
    · exact Or.inl hi
  cases hs with
  | startLoadKv m =>
    rcases Nat.lt_or_ge i w.loads.length with hi | hi
    · exact Or.inl (by rwa [WorkerConnector.startLoadKv, List.getElem?_append_left hi] at h)
    · rw [WorkerConnector.startLoadKv, List.getElem?_append_right hi, List.getElem?_map,
        Option.map_eq_some_iff] at h
      obtain ⟨x, hx, rfl⟩ := h
      exact Or.inr (Or.inl ⟨m, rfl, hi, x, hx, rfl⟩)
  | loadReply reply hget hnone =>
    rcases hset hget (.replied reply hnone) h with h | h
    · exact Or.inl h
    · exact Or.inr (Or.inr h)
  | finishLoad hget hm | raises hget hm | kernel _ hget hm =>
    rcases hset hget hm h with h | h
    · exact Or.inl h
    · exact Or.inr (Or.inr h)
  | _ => exact Or.inl h

end WorkerConnector

/-- The STOREs handed to `wait_for_save` are those of the connector. -/
def WorkerLabel.Saves (e : Engine) : WorkerLabel → Prop
  | .waitForSave m => ∀ x ∈ opsOf .store m.requests, e.StoreOp x.op
  | _ => True

/-- The operations handed to the hooks are those of the connector. -/
def WorkerLabel.Generated (e : Engine) : WorkerLabel → Prop
  | .startLoadKv m => ∀ x ∈ opsOf .retrieve m.requests, e.RetrieveOp x.op
  | .waitForSave m => ∀ x ∈ opsOf .store m.requests, e.StoreOp x.op
  | _ => True

theorem WorkerLabel.Generated.saves {e : Engine} {lab : WorkerLabel} (h : lab.Generated e) :
    lab.Saves e := by
  cases lab with
  | waitForSave m => exact h
  | _ => exact trivial

/-- Request `b` loads, in the small engine. -/
def sampleMetadata : Metadata where
  requests := [⟨"b", .retrieve, sampleLoadOp⟩]
  nodup req := by cases req <;> decide

theorem sampleMetadata_generated : (WorkerLabel.startLoadKv sampleMetadata).Generated .sample := by
  intro x hx
  obtain rfl := List.mem_singleton.mp hx
  exact sampleLoadOp_retrieve

end MiniLlmcache
