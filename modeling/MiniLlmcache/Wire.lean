import MiniLlmcache.MQ

/-!
# Results on the wire

`MQServer.handle` looks at the shape of a handler's result : a pair of a list of byte strings and
a callable is sent as separate frames behind a header with `None`, and the callable is run after
that; anything else is pickled. `MQClient.on_recv` guesses back from the header and the number of
frames. Pickle and calling an object are parameters (`Runtime`).

`survives_iff` : every picklable result and every list of chunks with its `post_send` arrives,
except the empty list of chunks. `_is_chunk_result` asks for a list that is not empty, so the
empty one is pickled together with its callable; a local closure is refused, the client gets that
exception, and nobody runs the callable.
-/

namespace MiniLlmcache

namespace MQ

/-- A Python value, as far as `mq.py` looks into it. -/
inductive Value (α : Type)
  | none
  | bool (b : Bool)
  | int (n : ℕ)
  | bytes (b : Bytes)
  | memoryview (b : Bytes)
  | list (xs : List (Value α))
  | tuple (xs : List (Value α))
  | object (x : α)

/-- What `mq.py` uses of the interpreter. -/
structure Runtime (α : Type) where
  /-- `pickle.dumps`, or what it raises. -/
  dumps : Value α → Except (Value α) Bytes
  loads : Bytes → Except (Value α) (Value α)
  /-- The objects that can be called. -/
  callable : α → Bool
  /-- `f()`, or what it raises. -/
  call : Value α → Except (Value α) Unit
  /-- Raised for a request that is no triple. -/
  unpackError : Value α

variable {α : Type}

namespace Value

/-- The bytes of a `bytes` or a `memoryview`. -/
def content : Value α → Option Bytes
  | .bytes b | .memoryview b => some b
  | _ => .none

end Value

/-- What a handler thread does, in order. -/
inductive Act (α : Type)
  /-- `send_now`. -/
  | sendNow (frames : List Bytes)
  /-- `post_send()`. -/
  | call (f : Value α)
  /-- `send` : the I/O thread sends what is queued. -/
  | send (frames : List Bytes)

namespace Runtime

variable (py : Runtime α)

/-- `callable(f)`. -/
def isCallable : Value α → Bool
  | .object x => py.callable x
  | _ => false

/-- `_is_chunk_result`. -/
def isChunkResult : Value α → Bool
  | .tuple [.list xs, f] => !xs.isEmpty && xs.all (fun x => x.content.isSome) && py.isCallable f
  | _ => false

/-- The `except` branch of `handle`; an exception that cannot be pickled ends the thread. -/
def fail (identity : Bytes) (uid exc : Value α) : List (Act α) :=
  match py.dumps (.tuple [uid, .bool false, exc]) with
  | .ok header => [.send [identity, header]]
  | .error _ => []

/-- `post_send()`, and what `handle` does when that raises. -/
def callPostSend (identity : Bytes) (uid postSend : Value α) : List (Act α) :=
  .call postSend ::
    match py.call postSend with
    | .ok () => []
    | .error exc => py.fail identity uid exc

/-- `handle`, once the handler has returned. -/
def respond (identity : Bytes) (uid result : Value α) : List (Act α) :=
  match result, py.isChunkResult result with
  | .tuple [.list chunks, postSend], true =>
    match py.dumps (.tuple [uid, .bool true, .none]) with
    | .error exc => py.fail identity uid exc
    | .ok header =>
      .sendNow (identity :: header :: chunks.filterMap Value.content) ::
        py.callPostSend identity uid postSend
  | result, _ =>
    match py.dumps (.tuple [uid, .bool true, result]) with
    | .error exc => py.fail identity uid exc
    | .ok header => [.send [identity, header]]

/-- `MQServer.handle` of a request, a pickled triple. `handlers` looks the handler up and runs
it. -/
def handle (handlers : Value α → Value α → Except (Value α) (Value α)) (identity blob : Bytes) :
    List (Act α) :=
  match py.loads blob with
  | .error exc => py.fail identity .none exc
  | .ok (.tuple [uid, req, payload]) =>
    match handlers req payload with
    | .error exc => py.fail identity uid exc
    | .ok result => py.respond identity uid result
  | .ok _ => py.fail identity .none py.unpackError

/-- `uid, ok, value = pickle.loads(frames[0])` of `MQClient.on_recv`. -/
def decode : List Bytes → Option (Frames (Value α) (Value α))
  | [] => none
  | head :: rest =>
    match py.loads head with
    | .ok (.tuple [.int uid, .bool true, .none]) => some ⟨uid, .ok none, rest⟩
    | .ok (.tuple [.int uid, .bool true, v]) => some ⟨uid, .ok (some v), rest⟩
    | .ok (.tuple [.int uid, .bool false, e]) => some ⟨uid, .error e, rest⟩
    | .ok (.tuple [.none, .bool false, e]) => some ⟨none, .error e, rest⟩
    | _ => none

end Runtime

/-- What `Future.result()` gives. -/
def Reply.result : Reply (Value α) (Value α) → Except (Value α) (Value α)
  | .value none => .ok .none
  | .value (some v) => .ok v
  | .chunks first rest => .ok (.list ((first :: rest).map .bytes))
  | .exception e => .error e

/-! ## What a client makes of the frames -/

namespace Runtime

variable {py : Runtime α}

/-- A client that waits for `uid` has its future resolved with `v` by the frames. -/
def Resolves (py : Runtime α) (frames : List Bytes) (uid : ℕ) (v : Value α) : Prop :=
  ∀ (R : Type) (cl : Client R (Value α) (Value α)) (fut : ℕ) (f : Future R (Value α) (Value α)),
    cl.receiving = none → cl.pending.get? uid = some fut → cl.futures[fut]? = some f →
    ∃ m r cl₁ cl₂, py.decode frames = some m ∧ cl.onRecv m = some cl₁ ∧
      cl₁.resolve = some cl₂ ∧ r.result = .ok v ∧
      cl₂.futures[fut]? = some { f with results := f.results ++ [r] }

/-- Frames that decode to those of a reply resolve the future with it. -/
theorem resolves_of_decode {frames : List Bytes} {uid : ℕ} {r : Reply (Value α) (Value α)}
    {v : Value α} (hm : py.decode frames = some (r.frames (some uid))) (hr : r.result = .ok v) :
    py.Resolves frames uid v := by
  intro R cl fut f hfree hpending hfut
  have hrecv : cl.onRecv (r.frames (some uid)) =
      some { cl with pending := cl.pending.erase uid, receiving := some (fut, r) } := by
    simp only [Client.onRecv, uid_frames, hfree, hpending, reply_frames]
  refine ⟨_, r, _, _, hm, hrecv, rfl, hr, ?_⟩
  rw [List.getElem?_modify_eq, hfut]
  rfl

/-- Pickle gives back what it took. -/
def RoundTrips (py : Runtime α) : Prop := ∀ v b, py.dumps v = .ok b → py.loads b = .ok v

theorem decode_value (h : py.RoundTrips) {uid : ℕ} {header : Bytes} {v : Value α}
    (hd : py.dumps (.tuple [.int uid, .bool true, v]) = .ok header) :
    py.Resolves [header] uid v := by
  have hloads := h _ _ hd
  by_cases hv : v = .none
  · subst hv
    refine resolves_of_decode (r := .value none) ?_ rfl
    simp only [decode, hloads, Reply.frames]
  · refine resolves_of_decode (r := .value (some v)) ?_ rfl
    simp only [decode, hloads, Reply.frames]

theorem decode_chunks (h : py.RoundTrips) {uid : ℕ} {header : Bytes}
    (hd : py.dumps (.tuple [.int uid, .bool true, .none]) = .ok header) (first : Bytes)
    (rest : List Bytes) :
    py.Resolves (header :: first :: rest) uid (.list ((first :: rest).map .bytes)) := by
  refine resolves_of_decode (r := .chunks first rest) ?_ rfl
  simp only [decode, h _ _ hd, Reply.frames]

/-- A request that does not unpickle is answered without a uid, and every client ignores that
reply. -/
theorem unpickled_ignored (h : py.RoundTrips) {identity blob header : Bytes} {exc : Value α}
    (hblob : py.loads blob = .error exc)
    (hd : py.dumps (.tuple [.none, .bool false, exc]) = .ok header)
    (handlers : Value α → Value α → Except (Value α) (Value α)) :
    py.handle handlers identity blob = [.send [identity, header]] ∧
    py.decode [header] = some ((Reply.exception exc).frames none) ∧
    ∀ (R : Type) (cl : Client R (Value α) (Value α)), cl.receiving = none →
      cl.onRecv ((Reply.exception exc).frames none) = some cl := by
  refine ⟨?_, ?_, fun R cl hfree => ?_⟩
  · simp only [handle, hblob, fail, hd]
  · simp only [decode, h _ _ hd, Reply.frames]
  · simp only [Client.onRecv, hfree, uid_frames]

/-! ## Chunk replies -/

/-- A list of byte strings with a callable : the byte strings, and the callable. -/
def chunkPair (py : Runtime α) : Value α → Option (List Bytes × Value α)
  | .tuple [.list xs, f] =>
    if xs.all (fun x => x.content.isSome) && py.isCallable f then
      some (xs.filterMap Value.content, f)
    else none
  | _ => none

/-- The future is resolved with the chunks, and `post_send` is run once, when the frames are
with the socket; any other result resolves the future as it is. -/
def Survives (py : Runtime α) (identity : Bytes) (uid : ℕ) (result : Value α)
    (acts : List (Act α)) : Prop :=
  match py.chunkPair result with
  | some (chunks, postSend) => ∃ frames more,
      acts = .sendNow (identity :: frames) :: .call postSend :: more ∧
      (∀ f, Act.call f ∉ more) ∧ py.Resolves frames uid (.list (chunks.map .bytes))
  | none => ∃ frames, acts = [.send (identity :: frames)] ∧ py.Resolves frames uid result

/-- A chunk result is a pair with at least one chunk. -/
theorem chunkPair_of_isChunkResult {result : Value α} (h : py.isChunkResult result = true) :
    ∃ xs f first rest, result = .tuple [.list xs, f] ∧
      xs.filterMap Value.content = first :: rest ∧
      py.chunkPair result = some (first :: rest, f) := by
  unfold isChunkResult at h
  split at h
  · rename_i xs f
    simp only [Bool.and_eq_true, Bool.not_eq_true', List.isEmpty_eq_false_iff] at h
    obtain ⟨⟨hne, hall⟩, hf⟩ := h
    obtain ⟨x, xs, rfl⟩ := List.exists_cons_of_ne_nil hne
    obtain ⟨first, hx⟩ := Option.isSome_iff_exists.mp
      (List.all_eq_true.mp hall x List.mem_cons_self)
    refine ⟨_, f, first, xs.filterMap Value.content, rfl, List.filterMap_cons_some hx, ?_⟩
    simp only [chunkPair, hall, hf, Bool.and_self, if_true, List.filterMap_cons_some hx]
  · cases h

/-- A pair that is no chunk result has no chunk. -/
theorem eq_empty_of_chunkPair {result f : Value α} {chunks : List Bytes}
    (h : py.isChunkResult result = false) (hpair : py.chunkPair result = some (chunks, f)) :
    result = .tuple [.list [], f] ∧ py.isCallable f = true := by
  unfold chunkPair at hpair
  split at hpair
  · rename_i xs f'
    split_ifs at hpair with hall
    cases hpair
    rw [isChunkResult, Bool.and_assoc, hall, Bool.and_true, Bool.not_eq_false',
      List.isEmpty_iff] at h
    subst h
    exact ⟨rfl, by simpa using hall⟩
  · cases hpair

theorem respond_of_value {identity : Bytes} {uid result : Value α}
    (h : py.isChunkResult result = false) : py.respond identity uid result =
      match py.dumps (.tuple [uid, .bool true, result]) with
      | .error exc => py.fail identity uid exc
      | .ok header => [.send [identity, header]] := by
  unfold respond
  split
  · rename_i hchunk
    rw [h] at hchunk
    cases hchunk
  · rfl

theorem sendNow_not_mem_fail (identity : Bytes) (uid exc : Value α) (frames : List Bytes) :
    Act.sendNow frames ∉ py.fail identity uid exc := by
  unfold fail
  split <;> simp

theorem call_not_mem_fail (identity : Bytes) (uid exc f : Value α) :
    Act.call f ∉ py.fail identity uid exc := by
  unfold fail
  split <;> simp

/-- `post_send` is run once. -/
theorem callPostSend_eq_cons (py : Runtime α) (identity : Bytes) (uid f : Value α) :
    ∃ more, py.callPostSend identity uid f = .call f :: more ∧ ∀ g, Act.call g ∉ more := by
  refine ⟨_, rfl, fun g => ?_⟩
  split
  · exact List.not_mem_nil
  · exact call_not_mem_fail _ _ _ _

/-- A chunk result goes out in frames of its own, and `post_send` runs after that. -/
theorem survives_of_chunks (h : py.RoundTrips) {uid : ℕ} {header : Bytes}
    (hhead : py.dumps (.tuple [.int uid, .bool true, .none]) = .ok header) (identity : Bytes)
    {result : Value α} (hchunk : py.isChunkResult result = true) :
    py.Survives identity uid result (py.respond identity (.int uid) result) := by
  obtain ⟨xs, f, first, rest, rfl, hcontent, hpair⟩ := chunkPair_of_isChunkResult hchunk
  obtain ⟨more, hmore, honce⟩ := callPostSend_eq_cons py identity (.int uid) f
  simp only [Survives, hpair]
  refine ⟨header :: first :: rest, more, ?_, honce, decode_chunks h hhead first rest⟩
  simp only [respond, hchunk, hhead, hcontent, hmore]

/-- An empty pair is pickled like a value, so `post_send` never runs. -/
theorem not_survives_of_empty {identity : Bytes} {uid : ℕ} {f : Value α}
    (hf : py.isCallable f = true) : ¬py.Survives identity uid (.tuple [.list [], f])
      (py.respond identity (.int uid) (.tuple [.list [], f])) := by
  have hpair : py.chunkPair (.tuple [.list [], f]) = some ([], f) := by
    simp [chunkPair, hf]
  simp only [Survives, hpair]
  rintro ⟨frames, more, hacts, -⟩
  have hmem : Act.sendNow (identity :: frames) ∈
      py.respond identity (.int uid) (.tuple [.list [], f]) := hacts ▸ List.mem_cons_self
  rw [respond_of_value rfl] at hmem
  split at hmem
  · exact sendNow_not_mem_fail _ _ _ _ hmem
  · simp at hmem

/-- The result of a handler, of any picklable kind or a list of chunks with its `post_send`,
reaches the client exactly when it is not the empty list of chunks. -/
theorem survives_iff (h : py.RoundTrips) {uid : ℕ} {identity blob : Bytes}
    (hhead : ∃ header, py.dumps (.tuple [.int uid, .bool true, .none]) = .ok header)
    {handlers : Value α → Value α → Except (Value α) (Value α)} {req payload result : Value α}
    (hblob : py.loads blob = .ok (.tuple [.int uid, req, payload]))
    (hhandler : handlers req payload = .ok result)
    (hresult : (py.chunkPair result).isSome ∨
      ∃ header, py.dumps (.tuple [.int uid, .bool true, result]) = .ok header) :
    py.Survives identity uid result (py.handle handlers identity blob) ↔
      ¬∃ f, result = .tuple [.list [], f] ∧ py.isCallable f = true := by
  have hhandle : py.handle handlers identity blob = py.respond identity (.int uid) result := by
    simp only [handle, hblob, hhandler]
  rw [hhandle]
  rcases hchunk : py.isChunkResult result with _ | _
  · rcases hpair : py.chunkPair result with _ | ⟨chunks, f⟩
    · obtain ⟨header, hd⟩ := hresult.resolve_left (by simp [hpair])
      refine iff_of_true ?_ ?_
      · simp only [Survives, hpair]
        refine ⟨[header], ?_, decode_value h hd⟩
        simp only [respond_of_value hchunk, hd]
      · rintro ⟨f, rfl, hf⟩
        simp [chunkPair, hf] at hpair
    · obtain ⟨rfl, hf⟩ := eq_empty_of_chunkPair hchunk hpair
      exact iff_of_false (not_survives_of_empty hf) fun hno => hno ⟨f, rfl, hf⟩
  · obtain ⟨header, hd⟩ := hhead
    refine iff_of_true (survives_of_chunks h hd identity hchunk) ?_
    rintro ⟨f, rfl, -⟩
    simp [isChunkResult] at hchunk

/-! ## A closure that pickle refuses -/

/-- A local closure, and what `pickle` raises for it. -/
inductive SampleObject
  | closure
  | pickleError
deriving DecidableEq

/-- Pickle on the messages of one request. -/
def samplePickle : Runtime SampleObject where
  dumps
    | .tuple [.int 0, .bool true, .none] => .ok [1]
    | .tuple [.int 0, .bool false, .object .pickleError] => .ok [2]
    | _ => .error (.object .pickleError)
  loads
    | [0] => .ok (.tuple [.int 0, .none, .none])
    | [1] => .ok (.tuple [.int 0, .bool true, .none])
    | [2] => .ok (.tuple [.int 0, .bool false, .object .pickleError])
    | _ => .error (.object .pickleError)
  callable x := x = .closure
  call _ := .ok ()
  unpackError := .object .pickleError

theorem roundTrips_samplePickle : samplePickle.RoundTrips := by
  intro v b hd
  simp only [samplePickle] at hd
  split at hd
  · cases hd
    rfl
  · cases hd
    rfl
  · cases hd

/-- A handler that returns no chunks and its `post_send` : the client gets the pickling error, and
`post_send` is not run. -/
theorem empty_chunks_lost :
    samplePickle.handle (fun _ _ => .ok (.tuple [.list [], .object .closure])) [9] [0] =
      [.send [[9], [2]]] ∧
    samplePickle.decode [[2]] = some ⟨some 0, .error (.object .pickleError), []⟩ ∧
    ¬samplePickle.Survives [9] 0 (.tuple [.list [], .object .closure])
      (samplePickle.handle (fun _ _ => .ok (.tuple [.list [], .object .closure])) [9] [0]) :=
  ⟨rfl, rfl, not_survives_of_empty rfl⟩

/-- Two chunks arrive. -/
theorem survives_iff_sample : samplePickle.Survives [9] 0
    (.tuple [.list [.bytes [7], .memoryview [8, 9]], .object .closure])
    (samplePickle.handle
      (fun _ _ => .ok (.tuple [.list [.bytes [7], .memoryview [8, 9]], .object .closure])) [9]
      [0]) :=
  (survives_iff roundTrips_samplePickle ⟨[1], rfl⟩ rfl rfl (Or.inl rfl)).mpr (by simp)

end Runtime

end MQ

end MiniLlmcache
