import MiniLlmcache.Hasher
import MiniLlmcache.Manager

/-!
# The cache server and its handler threads

`server.py`, with the sections of `PrefetchController` that handlers run. `CacheServer`
is what the threads share. A message is handled in a thread of its own; `Handler` is
where such a thread stands, and `Handler.step` runs it up to the next point at which
another thread may come in : one section under a lock, one access to a shared
dictionary, one slice copied, or one reply sent.

Two fields of `CacheServer` are ghosts, written and never read : `carried` lists the
blobs that STORE messages brought for a key, `written` the complete blobs copied into a
slot of a key, by a STORE or by an L2 load.
-/

namespace MiniLlmcache

/-- One registered vLLM engine (a TP rank) and its cache geometry. -/
structure EngineInstance where
  rank : ℕ
  model : String
  worldSize : ℕ
  blockSize : ℕ
  chunkNbytes : ℕ
deriving DecidableEq

/-- One queued lookup. -/
structure Job where
  requestId : String
  keys : List ChunkKey
  chunkNbytes : Option ℕ
deriving DecidableEq

structure CacheServer where
  chunkSize : ℕ
  l1 : L1Manager
  /-- `(model, world_size) -> chunk_nbytes`. -/
  deployments : OrderedDict (String × ℕ) ℕ
  instances : OrderedDict ℕ EngineInstance
  jobs : List Job
  /-- `request_id -> None` (pending) or `(l1_hits, l2_hits)`. -/
  hits : OrderedDict String (Option (ℕ × ℕ))
  /-- `request_id -> {ChunkKey: None}`, the read locks a session holds. -/
  held : OrderedDict String (OrderedDict ChunkKey Unit)
  carried : List (ChunkKey × Bytes)
  written : List (ChunkKey × Bytes)

/-- What a handler's client gets. -/
inductive Reply
  | bool (b : Bool)
  | int (n : ℕ)
  | none
  /-- The chunk frames were sent before the handler ended. -/
  | chunks
  | error (e : Exc)
deriving DecidableEq

/-- One slice a STORE fills : `written[i]`, `objs[i]` and `blobs[i]`. -/
structure StoreItem where
  key : ChunkKey
  obj : MemoryObj
  blob : Bytes
deriving DecidableEq

/-- Where a handler thread stands. -/
inductive Handler
  | start (m : Req)
  /-- `start_session`, before its section. -/
  | startSession (job : Job)
  | putJob (job : Job)
  | storeReserve (keys : List ChunkKey) (chunkNbytes : ℕ) (chunks : List Bytes)
  /-- The copy loop of `store`, with the slices filled and those still to fill. -/
  | storeCopy (filled todo : List StoreItem)
  | retrieveRead (requestId : String) (keys : List ChunkKey) (worldSize : ℕ)
  /-- `read` has returned the views; they are not sent yet. -/
  | retrieveSend (requestId : String) (keys : List ChunkKey) (objs : List MemoryObj)
  /-- `post_send`. -/
  | retrievePromote (requestId : String) (keys : List ChunkKey)
  | releaseFirst (requestId : String) (count : ℕ)
  /-- `release`, before its section; `ending` when `end_session` calls it. -/
  | release (requestId : String) (keys : Option (List ChunkKey)) (ending : Bool) (reply : Reply)
  /-- `release`, after its section. -/
  | finishRead (requestId : String) (released : List ChunkKey) (ending : Bool) (reply : Reply)
  /-- The last section of `end_session`. -/
  | popSession (requestId : String)
  | done (reply : Reply)
deriving DecidableEq

namespace CacheServer

/-- `CacheServer(chunk_size, capacity_bytes, l2s)` over an uninitialised pool. -/
def new (chunkSize capacity : ℕ) (pool : ℕ → UInt8) (l2 : Bool) : CacheServer where
  chunkSize := chunkSize
  l1 := .new capacity pool l2
  deployments := .empty
  instances := .empty
  jobs := []
  hits := .empty
  held := .empty
  carried := []
  written := []

def register (srv : CacheServer) (p : RegisterPayload) : CacheServer :=
  { srv with
    deployments := srv.deployments.set (p.model, p.worldSize) p.chunkNbytes
    instances := srv.instances.set p.instanceId
      ⟨p.rank, p.model, p.worldSize, p.blockSize, p.chunkNbytes⟩ }

def unregister (srv : CacheServer) (instanceId : ℕ) : Bool × CacheServer :=
  (srv.instances.contains instanceId, { srv with instances := srv.instances.erase instanceId })

def keysFor (hashes : List Bytes) (model : String) (ranks : List ℕ) : List ChunkKey :=
  hashes.flatMap fun h => ranks.map fun r => ⟨h, model, r⟩

/-- The keys of a LOOKUP go chunk by chunk, and rank by rank inside a chunk. -/
theorem getElem?_keysFor (model : String) {worldSize r : ℕ} (hr : r < worldSize) :
    ∀ (hashes : List Bytes) (j : ℕ),
      (keysFor hashes model (List.range worldSize))[j * worldSize + r]? =
        hashes[j]?.map fun h => ⟨h, model, r⟩
  | [], j => by simp [keysFor]
  | h :: hashes, 0 => by
    simp only [keysFor, List.flatMap_cons, Nat.zero_mul, Nat.zero_add]
    rw [List.getElem?_append_left (by simpa using hr)]
    simp [hr]
  | h :: hashes, j + 1 => by
    have ih := getElem?_keysFor model hr hashes j
    have hidx : (j + 1) * worldSize + r - worldSize = j * worldSize + r := by
      rw [Nat.succ_mul]
      omega
    simp only [keysFor, List.flatMap_cons] at ih ⊢
    rw [List.getElem?_append_right (by simp [Nat.succ_mul]; omega)]
    simpa [hidx] using ih

variable (blake3 : Bytes → Bytes)

/-- Chunk keys covered by one load or store operation (this rank only). -/
def opKeys (srv : CacheServer) (op : LoadStoreOp) (inst : EngineInstance) : List ChunkKey :=
  let hashes := chunkHashes blake3 (op.tokenIds.take op.stop) srv.chunkSize
  keysFor (hashes.drop (op.start / srv.chunkSize)) inst.model [inst.rank]

/-- The job of a LOOKUP : all ranks' keys, or none for an unknown deployment. -/
def lookupJob (srv : CacheServer) (p : LookupPayload) : Job :=
  match srv.deployments.get? (p.model, p.worldSize) with
  | none => ⟨p.requestId, [], none⟩
  | some chunkNbytes =>
    ⟨p.requestId, keysFor (chunkHashes blake3 p.tokenIds srv.chunkSize) p.model
      (List.range p.worldSize), some chunkNbytes⟩

/-- `hits[request_id] = None`. -/
def startSession (srv : CacheServer) (requestId : String) : CacheServer :=
  { srv with hits := srv.hits.set requestId none }

def putJob (srv : CacheServer) (job : Job) : CacheServer :=
  { srv with jobs := srv.jobs ++ [job] }

/-- `query` of the server : the hit tokens, `None` while pending. -/
def query (srv : CacheServer) (p : QueryPayload) : Reply :=
  match (srv.hits.get? p.requestId).join with
  | none => .none
  | some (l1Keys, l2Keys) =>
    if p.worldSize = 0 then .error .zeroDivisionError
    else .int ((l1Keys + l2Keys) / p.worldSize * srv.chunkSize)

/-- `for key in released: del held[key]`. -/
def delAll (held : OrderedDict ChunkKey Unit) :
    List ChunkKey → Outcome (OrderedDict ChunkKey Unit) Unit
  | [] => .returned held ()
  | key :: rest =>
    if held.contains key then delAll (held.erase key) rest else .raised held .keyError

/-- The section of `release` : take the released keys out of `held`. -/
def releaseHeld (srv : CacheServer) (requestId : String) (keys : Option (List ChunkKey)) :
    Outcome CacheServer (List ChunkKey) :=
  match srv.held.get? requestId with
  | none => .returned srv []
  | some held =>
    let released := (keys.getD held.keys).filter held.contains
    match delAll held released with
    | .returned held _ => .returned { srv with held := srv.held.set requestId held } released
    | .raised held e => .raised { srv with held := srv.held.set requestId held } e

/-- The keys a session holds, in order. -/
def heldKeys (srv : CacheServer) (requestId : String) : List ChunkKey :=
  (srv.held.get? requestId).elim [] OrderedDict.keys

/-- The section of `release_first`. -/
def firstHeld (srv : CacheServer) (requestId : String) (count : ℕ) : List ChunkKey :=
  (srv.heldKeys requestId).take count

/-- The last section of `end_session`. -/
def popSession (srv : CacheServer) (requestId : String) : CacheServer :=
  { srv with hits := srv.hits.erase requestId, held := srv.held.erase requestId }

/-- The section of `resolve` for a request that is still known. -/
def publish (srv : CacheServer) (requestId : String) (l1Keys loadedKeys : List ChunkKey) :
    CacheServer :=
  { srv with
    hits := srv.hits.set requestId (some (l1Keys.length, loadedKeys.length))
    held := srv.held.set requestId (.fromKeys (l1Keys ++ loadedKeys) ()) }

/-- One slice copied : `blob` is now complete in a slot of `key`. -/
def fill (srv : CacheServer) (key : ChunkKey) (obj : MemoryObj) (blob : Bytes) : CacheServer :=
  { srv with l1 := srv.l1.copyInto obj blob, written := srv.written ++ [(key, blob)] }

/-! ## Keys of an operation -/

variable {blake3}

theorem keysFor_singleton (hashes : List Bytes) (model : String) (rank : ℕ) :
    keysFor hashes model [rank] = hashes.map fun h => ⟨h, model, rank⟩ := by
  simp only [keysFor, List.map_cons, List.map_nil]
  exact List.map_eq_flatMap.symm

/-- Key `j` of an operation is the hash of chunk `start / chunk_size + j` of the tokens, also
when the operation carries the tokens only up to its end. -/
theorem getElem?_opKeys (srv : CacheServer) {op : LoadStoreOp} {tokens : List ℕ}
    (inst : EngineInstance) (htokens : op.tokenIds.take op.stop = tokens.take op.stop)
    (hstop : op.stop ≤ tokens.length) {j : ℕ}
    (hj : op.start / srv.chunkSize + j < op.stop / srv.chunkSize) :
    (srv.opKeys blake3 op inst)[j]? =
      (chunkHashes blake3 tokens srv.chunkSize)[op.start / srv.chunkSize + j]?.map fun h =>
        ⟨h, inst.model, inst.rank⟩ := by
  rw [opKeys, keysFor_singleton, htokens, chunkHashes_take hstop, List.getElem?_map,
    List.getElem?_drop, List.getElem?_take_of_lt hj]

theorem length_opKeys (srv : CacheServer) {op : LoadStoreOp} {tokens : List ℕ}
    (inst : EngineInstance) (htokens : op.tokenIds.take op.stop = tokens.take op.stop)
    (hstop : op.stop ≤ tokens.length) :
    (srv.opKeys blake3 op inst).length = op.stop / srv.chunkSize - op.start / srv.chunkSize := by
  rw [opKeys, keysFor_singleton, htokens, List.length_map, List.length_drop, length_chunkHashes,
    List.length_take, Nat.min_eq_left hstop]

end CacheServer

namespace Handler

variable (blake3 : Bytes → Bytes)

/-- A handler's first access to what is shared. The session's counts that `retrieve`
queries only feed its log line. -/
def dispatch (srv : CacheServer) : Req → CacheServer × Handler
  | .getChunkSize => (srv, .done (.int srv.chunkSize))
  | .registerKvCache p => (srv.register p, .done (.bool true))
  | .unregisterKvCache instanceId =>
    let (found, srv) := srv.unregister instanceId
    (srv, .done (.bool found))
  | .lookup p => (srv, .startSession (srv.lookupJob blake3 p))
  | .queryPrefetchStatus p => (srv, .done (srv.query p))
  | .retrieve p =>
    match srv.instances.get? p.instanceId with
    | none => (srv, .done (.error .keyError))
    | some inst => (srv, .retrieveRead p.requestId (srv.opKeys blake3 p.op inst) inst.worldSize)
  | .store p =>
    match srv.instances.get? p.instanceId with
    | none => (srv, .done (.error .keyError))
    | some inst =>
      let keys := srv.opKeys blake3 p.op inst
      ({ srv with carried := srv.carried ++ keys.zip p.chunks },
        .storeReserve keys inst.chunkNbytes p.chunks)
  | .freeLookupLocks p => (srv, .releaseFirst p.requestId (p.numChunks * p.worldSize))
  | .endSession requestId => (srv, .release requestId none true (.bool true))
  | .transferAck => (srv, .done (.bool true))

/-- The slices a STORE fills : the reserved keys that have a chunk. -/
def storeItems (reserved : OrderedDict ChunkKey (Option MemoryObj)) (keys : List ChunkKey)
    (chunks : List Bytes) : List StoreItem :=
  (keys.zip chunks).filterMap fun p =>
    (L1Manager.reservedObj reserved p.1).map fun obj => ⟨p.1, obj, p.2⟩

/-- One step of a handler thread. -/
def step (srv : CacheServer) : Handler → Option (CacheServer × Handler)
  | start m => some (dispatch blake3 srv m)
  | startSession job => some (srv.startSession job.requestId, putJob job)
  | putJob job => some (srv.putJob job, done (.bool true))
  | storeReserve keys chunkNbytes chunks =>
    let (reserved, l1) := srv.l1.reserveWrite keys chunkNbytes false
    some ({ srv with l1 }, storeCopy [] (storeItems reserved keys chunks))
  | storeCopy filled (item :: todo) =>
    if item.blob.length = item.obj.nbytes then
      some (srv.fill item.key item.obj item.blob, storeCopy (filled ++ [item]) todo)
    else some (srv, done (.error .valueError))
  | storeCopy filled [] =>
    match srv.l1.finishWrite (filled.map StoreItem.key) with
    | .returned l1 _ => some ({ srv with l1 }, done (.bool true))
    | .raised l1 e => some ({ srv with l1 }, done (.error e))
  | retrieveRead requestId keys worldSize =>
    match srv.l1.read keys with
    | .error e => some (srv, done (.error e))
    | .ok objs =>
      if worldSize = 0 then some (srv, done (.error .zeroDivisionError))
      -- without chunks the pair is pickled, and `post_send` is a closure
      else if objs = [] then some (srv, done (.error .pickleError))
      else some (srv, retrieveSend requestId keys objs)
  | retrieveSend requestId keys _ => some (srv, retrievePromote requestId keys)
  | retrievePromote requestId keys =>
    some ({ srv with l1 := srv.l1.promote keys }, release requestId (some keys) false .chunks)
  | releaseFirst requestId count =>
    some (srv, release requestId (some (srv.firstHeld requestId count)) false (.bool true))
  | release requestId keys ending reply =>
    match srv.releaseHeld requestId keys with
    | .returned srv released => some (srv, finishRead requestId released ending reply)
    | .raised srv e => some (srv, done (.error e))
  | finishRead requestId released ending reply =>
    match srv.l1.finishRead released with
    | .returned l1 _ =>
      some ({ srv with l1 }, if ending then popSession requestId else done reply)
    | .raised l1 e => some ({ srv with l1 }, done (.error e))
  | popSession requestId => some (srv.popSession requestId, done (.bool true))
  | done _ => none

/-- What a handler's step can do, case by case. -/
inductive Does (srv : CacheServer) : Handler → CacheServer → Handler → Prop
  | dispatch (m : Req) :
      Does srv (start m) (dispatch blake3 srv m).1 (Handler.dispatch blake3 srv m).2
  | startSession (job : Job) :
      Does srv (startSession job) (srv.startSession job.requestId) (putJob job)
  | putJob (job : Job) : Does srv (putJob job) (srv.putJob job) (done (.bool true))
  | reserve (keys : List ChunkKey) (n : ℕ) (chunks : List Bytes) :
      Does srv (storeReserve keys n chunks)
        { srv with l1 := (srv.l1.reserveWrite keys n false).2 }
        (storeCopy [] (storeItems (srv.l1.reserveWrite keys n false).1 keys chunks))
  | copy {item : StoreItem} (filled todo : List StoreItem)
      (hlen : item.blob.length = item.obj.nbytes) :
      Does srv (storeCopy filled (item :: todo)) (srv.fill item.key item.obj item.blob)
        (storeCopy (filled ++ [item]) todo)
  | wrongSize {item : StoreItem} (filled todo : List StoreItem)
      (hlen : item.blob.length ≠ item.obj.nbytes) :
      Does srv (storeCopy filled (item :: todo)) srv (done (.error .valueError))
  | finishWrite {filled : List StoreItem} {l1 : L1Manager}
      (h : srv.l1.finishWrite (filled.map StoreItem.key) = .returned l1 ()) :
      Does srv (storeCopy filled []) { srv with l1 } (done (.bool true))
  | finishWriteFail {filled : List StoreItem} {l1 : L1Manager} {e : Exc}
      (h : srv.l1.finishWrite (filled.map StoreItem.key) = .raised l1 e) :
      Does srv (storeCopy filled []) { srv with l1 } (done (.error e))
  | read {requestId : String} {keys : List ChunkKey} {worldSize : ℕ} {objs : List MemoryObj}
      (h : srv.l1.read keys = .ok objs) :
      Does srv (retrieveRead requestId keys worldSize) srv (retrieveSend requestId keys objs)
  | readFail (requestId : String) (keys : List ChunkKey) (worldSize : ℕ) (e : Exc) :
      Does srv (retrieveRead requestId keys worldSize) srv (done (.error e))
  | send (requestId : String) (keys : List ChunkKey) (objs : List MemoryObj) :
      Does srv (retrieveSend requestId keys objs) srv (retrievePromote requestId keys)
  | promote (requestId : String) (keys : List ChunkKey) :
      Does srv (retrievePromote requestId keys) { srv with l1 := srv.l1.promote keys }
        (release requestId (some keys) false .chunks)
  | releaseFirst (requestId : String) (count : ℕ) :
      Does srv (releaseFirst requestId count) srv
        (release requestId (some (srv.firstHeld requestId count)) false (.bool true))
  | release {requestId : String} {keys : Option (List ChunkKey)} {ending : Bool} {reply : Reply}
      {srv' : CacheServer} {released : List ChunkKey}
      (h : srv.releaseHeld requestId keys = .returned srv' released) :
      Does srv (release requestId keys ending reply) srv'
        (finishRead requestId released ending reply)
  | releaseFail {requestId : String} {keys : Option (List ChunkKey)} {ending : Bool}
      {reply : Reply} {srv' : CacheServer} {e : Exc}
      (h : srv.releaseHeld requestId keys = .raised srv' e) :
      Does srv (release requestId keys ending reply) srv' (done (.error e))
  | finishRead {requestId : String} {released : List ChunkKey} {ending : Bool} {reply : Reply}
      {l1 : L1Manager} (h : srv.l1.finishRead released = .returned l1 ()) :
      Does srv (finishRead requestId released ending reply) { srv with l1 }
        (if ending then popSession requestId else done reply)
  | finishReadFail {requestId : String} {released : List ChunkKey} {ending : Bool}
      {reply : Reply} {l1 : L1Manager} {e : Exc} (h : srv.l1.finishRead released = .raised l1 e) :
      Does srv (finishRead requestId released ending reply) { srv with l1 } (done (.error e))
  | pop (requestId : String) :
      Does srv (popSession requestId) (srv.popSession requestId) (done (.bool true))

variable {blake3}

theorem does_of_step {srv srv' : CacheServer} {hd hd' : Handler}
    (hs : hd.step blake3 srv = some (srv', hd')) : Does blake3 srv hd srv' hd' := by
  cases hd with
  | start m =>
    have hd : Does blake3 srv (start m) _ _ := .dispatch m
    rw [Option.some.inj hs] at hd
    exact hd
  | storeCopy filled todo =>
    cases todo with
    | nil =>
      simp only [step] at hs
      split at hs
      · cases hs
        exact .finishWrite ‹_›
      · cases hs
        exact .finishWriteFail ‹_›
    | cons item todo =>
      simp only [step] at hs
      split_ifs at hs with hlen
      · cases hs
        exact .copy filled todo hlen
      · cases hs
        exact .wrongSize filled todo hlen
  | retrieveRead requestId keys worldSize =>
    simp only [step] at hs
    split at hs
    · cases hs
      exact .readFail _ _ _ _
    · split_ifs at hs
      · cases hs
        exact .readFail _ _ _ _
      · cases hs
        exact .readFail _ _ _ _
      · cases hs
        exact .read ‹_›
  | release requestId keys ending reply =>
    simp only [step] at hs
    split at hs
    · cases hs
      exact .release ‹_›
    · cases hs
      exact .releaseFail ‹_›
  | finishRead requestId released ending reply =>
    simp only [step] at hs
    split at hs
    · cases hs
      exact .finishRead ‹_›
    · cases hs
      exact .finishReadFail ‹_›
  | done reply => cases hs
  | startSession job =>
    cases hs
    exact .startSession job
  | putJob job =>
    cases hs
    exact .putJob job
  | storeReserve keys n chunks =>
    cases hs
    exact .reserve keys n chunks
  | retrieveSend requestId keys objs =>
    cases hs
    exact .send requestId keys objs
  | retrievePromote requestId keys =>
    cases hs
    exact .promote requestId keys
  | releaseFirst requestId count =>
    cases hs
    exact .releaseFirst requestId count
  | popSession requestId =>
    cases hs
    exact .pop requestId

end Handler

end MiniLlmcache
