import MiniLlmcache.Server
import MiniLlmcache.Transfer

/-!
# The connector on vLLM's scheduler side

The part of `integration/vllm_connector.py` that runs in the scheduler : the trackers, the
hooks that move them, and the operations they generate. A hook returns what vLLM gets and the
messages it submits to the cache server; the answer of a blocking call comes in as an
argument. The hooks' futures are not looked at.

`Metadata` is what the scheduler hands to the worker. It carries the fact that each kind of
operation comes once a request, which `buildConnectorMeta` gets from its dictionaries.
-/

namespace MiniLlmcache

/-- Per-request state, threaded through the vLLM hook callbacks. -/
structure RequestTracker where
  tokenIds : List ℕ
  lmcacheHits : ℕ := 0
  vllmHits : ℕ := 0
  blockIds : List ℕ := []
  numComputedTokens : ℕ := 0
  numStoredTokens : ℕ := 0
  lookupResolved : Bool := false
  loadPending : Bool := false
  allocSeen : Bool := false
deriving DecidableEq

/-- The `Req` of a queued transfer. -/
inductive Direction
  | store
  | retrieve
deriving DecidableEq

/-- A queued transfer for one request. -/
structure ReqMeta where
  requestId : String
  req : Direction
  op : LoadStoreOp
deriving DecidableEq

/-- `self._get_connector_metadata().requests` for one kind of transfer. -/
def opsOf (req : Direction) (requests : List ReqMeta) : List ReqMeta :=
  requests.filter fun m => m.req = req

/-- `MiniConnectorMetadata` : at most one STORE and one RETRIEVE of a request. -/
structure Metadata where
  requests : List ReqMeta
  nodup : ∀ req, ((opsOf req requests).map ReqMeta.requestId).Nodup

/-- The connector of a scheduler; `__init__` has checked the two sizes. -/
structure MiniConnector where
  chunkSize : ℕ
  blockSize : ℕ
  model : String
  worldSize : ℕ
  trackers : OrderedDict String RequestTracker
  chunkSize_pos : 0 < chunkSize
  blockSize_pos : 0 < blockSize
  whole : chunkSize % blockSize = 0

/-- One entry of `scheduled_new_reqs`. -/
structure NewReq where
  reqId : String
  blockIds : List ℕ
  numComputedTokens : ℕ

/-- One entry of `scheduled_cached_reqs`. -/
structure CachedReq where
  reqId : String
  newBlockIds : Option (List ℕ)
  resumed : Bool
  numComputedTokens : ℕ

namespace MiniConnector

variable (c : MiniConnector)

/-- `chunk_size // block_size`, as the transfer engine takes it. -/
def blocksPerChunk : ℕ := c.chunkSize / c.blockSize

theorem blocksPerChunk_mul : c.blocksPerChunk * c.blockSize = c.chunkSize :=
  Nat.div_mul_cancel (Nat.dvd_of_mod_eq_zero c.whole)

theorem blocksPerChunk_pos : 0 < c.blocksPerChunk := by
  refine Nat.pos_of_ne_zero fun h => c.chunkSize_pos.ne' ?_
  rw [← c.blocksPerChunk_mul, h, Nat.zero_mul]

/-- Chunks are whole blocks. -/
theorem mul_chunkSize_div (q : ℕ) : q * c.chunkSize / c.blockSize = q * c.blocksPerChunk := by
  rw [← c.blocksPerChunk_mul, ← Nat.mul_assoc, Nat.mul_div_cancel _ c.blockSize_pos]

/-! ## Operations -/

/-- One RETRIEVE op covering the cached tokens we haven't computed. -/
def generateRetrieveOp (tracker : RequestTracker) : Option LoadStoreOp × RequestTracker :=
  if tracker.loadPending then
    let start := tracker.vllmHits / c.chunkSize * c.chunkSize
    let stop := tracker.lmcacheHits
    (some ⟨tracker.tokenIds.take stop,
      slice tracker.blockIds (start / c.blockSize) (stop / c.blockSize), start, stop,
      tracker.vllmHits - start⟩, { tracker with loadPending := false })
  else (none, tracker)

/-- The tokens of a request that are computed and have a block. -/
def available (tracker : RequestTracker) : ℕ :=
  min (min tracker.tokenIds.length (tracker.blockIds.length * c.blockSize))
    tracker.numComputedTokens

/-- One STORE op for the newly computed whole chunks, if any. -/
def generateStoreOp (tracker : RequestTracker) : Option LoadStoreOp × RequestTracker :=
  let numChunks := (c.available tracker - tracker.numStoredTokens) / c.chunkSize
  if numChunks = 0 then (none, tracker)
  else
    let start := tracker.numStoredTokens
    let stop := start + numChunks * c.chunkSize
    (some ⟨tracker.tokenIds.take stop,
      slice tracker.blockIds (start / c.blockSize) (stop / c.blockSize), start, stop, 0⟩,
      { tracker with numStoredTokens := stop })

/-- What a STORE op covers : whole chunks that have tokens and blocks, from where the last one
ended. -/
theorem generateStoreOp_some {tracker : RequestTracker} {op : LoadStoreOp}
    (h : (c.generateStoreOp tracker).1 = some op) :
    op.start = tracker.numStoredTokens ∧
    (∃ n, 0 < n ∧ op.stop = op.start + n * c.chunkSize) ∧
    op.stop ≤ tracker.tokenIds.length ∧ op.stop ≤ tracker.blockIds.length * c.blockSize ∧
    op.tokenIds = tracker.tokenIds.take op.stop ∧
    op.blockIds = slice tracker.blockIds (op.start / c.blockSize) (op.stop / c.blockSize) := by
  unfold generateStoreOp at h
  dsimp only at h
  split_ifs at h with hn
  cases h
  have hle := Nat.div_mul_le_self (c.available tracker - tracker.numStoredTokens) c.chunkSize
  have hpos : 0 < (c.available tracker - tracker.numStoredTokens) / c.chunkSize *
      c.chunkSize := Nat.mul_pos (Nat.pos_of_ne_zero hn) c.chunkSize_pos
  have havail : tracker.numStoredTokens + (c.available tracker - tracker.numStoredTokens) /
      c.chunkSize * c.chunkSize ≤ c.available tracker := by omega
  refine ⟨rfl, ⟨_, Nat.pos_of_ne_zero hn, rfl⟩, havail.trans ?_, havail.trans ?_, rfl, rfl⟩
  · exact (Nat.min_le_left _ _).trans (Nat.min_le_left _ _)
  · exact (Nat.min_le_left _ _).trans (Nat.min_le_right _ _)

/-! ## Hooks -/

def setTracker (requestId : String) (tracker : RequestTracker) : MiniConnector :=
  { c with trackers := c.trackers.set requestId tracker }

/-- The answer of QUERY_PREFETCH_STATUS for a tracker whose lookup is not resolved : what
vLLM gets, and the tracker. -/
def resolve (tracker : RequestTracker) (numComputedTokens : ℕ) :
    Except Exc (Option ℕ) → (Option ℕ × Bool) × RequestTracker
  | .error _ => ((some 0, false), { tracker with lookupResolved := true })
  | .ok none => ((none, true), tracker)
  | .ok (some hits) =>
    ((if numComputedTokens < hits then (some (hits - numComputedTokens), true)
      else (some 0, false)),
      { tracker with
        lookupResolved := true
        lmcacheHits := hits
        vllmHits := numComputedTokens
        numStoredTokens := hits })

/-- Tell vLLM how many prompt tokens the cache has pre-computed. `reply` is the answer of the
QUERY_PREFETCH_STATUS call, where one is made. -/
def getNumNewMatchedTokens (requestId : String) (allTokenIds promptTokenIds : List ℕ)
    (numComputedTokens : ℕ) (reply : Except Exc (Option ℕ)) :
    (Option ℕ × Bool) × MiniConnector × List Req :=
  match c.trackers.get? requestId with
  | none =>
    let numLookup := promptTokenIds.length / c.chunkSize * c.chunkSize
    let (answer, tracker) := resolve { tokenIds := allTokenIds } numComputedTokens reply
    (answer, c.setTracker requestId tracker,
      [.lookup ⟨requestId, promptTokenIds.take numLookup, c.model, c.worldSize⟩,
        .queryPrefetchStatus ⟨requestId, c.worldSize⟩])
  | some tracker =>
    if tracker.lookupResolved then ((some 0, false), c, [])
    else
      let (answer, tracker) := resolve tracker numComputedTokens reply
      (answer, c.setTracker requestId tracker, [.queryPrefetchStatus ⟨requestId, c.worldSize⟩])

/-- What is announced for a request whose lookup is not resolved, when there are hits past what
is computed. -/
theorem announced {requestId : String} {allTokenIds promptTokenIds : List ℕ}
    {numComputedTokens hits : ℕ} (hlt : numComputedTokens < hits)
    (hopen : (c.trackers.get? requestId).all (fun tracker => !tracker.lookupResolved) = true) :
    (c.getNumNewMatchedTokens requestId allTokenIds promptTokenIds numComputedTokens
      (.ok (some hits))).1 = (some (hits - numComputedTokens), true) := by
  have hresolve : ∀ tracker, (resolve tracker numComputedTokens (.ok (some hits))).1 =
      (some (hits - numComputedTokens), true) := fun tracker => by
    rw [resolve, if_pos hlt]
  unfold getNumNewMatchedTokens
  rcases hc : c.trackers.get? requestId with _ | tracker
  · exact hresolve { tokenIds := allTokenIds }
  · rw [hc, Option.all_some, Bool.not_eq_true'] at hopen
    simp only [hopen, Bool.false_eq_true, if_false]
    exact hresolve tracker

/-- Record allocated blocks and free lookup locks we won't need. -/
def updateStateAfterAlloc (requestId : String) (groupBlocks : List ℕ) (numExternalTokens : ℕ) :
    MiniConnector × List Req :=
  match c.trackers.get? requestId with
  | none => (c, [])
  | some tracker =>
    let tracker := { tracker with
      blockIds := tracker.blockIds ++ groupBlocks.drop tracker.blockIds.length
      loadPending := tracker.loadPending || 0 < numExternalTokens }
    if tracker.allocSeen then (c.setTracker requestId tracker, [])
    else
      let lmcacheChunks := tracker.lmcacheHits / c.chunkSize
      let freeUntil :=
        if tracker.loadPending then min (tracker.vllmHits / c.chunkSize) lmcacheChunks
        else lmcacheChunks
      (c.setTracker requestId { tracker with allocSeen := true },
        if freeUntil = 0 then []
        else [.freeLookupLocks ⟨requestId, freeUntil, c.worldSize⟩])

/-- `self.trackers.pop(request_id, None)` and the END_SESSION. -/
def requestFinished (requestId : String) : MiniConnector × List Req :=
  ({ c with trackers := c.trackers.erase requestId }, [.endSession requestId])

/-! ## The metadata of a step -/

/-- The RETRIEVE ops of the trackers, in their order. -/
def retrieveOps : List (String × RequestTracker) → List ReqMeta × List (String × RequestTracker)
  | [] => ([], [])
  | (reqId, tracker) :: rest =>
    let (op, tracker) := c.generateRetrieveOp tracker
    let (metas, rest) := retrieveOps rest
    ((op.map fun op => ⟨reqId, .retrieve, op⟩).toList ++ metas, (reqId, tracker) :: rest)

theorem map_fst_retrieveOps : ∀ l : List (String × RequestTracker),
    ((c.retrieveOps l).2.map Prod.fst) = l.map Prod.fst
  | [] => rfl
  | (reqId, tracker) :: rest => by
    rw [retrieveOps, List.map_cons, List.map_cons, map_fst_retrieveOps rest]

theorem retrieveOps_sublist : ∀ l : List (String × RequestTracker),
    ((c.retrieveOps l).1.map ReqMeta.requestId).Sublist (l.map Prod.fst) ∧
      ∀ m ∈ (c.retrieveOps l).1, m.req = .retrieve
  | [] => ⟨List.Sublist.refl _, nofun⟩
  | (reqId, tracker) :: rest => by
    obtain ⟨hsub, hreq⟩ := retrieveOps_sublist rest
    simp only [retrieveOps]
    rcases (c.generateRetrieveOp tracker).1 with _ | op
    · exact ⟨hsub.cons reqId, hreq⟩
    · refine ⟨hsub.cons_cons reqId, fun m hm => ?_⟩
      rcases List.mem_cons.mp hm with rfl | hm
      · rfl
      · exact hreq m hm

/-- The trackers after the RETRIEVE ops. -/
def afterRetrieve : OrderedDict String RequestTracker :=
  ⟨(c.retrieveOps c.trackers.items).2, by
    rw [map_fst_retrieveOps]
    exact c.trackers.nodup⟩

def scheduleNew (trackers : OrderedDict String RequestTracker) (r : NewReq) :
    OrderedDict String RequestTracker :=
  match trackers.get? r.reqId with
  | none => trackers
  | some tracker =>
    trackers.set r.reqId { tracker with
      blockIds := r.blockIds
      numComputedTokens := r.numComputedTokens }

def scheduleCached (trackers : OrderedDict String RequestTracker) (r : CachedReq) :
    OrderedDict String RequestTracker :=
  match trackers.get? r.reqId with
  | none => trackers
  | some tracker =>
    let blockIds :=
      match r.newBlockIds with
      | none => tracker.blockIds
      -- a resumed request has its block table rebuilt from scratch
      | some blocks => if r.resumed then blocks else tracker.blockIds ++ blocks
    trackers.set r.reqId { tracker with blockIds, numComputedTokens := r.numComputedTokens }

/-- The loop over `num_scheduled_tokens` : the STORE ops. -/
def storeOps (trackers : OrderedDict String RequestTracker) :
    List (String × ℕ) → List ReqMeta × OrderedDict String RequestTracker
  | [] => ([], trackers)
  | (reqId, scheduled) :: rest =>
    match trackers.get? reqId with
    | none => storeOps trackers rest
    | some tracker =>
      let (op, tracker) := c.generateStoreOp
        { tracker with numComputedTokens := tracker.numComputedTokens + scheduled }
      let (metas, trackers) := storeOps (trackers.set reqId tracker) rest
      ((op.map fun op => ⟨reqId, .store, op⟩).toList ++ metas, trackers)

theorem storeOps_sublist : ∀ (l : List (String × ℕ)) (trackers : OrderedDict String RequestTracker),
    ((c.storeOps trackers l).1.map ReqMeta.requestId).Sublist (l.map Prod.fst) ∧
      ∀ m ∈ (c.storeOps trackers l).1, m.req = .store
  | [], _ => ⟨List.Sublist.refl _, nofun⟩
  | (reqId, scheduled) :: rest, trackers => by
    rw [storeOps]
    rcases trackers.get? reqId with _ | tracker
    · obtain ⟨hsub, hreq⟩ := storeOps_sublist rest trackers
      exact ⟨hsub.cons reqId, hreq⟩
    · dsimp only
      obtain ⟨hsub, hreq⟩ := storeOps_sublist rest (trackers.set reqId
        (c.generateStoreOp { tracker with
          numComputedTokens := tracker.numComputedTokens + scheduled }).2)
      rcases (c.generateStoreOp { tracker with
          numComputedTokens := tracker.numComputedTokens + scheduled }).1 with _ | op
      · exact ⟨hsub.cons reqId, hreq⟩
      · refine ⟨hsub.cons_cons reqId, fun m hm => ?_⟩
        rcases List.mem_cons.mp hm with rfl | hm
        · rfl
        · exact hreq m hm

/-- Update trackers from the scheduler output and queue transfer ops. -/
def buildConnectorMeta (newReqs : List NewReq) (cachedReqs : List CachedReq)
    (numScheduledTokens : OrderedDict String ℕ) : Metadata × MiniConnector :=
  let trackers := cachedReqs.foldl scheduleCached (newReqs.foldl scheduleNew c.afterRetrieve)
  let retrieves := (c.retrieveOps c.trackers.items).1
  let stores := c.storeOps trackers numScheduledTokens.items
  (⟨retrieves ++ stores.1, by
    obtain ⟨hr, hreq⟩ := c.retrieveOps_sublist c.trackers.items
    obtain ⟨hs, hsreq⟩ := c.storeOps_sublist numScheduledTokens.items trackers
    have hfilter : ∀ {l : List ReqMeta} {req req' : Direction}, (∀ m ∈ l, m.req = req) →
        opsOf req' l = if req = req' then l else [] := by
      intro l req req' h
      split_ifs with heq
      · exact List.filter_eq_self.mpr fun m hm => decide_eq_true ((h m hm).trans heq)
      · exact List.filter_eq_nil_iff.mpr fun m hm hreq =>
          heq ((h m hm).symm.trans (of_decide_eq_true hreq))
    intro req
    rw [opsOf, List.filter_append, ← opsOf, ← opsOf, hfilter hreq, hfilter hsreq]
    cases req with
    | store => exact numScheduledTokens.nodup.sublist hs
    | retrieve =>
      rw [if_pos rfl, if_neg nofun, List.append_nil]
      exact c.trackers.nodup.sublist hr⟩, { c with trackers := stores.2 })

end MiniConnector

/-! ## Engines -/

/-- An engine : its connector, and the transfer engine that `register_kv_caches` builds. -/
structure Engine where
  connector : MiniConnector
  transfer : KVTransfer
  blocksPerChunk : transfer.blocksPerChunk = connector.blocksPerChunk

namespace Engine

def registerPayload (e : Engine) (instanceId : ℕ) : RegisterPayload where
  instanceId := instanceId
  model := e.connector.model
  rank := e.transfer.rank
  worldSize := e.connector.worldSize
  blockSize := e.connector.blockSize
  chunkNbytes := e.transfer.chunkNbytes

/-- What the server keeps of its registration. -/
def inst (e : Engine) : EngineInstance where
  rank := e.transfer.rank
  model := e.connector.model
  worldSize := e.connector.worldSize
  blockSize := e.connector.blockSize
  chunkNbytes := e.transfer.chunkNbytes

/-- `_finish_load` : what is scattered into the KV cache, and the exception that ends it. -/
def finishLoad (e : Engine) (op : LoadStoreOp) (chunks : List Bytes) :
    List BlockWrite × Option Exc :=
  e.transfer.fromHost chunks op.blockIds (op.skipFirstNTokens / e.connector.blockSize)

/-- The tokens of the blocks that a load of `op` does not skip. -/
def tokensLoaded (e : Engine) (op : LoadStoreOp) : ℕ :=
  (op.blockIds.drop (op.skipFirstNTokens / e.connector.blockSize)).length * e.connector.blockSize

/-- A STORE op of the connector, over a block table of this engine. -/
def StoreOp (e : Engine) (op : LoadStoreOp) : Prop :=
  ∃ tracker, e.connector.chunkSize ∣ tracker.numStoredTokens ∧
    (∀ id ∈ tracker.blockIds, id < e.transfer.numBlocks) ∧
    (e.connector.generateStoreOp tracker).1 = some op

/-- A STORE op in blocks : it stores `n` chunks from chunk `q` on. -/
theorem storeOp_eq {e : Engine} {tracker : RequestTracker} {op : LoadStoreOp} {q : ℕ}
    (hop : (e.connector.generateStoreOp tracker).1 = some op)
    (hstart : op.start = q * e.connector.chunkSize) :
    ∃ n, op.stop = (q + n) * e.connector.chunkSize ∧
      op.blockIds = slice tracker.blockIds (q * e.transfer.blocksPerChunk)
        ((q + n) * e.transfer.blocksPerChunk) ∧
      (q + n) * e.transfer.blocksPerChunk ≤ tracker.blockIds.length ∧
      op.blockIds.length = n * e.transfer.blocksPerChunk := by
  obtain ⟨-, ⟨n, -, hstop⟩, -, hblocks, -, hids⟩ := e.connector.generateStoreOp_some hop
  rw [hstart, ← Nat.add_mul] at hstop
  rw [hstart, hstop, MiniConnector.mul_chunkSize_div, MiniConnector.mul_chunkSize_div,
    ← e.blocksPerChunk] at hids
  have htable : (q + n) * e.transfer.blocksPerChunk ≤ tracker.blockIds.length := by
    rw [hstop, ← e.connector.blocksPerChunk_mul, ← e.blocksPerChunk, ← Nat.mul_assoc] at hblocks
    exact Nat.le_of_mul_le_mul_right hblocks e.connector.blockSize_pos
  refine ⟨n, hstop, hids, htable, ?_⟩
  rw [hids, length_slice, Nat.min_eq_left htable, Nat.add_mul, Nat.add_sub_cancel_left]

/-- `to_host` does not raise on it. -/
theorem StoreOp.toHost {e : Engine} {op : LoadStoreOp} (h : e.StoreOp op)
    (kv : KVCache e.transfer.blockNbytes) :
    ∃ chunks, e.transfer.toHost kv op.blockIds = .ok chunks := by
  obtain ⟨tracker, ⟨q, hq⟩, hbounded, hop⟩ := h
  have hstart : op.start = q * e.connector.chunkSize := by
    rw [(e.connector.generateStoreOp_some hop).1, hq, Nat.mul_comm]
  obtain ⟨n, -, hids, -, hlen⟩ := storeOp_eq hop hstart
  have hpos : 0 < e.transfer.blocksPerChunk := e.blocksPerChunk ▸ e.connector.blocksPerChunk_pos
  have hin : ∀ id ∈ op.blockIds, id < e.transfer.numBlocks := fun id hid =>
    hbounded id (mem_of_mem_slice (hids ▸ hid))
  simp only [KVTransfer.toHost, KVTransfer.wholeChunks_of_length hlen hpos, if_pos hin]
  exact ⟨_, rfl⟩

/-- A request of `B` with a load to generate, over a table of distinct blocks. -/
structure Loads (B : Engine) (tracker : RequestTracker) : Prop where
  pending : tracker.loadPending = true
  whole : B.connector.chunkSize ∣ tracker.lmcacheHits
  aligned : B.connector.blockSize ∣ tracker.vllmHits
  lt : tracker.vllmHits < tracker.lmcacheHits
  covers : tracker.lmcacheHits ≤ tracker.blockIds.length * B.connector.blockSize
  nodup : tracker.blockIds.Nodup
  bounded : ∀ id ∈ tracker.blockIds, id < B.transfer.numBlocks

/-- A RETRIEVE op of the connector. -/
def RetrieveOp (e : Engine) (op : LoadStoreOp) : Prop :=
  ∃ tracker, e.Loads tracker ∧ (e.connector.generateRetrieveOp tracker).1 = some op

variable {B : Engine} {tracker : RequestTracker} {op : LoadStoreOp}

theorem blocksPerChunk_pos (e : Engine) : 0 < e.transfer.blocksPerChunk :=
  e.blocksPerChunk ▸ e.connector.blocksPerChunk_pos

/-- A RETRIEVE op in blocks : `V` token blocks are computed and `H` chunks are hits, and the op
loads the chunks from that of block `V` on. -/
structure LoadShape (B : Engine) (tracker : RequestTracker) (op : LoadStoreOp) (V H : ℕ) :
    Prop where
  computed : tracker.vllmHits = V * B.connector.blockSize
  hits : tracker.lmcacheHits = H * B.connector.chunkSize
  lt : V < H * B.transfer.blocksPerChunk
  covers : H * B.transfer.blocksPerChunk ≤ tracker.blockIds.length
  tokenIds : op.tokenIds = tracker.tokenIds.take op.stop
  start : op.start = V / B.transfer.blocksPerChunk * B.connector.chunkSize
  stop : op.stop = H * B.connector.chunkSize
  skip : op.skipFirstNTokens = V % B.transfer.blocksPerChunk * B.connector.blockSize
  blockIds : op.blockIds = slice tracker.blockIds
    (V / B.transfer.blocksPerChunk * B.transfer.blocksPerChunk) (H * B.transfer.blocksPerChunk)
  bounded : ∀ id ∈ op.blockIds, id < B.transfer.numBlocks
  nodup : op.blockIds.Nodup

theorem Loads.shape (hload : B.Loads tracker)
    (hop : (B.connector.generateRetrieveOp tracker).1 = some op) :
    ∃ V H, B.LoadShape tracker op V H := by
  obtain ⟨V, hV⟩ := hload.aligned
  obtain ⟨H, hH⟩ := hload.whole
  rw [Nat.mul_comm] at hV hH
  have hmul : B.transfer.blocksPerChunk * B.connector.blockSize = B.connector.chunkSize :=
    B.blocksPerChunk ▸ B.connector.blocksPerChunk_mul
  have hbs := B.connector.blockSize_pos
  have hlt := hload.lt
  have hcov := hload.covers
  rw [hV, hH, ← hmul, ← Nat.mul_assoc] at hlt
  rw [hH, ← hmul, ← Nat.mul_assoc] at hcov
  have hchunk : V * B.connector.blockSize / B.connector.chunkSize =
      V / B.transfer.blocksPerChunk := by
    rw [← hmul, Nat.mul_div_mul_right _ _ hbs]
  have hskip : V * B.connector.blockSize - V / B.transfer.blocksPerChunk * B.connector.chunkSize =
      V % B.transfer.blocksPerChunk * B.connector.blockSize := by
    have hdiv := Nat.div_add_mod' V B.transfer.blocksPerChunk
    rw [← hmul, ← Nat.mul_assoc, ← Nat.sub_mul]
    congr 1
    omega
  simp only [MiniConnector.generateRetrieveOp, hload.pending, if_true, hV, hH, hchunk,
    MiniConnector.mul_chunkSize_div, ← B.blocksPerChunk, hskip] at hop
  cases hop
  exact ⟨V, H, hV, hH, Nat.lt_of_mul_lt_mul_right hlt, Nat.le_of_mul_le_mul_right hcov hbs, rfl,
    rfl, rfl, rfl, rfl, fun id hid => hload.bounded id (mem_of_mem_slice hid),
    hload.nodup.sublist (slice_sublist _ _ _)⟩

namespace LoadShape

variable {V H : ℕ}

theorem first_lt (h : B.LoadShape tracker op V H) : V / B.transfer.blocksPerChunk < H :=
  (Nat.div_lt_iff_lt_mul B.blocksPerChunk_pos).mpr h.lt

theorem length (h : B.LoadShape tracker op V H) : op.blockIds.length =
    (H - V / B.transfer.blocksPerChunk) * B.transfer.blocksPerChunk := by
  rw [h.blockIds, length_slice, Nat.min_eq_left h.covers, Nat.sub_mul]

theorem finishLoad_eq (h : B.LoadShape tracker op V H) (chunks : List Bytes) :
    B.finishLoad op chunks =
      B.transfer.fromHost chunks op.blockIds (V % B.transfer.blocksPerChunk) := by
  rw [finishLoad, h.skip, Nat.mul_div_cancel _ B.connector.blockSize_pos]

/-- Block `k` of chunk `i` of the op, in the block table. -/
theorem get (h : B.LoadShape tracker op V H) {i k : ℕ} (hi : i < H - V / B.transfer.blocksPerChunk)
    (hk : k < B.transfer.blocksPerChunk) : op.blockIds[i * B.transfer.blocksPerChunk + k]? =
      tracker.blockIds[(V / B.transfer.blocksPerChunk + i) * B.transfer.blocksPerChunk + k]? := by
  have hlt := place_lt hi hk
  rw [Nat.sub_mul] at hlt
  rw [h.blockIds, getElem?_slice _ hlt, Nat.add_mul, Nat.add_assoc]

/-- Where a token block that is loaded stands in the op. -/
theorem place (h : B.LoadShape tracker op V H) {b : ℕ} (hle : V ≤ b)
    (hlt : b < H * B.transfer.blocksPerChunk) :
    V / B.transfer.blocksPerChunk ≤ b / B.transfer.blocksPerChunk ∧
    b / B.transfer.blocksPerChunk - V / B.transfer.blocksPerChunk <
      H - V / B.transfer.blocksPerChunk ∧
    KVTransfer.skipOf (V % B.transfer.blocksPerChunk)
      (b / B.transfer.blocksPerChunk - V / B.transfer.blocksPerChunk) ≤
      b % B.transfer.blocksPerChunk ∧
    op.blockIds[(b / B.transfer.blocksPerChunk - V / B.transfer.blocksPerChunk) *
      B.transfer.blocksPerChunk + b % B.transfer.blocksPerChunk]? = tracker.blockIds[b]? := by
  obtain ⟨hrow, hskip⟩ := KVTransfer.skipOf_le (n := B.transfer.blocksPerChunk) hle
  have hrlt := (Nat.div_lt_iff_lt_mul B.blocksPerChunk_pos).mpr hlt
  have hi : b / B.transfer.blocksPerChunk - V / B.transfer.blocksPerChunk <
    H - V / B.transfer.blocksPerChunk := by omega
  refine ⟨hrow, hi, hskip, ?_⟩
  rw [h.get hi (Nat.mod_lt b B.blocksPerChunk_pos), Nat.add_sub_cancel' hrow, Nat.div_add_mod']

end LoadShape

/-- A load covers the hits past what is computed. -/
theorem Loads.tokensLoaded (hload : B.Loads tracker)
    (hop : (B.connector.generateRetrieveOp tracker).1 = some op) :
    B.tokensLoaded op = tracker.lmcacheHits - tracker.vllmHits := by
  obtain ⟨V, H, hshape⟩ := hload.shape hop
  have hdiv := Nat.div_add_mod' V B.transfer.blocksPerChunk
  have hlen : (H - V / B.transfer.blocksPerChunk) * B.transfer.blocksPerChunk -
      V % B.transfer.blocksPerChunk = H * B.transfer.blocksPerChunk - V := by
    rw [Nat.sub_mul]
    omega
  rw [Engine.tokensLoaded, hshape.skip, Nat.mul_div_cancel _ B.connector.blockSize_pos,
    List.length_drop, hshape.length, hlen, hshape.computed, hshape.hits,
    ← B.connector.blocksPerChunk_mul, ← B.blocksPerChunk, ← Nat.mul_assoc, Nat.sub_mul]

/-! ### A small engine -/

/-- An engine with two layers, and chunks of two blocks of one token and one byte. -/
def sample : Engine where
  connector := {
    chunkSize := 2
    blockSize := 1
    model := "m"
    worldSize := 1
    trackers := .empty
    chunkSize_pos := by decide
    blockSize_pos := by decide
    whole := rfl }
  transfer := {
    rank := 0
    numLayers := 2
    numBlocks := 8
    blocksPerChunk := 2
    blockNbytes := 1
    layers_pos := by decide }
  blocksPerChunk := rfl

end Engine

/-- Block `b` of a layer holds the byte `16 * layer + b`. -/
def sampleKV : KVCache Engine.sample.transfer.blockNbytes where
  block layer b := [UInt8.ofNat (16 * layer + b)]
  length_block _ _ := rfl

/-- Request `b` has the first token in block 4, and loads the others. -/
def sampleTracker : RequestTracker where
  tokenIds := [1, 2, 3, 4, 5]
  lmcacheHits := 4
  vllmHits := 1
  blockIds := [4, 5, 6, 7]
  loadPending := true

theorem sampleTracker_loads : Engine.sample.Loads sampleTracker :=
  ⟨rfl, by decide, by decide, by decide, by decide, by decide, by decide⟩

/-- Its RETRIEVE. -/
def sampleLoadOp : LoadStoreOp := ⟨[1, 2, 3, 4], [4, 5, 6, 7], 0, 4, 1⟩

theorem sampleLoadOp_retrieve : Engine.sample.RetrieveOp sampleLoadOp :=
  ⟨sampleTracker, sampleTracker_loads, rfl⟩

end MiniLlmcache
