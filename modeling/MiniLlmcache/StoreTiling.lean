import MiniLlmcache.Connector
import MiniLlmcache.Runs

/-!
# The STORE operations of a request

A request from the moment its lookup is resolved, through any scheduler outputs : its first
scheduling, increments, steps in which it has no part, preemption and resumption with a block
table built anew, and the other hooks in between. `Scheduling` is the connector beside what vLLM
knows of the request, and logs each step that schedules it.

`Vllm` says what the scheduler does : it passes the full table of a new or a resumed request and
increments otherwise, and `update_state_after_alloc` tells a running request no block it does not
have. So the tracker has the scheduler's table whenever a STORE is generated
(`Inv.table`), although the three hooks write it in three ways.

`stores_tile` : the STOREs of a run are consecutive whole chunks from the hits on, each within
what is computed and known at its step and over the table of its step, and after each step less
than a chunk is left.
-/

namespace MiniLlmcache

/-! ## Consecutive ranges -/

/-- What vLLM has of a request in a step that schedules it, and the STORE that the connector
makes. -/
structure ScheduledStep where
  /-- `all_token_ids`. -/
  tokenIds : List ℕ
  /-- The scheduler's block table, with the blocks of this step. -/
  table : List ℕ
  /-- The tokens computed by the end of the step. -/
  computed : ℕ
  op : Option LoadStoreOp

namespace ScheduledStep

variable (c : MiniConnector)

/-- The tokens that are known and computed and have a block. -/
def storable (s : ScheduledStep) : ℕ :=
  min (min s.tokenIds.length (s.table.length * c.blockSize)) s.computed

/-- Where the stored tokens end after the step. -/
def stored (s : ScheduledStep) (start : ℕ) : ℕ := s.op.elim start LoadStoreOp.stop

/-- A STORE of whole chunks from `start` on, over the tokens and blocks of its step. -/
structure Covers (s : ScheduledStep) (start : ℕ) (op : LoadStoreOp) : Prop where
  start : op.start = start
  aligned : c.chunkSize ∣ op.start ∧ c.chunkSize ∣ op.stop
  lt : op.start < op.stop
  computed : op.stop ≤ s.computed
  known : op.stop ≤ s.tokenIds.length
  tokenIds : op.tokenIds = s.tokenIds.take op.stop
  blockIds : op.blockIds = slice s.table (op.start / c.blockSize) (op.stop / c.blockSize)
  length : op.blockIds.length = (op.stop - op.start) / c.blockSize

/-- The step stores what it can from `start` on. -/
structure Stores (s : ScheduledStep) (start : ℕ) : Prop where
  covers : ∀ op, s.op = some op → s.Covers c start op
  rest : s.storable c < s.stored start + c.chunkSize

end ScheduledStep

/-- The steps store one after the other, from `start` to `stop`. -/
def StoresInTurn (c : MiniConnector) : ℕ → List ScheduledStep → ℕ → Prop
  | start, [], stop => start = stop
  | start, s :: steps, stop => s.Stores c start ∧ StoresInTurn c (s.stored start) steps stop

theorem StoresInTurn.snoc {c : MiniConnector} {s : ScheduledStep} : ∀ {steps : List ScheduledStep}
    {start stop : ℕ}, StoresInTurn c start steps stop → s.Stores c stop →
      StoresInTurn c start (steps ++ [s]) (s.stored stop)
  | [], _, _, h, hs => by
    cases h
    exact ⟨hs, rfl⟩
  | _ :: _, _, _, h, hs => ⟨h.1, StoresInTurn.snoc h.2 hs⟩

theorem StoresInTurn.of_mem {c : MiniConnector} {s : ScheduledStep} :
    ∀ {steps : List ScheduledStep} {start stop : ℕ}, StoresInTurn c start steps stop →
      s ∈ steps → ∃ start, s.Stores c start
  | _ :: _, start, _, h, hs => by
    rcases List.mem_cons.mp hs with rfl | hs
    · exact ⟨start, h.1⟩
    · exact h.2.of_mem hs

/-- The blocks of a STORE are whole chunks, one for each key of the op. -/
theorem ScheduledStep.Covers.toHost {c : MiniConnector} {s : ScheduledStep} {start : ℕ}
    {op : LoadStoreOp} (h : s.Covers c start op) {e : Engine}
    (hchunk : e.connector.chunkSize = c.chunkSize) (hblock : e.connector.blockSize = c.blockSize) :
    e.transfer.wholeChunks op.blockIds = .ok () ∧
    ∀ (blake3 : Bytes → Bytes) (srv : CacheServer) (inst : EngineInstance)
      (kv : KVCache e.transfer.blockNbytes), srv.chunkSize = c.chunkSize →
      (∀ id ∈ op.blockIds, id < e.transfer.numBlocks) →
      ∃ chunks, e.transfer.toHost kv op.blockIds = .ok chunks ∧
        chunks.length = (srv.opKeys blake3 op inst).length := by
  obtain ⟨q, hq⟩ := h.aligned.1
  obtain ⟨q', hq'⟩ := h.aligned.2
  have hmul : e.transfer.blocksPerChunk * c.blockSize = c.chunkSize := by
    rw [e.blocksPerChunk, ← hblock, e.connector.blocksPerChunk_mul, hchunk]
  have hlen : op.blockIds.length = (q' - q) * e.transfer.blocksPerChunk := by
    rw [h.length, hq, hq', ← Nat.mul_sub, ← hmul, Nat.mul_right_comm,
      Nat.mul_div_cancel _ c.blockSize_pos, Nat.mul_comm]
  have hwhole := KVTransfer.wholeChunks_of_length hlen e.blocksPerChunk_pos
  refine ⟨hwhole, fun blake3 srv inst kv hsrv hids => ?_⟩
  have htokens : op.tokenIds.take op.stop = s.tokenIds.take op.stop := by
    rw [h.tokenIds, List.take_take, Nat.min_self]
  obtain ⟨chunks, hok⟩ : ∃ chunks, e.transfer.toHost kv op.blockIds = .ok chunks := by
    simp only [KVTransfer.toHost, hwhole, if_pos hids]
    exact ⟨_, rfl⟩
  refine ⟨chunks, hok, ?_⟩
  rw [(KVTransfer.toHost_ok hok).1, srv.length_opKeys inst htokens h.known, hsrv, hlen,
    Nat.mul_div_cancel _ e.blocksPerChunk_pos, hq, hq', Nat.mul_div_cancel_left _ c.chunkSize_pos,
    Nat.mul_div_cancel_left _ c.chunkSize_pos]

/-! ## The scheduler and the connector -/

/-- `scheduler_output`, as far as the connector reads it. -/
structure SchedulerOutput where
  scheduledNewReqs : List NewReq
  scheduledCachedReqs : List CachedReq
  numScheduledTokens : OrderedDict String ℕ

/-- What a scheduler output does with one request. -/
inductive Turn
  | absent
  | first (entry : NewReq) (scheduled : ℕ)
  | cached (entry : CachedReq) (scheduled : ℕ)

namespace SchedulerOutput

def newOf (out : SchedulerOutput) (r : String) : List NewReq :=
  out.scheduledNewReqs.filter fun entry => entry.reqId = r

def cachedOf (out : SchedulerOutput) (r : String) : List CachedReq :=
  out.scheduledCachedReqs.filter fun entry => entry.reqId = r

/-- A request is in one of the lists and has scheduled tokens, or is not in the output. -/
def turn (out : SchedulerOutput) (r : String) : Option Turn :=
  match out.newOf r, out.cachedOf r, out.numScheduledTokens.get? r with
  | [], [], none => some .absent
  | [entry], [], some n => some (.first entry n)
  | [], [entry], some n => some (.cached entry n)
  | _, _, _ => none

/-- The entries behind a turn. -/
theorem turn_spec {out : SchedulerOutput} {r : String} {t : Turn} (h : out.turn r = some t) :
    match t with
    | .absent => out.newOf r = [] ∧ out.cachedOf r = [] ∧ out.numScheduledTokens.get? r = none
    | .first entry n => out.newOf r = [entry] ∧ out.cachedOf r = [] ∧
      out.numScheduledTokens.get? r = some n
    | .cached entry n => out.newOf r = [] ∧ out.cachedOf r = [entry] ∧
      out.numScheduledTokens.get? r = some n := by
  unfold turn at h
  split at h
  · cases h
    exact ⟨‹_›, ‹_›, ‹_›⟩
  · cases h
    exact ⟨‹_›, ‹_›, ‹_›⟩
  · cases h
    exact ⟨‹_›, ‹_›, ‹_›⟩
  · cases h

end SchedulerOutput

inductive Phase
  | fresh
  | running
  | preempted
deriving DecidableEq

/-- The connector, and what vLLM knows of one request. -/
structure Scheduling where
  connector : MiniConnector
  phase : Phase
  tokenIds : List ℕ
  table : List ℕ
  /-- The steps that scheduled the request. -/
  steps : List ScheduledStep

/-- A hook for another request. -/
inductive OtherHook
  | matched (requestId : String) (allTokenIds promptTokenIds : List ℕ) (numComputedTokens : ℕ)
      (reply : Except Exc (Option ℕ))
  | alloc (requestId : String) (groupBlocks : List ℕ) (numExternalTokens : ℕ)
  | finished (requestId : String)

namespace OtherHook

def requestId : OtherHook → String
  | .matched r _ _ _ _ | .alloc r _ _ | .finished r => r

def run (c : MiniConnector) : OtherHook → MiniConnector
  | .matched r all prompt n reply => (c.getNumNewMatchedTokens r all prompt n reply).2.1
  | .alloc r blocks n => (c.updateStateAfterAlloc r blocks n).1
  | .finished r => (c.requestFinished r).1

end OtherHook

/-- `all_token_ids` is a view of the request's tokens : the tracker sees new ones. -/
def MiniConnector.grow (c : MiniConnector) (r : String) (tokens : List ℕ) : MiniConnector :=
  match c.trackers.get? r with
  | none => c
  | some tracker => c.setTracker r { tracker with tokenIds := tracker.tokenIds ++ tokens }

/-- The STORE of a request. -/
def Metadata.storeOp (m : Metadata) (r : String) : Option LoadStoreOp :=
  ((opsOf .store m.requests).find? fun x => x.requestId = r).map ReqMeta.op

/-! ## One request in `build_connector_meta` -/

namespace MiniConnector

variable (c : MiniConnector) (r : String)

theorem retrieveOps_snd : ∀ l : List (String × RequestTracker),
    (c.retrieveOps l).2 = l.map fun p => (p.1, (c.generateRetrieveOp p.2).2)
  | [] => rfl
  | (_, _) :: l => congrArg _ (retrieveOps_snd l)

/-- Generating a RETRIEVE clears `load_pending`. -/
theorem generateRetrieveOp_snd (tracker : RequestTracker) :
    (c.generateRetrieveOp tracker).2 = { tracker with loadPending := false } := by
  unfold generateRetrieveOp
  split_ifs with h
  · rfl
  · rw [Bool.not_eq_true] at h
    rw [← h]

theorem get?_afterRetrieve :
    c.afterRetrieve.get? r = (c.trackers.get? r).map fun t => { t with loadPending := false } := by
  unfold afterRetrieve OrderedDict.get?
  simp only [retrieveOps_snd, List.find?_map, Option.map_map, Function.comp_def,
    generateRetrieveOp_snd]

theorem get?_scheduleNew (trackers : OrderedDict String RequestTracker) (entry : NewReq) :
    (scheduleNew trackers entry).get? r = if entry.reqId = r then
      (trackers.get? r).map fun t => { t with
        blockIds := entry.blockIds
        numComputedTokens := entry.numComputedTokens }
      else trackers.get? r := by
  unfold scheduleNew
  split_ifs with h
  · subst h
    rcases htr : trackers.get? entry.reqId with _ | t
    · simp [htr]
    · simp
  · rcases trackers.get? entry.reqId with _ | t
    · rfl
    · exact OrderedDict.get?_set_ne _ _ h

/-- `tracker.block_ids` after an entry of `scheduled_cached_reqs`. -/
def cachedBlocks (entry : CachedReq) (blockIds : List ℕ) : List ℕ :=
  match entry.newBlockIds with
  | none => blockIds
  | some blocks => if entry.resumed then blocks else blockIds ++ blocks

theorem get?_scheduleCached (trackers : OrderedDict String RequestTracker) (entry : CachedReq) :
    (scheduleCached trackers entry).get? r = if entry.reqId = r then
      (trackers.get? r).map fun t => { t with
        blockIds := cachedBlocks entry t.blockIds
        numComputedTokens := entry.numComputedTokens }
      else trackers.get? r := by
  unfold scheduleCached
  by_cases h : entry.reqId = r
  · subst h
    rw [if_pos rfl]
    rcases htr : trackers.get? entry.reqId with _ | t
    · exact htr
    · exact OrderedDict.get?_set_self _ _ _
  · rw [if_neg h]
    rcases trackers.get? entry.reqId with _ | t
    · rfl
    · exact OrderedDict.get?_set_ne _ _ h

/-- A loop over entries changes the tracker of `r` at the entries of `r`. -/
theorem get?_foldl {ε : Type} {f : OrderedDict String RequestTracker → ε →
      OrderedDict String RequestTracker} {g : RequestTracker → ε → RequestTracker}
    {reqId : ε → String}
    (hf : ∀ trackers entry, (f trackers entry).get? r =
      if reqId entry = r then (trackers.get? r).map (g · entry) else trackers.get? r) :
    ∀ (entries : List ε) (trackers : OrderedDict String RequestTracker),
      (entries.foldl f trackers).get? r =
        (trackers.get? r).map fun t => (entries.filter fun entry => reqId entry = r).foldl g t
  | [], trackers => by simp
  | entry :: entries, trackers => by
    rw [List.foldl_cons, get?_foldl hf entries, hf]
    by_cases h : reqId entry = r
    · simp [h, Function.comp_def]
    · simp [h]

/-- The tracker after the store loop, and its STORE. -/
def stepped (tracker : RequestTracker) : Option ℕ → Option LoadStoreOp × RequestTracker
  | none => (none, tracker)
  | some n =>
    c.generateStoreOp { tracker with numComputedTokens := tracker.numComputedTokens + n }

theorem storeOps_at {tracker : RequestTracker} : ∀ (l : List (String × ℕ))
    (trackers : OrderedDict String RequestTracker), (l.map Prod.fst).Nodup →
    trackers.get? r = some tracker →
    ((c.storeOps trackers l).1.find? fun x => x.requestId = r).map ReqMeta.op =
        (c.stepped tracker ((l.find? fun p => p.1 = r).map Prod.snd)).1 ∧
      (c.storeOps trackers l).2.get? r =
        some (c.stepped tracker ((l.find? fun p => p.1 = r).map Prod.snd)).2
  | [], trackers, _, h => ⟨rfl, h⟩
  | (reqId, n) :: l, trackers, hnd, h => by
    rw [List.map_cons, List.nodup_cons] at hnd
    by_cases hr : reqId = r
    · obtain rfl := hr.symm
      have hnot : l.find? (fun p => p.1 = r) = none := by
        refine List.find?_eq_none.mpr fun p hp hpr => hnd.1 ?_
        exact List.mem_map.mpr ⟨p, hp, of_decide_eq_true hpr⟩
      set u := c.generateStoreOp { tracker with
        numComputedTokens := tracker.numComputedTokens + n } with hu
      obtain ⟨hop, hget⟩ := storeOps_at l (trackers.set r u.2) hnd.2
        (OrderedDict.get?_set_self _ _ _)
      rw [hnot] at hop hget
      simp only [storeOps, h, ← hu, List.find?_cons_of_pos, Option.map_some, stepped,
        decide_true]
      refine ⟨?_, hget⟩
      rcases u.1 with _ | op
      · exact hop
      · simp
    · have hne : (decide (reqId = r)) = false := decide_eq_false hr
      rw [List.find?_cons_of_neg (by simpa using hr)]
      rcases htr : trackers.get? reqId with _ | t
      · simp only [storeOps, htr]
        exact storeOps_at l trackers hnd.2 h
      · simp only [storeOps, htr]
        set u := c.generateStoreOp { t with numComputedTokens := t.numComputedTokens + n }
        obtain ⟨hop, hget⟩ := storeOps_at l (trackers.set reqId u.2) hnd.2
          ((OrderedDict.get?_set_ne _ _ hr).trans h)
        refine ⟨?_, hget⟩
        rw [← hop, List.find?_append]
        rcases u.1 with _ | op
        · simp
        · simp [hr]

theorem storeOp_append {retrieves stores : List ReqMeta} (hr : ∀ m ∈ retrieves, m.req = .retrieve)
    (hs : ∀ m ∈ stores, m.req = .store) :
    (opsOf .store (retrieves ++ stores)).find? (fun x => x.requestId = r) =
      stores.find? fun x => x.requestId = r := by
  have hnone : opsOf .store retrieves = [] :=
    List.filter_eq_nil_iff.mpr fun m hm => by simp [hr m hm]
  have hall : opsOf .store stores = stores :=
    List.filter_eq_self.mpr fun m hm => by simp [hs m hm]
  rw [opsOf, List.filter_append, ← opsOf, ← opsOf, hnone, hall, List.nil_append]

/-- The tracker of `r` when the store loop comes to it. -/
def updated (out : SchedulerOutput) (tracker : RequestTracker) : RequestTracker :=
  (out.cachedOf r).foldl (fun t entry => { t with
      blockIds := cachedBlocks entry t.blockIds
      numComputedTokens := entry.numComputedTokens })
    ((out.newOf r).foldl (fun t entry => { t with
        blockIds := entry.blockIds
        numComputedTokens := entry.numComputedTokens })
      { tracker with loadPending := false })

/-- `build_connector_meta`, seen from one request. -/
theorem buildConnectorMeta_at {tracker : RequestTracker} (out : SchedulerOutput)
    (h : c.trackers.get? r = some tracker) :
    (c.buildConnectorMeta out.scheduledNewReqs out.scheduledCachedReqs
        out.numScheduledTokens).1.storeOp r =
      (c.stepped (updated r out tracker) (out.numScheduledTokens.get? r)).1 ∧
    (c.buildConnectorMeta out.scheduledNewReqs out.scheduledCachedReqs
        out.numScheduledTokens).2.trackers.get? r =
      some (c.stepped (updated r out tracker) (out.numScheduledTokens.get? r)).2 := by
  have hnew := get?_foldl r (get?_scheduleNew r) out.scheduledNewReqs c.afterRetrieve
  rw [get?_afterRetrieve, h, Option.map_some, Option.map_some] at hnew
  have hcached := get?_foldl r (get?_scheduleCached r) out.scheduledCachedReqs
    (out.scheduledNewReqs.foldl scheduleNew c.afterRetrieve)
  rw [hnew, Option.map_some] at hcached
  obtain ⟨hop, hget⟩ := c.storeOps_at r out.numScheduledTokens.items _
    out.numScheduledTokens.nodup hcached
  refine ⟨?_, hget⟩
  rw [Metadata.storeOp, buildConnectorMeta, storeOp_append r (c.retrieveOps_sublist _).2
    (c.storeOps_sublist _ _).2]
  exact hop

/-! ## One STORE -/

variable {c}

theorem generateStoreOp_congr {c' : MiniConnector} (hc : c'.chunkSize = c.chunkSize)
    (hb : c'.blockSize = c.blockSize) (tracker : RequestTracker) :
    c'.generateStoreOp tracker = c.generateStoreOp tracker := by
  unfold generateStoreOp available
  rw [hc, hb]

theorem generateStoreOp_snd (tracker : RequestTracker) : (c.generateStoreOp tracker).2 =
    { tracker with
      numStoredTokens := (c.generateStoreOp tracker).1.elim tracker.numStoredTokens
        LoadStoreOp.stop } := by
  unfold generateStoreOp
  dsimp only
  split_ifs <;> rfl

/-- Less than a chunk is left when the whole chunks are stored. -/
theorem available_lt (tracker : RequestTracker) : c.available tracker <
    (c.generateStoreOp tracker).2.numStoredTokens + c.chunkSize := by
  have hlt : c.available tracker - tracker.numStoredTokens <
      (c.available tracker - tracker.numStoredTokens) / c.chunkSize * c.chunkSize + c.chunkSize :=
    Nat.lt_div_mul_add c.chunkSize_pos
  unfold generateStoreOp
  dsimp only
  split_ifs with hn
  · rw [hn] at hlt
    dsimp only
    omega
  · dsimp only
    omega

/-- A STORE of the connector covers the next whole chunks of its step. -/
theorem covers_generateStoreOp {t : RequestTracker} {op : LoadStoreOp}
    (hdvd : c.chunkSize ∣ t.numStoredTokens)
    (h : (c.generateStoreOp t).1 = some op) :
    (⟨t.tokenIds, t.blockIds, t.numComputedTokens, some op⟩ :
      ScheduledStep).Covers c t.numStoredTokens op := by
  obtain ⟨hstart, ⟨n, hn, hstop⟩, hknown, hblocks, htokens, hids⟩ := c.generateStoreOp_some h
  have hpos := Nat.mul_pos hn c.chunkSize_pos
  have hcomputed : op.stop ≤ t.numComputedTokens := by
    unfold generateStoreOp at h
    dsimp only at h
    split_ifs at h
    cases h
    have hle := Nat.div_mul_le_self (c.available t - t.numStoredTokens) c.chunkSize
    have hav : c.available t ≤ t.numComputedTokens := Nat.min_le_right _ _
    dsimp only at hstop hpos ⊢
    omega
  have hdvd' : c.chunkSize ∣ op.start := hstart ▸ hdvd
  refine ⟨hstart, ⟨hdvd', ?_⟩, by omega, hcomputed, hknown, htokens, hids, ?_⟩
  · rw [hstop]
    exact Nat.dvd_add hdvd' (Nat.dvd_mul_left _ _)
  · obtain ⟨q, hq⟩ := Nat.dvd_trans (Nat.dvd_of_mod_eq_zero c.whole) hdvd'
    have htable : op.stop / c.blockSize ≤ t.blockIds.length :=
      Nat.div_le_of_le_mul (by rwa [Nat.mul_comm])
    rw [hids, length_slice, Nat.min_eq_left htable, hq, Nat.mul_div_cancel_left _ c.blockSize_pos,
      Nat.sub_mul_div]

end MiniConnector

namespace Scheduling

inductive Label
  /-- New tokens of the request. -/
  | grow (tokens : List ℕ)
  /-- `get_num_new_matched_tokens` once more. -/
  | matched (allTokenIds promptTokenIds : List ℕ) (numComputedTokens : ℕ)
      (reply : Except Exc (Option ℕ))
  /-- `update_state_after_alloc`. -/
  | alloc (groupBlocks : List ℕ) (numExternalTokens : ℕ)
  | preempt
  /-- `build_connector_meta` of a scheduler output; `table` is the scheduler's block table. -/
  | build (out : SchedulerOutput) (table : List ℕ)
  | other (hook : OtherHook)

variable (r : String)

/-- The request is scheduled, with so many tokens computed by the end of the step. -/
def scheduled (s : Scheduling) (c : MiniConnector) (m : Metadata) (table : List ℕ)
    (computed : ℕ) : Scheduling where
  connector := c
  phase := .running
  tokenIds := s.tokenIds
  table := table
  steps := s.steps ++ [⟨s.tokenIds, table, computed, m.storeOp r⟩]

def step (s : Scheduling) : Label → Option Scheduling
  | .grow tokens => some { s with
      tokenIds := s.tokenIds ++ tokens
      connector := s.connector.grow r tokens }
  | .matched all prompt n reply =>
    some { s with connector := (s.connector.getNumNewMatchedTokens r all prompt n reply).2.1 }
  | .alloc blocks n => some { s with connector := (s.connector.updateStateAfterAlloc r blocks n).1 }
  | .preempt => some { s with phase := .preempted }
  | .build out table =>
    let (m, c) := s.connector.buildConnectorMeta out.scheduledNewReqs out.scheduledCachedReqs
      out.numScheduledTokens
    match out.turn r with
    | none => none
    | some .absent => some { s with connector := c }
    | some (.first entry n) => some (s.scheduled r c m table (entry.numComputedTokens + n))
    | some (.cached entry n) => some (s.scheduled r c m table (entry.numComputedTokens + n))
  | .other hook => some { s with connector := hook.run s.connector }

/-- What vLLM does : full tables for new and resumed requests and increments otherwise; a running
request is told of no block that it does not have. -/
def Vllm (s : Scheduling) : Label → Prop
  | .grow _ | .matched _ _ _ _ => True
  | .alloc blocks _ => s.phase = .running → blocks.length ≤ s.table.length
  | .preempt => s.phase = .running
  | .build out table =>
    match out.turn r with
    | none | some .absent => True
    | some (.first entry _) => s.phase = .fresh ∧ table = entry.blockIds
    | some (.cached entry _) =>
      if entry.resumed then s.phase = .preempted ∧ entry.newBlockIds = some table
      else s.phase = .running ∧ table = s.table ++ entry.newBlockIds.getD []
  | .other hook => hook.requestId ≠ r

/-! ## The invariant -/

/-- The tracker of the request : its tokens are vLLM's, and so is its block table while the
request runs; the steps so far have stored from `start` to `num_stored_tokens`. -/
structure Follows (c : MiniConnector) (start : ℕ) (s : Scheduling) (tracker : RequestTracker) :
    Prop where
  chunkSize : s.connector.chunkSize = c.chunkSize
  blockSize : s.connector.blockSize = c.blockSize
  resolved : tracker.lookupResolved = true
  tokenIds : tracker.tokenIds = s.tokenIds
  table : s.phase = .running → tracker.blockIds = s.table
  aligned : c.chunkSize ∣ tracker.numStoredTokens
  turn : StoresInTurn c start s.steps tracker.numStoredTokens

def Inv (c : MiniConnector) (start : ℕ) (s : Scheduling) : Prop :=
  ∃ tracker, s.connector.trackers.get? r = some tracker ∧ s.Follows c start tracker

variable {r} {c : MiniConnector} {start : ℕ} {s s' : Scheduling}

/-- `update_state_after_alloc` writes the block list and two flags. -/
theorem updateStateAfterAlloc_at (c : MiniConnector) {tracker : RequestTracker}
    (h : c.trackers.get? r = some tracker) (blocks : List ℕ) (n : ℕ) :
    ∃ loadPending allocSeen, (c.updateStateAfterAlloc r blocks n).1 = c.setTracker r { tracker with
      blockIds := tracker.blockIds ++ blocks.drop tracker.blockIds.length
      loadPending := loadPending
      allocSeen := allocSeen } := by
  simp only [MiniConnector.updateStateAfterAlloc, h]
  by_cases hseen : tracker.allocSeen = true
  · rw [if_pos hseen]
    exact ⟨_, _, rfl⟩
  · rw [if_neg hseen]
    exact ⟨_, _, rfl⟩

/-- A hook for another request. -/
theorem run_other (c : MiniConnector) {hook : OtherHook} (h : hook.requestId ≠ r) :
    (hook.run c).trackers.get? r = c.trackers.get? r ∧
      (hook.run c).chunkSize = c.chunkSize ∧ (hook.run c).blockSize = c.blockSize := by
  cases hook with
  | matched r' all prompt n reply =>
    have hne : r' ≠ r := h
    simp only [OtherHook.run, MiniConnector.getNumNewMatchedTokens]
    split
    · exact ⟨OrderedDict.get?_set_ne _ _ hne, rfl, rfl⟩
    · split_ifs
      · exact ⟨rfl, rfl, rfl⟩
      · exact ⟨OrderedDict.get?_set_ne _ _ hne, rfl, rfl⟩
  | alloc r' blocks n =>
    have hne : r' ≠ r := h
    rcases hget : c.trackers.get? r' with _ | tracker
    · have hsame : (OtherHook.alloc r' blocks n).run c = c := by
        simp only [OtherHook.run, MiniConnector.updateStateAfterAlloc, hget]
      rw [hsame]
      exact ⟨rfl, rfl, rfl⟩
    · obtain ⟨_, _, hset⟩ := updateStateAfterAlloc_at c hget blocks n
      rw [OtherHook.run, hset]
      exact ⟨OrderedDict.get?_set_ne _ _ hne, rfl, rfl⟩
  | finished r' =>
    have hne : r' ≠ r := h
    exact ⟨OrderedDict.get?_erase_ne _ hne, rfl, rfl⟩

theorem Inv.alloc (h : s.Inv r c start) {blocks : List ℕ} {n : ℕ}
    (hv : s.phase = .running → blocks.length ≤ s.table.length) :
    ({ s with connector := (s.connector.updateStateAfterAlloc r blocks n).1 } :
      Scheduling).Inv r c start := by
  obtain ⟨tracker, hget, hf⟩ := h
  obtain ⟨loadPending, allocSeen, hset⟩ := updateStateAfterAlloc_at s.connector hget blocks n
  rw [hset]
  refine ⟨_, OrderedDict.get?_set_self _ _ _, hf.chunkSize, hf.blockSize, hf.resolved, hf.tokenIds,
    fun hrun => ?_, hf.aligned, hf.turn⟩
  have htable := hf.table hrun
  have hshort : blocks.drop tracker.blockIds.length = [] :=
    List.drop_eq_nil_of_le (htable ▸ hv hrun)
  dsimp only
  rw [hshort, List.append_nil, htable]

/-- A step that schedules the request, once the tracker has the scheduler's table. -/
theorem Inv.scheduled {tracker : RequestTracker} {out : SchedulerOutput} {table : List ℕ}
    {n computed : ℕ} (hget : s.connector.trackers.get? r = some tracker)
    (hf : s.Follows c start tracker) (hn : out.numScheduledTokens.get? r = some n)
    (hupd : MiniConnector.updated r out tracker =
      { tracker with loadPending := false, blockIds := table, numComputedTokens := computed }) :
    (s.scheduled r
      (s.connector.buildConnectorMeta out.scheduledNewReqs out.scheduledCachedReqs
        out.numScheduledTokens).2
      (s.connector.buildConnectorMeta out.scheduledNewReqs out.scheduledCachedReqs
        out.numScheduledTokens).1 table (computed + n)).Inv r c start := by
  obtain ⟨hop, hafter⟩ := s.connector.buildConnectorMeta_at r out hget
  rw [hn, hupd] at hop hafter
  set t : RequestTracker := { tracker with
    loadPending := false
    blockIds := table
    numComputedTokens := computed + n } with ht
  have hgen : s.connector.generateStoreOp t = c.generateStoreOp t :=
    MiniConnector.generateStoreOp_congr hf.chunkSize hf.blockSize t
  simp only [MiniConnector.stepped, ← ht, hgen] at hop hafter
  have hsnd := MiniConnector.generateStoreOp_snd (c := c) t
  have hstores : (⟨s.tokenIds, table, computed + n, (c.generateStoreOp t).1⟩ :
      ScheduledStep).Stores c t.numStoredTokens := by
    rw [← hf.tokenIds]
    refine ⟨fun op hop => ?_, ?_⟩
    · have hcov := MiniConnector.covers_generateStoreOp (t := t) hf.aligned hop
      simp only at hop
      rwa [hop]
    · have hlt := MiniConnector.available_lt (c := c) t
      rw [hsnd] at hlt
      exact hlt
  refine ⟨_, hafter, hf.chunkSize, hf.blockSize, ?_, ?_, fun _ => ?_, ?_, ?_⟩
  · rw [hsnd]
    exact hf.resolved
  · rw [hsnd]
    exact hf.tokenIds
  · rw [hsnd]
    rfl
  · rw [hsnd]
    rcases hgen' : (c.generateStoreOp t).1 with _ | op
    · exact hf.aligned
    · exact (hstores.covers op hgen').aligned.2
  · rw [hsnd]
    have hsnoc := hf.turn.snoc hstores
    simp only [Scheduling.scheduled, hop]
    exact hsnoc

theorem Inv.build (h : s.Inv r c start) {out : SchedulerOutput} {table : List ℕ}
    (hv : s.Vllm r (.build out table)) (hs : s.step r (.build out table) = some s') :
    s'.Inv r c start := by
  obtain ⟨tracker, hget, hf⟩ := h
  rcases hturn : out.turn r with _ | (_ | ⟨entry, n⟩ | ⟨entry, n⟩)
  · simp only [step, hturn] at hs
    cases hs
  · obtain ⟨hnew, hcached, hnone⟩ := SchedulerOutput.turn_spec hturn
    simp only [step, hturn, Option.some.injEq] at hs
    obtain ⟨-, hafter⟩ := s.connector.buildConnectorMeta_at r out hget
    simp only [MiniConnector.updated, hnew, hcached, hnone, List.foldl_nil,
      MiniConnector.stepped] at hafter
    subst hs
    exact ⟨_, hafter, hf.chunkSize, hf.blockSize, hf.resolved, hf.tokenIds, hf.table, hf.aligned,
      hf.turn⟩
  · obtain ⟨hnew, hcached, hn⟩ := SchedulerOutput.turn_spec hturn
    simp only [step, hturn, Option.some.injEq] at hs
    simp only [Vllm, hturn] at hv
    subst hs
    refine Inv.scheduled hget hf hn ?_
    simp only [MiniConnector.updated, hnew, hcached, List.foldl_cons, List.foldl_nil, hv.2]
  · obtain ⟨hnew, hcached, hn⟩ := SchedulerOutput.turn_spec hturn
    simp only [step, hturn, Option.some.injEq] at hs
    simp only [Vllm, hturn] at hv
    subst hs
    refine Inv.scheduled hget hf hn ?_
    have hblocks : MiniConnector.cachedBlocks entry tracker.blockIds = table := by
      unfold MiniConnector.cachedBlocks
      by_cases hres : entry.resumed = true
      · rw [if_pos hres] at hv
        rw [hv.2]
        exact if_pos hres
      · rw [if_neg hres] at hv
        rw [hv.2, hf.table hv.1]
        rcases entry.newBlockIds with _ | blocks
        · exact (List.append_nil _).symm
        · exact if_neg hres
    simp only [MiniConnector.updated, hnew, hcached, List.foldl_cons, List.foldl_nil, hblocks]

theorem inv_step (h : s.Inv r c start) {l : Label} (hv : s.Vllm r l)
    (hs : s.step r l = some s') : s'.Inv r c start := by
  cases l with
  | grow tokens =>
    cases hs
    obtain ⟨tracker, hget, hf⟩ := h
    simp only [MiniConnector.grow, hget]
    refine ⟨_, OrderedDict.get?_set_self _ _ _, hf.chunkSize, hf.blockSize, hf.resolved, ?_,
      hf.table, hf.aligned, hf.turn⟩
    rw [← hf.tokenIds]
  | matched all prompt n reply =>
    cases hs
    obtain ⟨tracker, hget, hf⟩ := h
    simp only [MiniConnector.getNumNewMatchedTokens, hget, hf.resolved, if_true]
    exact ⟨tracker, hget, hf⟩
  | alloc blocks n =>
    cases hs
    exact h.alloc hv
  | preempt =>
    cases hs
    obtain ⟨tracker, hget, hf⟩ := h
    exact ⟨tracker, hget, hf.chunkSize, hf.blockSize, hf.resolved, hf.tokenIds, (by rintro ⟨⟩),
      hf.aligned, hf.turn⟩
  | build out table => exact h.build hv hs
  | other hook =>
    cases hs
    obtain ⟨tracker, hget, hf⟩ := h
    obtain ⟨hsame, hchunk, hblock⟩ := run_other s.connector hv
    exact ⟨tracker, hsame.trans hget, hchunk.trans hf.chunkSize, hblock.trans hf.blockSize,
      hf.resolved, hf.tokenIds, hf.table, hf.aligned, hf.turn⟩

/-! ## From the lookup on -/

/-- The hits with which a lookup is resolved; none, if the cache server fails. -/
def hitsOf : Except Exc (Option ℕ) → ℕ
  | .ok (some hits) => hits
  | _ => 0

/-- `get_num_new_matched_tokens` has resolved the lookup. -/
def resolved (r : String) (c : MiniConnector) (allTokenIds promptTokenIds : List ℕ)
    (numComputedTokens : ℕ) (reply : Except Exc (Option ℕ)) : Scheduling where
  connector :=
    (c.getNumNewMatchedTokens r allTokenIds promptTokenIds numComputedTokens reply).2.1
  phase := .fresh
  tokenIds := allTokenIds
  table := []
  steps := []

theorem follows_resolve {tracker : RequestTracker} {reply : Except Exc (Option ℕ)}
    (hstored : tracker.numStoredTokens = 0) (n : ℕ) (hreply : reply ≠ .ok none) :
    (MiniConnector.resolve tracker n reply).2.lookupResolved = true ∧
    (MiniConnector.resolve tracker n reply).2.tokenIds = tracker.tokenIds ∧
    (MiniConnector.resolve tracker n reply).2.numStoredTokens = hitsOf reply := by
  rcases reply with e | _ | hits
  · exact ⟨rfl, rfl, hstored⟩
  · exact absurd rfl hreply
  · exact ⟨rfl, rfl, rfl⟩

/-- A request whose lookup is not resolved yet. -/
def Unresolved (r : String) (c : MiniConnector) (allTokenIds : List ℕ) : Prop :=
  ∀ tracker, c.trackers.get? r = some tracker →
    tracker.lookupResolved = false ∧ tracker.tokenIds = allTokenIds ∧ tracker.numStoredTokens = 0

theorem inv_resolved {all prompt : List ℕ} {n : ℕ} {reply : Except Exc (Option ℕ)}
    (hopen : Unresolved r c all) (hreply : reply ≠ .ok none) (hchunk : c.chunkSize ∣ hitsOf reply) :
    (resolved r c all prompt n reply).Inv r c (hitsOf reply) := by
  have hinv : ∀ tracker : RequestTracker, tracker.tokenIds = all → tracker.numStoredTokens = 0 →
      (⟨c.setTracker r (MiniConnector.resolve tracker n reply).2, .fresh, all, [], []⟩ :
        Scheduling).Inv r c (hitsOf reply) := by
    intro tracker htokens hstored
    obtain ⟨hres, htok, hhits⟩ := follows_resolve hstored n hreply
    exact ⟨_, OrderedDict.get?_set_self _ _ _, rfl, rfl, hres, htok.trans htokens, nofun,
      hhits ▸ hchunk, hhits.symm⟩
  unfold resolved MiniConnector.getNumNewMatchedTokens
  rcases hget : c.trackers.get? r with _ | tracker
  · exact hinv { tokenIds := all } rfl rfl
  · obtain ⟨hres, htokens, hstored⟩ := hopen tracker hget
    simp only [hres, Bool.false_eq_true, if_false]
    exact hinv tracker htokens hstored

/-- The STOREs of a request tile the tokens computed : from the hits on they are consecutive whole
chunks, each within what is computed and known and over the scheduler's table, and less than a
chunk is left after a step. `to_host` takes the blocks of each, and gives one chunk for each key
that the server derives. -/
theorem stores_tile {all prompt : List ℕ} {n : ℕ} {reply : Except Exc (Option ℕ)}
    (hopen : Unresolved r c all) (hreply : reply ≠ .ok none) (hchunk : c.chunkSize ∣ hitsOf reply)
    {labels : List Label} (hrun : Run (step r) (Vllm r) (resolved r c all prompt n reply) labels s) :
    (∃ stop, StoresInTurn c (hitsOf reply) s.steps stop) ∧
    ∀ x ∈ s.steps, ∀ op, x.op = some op → ∀ e : Engine,
      e.connector.chunkSize = c.chunkSize → e.connector.blockSize = c.blockSize →
      e.transfer.wholeChunks op.blockIds = .ok () ∧
      ∀ (blake3 : Bytes → Bytes) (srv : CacheServer) (inst : EngineInstance)
        (kv : KVCache e.transfer.blockNbytes), srv.chunkSize = c.chunkSize →
        (∀ id ∈ op.blockIds, id < e.transfer.numBlocks) →
        ∃ chunks, e.transfer.toHost kv op.blockIds = .ok chunks ∧
          chunks.length = (srv.opKeys blake3 op inst).length := by
  obtain ⟨tracker, -, hf⟩ := hrun.invariant (Inv r c (hitsOf reply))
    (inv_resolved hopen hreply hchunk) fun _ _ _ h hv hs => inv_step h hv hs
  refine ⟨⟨_, hf.turn⟩, fun x hx op hop e hc hb => ?_⟩
  obtain ⟨start, hstores⟩ := hf.turn.of_mem hx
  exact (hstores.covers op hop).toHost hc hb

/-- A step that schedules request `a` alone : first, by an increment, or resumed. -/
def sampleOutput (new : List NewReq) (cached : List CachedReq) (n : ℕ) : SchedulerOutput :=
  ⟨new, cached, .fromKeys ["a"] n⟩

/-- Request `a` has a chunk of hits, and is scheduled for the second chunk. It gets a token and two
blocks more for the third, is preempted, gets two tokens more, and is resumed with a new table. -/
def sampleLabels : List Label :=
  [.build (sampleOutput [⟨"a", [4, 5, 6, 7], 2⟩] [] 2) [4, 5, 6, 7],
    .grow [6],
    .build (sampleOutput [] [⟨"a", some [0, 1], false, 4⟩] 2) [4, 5, 6, 7, 0, 1],
    .preempt,
    .grow [7, 8],
    .build (sampleOutput [] [⟨"a", some [2, 3, 0, 1, 7, 6, 5, 4], true, 0⟩] 8)
      [2, 3, 0, 1, 7, 6, 5, 4]]

theorem stores_tile_sample : ∃ s : Scheduling,
    s.steps.map ScheduledStep.op = [some ⟨[1, 2, 3, 4], [6, 7], 2, 4, 0⟩,
      some ⟨[1, 2, 3, 4, 5, 6], [0, 1], 4, 6, 0⟩,
      some ⟨[1, 2, 3, 4, 5, 6, 7, 8], [5, 4], 6, 8, 0⟩] ∧
    ∃ stop, StoresInTurn Engine.sample.connector 2 s.steps stop := by
  have hrun : Run (step "a") (Vllm "a")
      (resolved "a" Engine.sample.connector [1, 2, 3, 4, 5] [1, 2, 3, 4, 5] 0 (.ok (some 2)))
      sampleLabels _ := .cons ⟨rfl, rfl⟩ rfl (.cons trivial rfl (.cons ⟨rfl, rfl⟩ rfl (.cons rfl rfl
        (.cons trivial rfl (.cons ⟨rfl, rfl⟩ rfl .refl)))))
  have hopen : Unresolved "a" Engine.sample.connector [1, 2, 3, 4, 5] := nofun
  have hreply : (.ok (some 2) : Except Exc (Option ℕ)) ≠ .ok none := nofun
  exact ⟨_, rfl, (stores_tile hopen hreply (by decide) hrun).1⟩

end Scheduling

end MiniLlmcache
