import MiniLlmcache.Integrity
import MiniLlmcache.Retrieve
import MiniLlmcache.Connector

/-!
# A round trip of KV blocks

A request `A` stores its KV blocks through one engine, a later request `B` that shares its
first tokens loads them through another. Five index calculations have to agree : the token
range of an operation, its slice of the block table, the server's slice of the hash list, the
layer-major layout of a chunk, and the blocks of the first chunk that are left out.

`Engine.Loads.restored` puts the parts together. The server's part is `FetchInv.sends` : while
the session holds the keys of a RETRIEVE, its handler sends for each key a chunk that was written
for it, whatever the other threads do.
-/

namespace MiniLlmcache

open L1Manager

variable {blake3 : Bytes → Bytes}

/-! ## The server's part -/

namespace Handler

/-- How far the handler of a RETRIEVE is : `2` when it is about to send. -/
def retrieveStage : Handler → ℕ
  | start _ => 0
  | retrieveRead _ _ _ => 1
  | retrieveSend _ _ _ => 2
  | _ => 3

/-- Where the handler of the RETRIEVE `p` of `keys` can stand. Its views are on the slices of
the keys' entries. -/
def Fetching (srv : CacheServer) (p : TransferPayload) (worldSize : ℕ) (keys : List ChunkKey) :
    Handler → Prop
  | start m => m = .retrieve p
  | retrieveRead _ ks ws => ks = keys ∧ ws = worldSize
  | retrieveSend _ ks objs => ks = keys ∧ ks.length = objs.length ∧
    ∀ v ∈ ks.zip objs, ∀ e, srv.l1.entries.get? v.1 = some e → e.obj = v.2
  | _ => True

variable {srv srv' : CacheServer} {p : TransferPayload} {inst : EngineInstance}

/-- Its own step, while its engine is registered. -/
theorem Fetching.step {hd hd' : Handler}
    (h : hd.Fetching srv p inst.worldSize (srv.opKeys blake3 p.op inst))
    (hinst : srv.instances.get? p.instanceId = some inst) (hs : hd.Does blake3 srv srv' hd') :
    hd'.Fetching srv' p inst.worldSize (srv.opKeys blake3 p.op inst) := by
  cases hs with
  | dispatch m =>
    obtain rfl : m = .retrieve p := h
    simp only [dispatch, hinst]
    exact ⟨rfl, rfl⟩
  | read hok =>
    obtain ⟨rfl, -⟩ := h
    obtain ⟨hlen, hview⟩ := read_ok hok
    refine ⟨rfl, hlen, fun v hv e he => ?_⟩
    obtain ⟨e', he', hobj⟩ := hview v hv
    rw [he'] at he
    cases he
    exact hobj
  | finishRead => split_ifs <;> trivial
  | _ => trivial

/-- A step of another thread, while the keys are in L1. -/
theorem Fetching.mono {worldSize : ℕ} {keys : List ChunkKey} {hd : Handler}
    (h : hd.Fetching srv p worldSize keys)
    (hres : ∀ k ∈ keys, ∃ e, srv.l1.entries.get? k = some e)
    (hev : srv.l1.Evolves srv'.l1) : hd.Fetching srv' p worldSize keys := by
  cases hd with
  | retrieveSend r ks objs =>
    obtain ⟨rfl, hlen, hview⟩ := h
    refine ⟨rfl, hlen, fun v hv e' he' => ?_⟩
    obtain ⟨e, he⟩ := hres v.1 (List.of_mem_zip hv).1
    rw [(hev.entry _ e e' he he').1]
    exact hview v hv e he
  | _ => exact h

/-- Up to the send nothing fails, while the keys are in L1. -/
theorem Fetching.progress {hd : Handler}
    (h : hd.Fetching srv p inst.worldSize (srv.opKeys blake3 p.op inst))
    (hinst : srv.instances.get? p.instanceId = some inst)
    (hres : ∀ k ∈ srv.opKeys blake3 p.op inst, ∃ e, srv.l1.entries.get? k = some e)
    (hne : srv.opKeys blake3 p.op inst ≠ []) (hworld : inst.worldSize ≠ 0)
    (hstage : hd.retrieveStage < 2) :
    ∃ srv' hd', hd.step blake3 srv = some (srv', hd') ∧
      hd'.retrieveStage = hd.retrieveStage + 1 := by
  cases hd with
  | start m =>
    obtain rfl : m = .retrieve p := h
    refine ⟨_, _, rfl, ?_⟩
    simp only [hinst]
    rfl
  | retrieveRead r ks ws =>
    obtain ⟨rfl, rfl⟩ := h
    obtain ⟨objs, hobjs⟩ := read_of_resident hres
    have hobjs_ne : objs ≠ [] := by
      rintro rfl
      exact hne (List.eq_nil_of_length_eq_zero (read_ok hobjs).1)
    refine ⟨srv, .retrieveSend r (srv.opKeys blake3 p.op inst) objs, ?_, rfl⟩
    simp only [Handler.step, hobjs, hworld, hobjs_ne, if_false]
  | _ => simp [retrieveStage] at hstage

end Handler

namespace System

variable {s s' : System}

variable (blake3) in
/-- The steps while the RETRIEVE `p` is served : its engine stays registered, and its session
holds the keys. -/
def Serving (p : TransferPayload) (inst : EngineInstance) (s : System) (l : Label) : Prop :=
  s.Faithful blake3 l ∧ s.server.instances.get? p.instanceId = some inst ∧
    ∀ k ∈ s.server.opKeys blake3 p.op inst, k ∈ s.server.heldKeys p.requestId

instance (p : TransferPayload) (inst : EngineInstance) (s : System) (l : Label) :
    Decidable (s.Serving blake3 p inst l) := by
  unfold Serving
  infer_instance

theorem opKeys_congr {srv srv' : CacheServer} (h : srv'.chunkSize = srv.chunkSize)
    (op : LoadStoreOp) (inst : EngineInstance) :
    srv'.opKeys blake3 op inst = srv.opKeys blake3 op inst := by
  rw [CacheServer.opKeys, CacheServer.opKeys, h]

variable (blake3) in
/-- What holds all along in thread `t`, which serves `p` with the keys of `keysFrom`. -/
structure FetchInv (keysFrom : CacheServer) (t : ℕ) (p : TransferPayload) (inst : EngineInstance)
    (s : System) : Prop where
  inv : ∃ lost, s.Inv blake3 lost
  chunkSize : s.server.chunkSize = keysFrom.chunkSize
  handler : ∃ hd, s.handlers.get? t = some (.retrieve p, hd) ∧
    hd.Fetching s.server p inst.worldSize (keysFrom.opKeys blake3 p.op inst)

theorem FetchInv.step {keysFrom : CacheServer} {t : ℕ} {p : TransferPayload}
    {inst : EngineInstance} {l : Label} (h : s.FetchInv blake3 keysFrom t p inst)
    (hok : s.Serving blake3 p inst l) (hs : s.step blake3 l = some s') :
    s'.FetchInv blake3 keysFrom t p inst := by
  obtain ⟨lost, hinv⟩ := h.inv
  obtain ⟨hf, hinst, hheld⟩ := hok
  obtain ⟨hinv', hev, hsize⟩ := inv_step hinv hf.1 hs
  rw [opKeys_congr h.chunkSize] at hheld
  refine ⟨⟨_, hinv'⟩, hsize.trans h.chunkSize, ?_⟩
  obtain ⟨hd, hget, hfetch⟩ := h.handler
  rcases handlers_step hs t with heq | ⟨hnone, -⟩ | ⟨-, m', hd₁, hd₂, hget₁, hget₂, hdoes⟩
  · refine ⟨hd, heq.trans hget, hfetch.mono (fun k hk => ?_) hev⟩
    obtain ⟨e, he, -⟩ := hinv.entry_of_held (hheld k hk)
    exact ⟨e, he⟩
  · rw [hget] at hnone
    cases hnone
  · rw [hget] at hget₁
    cases hget₁
    rw [← opKeys_congr h.chunkSize] at hfetch ⊢
    exact ⟨_, hget₂, hfetch.step hinst hdoes⟩

/-- What holds while a RETRIEVE is served. -/
theorem FaithfullyReachable.fetchInv (h : s.FaithfullyReachable blake3) {t : ℕ}
    {p : TransferPayload} (hg : s.handlers.get? t = some (.retrieve p, .start (.retrieve p)))
    {inst : EngineInstance} {ls : List Label}
    (hrun : Run (step blake3) (Serving blake3 p inst) s ls s') :
    s'.FetchInv blake3 s.server t p inst :=
  hrun.invariant _ ⟨h.carried.1, rfl, _, hg, rfl⟩
    fun _ _ _ hi hok hs => hi.step hok hs

/-- The chunks of a RETRIEVE : there is one for each key, and it was written for that key. -/
theorem FetchInv.sends {keysFrom : CacheServer} {t : ℕ} {p : TransferPayload}
    {inst : EngineInstance} (h : s.FetchInv blake3 keysFrom t p inst)
    (hok : s.Serving blake3 p inst (.handler t)) {hd : Handler}
    (hg : s.handlers.get? t = some (.retrieve p, hd)) (hstage : hd.retrieveStage = 2) :
    (s.sends (.handler t)).map Prod.fst = keysFrom.opKeys blake3 p.op inst ∧
    ∀ q ∈ s.sends (.handler t), q ∈ s.server.written := by
  obtain ⟨lost, hinv⟩ := h.inv
  obtain ⟨hd', hget, hfetch⟩ := h.handler
  rw [hg] at hget
  cases hget
  cases hd with
  | retrieveSend r ks objs =>
    obtain ⟨hks, hlen, hview⟩ := hfetch
    have hsends : s.sends (.handler t) =
        (ks.zip objs).map fun v => (v.1, s.server.l1.bytes v.2) := by
      simp only [System.sends, hg, Option.elim_some, Handler.views]
    rw [hsends, ← hks]
    constructor
    · rw [List.map_map]
      exact List.map_fst_zip hlen.le
    · intro q hq
      obtain ⟨v, hv, rfl⟩ := List.mem_map.mp hq
      have hk : v.1 ∈ s.server.opKeys blake3 p.op inst := by
        rw [opKeys_congr h.chunkSize, ← hks]
        exact (List.of_mem_zip hv).1
      obtain ⟨e, he, hr⟩ := hinv.entry_of_held (hok.2.2 v.1 hk)
      have hdata := hinv.ledger.data _ e he hr
      rw [hview v hv e he] at hdata
      exact hdata
  | _ => cases hstage

/-- The thread gets to its send. -/
theorem FetchInv.progress {keysFrom : CacheServer} {t : ℕ} {p : TransferPayload}
    {inst : EngineInstance} (h : s.FetchInv blake3 keysFrom t p inst)
    (hok : s.Serving blake3 p inst (.handler t)) {hd : Handler}
    (hg : s.handlers.get? t = some (.retrieve p, hd))
    (hne : keysFrom.opKeys blake3 p.op inst ≠ []) (hworld : inst.worldSize ≠ 0)
    (hstage : hd.retrieveStage < 2) :
    ∃ s' hd', s.step blake3 (.handler t) = some s' ∧
      s'.handlers.get? t = some (.retrieve p, hd') ∧
      hd'.retrieveStage = hd.retrieveStage + 1 := by
  obtain ⟨lost, hinv⟩ := h.inv
  obtain ⟨hd₀, hget, hfetch⟩ := h.handler
  rw [hg] at hget
  cases hget
  rw [← opKeys_congr h.chunkSize] at hfetch hne
  obtain ⟨srv', hd', hstep, hnext⟩ := hfetch.progress hok.2.1
    (fun k hk => (hinv.entry_of_held (hok.2.2 k hk)).imp fun _ he => he.1) hne hworld hstage
  refine ⟨{ s with server := srv', handlers := s.handlers.set t (.retrieve p, hd') }, hd', ?_,
    OrderedDict.get?_set_self _ _ _, hnext⟩
  simp only [System.step, hg, hstep, Option.map_some]

end System

/-! ## Keys of an operation -/

/-- Operations on one token list that have a key in common have it for one chunk : chunk
hashes do not collide. -/
theorem CacheServer.chunk_unique (srv : CacheServer) {tokens : List ℕ}
    (hnd : (chunkHashes blake3 tokens srv.chunkSize).Nodup) {op op' : LoadStoreOp}
    {inst inst' : EngineInstance} (htokens : op.tokenIds.take op.stop = tokens.take op.stop)
    (hstop : op.stop ≤ tokens.length) (htokens' : op'.tokenIds.take op'.stop = tokens.take op'.stop)
    (hstop' : op'.stop ≤ tokens.length) {i j : ℕ} {k : ChunkKey}
    (hk : (srv.opKeys blake3 op inst)[i]? = some k)
    (hk' : (srv.opKeys blake3 op' inst')[j]? = some k) :
    op.start / srv.chunkSize + i = op'.start / srv.chunkSize + j := by
  have hi := (List.getElem?_eq_some_iff.mp hk).1
  have hj := (List.getElem?_eq_some_iff.mp hk').1
  rw [srv.length_opKeys _ htokens hstop] at hi
  rw [srv.length_opKeys _ htokens' hstop'] at hj
  rw [srv.getElem?_opKeys inst htokens hstop (by omega), Option.map_eq_some_iff] at hk
  rw [srv.getElem?_opKeys inst' htokens' hstop' (by omega), Option.map_eq_some_iff] at hk'
  obtain ⟨hash, hat, rfl⟩ := hk
  obtain ⟨hash', hat', heq⟩ := hk'
  rw [ChunkKey.mk.injEq] at heq
  rw [heq.1] at hat'
  exact (List.getElem?_inj (List.getElem?_eq_some_iff.mp hat).1 hnd).mp (hat.trans hat'.symm)

/-! ## Engines of one model and rank -/

namespace Engine

/-- Engines of one model and rank, with blocks and chunks of one size. -/
structure Peers (A B : Engine) : Prop where
  model : A.connector.model = B.connector.model
  rank : A.transfer.rank = B.transfer.rank
  chunkSize : A.connector.chunkSize = B.connector.chunkSize
  blockSize : A.connector.blockSize = B.connector.blockSize
  numLayers : A.transfer.numLayers = B.transfer.numLayers
  blockNbytes : A.transfer.blockNbytes = B.transfer.blockNbytes

variable {A B : Engine}

theorem Peers.blocksPerChunk (h : A.Peers B) :
    A.transfer.blocksPerChunk = B.transfer.blocksPerChunk := by
  rw [A.blocksPerChunk, B.blocksPerChunk, MiniConnector.blocksPerChunk,
    MiniConnector.blocksPerChunk, h.chunkSize, h.blockSize]

theorem Peers.chunkNbytes (h : A.Peers B) : A.transfer.chunkNbytes = B.transfer.chunkNbytes := by
  rw [KVTransfer.chunkNbytes, KVTransfer.chunkNbytes, h.numLayers, h.blocksPerChunk,
    h.blockNbytes]

theorem Peers.blockOf (h : A.Peers B) (chunk : Bytes) (layer j : ℕ) :
    A.transfer.blockOf chunk layer j = B.transfer.blockOf chunk layer j := by
  rw [KVTransfer.blockOf, KVTransfer.blockOf, h.blocksPerChunk, h.blockNbytes]

end Engine

/-! ## What a request stores -/

/-- One STORE op of a request, from its tracker to the bytes of the message. -/
structure StoreEvent (A : Engine) where
  tracker : RequestTracker
  kv : KVCache A.transfer.blockNbytes
  op : LoadStoreOp
  chunks : List Bytes
  generated : (A.connector.generateStoreOp tracker).1 = some op
  copied : A.transfer.toHost kv op.blockIds = .ok chunks

namespace StoreEvent

variable {A : Engine}

/-- The op stores token block `b`. -/
def Covers (ev : StoreEvent A) (b : ℕ) : Prop :=
  ev.op.start ≤ b * A.connector.blockSize ∧ b * A.connector.blockSize < ev.op.stop

/-- The ops of one request : each starts where the one before it ended. -/
def Chain : ℕ → List (StoreEvent A) → Prop
  | _, [] => True
  | n, ev :: evs => ev.tracker.numStoredTokens = n ∧ Chain ev.op.stop evs

theorem start_eq (ev : StoreEvent A) : ev.op.start = ev.tracker.numStoredTokens :=
  (A.connector.generateStoreOp_some ev.generated).1

theorem stop_eq (ev : StoreEvent A) :
    ∃ n, 0 < n ∧ ev.op.stop = ev.op.start + n * A.connector.chunkSize :=
  (A.connector.generateStoreOp_some ev.generated).2.1

theorem start_lt_stop (ev : StoreEvent A) : ev.op.start < ev.op.stop := by
  obtain ⟨n, hn, hstop⟩ := ev.stop_eq
  have := Nat.mul_pos hn A.connector.chunkSize_pos
  omega

/-- Ops of one request start after `n`, at a whole chunk. -/
theorem Chain.start : ∀ {n : ℕ} {evs : List (StoreEvent A)}, Chain n evs →
    A.connector.chunkSize ∣ n →
    ∀ ev ∈ evs, n ≤ ev.op.start ∧ A.connector.chunkSize ∣ ev.op.start
  | _, [], _, _ => nofun
  | n, ev :: evs, ⟨hn, hrest⟩, hdvd => by
    obtain ⟨m, -, hstop⟩ := ev.stop_eq
    obtain rfl : ev.op.start = n := ev.start_eq.trans hn
    have hdvd' : A.connector.chunkSize ∣ ev.op.stop := by
      rw [hstop]
      exact Nat.dvd_add hdvd (Dvd.intro_left _ rfl)
    intro ev' hev'
    rcases List.mem_cons.mp hev' with rfl | hev'
    · exact ⟨le_rfl, hdvd⟩
    · obtain ⟨hle, hd⟩ := hrest.start hdvd' ev' hev'
      exact ⟨by have := ev.start_lt_stop; omega, hd⟩

/-- A request stores a token block once. -/
theorem Chain.unique : ∀ {n : ℕ} {evs : List (StoreEvent A)}, Chain n evs →
    A.connector.chunkSize ∣ n → ∀ {b : ℕ} {ev ev' : StoreEvent A}, ev ∈ evs → ev' ∈ evs →
    ev.Covers b → ev'.Covers b → ev = ev'
  | n, [], _, _, _, _, _, h, _, _, _ => by cases h
  | n, e :: evs, ⟨hn, hrest⟩, hdvd, b, ev, ev', h, h', hc, hc' => by
    obtain ⟨m, -, hstop⟩ := e.stop_eq
    obtain rfl : e.op.start = n := e.start_eq.trans hn
    have hdvd' : A.connector.chunkSize ∣ e.op.stop := by
      rw [hstop]
      exact Nat.dvd_add hdvd (Dvd.intro_left _ rfl)
    have hlater : ∀ x ∈ evs, ¬(e.Covers b ∧ x.Covers b) := by
      rintro x hx ⟨⟨-, hlt⟩, hle, -⟩
      have := (hrest.start hdvd' x hx).1
      omega
    rcases List.mem_cons.mp h with rfl | hin
    · rcases List.mem_cons.mp h' with rfl | hin'
      · rfl
      · exact (hlater ev' hin' ⟨hc, hc'⟩).elim
    · rcases List.mem_cons.mp h' with rfl | hin'
      · exact (hlater ev hin ⟨hc', hc⟩).elim
      · exact hrest.unique hdvd' hin hin' hc hc'

/-- Chunk `j` of an op that starts with chunk `q` : its bytes are the blocks of the token blocks
of chunk `q + j`, layer by layer. -/
theorem chunk_spec (ev : StoreEvent A) {q j : ℕ} (hstart : ev.op.start = q * A.connector.chunkSize)
    {chunk : Bytes} (hchunk : ev.chunks[j]? = some chunk) :
    chunk.length = A.transfer.chunkNbytes ∧
    (q + j + 1) * A.connector.chunkSize ≤ ev.op.stop ∧
    ∀ k < A.transfer.blocksPerChunk, ev.Covers ((q + j) * A.transfer.blocksPerChunk + k) ∧
      ∃ id, ev.tracker.blockIds[(q + j) * A.transfer.blocksPerChunk + k]? = some id ∧
        ∀ layer < A.transfer.numLayers,
          A.transfer.blockOf chunk layer k = ev.kv.block layer id := by
  obtain ⟨n, hstop, hids, htable, hlen⟩ := Engine.storeOp_eq ev.generated hstart
  have hpos := A.blocksPerChunk_pos
  have hmul : A.transfer.blocksPerChunk * A.connector.blockSize = A.connector.chunkSize :=
    A.blocksPerChunk ▸ A.connector.blocksPerChunk_mul
  obtain ⟨hchunks, -, hdata⟩ := KVTransfer.toHost_ok ev.copied
  have hj : j < n := by
    have hlt := (List.getElem?_eq_some_iff.mp hchunk).1
    rwa [hchunks, hlen, Nat.mul_div_cancel _ hpos] at hlt
  obtain ⟨hsize, hblock⟩ := hdata j chunk hchunk
  refine ⟨hsize, ?_, fun k hk => ⟨⟨?_, ?_⟩, ?_⟩⟩
  · rw [hstop]
    exact Nat.mul_le_mul_right _ (by omega)
  · rw [hstart, ← hmul, ← Nat.mul_assoc]
    refine Nat.mul_le_mul_right _ ((Nat.mul_le_mul_right _ (Nat.le_add_right q j)).trans ?_)
    exact Nat.le_add_right _ _
  · rw [hstop, ← hmul, ← Nat.mul_assoc]
    exact Nat.mul_lt_mul_of_pos_right (place_lt (by omega) hk) A.connector.blockSize_pos
  · have hplace : (q + j) * A.transfer.blocksPerChunk + k < ev.tracker.blockIds.length :=
      (place_lt (by omega) hk).trans_le htable
    have hid := List.getElem?_eq_getElem hplace
    refine ⟨_, hid, fun layer hl => hblock layer k _ hl hk ?_⟩
    rw [← hid, hids, getElem?_slice, Nat.add_mul, Nat.add_assoc]
    rw [Nat.add_mul, Nat.add_sub_cancel_left]
    exact place_lt hj hk

end StoreEvent

/-! ## What a request loads -/

/-- The KV cache after a load : every token block from the computed ones on to the last hit
holds what `A` had there when it stored it, and no other block has changed. -/
structure Engine.Restored {A B : Engine} (evs : List (StoreEvent A)) (tracker : RequestTracker)
    (kv kv' : KVCache B.transfer.blockNbytes) : Prop where
  loaded : ∀ b, tracker.vllmHits / B.connector.blockSize ≤ b →
    b < tracker.lmcacheHits / B.connector.blockSize →
    ∃ id, tracker.blockIds[b]? = some id ∧ (∃ ev ∈ evs, ev.Covers b) ∧
      ∀ ev ∈ evs, ev.Covers b → ∃ id', ev.tracker.blockIds[b]? = some id' ∧
        ∀ layer < B.transfer.numLayers, kv'.block layer id = ev.kv.block layer id'
  frame : ∀ id, (∀ b, tracker.vllmHits / B.connector.blockSize ≤ b →
      b < tracker.lmcacheHits / B.connector.blockSize → tracker.blockIds[b]? ≠ some id) →
    ∀ layer < B.transfer.numLayers, kv'.block layer id = kv.block layer id

section load

variable {A B : Engine} {tracker : RequestTracker} {op : LoadStoreOp}

/-- `frames` are the chunks that `A` stored, from chunk `q` of the tokens on. -/
def StoreEvent.Holds (evs : List (StoreEvent A)) (q : ℕ) (frames : List Bytes) : Prop :=
  ∀ i frame, frames[i]? = some frame → ∃ ev ∈ evs, ∃ r j,
    ev.op.start = r * A.connector.chunkSize ∧ ev.chunks[j]? = some frame ∧ r + j = q + i

/-- Scattering the chunks that `A` stored. -/
theorem Engine.Loads.restored (hload : B.Loads tracker) (hpeers : A.Peers B)
    (hop : (B.connector.generateRetrieveOp tracker).1 = some op) {evs : List (StoreEvent A)}
    {n : ℕ} (hn : A.connector.chunkSize ∣ n) (hchain : StoreEvent.Chain n evs)
    {frames : List Bytes}
    (hframes : StoreEvent.Holds evs (op.start / B.connector.chunkSize) frames)
    (hlen : frames.length = op.stop / B.connector.chunkSize - op.start / B.connector.chunkSize)
    (kv : KVCache B.transfer.blockNbytes) :
    (B.finishLoad op frames).2 = none ∧
    Restored evs tracker kv (kv.writeAll (B.finishLoad op frames).1) := by
  obtain ⟨V, H, hshape⟩ := hload.shape hop
  have hbs := B.connector.blockSize_pos
  have hskip := Nat.mod_lt V B.blocksPerChunk_pos
  rw [hshape.start, Nat.mul_div_cancel _ B.connector.chunkSize_pos] at hframes hlen
  rw [hshape.stop, Nat.mul_div_cancel _ B.connector.chunkSize_pos] at hlen
  -- the chunks of the reply
  have hsize : ∀ f ∈ frames, f.length = B.transfer.chunkNbytes := by
    intro f hf
    obtain ⟨i, hi⟩ := List.mem_iff_getElem?.mp hf
    obtain ⟨ev, -, r, j, hstart, hj, -⟩ := hframes i f hi
    exact (ev.chunk_spec hstart hj).1.trans hpeers.chunkNbytes
  have hblock := fun layer => KVTransfer.block_fromHost hshape.length hshape.bounded hskip
    hshape.nodup hsize kv layer
  rw [hshape.finishLoad_eq]
  refine ⟨KVTransfer.fromHost_returns hshape.length hshape.bounded hskip hsize hlen.le, ⟨?_, ?_⟩⟩
  · intro b hle hblt
    rw [hshape.computed, Nat.mul_div_cancel _ hbs] at hle
    rw [hshape.hits, MiniConnector.mul_chunkSize_div, ← B.blocksPerChunk] at hblt
    obtain ⟨hrow, hi, hnot, hat⟩ := hshape.place hle hblt
    have hk := Nat.mod_lt b B.blocksPerChunk_pos
    obtain ⟨frame, hframe⟩ : ∃ frame, frames[b / B.transfer.blocksPerChunk -
      V / B.transfer.blocksPerChunk]? = some frame := ⟨_, List.getElem?_eq_getElem (hlen ▸ hi)⟩
    obtain ⟨ev, hev, r, j, hstart, hj, hrj⟩ := hframes _ _ hframe
    have hplace : (r + j) * B.transfer.blocksPerChunk + b % B.transfer.blocksPerChunk = b := by
      rw [hrj, Nat.add_sub_cancel' hrow]
      exact Nat.div_add_mod' b _
    obtain ⟨-, -, hspec⟩ := ev.chunk_spec hstart hj
    obtain ⟨hcovers, id', hid', hdata⟩ := hspec (b % B.transfer.blocksPerChunk)
      (hpeers.blocksPerChunk ▸ hk)
    rw [hpeers.blocksPerChunk, hplace] at hcovers hid'
    have hid := List.getElem?_eq_getElem (hblt.trans_le hshape.covers)
    refine ⟨_, hid, ⟨ev, hev, hcovers⟩, fun ev' hev' hc' => ?_⟩
    obtain rfl := hchain.unique hn hev hev' hcovers hc'
    refine ⟨id', hid', fun layer hl => ?_⟩
    have hread := hdata layer (hpeers.numLayers ▸ hl)
    rw [hpeers.blockOf] at hread
    rw [← hread]
    refine (hblock layer hl).1 _ _ _ frame hi hnot hk (hat.trans hid) hframe ?_
    rw [hread, ev.kv.length_block, hpeers.blockNbytes]
  · intro id hother layer hl
    refine (hblock layer hl).2 id fun i j hij hj hat => ?_
    have hi : i < H - V / B.transfer.blocksPerChunk := by
      have hlt' := (List.getElem?_eq_some_iff.mp hat).1
      rw [hshape.length] at hlt'
      exact Nat.lt_of_mul_lt_mul_right (Nat.lt_of_le_of_lt (Nat.le_add_right _ j) hlt')
    rw [hshape.get hi hj] at hat
    refine hother _ ?_ ?_ hat
    · rw [hshape.computed, Nat.mul_div_cancel _ hbs]
      exact KVTransfer.le_of_skipOf B.blocksPerChunk_pos hij
    · rw [hshape.hits, MiniConnector.mul_chunkSize_div, ← B.blocksPerChunk]
      exact place_lt (by omega) hj

end load

namespace System

variable {s s' : System} {A B : Engine}

/-- The chunks of the reply that thread `t` is about to send. -/
def reply (s : System) (t : ℕ) : List Bytes := (s.sends (.handler t)).map Prod.snd

/-- The chunks that a RETRIEVE of `op` gets are chunks of `A`, when `A` stored those of its
keys. -/
theorem holds_of_stored {srv : CacheServer} (hpeers : A.Peers B)
    (hsize : srv.chunkSize = B.connector.chunkSize) {tokens : List ℕ}
    (hnd : (chunkHashes blake3 tokens srv.chunkSize).Nodup) {evs : List (StoreEvent A)}
    (hevs : ∀ ev ∈ evs, A.connector.chunkSize ∣ ev.op.start ∧ ev.tracker.tokenIds <+: tokens)
    {op : LoadStoreOp} (htokens : op.tokenIds.take op.stop = tokens.take op.stop)
    (hstop : op.stop ≤ tokens.length) {sent : List (ChunkKey × Bytes)}
    (hkeys : sent.map Prod.fst = srv.opKeys blake3 op B.inst)
    (hsent : ∀ q ∈ sent, ∃ ev ∈ evs, q ∈ (srv.opKeys blake3 ev.op A.inst).zip ev.chunks) :
    StoreEvent.Holds evs (op.start / B.connector.chunkSize) (sent.map Prod.snd) := by
  intro i frame hi
  rw [List.getElem?_map, Option.map_eq_some_iff] at hi
  obtain ⟨⟨k, frame⟩, hi, rfl⟩ := hi
  have hk : (srv.opKeys blake3 op B.inst)[i]? = some k := by
    rw [← hkeys, List.getElem?_map, hi]
    rfl
  obtain ⟨ev, hev, hq⟩ := hsent _ (List.mem_of_getElem? hi)
  obtain ⟨j, hj⟩ := List.mem_iff_getElem?.mp hq
  obtain ⟨hk', hchunk⟩ := List.getElem?_zip_eq_some.mp hj
  obtain ⟨⟨r, hr⟩, hpre⟩ := hevs ev hev
  obtain ⟨-, -, hle, -, hev_tokens, -⟩ := A.connector.generateStoreOp_some ev.generated
  have htokens' : ev.op.tokenIds.take ev.op.stop = tokens.take ev.op.stop := by
    obtain ⟨rest, rfl⟩ := hpre
    rw [hev_tokens, List.take_take, Nat.min_self, List.take_append_of_le_length hle]
  have hplace := srv.chunk_unique hnd htokens' (hle.trans hpre.length_le) htokens hstop hk' hk
  rw [hsize, hr, hpeers.chunkSize, Nat.mul_div_cancel_left _ B.connector.chunkSize_pos] at hplace
  exact ⟨ev, hev, r, j, by rw [hr, Nat.mul_comm], hchunk, hplace⟩

/-- KV round trip : `A` stores its KV blocks by the STORE ops of one request, over any block
tables. `B`, of the same model and rank, serves a request that shares the first
`lmcache_hits` tokens, all of whose chunks `A` stored. Then the RETRIEVE of `B` puts into the
blocks of its table, from the computed tokens on to the last hit, what `A` had there, changes no
other block, and loads as many tokens as were announced. -/
theorem kv_round_trip (h : s.FaithfullyReachable blake3) (hpeers : A.Peers B)
    (hsize : s.server.chunkSize = B.connector.chunkSize) {tokens : List ℕ}
    (hnd : (chunkHashes blake3 tokens s.server.chunkSize).Nodup) {n : ℕ}
    (hn : A.connector.chunkSize ∣ n) {evs : List (StoreEvent A)} (hchain : StoreEvent.Chain n evs)
    (hevs : ∀ ev ∈ evs, ev.tracker.tokenIds <+: tokens) {tracker : RequestTracker}
    (hload : B.Loads tracker) (hle : tracker.lmcacheHits ≤ tokens.length)
    (hshare : tracker.tokenIds.take tracker.lmcacheHits = tokens.take tracker.lmcacheHits)
    {p : TransferPayload} (hop : (B.connector.generateRetrieveOp tracker).1 = some p.op) {t : ℕ}
    (hg : s.handlers.get? t = some (.retrieve p, .start (.retrieve p)))
    (hhits : s.server.query ⟨p.requestId, B.connector.worldSize⟩ = .int tracker.lmcacheHits)
    {ls : List Label} (hrun : Run (step blake3) (Serving blake3 p B.inst) s ls s')
    (hlast : s'.Serving blake3 p B.inst (.handler t)) {hd : Handler}
    (hg' : s'.handlers.get? t = some (.retrieve p, hd))
    (hstored : ∀ q ∈ s'.server.written, q.1 ∈ s.server.opKeys blake3 p.op B.inst →
      ∃ ev ∈ evs, q ∈ (s.server.opKeys blake3 ev.op A.inst).zip ev.chunks)
    (kv : KVCache B.transfer.blockNbytes) :
    (hd.retrieveStage < 2 → ∃ s'' hd', s'.step blake3 (.handler t) = some s'' ∧
      s''.handlers.get? t = some (.retrieve p, hd') ∧
      hd'.retrieveStage = hd.retrieveStage + 1) ∧
    (hd.retrieveStage = 2 → (B.finishLoad p.op (s'.reply t)).2 = none ∧
      Engine.Restored evs tracker kv (kv.writeAll (B.finishLoad p.op (s'.reply t)).1)) ∧
    ∀ (c : MiniConnector) (id : String) (allTokenIds promptTokenIds : List ℕ),
      (c.trackers.get? id).all (fun tracker => !tracker.lookupResolved) = true →
      (c.getNumNewMatchedTokens id allTokenIds promptTokenIds tracker.vllmHits
        (.ok (some tracker.lmcacheHits))).1 =
        (some (B.tokensLoaded p.op), true) := by
  obtain ⟨V, H, hshape⟩ := hload.shape hop
  have hstop : p.op.stop = tracker.lmcacheHits := hshape.stop.trans hshape.hits.symm
  have htokens : p.op.tokenIds.take p.op.stop = tokens.take p.op.stop := by
    rw [hshape.tokenIds, List.take_take, Nat.min_self, hstop, hshare]
  have hlen : (s.server.opKeys blake3 p.op B.inst).length =
      p.op.stop / B.connector.chunkSize - p.op.start / B.connector.chunkSize := by
    rw [s.server.length_opKeys B.inst htokens (hstop ▸ hle), hsize]
  have hfetch := h.fetchInv hg hrun
  refine ⟨fun hstage => hfetch.progress hlast hg' ?_ ?_ hstage, fun hstage => ?_, ?_⟩
  · -- there is a chunk to load
    intro hnil
    rw [hnil, hshape.start, hshape.stop, Nat.mul_div_cancel _ B.connector.chunkSize_pos,
      Nat.mul_div_cancel _ B.connector.chunkSize_pos, List.length_nil] at hlen
    have := hshape.first_lt
    omega
  · -- the hits were reported
    intro hworld
    have hzero : B.connector.worldSize = 0 := hworld
    rw [CacheServer.query, hzero] at hhits
    split at hhits <;> cases hhits
  · obtain ⟨hkeys, hwritten⟩ := hfetch.sends hlast hg' hstage
    have hframes := holds_of_stored hpeers hsize hnd
      (fun ev hev => ⟨(hchain.start hn ev hev).2, hevs ev hev⟩) htokens (hstop ▸ hle) hkeys
      fun q hq => hstored q (hwritten q hq) (hkeys ▸ List.mem_map_of_mem hq)
    have hreply : (s'.reply t).length =
        p.op.stop / B.connector.chunkSize - p.op.start / B.connector.chunkSize := by
      rw [reply, List.length_map, ← List.length_map Prod.fst, hkeys, hlen]
    exact hload.restored hpeers hop hn hchain hframes hreply kv
  · intro c id allTokenIds promptTokenIds hopen
    rw [hload.tokensLoaded hop]
    exact c.announced hload.lt hopen

/-! ### A round trip -/

/-- Request `a` has computed four tokens in the blocks 0 to 3, and stores them. -/
def sampleEvent : StoreEvent Engine.sample where
  tracker := { tokenIds := [1, 2, 3, 4], blockIds := [0, 1, 2, 3], numComputedTokens := 4 }
  kv := sampleKV
  op := ⟨[1, 2, 3, 4], [0, 1, 2, 3], 0, 4, 0⟩
  chunks := [[0, 1, 16, 17], [2, 3, 18, 19]]
  generated := rfl
  copied := rfl

def sampleRetrieve : TransferPayload := ⟨"b", 7, sampleLoadOp, []⟩

/-- `a` stores, `b` looks its prompt up, and its RETRIEVE comes in. -/
def sampleTrip : Option System :=
  replay (step sampleDigest) (fun s l => decide (s.Faithful sampleDigest l))
    (new 2 8 (fun _ => 0) 0)
    [.recv 0 (.registerKvCache (Engine.sample.registerPayload 7)), .handler 0,
      .recv 1 (.store ⟨"a", 7, sampleEvent.op, sampleEvent.chunks⟩), .handler 1, .handler 1,
      .handler 1, .handler 1, .handler 1,
      .recv 2 (.lookup ⟨"b", [1, 2, 3, 4], "m", 1⟩), .handler 2, .handler 2, .handler 2,
      .worker, .worker, .worker, .worker, .worker, .worker, .worker,
      .recv 3 (.retrieve sampleRetrieve)]

/-- The handler of the RETRIEVE up to the send. -/
def sampleServe (s : System) : Option System :=
  replay (step sampleDigest)
    (fun s l => decide (s.Serving sampleDigest sampleRetrieve Engine.sample.inst l)) s
    [.handler 3, .handler 3]

/-- Request `b` finds the tokens 2 to 4 of request `a` in its blocks 5 to 7. -/
theorem kv_round_trip_sample : ∃ s s', sampleTrip = some s ∧ sampleServe s = some s' ∧
    (Engine.sample.finishLoad sampleRetrieve.op (s'.reply 3)).2 = none ∧
    Engine.Restored [sampleEvent] sampleTracker sampleKV
      (sampleKV.writeAll (Engine.sample.finishLoad sampleRetrieve.op (s'.reply 3)).1) := by
  have htrip : sampleTrip.isSome = true := by decide
  obtain ⟨s, hs⟩ := Option.isSome_iff_exists.mp htrip
  have hserve : (sampleTrip.bind fun s => (sampleServe s).map fun s' => decide (
      s.server.chunkSize = 2 ∧ s.server.query ⟨"b", 1⟩ = .int 4 ∧
      s.handlers.get? 3 = some (.retrieve sampleRetrieve, .start (.retrieve sampleRetrieve)) ∧
      s'.handlers.get? 3 = some (.retrieve sampleRetrieve, .retrieveSend "b"
        (s.server.opKeys sampleDigest sampleRetrieve.op Engine.sample.inst) [⟨0, 4⟩, ⟨4, 4⟩]) ∧
      s'.Serving sampleDigest sampleRetrieve Engine.sample.inst (.handler 3) ∧
      ∀ q ∈ s'.server.written,
        q ∈ (s.server.opKeys sampleDigest sampleEvent.op Engine.sample.inst).zip
          sampleEvent.chunks)) = some true := by decide
  rw [hs, Option.bind_some] at hserve
  obtain ⟨s', hs', he⟩ := Option.map_eq_some_iff.mp hserve
  obtain ⟨hsize, hhits, hg, hg', hlast, hstored⟩ := of_decide_eq_true he
  have hreach : s.FaithfullyReachable sampleDigest :=
    ⟨2, 8, _, 0, _, (run_of_replay hs).mono fun _ _ hok => of_decide_eq_true hok⟩
  have hrun := (run_of_replay hs').mono fun _ _ hok => of_decide_eq_true hok
  have hpeers : Engine.sample.Peers Engine.sample := ⟨rfl, rfl, rfl, rfl, rfl, rfl⟩
  have hnd : (chunkHashes sampleDigest [1, 2, 3, 4] s.server.chunkSize).Nodup := by
    rw [hsize]
    decide
  have hchain : StoreEvent.Chain 0 [sampleEvent] := ⟨rfl, trivial⟩
  obtain ⟨hnone, hrestored⟩ := (kv_round_trip hreach hpeers hsize hnd (Nat.dvd_zero _) hchain
    (by simp [sampleEvent]) sampleTracker_loads (by decide) rfl rfl hg hhits hrun hlast hg'
    (fun q hq _ => ⟨sampleEvent, List.mem_singleton_self _, hstored q hq⟩) sampleKV).2.1 rfl
  exact ⟨s, s', hs, hs', hnone, hrestored⟩

end System

end MiniLlmcache
