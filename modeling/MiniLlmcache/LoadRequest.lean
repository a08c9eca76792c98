import MiniLlmcache.Connector

/-!
# The messages that unlock a session

A resolved session holds the first `l1 + l2` keys of its LOOKUP, chunk by chunk and rank by
rank inside a chunk. When vLLM has allocated the blocks of the request, its connector frees
the chunks that vLLM has computed itself with one FREE_LOOKUP_LOCKS, and the engine of every
rank fetches its share of the other hit chunks with one RETRIEVE, whose `post_send` releases
that share. FREE_LOOKUP_LOCKS drops the first keys of what is held when it comes to look.

`LoadRequest` is such a request, with the messages its connector makes. `keysOf` says which
keys each message unlocks : no two of them unlock the same key (`keysOf_unique`), together they
unlock all (`exists_keysOf`), and the share of a rank is what the server computes from the
RETRIEVE (`opKeys_eq`).
-/

namespace MiniLlmcache

open L1Manager

variable {blake3 : Bytes → Bytes}

/-! ## The layout of a lookup's keys -/

namespace CacheServer

variable (model : String)

theorem mem_keysFor {hashes : List Bytes} {ranks : List ℕ} {k : ChunkKey} :
    k ∈ keysFor hashes model ranks ↔ k.chunkHash ∈ hashes ∧ k.model = model ∧ k.rank ∈ ranks := by
  constructor
  · intro h
    obtain ⟨hash, hhash, hk⟩ := List.mem_flatMap.mp h
    obtain ⟨r, hr, rfl⟩ := List.mem_map.mp hk
    exact ⟨hhash, rfl, hr⟩
  · rintro ⟨hhash, rfl, hr⟩
    exact List.mem_flatMap.mpr ⟨k.chunkHash, hhash, List.mem_map.mpr ⟨k.rank, hr, rfl⟩⟩

theorem length_keysFor (ranks : List ℕ) : ∀ hashes : List Bytes,
    (keysFor hashes model ranks).length = hashes.length * ranks.length
  | [] => by simp [keysFor]
  | h :: hashes => by
    have ih := length_keysFor ranks hashes
    simp only [keysFor, List.flatMap_cons, List.length_append, List.length_map,
      List.length_cons] at ih ⊢
    rw [ih, Nat.succ_mul, Nat.add_comm]

/-- Cutting the keys between two chunks. -/
theorem take_keysFor (ranks : List ℕ) : ∀ (n : ℕ) (hashes : List Bytes),
    (keysFor hashes model ranks).take (n * ranks.length) = keysFor (hashes.take n) model ranks
  | 0, _ => by simp [keysFor]
  | _ + 1, [] => by simp [keysFor]
  | n + 1, h :: hashes => by
    have ih := take_keysFor ranks n hashes
    simp only [keysFor, List.flatMap_cons, List.take_succ_cons] at ih ⊢
    rw [Nat.succ_mul, Nat.add_comm, List.take_append, List.length_map, Nat.add_sub_cancel_left,
      List.take_of_length_le (by simp), ih]

theorem drop_keysFor (ranks : List ℕ) : ∀ (n : ℕ) (hashes : List Bytes),
    (keysFor hashes model ranks).drop (n * ranks.length) = keysFor (hashes.drop n) model ranks
  | 0, _ => by simp [keysFor]
  | _ + 1, [] => by simp [keysFor]
  | n + 1, h :: hashes => by
    have ih := drop_keysFor ranks n hashes
    simp only [keysFor, List.flatMap_cons, List.drop_succ_cons] at ih ⊢
    rw [Nat.succ_mul, Nat.add_comm, List.drop_append, List.length_map, Nat.add_sub_cancel_left,
      List.drop_of_length_le (by simp), List.nil_append, ih]

/-- The keys of one rank are those of all ranks, without the others'. -/
theorem keysFor_rank {r n : ℕ} (hr : r < n) : ∀ hashes : List Bytes,
    keysFor hashes model [r] =
      (keysFor hashes model (List.range n)).filter fun k => k.rank = r
  | [] => rfl
  | h :: hashes => by
    have ih := keysFor_rank hr hashes
    have hone : ((List.range n).map fun r' => (⟨h, model, r'⟩ : ChunkKey)).filter
        (fun k => k.rank = r) = [⟨h, model, r⟩] := by
      rw [List.filter_map]
      have hcomp : ((fun k : ChunkKey => decide (k.rank = r)) ∘ fun r' => ⟨h, model, r'⟩) =
          fun r' => decide (r' = r) := rfl
      rw [hcomp, List.filter_eq, List.count_eq_one_of_mem List.nodup_range (List.mem_range.mpr hr)]
      rfl
    simp only [keysFor, List.flatMap_cons, List.filter_append] at ih ⊢
    rw [hone, ← ih]
    rfl

/-! ## The keys of an operation -/

/-- STORE, RETRIEVE and LOOKUP address the same chunks : the keys of an operation over the first
tokens of a prompt are the keys of the prompt's LOOKUP at the positions of the operation's chunks
for its rank, in order. A LOOKUP of a deployment that is known asks for just those keys. -/
theorem opKeys_at_lookup_positions (blake3 : Bytes → Bytes) (srv : CacheServer)
    (op : LoadStoreOp) (inst : EngineInstance) (prompt : List ℕ)
    (hrank : inst.rank < inst.worldSize) (hstop : op.stop ≤ op.tokenIds.length)
    (htokens : op.tokenIds.take op.stop = prompt.take op.stop) :
    ((srv.opKeys blake3 op inst).map some =
      (List.range' (op.start / srv.chunkSize)
        (op.stop / srv.chunkSize - op.start / srv.chunkSize)).map fun j =>
          (keysFor (chunkHashes blake3 prompt srv.chunkSize) inst.model
            (List.range inst.worldSize))[j * inst.worldSize + inst.rank]?) ∧
    ∀ requestId n, srv.deployments.get? (inst.model, inst.worldSize) = some n →
      (srv.lookupJob blake3 ⟨requestId, prompt, inst.model, inst.worldSize⟩).keys =
        keysFor (chunkHashes blake3 prompt srv.chunkSize) inst.model
          (List.range inst.worldSize) := by
  have hle : op.stop ≤ prompt.length := by
    have hlen := congrArg List.length htokens
    rw [List.length_take, List.length_take] at hlen
    omega
  set c := srv.chunkSize with hc
  refine ⟨List.ext_getElem? fun i => ?_, fun requestId n hreg => ?_⟩
  · rw [List.getElem?_map, List.getElem?_map]
    by_cases hi : i < op.stop / c - op.start / c
    · have hlt : op.start / c + i < (chunkHashes blake3 prompt c).length := by
        have := Nat.div_le_div_right (c := c) hle
        rw [length_chunkHashes]
        omega
      have hj : op.start / srv.chunkSize + i < op.stop / srv.chunkSize := by
        rw [← hc]
        omega
      rw [getElem?_opKeys srv inst htokens hle hj, List.getElem?_range' hi,
        Option.map_some, Nat.one_mul, getElem?_keysFor inst.model hrank, ← hc,
        List.getElem?_eq_getElem hlt]
      rfl
    · have hshort : (srv.opKeys blake3 op inst).length ≤ i := by
        rw [length_opKeys srv inst htokens hle, ← hc]
        omega
      rw [List.getElem?_eq_none hshort, List.getElem?_eq_none (by simpa using hi)]
      rfl
  · simp only [lookupJob, hreg, ← hc]

/-- The second chunk of two ranks : an op that ends inside the third chunk of a longer prompt. -/
theorem opKeys_at_lookup_positions_sample :
    ((new 2 0 (fun _ => 0) false).opKeys id ⟨[1, 2, 3, 4, 5], [], 3, 5, 0⟩
        ⟨1, "m", 2, 1, 1⟩).map some =
      (List.range' 1 1).map fun j =>
        (keysFor (chunkHashes id [1, 2, 3, 4, 5, 6, 7] 2) "m" (List.range 2))[j * 2 + 1]? :=
  (opKeys_at_lookup_positions id (new 2 0 (fun _ => 0) false) ⟨[1, 2, 3, 4, 5], [], 3, 5, 0⟩
    ⟨1, "m", 2, 1, 1⟩ [1, 2, 3, 4, 5, 6, 7] (by decide) (by decide) (by decide)).1

end CacheServer

/-! ## The request and its messages -/

/-- A request whose blocks vLLM allocates for a load : its tracker, with the `hits` keys that
its session holds, and the engine of each rank. -/
structure LoadRequest where
  connector : MiniConnector
  requestId : String
  promptTokenIds : List ℕ
  tracker : RequestTracker
  groupBlocks : List ℕ
  numExternalTokens : ℕ
  /-- The instance of each rank. -/
  engine : ℕ → ℕ
  /-- `l1_keys + l2_keys`. -/
  hits : ℕ
  known : connector.trackers.get? requestId = some tracker
  fresh : tracker.allocSeen = false
  loads : 0 < numExternalTokens
  prompt : promptTokenIds <+: tracker.tokenIds
  reported : tracker.lmcacheHits = hits / connector.worldSize * connector.chunkSize
  lt : tracker.vllmHits / connector.chunkSize < hits / connector.worldSize
  engines : Function.Injective engine

namespace LoadRequest

variable (u : LoadRequest)

def worldSize : ℕ := u.connector.worldSize

/-- The first chunk to load, `v`. -/
def first : ℕ := u.tracker.vllmHits / u.connector.chunkSize

/-- The number of hit chunks, `h`. -/
def chunks : ℕ := u.hits / u.worldSize

theorem first_lt : u.first < u.chunks := u.lt

theorem worldSize_pos : 0 < u.worldSize := by
  refine Nat.pos_of_ne_zero fun h => ?_
  have hlt := u.first_lt
  rw [chunks, h, Nat.div_zero] at hlt
  omega

theorem chunks_mul_le : u.chunks * u.worldSize ≤ u.hits := Nat.div_mul_le_self _ _

/-- The connector and its messages after `update_state_after_alloc`. -/
def afterAlloc : MiniConnector × List Req :=
  u.connector.updateStateAfterAlloc u.requestId u.groupBlocks u.numExternalTokens

/-- The tracker then. -/
def allocated : RequestTracker :=
  { u.tracker with
    blockIds := u.tracker.blockIds ++ u.groupBlocks.drop u.tracker.blockIds.length
    loadPending := true
    allocSeen := true }

/-- The FREE_LOOKUP_LOCKS of the request. -/
def free : Req := .freeLookupLocks ⟨u.requestId, u.first, u.worldSize⟩

/-- The op of the RETRIEVEs. -/
def op : LoadStoreOp :=
  ((u.connector.generateRetrieveOp u.allocated).1).getD ⟨[], [], 0, 0, 0⟩

/-- The RETRIEVE of a rank. -/
def retrieve (rank : ℕ) : Req := .retrieve ⟨u.requestId, u.engine rank, u.op, []⟩

/-- What comes in for the request while it unlocks its session, in any order, and what ends
the session. -/
def messages : List Req :=
  u.afterAlloc.2 ++ (List.range u.worldSize).map u.retrieve ++ [.endSession u.requestId]

/-- The connector frees the chunks below the first one that its engines load. -/
theorem afterAlloc_eq : u.afterAlloc =
    (u.connector.setTracker u.requestId u.allocated, if u.first = 0 then [] else [u.free]) := by
  have hle : min (u.tracker.vllmHits / u.connector.chunkSize)
      (u.tracker.lmcacheHits / u.connector.chunkSize) = u.first := by
    rw [u.reported, Nat.mul_div_cancel _ u.connector.chunkSize_pos]
    exact Nat.min_eq_left u.lt.le
  simp only [afterAlloc, MiniConnector.updateStateAfterAlloc, u.known, u.fresh, u.loads,
    decide_true, Bool.or_true, if_true, Bool.false_eq_true, if_false, hle]
  rfl

theorem op_start : u.op.start = u.first * u.connector.chunkSize := rfl

theorem op_stop : u.op.stop = u.chunks * u.connector.chunkSize := u.reported

theorem op_tokenIds : u.op.tokenIds = u.tracker.tokenIds.take u.op.stop := rfl

theorem mem_messages {m : Req} : m ∈ u.messages ↔ (u.first ≠ 0 ∧ m = u.free) ∨
    (∃ rank < u.worldSize, m = u.retrieve rank) ∨ m = .endSession u.requestId := by
  rw [messages, List.mem_append, List.mem_append, List.mem_singleton, List.mem_map, afterAlloc_eq,
    or_assoc]
  refine or_congr ?_ (or_congr_left ?_)
  · split_ifs with h
    · simp [h]
    · simp [h]
  · simp only [List.mem_range, eq_comm (a := m)]

/-! ## The keys each message unlocks -/

variable (blake3)

/-- The keys of the LOOKUP that its session holds. -/
def keys : List ChunkKey :=
  (CacheServer.keysFor (chunkHashes blake3 (u.promptTokenIds.take
    (u.promptTokenIds.length / u.connector.chunkSize * u.connector.chunkSize))
    u.connector.chunkSize) u.connector.model (List.range u.worldSize)).take u.hits

/-- The keys a message unlocks : FREE_LOOKUP_LOCKS the chunks below `first`, the RETRIEVE of a
rank the share of that rank in the chunks from there on, and END_SESSION what is left. -/
def keysOf : Req → List ChunkKey
  | .freeLookupLocks p =>
    if p.requestId = u.requestId then (u.keys blake3).take (u.first * u.worldSize) else []
  | .retrieve p =>
    if p.requestId = u.requestId then
      (((u.keys blake3).take (u.chunks * u.worldSize)).drop (u.first * u.worldSize)).filter
        fun k => u.engine k.rank = p.instanceId
    else []
  | .endSession r =>
    if r = u.requestId then (u.keys blake3).drop (u.chunks * u.worldSize) else []
  | _ => []

variable {blake3} {u}

theorem keysOf_free : u.keysOf blake3 u.free = (u.keys blake3).take (u.first * u.worldSize) :=
  if_pos rfl

theorem keysOf_endSession :
    u.keysOf blake3 (.endSession u.requestId) = (u.keys blake3).drop (u.chunks * u.worldSize) :=
  if_pos rfl

/-- The share of a rank. -/
theorem keysOf_retrieve (rank : ℕ) : u.keysOf blake3 (u.retrieve rank) =
    (((u.keys blake3).take (u.chunks * u.worldSize)).drop (u.first * u.worldSize)).filter
      fun k => k.rank = rank := by
  rw [retrieve, keysOf, if_pos rfl]
  exact List.filter_congr fun k _ => decide_eq_decide.mpr u.engines.eq_iff

theorem keysOf_sublist (m : Req) : (u.keysOf blake3 m).Sublist (u.keys blake3) := by
  cases m with
  | freeLookupLocks p =>
    rw [keysOf]
    split_ifs
    · exact List.take_sublist _ _
    · exact List.nil_sublist _
  | retrieve p =>
    rw [keysOf]
    split_ifs
    · exact List.filter_sublist.trans ((List.drop_sublist _ _).trans (List.take_sublist _ _))
    · exact List.nil_sublist _
  | endSession r =>
    rw [keysOf]
    split_ifs
    · exact List.drop_sublist _ _
    · exact List.nil_sublist _
  | _ => exact List.nil_sublist _

/-- The held keys in the order of the boundaries `first` and `chunks`. -/
theorem keys_eq : u.keys blake3 = (u.keys blake3).take (u.first * u.worldSize) ++
    (((u.keys blake3).take (u.chunks * u.worldSize)).drop (u.first * u.worldSize) ++
      (u.keys blake3).drop (u.chunks * u.worldSize)) := by
  have hle : u.first * u.worldSize ≤ u.chunks * u.worldSize :=
    Nat.mul_le_mul_right _ u.first_lt.le
  have htake : (u.keys blake3).take (u.first * u.worldSize) =
      ((u.keys blake3).take (u.chunks * u.worldSize)).take (u.first * u.worldSize) := by
    rw [List.take_take, Nat.min_eq_left hle]
  rw [htake, ← List.append_assoc, List.take_append_drop, List.take_append_drop]

theorem rank_lt {k : ChunkKey} (hk : k ∈ u.keys blake3) : k.rank < u.worldSize :=
  List.mem_range.mp ((CacheServer.mem_keysFor _).mp (List.mem_of_mem_take hk)).2.2

/-- Every held key is unlocked by some message. -/
theorem exists_keysOf {k : ChunkKey} (hk : k ∈ u.keys blake3) :
    ∃ m ∈ u.messages, k ∈ u.keysOf blake3 m := by
  have hrank := rank_lt hk
  rw [keys_eq, List.mem_append, List.mem_append] at hk
  rcases hk with hk | hk | hk
  · refine ⟨u.free, u.mem_messages.mpr (Or.inl ⟨fun h => ?_, rfl⟩), ?_⟩
    · rw [h, Nat.zero_mul] at hk
      cases hk
    · rwa [keysOf_free]
  · refine ⟨u.retrieve k.rank, u.mem_messages.mpr (Or.inr (Or.inl ⟨_, hrank, rfl⟩)), ?_⟩
    rw [keysOf_retrieve]
    exact List.mem_filter.mpr ⟨hk, decide_eq_true rfl⟩
  · refine ⟨.endSession u.requestId, u.mem_messages.mpr (Or.inr (Or.inr rfl)), ?_⟩
    rwa [keysOf_endSession]

/-- No key is unlocked by two messages. -/
theorem keysOf_unique (hnd : (u.keys blake3).Nodup) {m m' : Req} (hm : m ∈ u.messages)
    (hm' : m' ∈ u.messages) {k : ChunkKey} (hk : k ∈ u.keysOf blake3 m)
    (hk' : k ∈ u.keysOf blake3 m') : m = m' := by
  rw [keys_eq, List.nodup_append', List.nodup_append'] at hnd
  obtain ⟨-, ⟨-, -, hlast⟩, hfirst⟩ := hnd
  have hfree : ∀ {r}, k ∈ u.keysOf blake3 u.free → k ∉ u.keysOf blake3 (u.retrieve r) := by
    intro r hf hr
    rw [keysOf_free] at hf
    rw [keysOf_retrieve] at hr
    exact hfirst hf (List.mem_append_left _ (List.mem_filter.mp hr).1)
  have hfreeEnd : k ∈ u.keysOf blake3 u.free → k ∉ u.keysOf blake3 (.endSession u.requestId) := by
    intro hf he
    rw [keysOf_free] at hf
    rw [keysOf_endSession] at he
    exact hfirst hf (List.mem_append_right _ he)
  have hend : ∀ {r}, k ∈ u.keysOf blake3 (u.retrieve r) →
      k ∉ u.keysOf blake3 (.endSession u.requestId) := by
    intro r hr he
    rw [keysOf_retrieve] at hr
    rw [keysOf_endSession] at he
    exact hlast (List.mem_filter.mp hr).1 he
  rw [mem_messages] at hm hm'
  rcases hm with ⟨-, rfl⟩ | ⟨r, -, rfl⟩ | rfl <;> rcases hm' with ⟨-, rfl⟩ | ⟨r', -, rfl⟩ | rfl
  · rfl
  · exact (hfree hk hk').elim
  · exact (hfreeEnd hk hk').elim
  · exact (hfree hk' hk).elim
  · rw [keysOf_retrieve, List.mem_filter] at hk hk'
    rw [← of_decide_eq_true hk.2, ← of_decide_eq_true hk'.2]
  · exact (hend hk hk').elim
  · exact (hfreeEnd hk' hk).elim
  · exact (hend hk' hk).elim
  · rfl

/-- The keys of the whole hit chunks are those of the messages before END_SESSION. -/
theorem mem_take_iff (hnd : (u.keys blake3).Nodup) {k : ChunkKey} :
    k ∈ (u.keys blake3).take (u.chunks * u.worldSize) ↔
      ∃ m ∈ u.messages, m ≠ .endSession u.requestId ∧ k ∈ u.keysOf blake3 m := by
  have hend : Req.endSession u.requestId ∈ u.messages := u.mem_messages.mpr (Or.inr (Or.inr rfl))
  constructor
  · intro hk
    obtain ⟨m, hm, hkm⟩ := exists_keysOf (List.mem_of_mem_take hk)
    refine ⟨m, hm, ?_, hkm⟩
    rintro rfl
    rw [keysOf_endSession] at hkm
    exact List.disjoint_take_drop hnd le_rfl hk hkm
  · rintro ⟨m, hm, hne, hk⟩
    have hkeys := (keysOf_sublist m).mem hk
    rw [← List.take_append_drop (u.chunks * u.worldSize) (u.keys blake3), List.mem_append] at hkeys
    refine hkeys.resolve_right fun hlast => hne (keysOf_unique hnd hm hend hk ?_)
    rwa [keysOf_endSession]

/-- Every rank has a share. -/
theorem share_ne_nil {rank : ℕ} (hr : rank < u.worldSize)
    (hlen : (u.keys blake3).length = u.hits) : u.keysOf blake3 (u.retrieve rank) ≠ [] := by
  set i := u.first * u.worldSize + rank with hi
  have hlt : i < u.chunks * u.worldSize := by
    have hle : (u.first + 1) * u.worldSize ≤ u.chunks * u.worldSize :=
      Nat.mul_le_mul_right _ u.first_lt
    rw [Nat.succ_mul] at hle
    omega
  have hkey : i < (u.keys blake3).length := hlen ▸ hlt.trans_le u.chunks_mul_le
  have hmem : (u.keys blake3)[i] ∈
      ((u.keys blake3).take (u.chunks * u.worldSize)).drop (u.first * u.worldSize) := by
    refine List.mem_drop_iff_getElem.mpr ⟨rank, ?_, ?_⟩
    · rw [List.length_take]
      omega
    · simp [hi]
  have hrank : (u.keys blake3)[i].rank = rank := by
    have hget := List.getElem?_eq_getElem hkey
    have hmap := CacheServer.getElem?_keysFor u.connector.model hr
      (chunkHashes blake3 (u.promptTokenIds.take (u.promptTokenIds.length /
        u.connector.chunkSize * u.connector.chunkSize)) u.connector.chunkSize) u.first
    conv_lhs at hget => rw [keys]
    rw [List.getElem?_take_of_lt (hlt.trans_le u.chunks_mul_le), hmap] at hget
    obtain ⟨hash, -, hk⟩ := Option.map_eq_some_iff.mp hget
    rw [← hk]
  have hin : (u.keys blake3)[i] ∈ u.keysOf blake3 (u.retrieve rank) := by
    rw [keysOf_retrieve]
    exact List.mem_filter.mpr ⟨hmem, decide_eq_true hrank⟩
  exact List.ne_nil_of_mem hin

/-- The server computes the same share from the op of a RETRIEVE. -/
theorem opKeys_eq {srv : CacheServer} {inst : EngineInstance}
    (hsize : srv.chunkSize = u.connector.chunkSize) (hmodel : inst.model = u.connector.model)
    (hrank : inst.rank < u.worldSize) (hlen : (u.keys blake3).length = u.hits) :
    srv.opKeys blake3 u.op inst = u.keysOf blake3 (u.retrieve inst.rank) := by
  set c := u.connector.chunkSize with hc
  have hpos : 0 < c := u.connector.chunkSize_pos
  set n := u.promptTokenIds.length / c with hn
  have hprompt : u.promptTokenIds.take (n * c) = u.tracker.tokenIds.take (n * c) := by
    obtain ⟨rest, hrest⟩ := u.prompt
    rw [← hrest, List.take_append_of_le_length (Nat.div_mul_le_self _ _)]
  have hle : n * c ≤ u.tracker.tokenIds.length :=
    (Nat.div_mul_le_self _ _).trans u.prompt.length_le
  set hashes := chunkHashes blake3 u.tracker.tokenIds c with hhashes
  have hkeys : u.keys blake3 = (CacheServer.keysFor (hashes.take n) u.connector.model
      (List.range u.worldSize)).take u.hits := by
    rw [keys, ← hc, ← hn, hprompt, chunkHashes_take hle, Nat.mul_div_cancel _ hpos]
  -- the hit chunks are among those of the LOOKUP
  have hchunks : u.chunks ≤ n := by
    rw [hkeys, List.length_take, CacheServer.length_keysFor, List.length_range] at hlen
    have hhits : u.hits ≤ (hashes.take n).length * u.worldSize := by omega
    rw [Nat.mul_comm] at hhits
    exact (Nat.div_le_of_le_mul hhits).trans (List.length_take_le _ _)
  have hstop : u.chunks * c ≤ u.tracker.tokenIds.length :=
    (Nat.mul_le_mul_right c hchunks).trans hle
  have htokens : u.op.tokenIds.take u.op.stop = u.tracker.tokenIds.take (u.chunks * c) := by
    rw [op_tokenIds, List.take_take, Nat.min_self, op_stop]
  have hshare : (u.keys blake3).take (u.chunks * u.worldSize) =
      CacheServer.keysFor (hashes.take u.chunks) u.connector.model (List.range u.worldSize) := by
    have htake := CacheServer.take_keysFor u.connector.model (List.range u.worldSize) u.chunks
      (hashes.take n)
    rw [List.length_range, List.take_take, Nat.min_eq_left hchunks] at htake
    rw [hkeys, List.take_take, Nat.min_eq_left u.chunks_mul_le, htake]
  have hdrop := CacheServer.drop_keysFor u.connector.model (List.range u.worldSize) u.first
    (hashes.take u.chunks)
  rw [List.length_range] at hdrop
  rw [CacheServer.opKeys, hsize, htokens, op_start, chunkHashes_take hstop,
    Nat.mul_div_cancel _ hpos, Nat.mul_div_cancel _ hpos, hmodel,
    CacheServer.keysFor_rank _ hrank, ← hhashes, ← hdrop, ← hshare, keysOf_retrieve]

end LoadRequest

end MiniLlmcache
