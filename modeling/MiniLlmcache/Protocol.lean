import MiniLlmcache.OrderedDict

/-!
# Messages

`protocol.py` : the identity of a chunk, a load or store operation, and the payloads
the vLLM connector sends to the cache server. Timing fields (`elapsed`, `nbytes` of a
transfer, the whole of `AckPayload`) only feed log lines and are left out.
-/

namespace MiniLlmcache

abbrev Bytes := List UInt8

/-- The exceptions the modelled code raises or passes on. -/
inductive Exc
  | keyError
  | valueError
  | zeroDivisionError
  | assertionError
  | indexError
  | runtimeError
  /-- `pickle` refuses a local closure. -/
  | pickleError
  /-- Whatever an `L2Adapter` subclass raises. -/
  | adapterError
deriving DecidableEq, Repr

/-- How a call ends : it returns, or raises with the state it had reached. -/
inductive Outcome (σ α : Type*)
  | returned (s : σ) (a : α)
  | raised (s : σ) (e : Exc)

/-- The state when the call is over. -/
def Outcome.state {σ α : Type*} : Outcome σ α → σ
  | .returned s _ | .raised s _ => s

/-- Identity of one cacheable chunk : content hash, model and TP rank. -/
structure ChunkKey where
  chunkHash : Bytes
  model : String
  rank : ℕ
deriving DecidableEq, Repr

/-- One load or store operation over the token range `[start, stop)`. -/
structure LoadStoreOp where
  tokenIds : List ℕ
  blockIds : List ℕ
  start : ℕ
  /-- `end` in the source. -/
  stop : ℕ
  skipFirstNTokens : ℕ
deriving DecidableEq, Repr

structure RegisterPayload where
  instanceId : ℕ
  model : String
  rank : ℕ
  worldSize : ℕ
  blockSize : ℕ
  chunkNbytes : ℕ
deriving DecidableEq, Repr

structure LookupPayload where
  requestId : String
  tokenIds : List ℕ
  model : String
  worldSize : ℕ
deriving DecidableEq, Repr

/-- A STORE carries the chunk bytes, a RETRIEVE carries none. -/
structure TransferPayload where
  requestId : String
  instanceId : ℕ
  op : LoadStoreOp
  chunks : List Bytes
deriving DecidableEq, Repr

structure QueryPayload where
  requestId : String
  worldSize : ℕ
deriving DecidableEq, Repr

structure FreeLocksPayload where
  requestId : String
  numChunks : ℕ
  worldSize : ℕ
deriving DecidableEq, Repr

/-- A message to the server : the request type with its payload. -/
inductive Req
  | getChunkSize
  | registerKvCache (payload : RegisterPayload)
  | unregisterKvCache (instanceId : ℕ)
  | lookup (payload : LookupPayload)
  | queryPrefetchStatus (payload : QueryPayload)
  | retrieve (payload : TransferPayload)
  | store (payload : TransferPayload)
  | freeLookupLocks (payload : FreeLocksPayload)
  | endSession (requestId : String)
  | transferAck
deriving DecidableEq, Repr

end MiniLlmcache
