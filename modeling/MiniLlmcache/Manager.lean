import MiniLlmcache.Eviction
import MiniLlmcache.Memory

/-!
# The L1 manager

`l1/manager.py` : entries, reference counts and the lock protocol. Every operation here
is one section under the manager's lock. `finish_write`, `finish_write_and_reserve_read`,
`read` and `finish_read` index `entries` and raise `KeyError` on a missing key, with what
they had changed up to there left in place; the other operations skip missing keys.

The listeners are those `StorageManager` registers : the write-back queue of the
`StoreController`, when there are L2 adapters, and the LRU policy.
-/

namespace MiniLlmcache

structure Entry where
  obj : MemoryObj
  writeLocked : Bool
  readCount : ℤ
  isTemporary : Bool
deriving DecidableEq

namespace Entry

def readable (e : Entry) : Bool := !e.writeLocked

/-- True when nothing references the entry. -/
def unlocked (e : Entry) : Bool := !e.writeLocked && e.readCount = 0

end Entry

/-- The lifecycle events of `Listener`. -/
inductive Event
  | onCreated
  | onWriteFinished
  | onTouched
  | onRemoved
deriving DecidableEq

structure Listeners where
  /-- `StoreController.pending`, or `none` without L2 adapters. -/
  pending : Option (List (List ChunkKey))
  lru : LRUPolicy

def Listeners.notify (ls : Listeners) (keys : List ChunkKey) : Event → Listeners
  | .onCreated => { ls with lru := ls.lru.onCreated keys }
  | .onWriteFinished => { ls with pending := ls.pending.map (· ++ [keys]) }
  | .onTouched => { ls with lru := ls.lru.onTouched keys }
  | .onRemoved => { ls with lru := ls.lru.onRemoved keys }

structure L1Manager where
  allocator : PoolAllocator
  entries : OrderedDict ChunkKey Entry
  listeners : Listeners

namespace L1Manager

def new (capacity : ℕ) (pool : ℕ → UInt8) (l2 : Bool) : L1Manager :=
  ⟨.new capacity pool, .empty, ⟨if l2 then some [] else none, .new⟩⟩

/-- `bytes(obj.byte_array)`. -/
def bytes (l1 : L1Manager) (obj : MemoryObj) : Bytes := l1.allocator.bytes obj

/-- `obj.byte_array[:] = data`, outside the lock. -/
def copyInto (l1 : L1Manager) (obj : MemoryObj) (data : Bytes) : L1Manager :=
  { l1 with allocator := l1.allocator.copy obj data }

def notify (l1 : L1Manager) (event : Event) (keys : List ChunkKey) : L1Manager :=
  { l1 with listeners := l1.listeners.notify keys event }

/-- `self.entries[key] = entry`. -/
def setEntry (l1 : L1Manager) (key : ChunkKey) (entry : Entry) : L1Manager :=
  { l1 with entries := l1.entries.set key entry }

/-- `self.allocator.free([entry.obj]); del self.entries[key]`. -/
def freeEntry (l1 : L1Manager) (key : ChunkKey) (entry : Entry) : L1Manager :=
  { l1 with allocator := l1.allocator.free entry.obj, entries := l1.entries.erase key }

/-- Write-lock a fresh entry for each of the missing keys. -/
def insertMissing (l1 : L1Manager) (isTemporary : Bool) :
    List (ChunkKey × MemoryObj) → L1Manager
  | [] => l1
  | (key, obj) :: rest =>
    insertMissing (l1.setEntry key ⟨obj, true, 0, isTemporary⟩) isTemporary rest

/-- Allocate and write-lock any missing keys. Keys already present map to `none`; if the
pool cannot satisfy the request nothing is reserved. -/
def reserveWrite (l1 : L1Manager) (keys : List ChunkKey) (chunkNbytes : ℕ) (isTemporary : Bool) :
    OrderedDict ChunkKey (Option MemoryObj) × L1Manager :=
  let missing := keys.filter fun key => !l1.entries.contains key
  match l1.allocator.allocate missing.length chunkNbytes with
  | (none, allocator) => (.fromKeys keys none, { l1 with allocator })
  | (some objs, allocator) =>
    ((OrderedDict.fromKeys keys none).setAll ((missing.zip objs).map fun p => (p.1, some p.2)),
      insertMissing { l1 with allocator } isTemporary (missing.zip objs))

/-- `reserved[key]` : the slice, if the key got one. -/
def reservedObj (reserved : OrderedDict ChunkKey (Option MemoryObj)) (key : ChunkKey) :
    Option MemoryObj :=
  (reserved.get? key).join

/-- Release the write locks; announce the new chunks. -/
def finishWrite (l1 : L1Manager) (keys : List ChunkKey) : Outcome L1Manager Unit :=
  loop l1 keys
where
  loop (l1 : L1Manager) : List ChunkKey → Outcome L1Manager Unit
    | [] => .returned ((l1.notify .onCreated keys).notify .onWriteFinished keys) ()
    | key :: rest =>
      match l1.entries.get? key with
      | none => .raised l1 .keyError
      | some entry => loop (l1.setEntry key { entry with writeLocked := false }) rest

/-- Write-lock release plus an immediate read hold. -/
def finishWriteAndReserveRead (l1 : L1Manager) (keys : List ChunkKey) : Outcome L1Manager Unit :=
  loop l1 keys
where
  loop (l1 : L1Manager) : List ChunkKey → Outcome L1Manager Unit
    | [] => .returned (l1.notify .onCreated keys) ()
    | key :: rest =>
      match l1.entries.get? key with
      | none => .raised l1 .keyError
      | some entry =>
        loop (l1.setEntry key { entry with writeLocked := false, readCount := entry.readCount + 1 })
          rest

/-- `entry.read_count += 1` for an entry that is there. -/
def hold (l1 : L1Manager) (key : ChunkKey) (entry : Entry) : L1Manager :=
  l1.setEntry key { entry with readCount := entry.readCount + 1 }

/-- Take a read hold on every readable key; the result lists the keys in order with
`none` for a missing or locked one. -/
def reserveRead (l1 : L1Manager) : List ChunkKey → List (ChunkKey × Option MemoryObj) × L1Manager
  | [] => ([], l1)
  | key :: rest =>
    match l1.entries.get? key with
    | none => ((reserveRead l1 rest).1.cons (key, none), (reserveRead l1 rest).2)
    | some entry =>
      if entry.readable then
        let (result, l1) := reserveRead (l1.hold key entry) rest
        ((key, some entry.obj) :: result, l1)
      else ((reserveRead l1 rest).1.cons (key, none), (reserveRead l1 rest).2)

/-- The keys a `reserve_read` result holds, with their objects : `locked` and `objs` of the
write-back loop. -/
def lockedKeys (result : List (ChunkKey × Option MemoryObj)) : List (ChunkKey × MemoryObj) :=
  result.filterMap fun p => p.2.map fun obj => (p.1, obj)

/-- The length of the readable prefix of `keys`. -/
def readablePrefix (l1 : L1Manager) : List ChunkKey → ℕ
  | [] => 0
  | key :: rest =>
    match l1.entries.get? key with
    | none => 0
    | some entry => if entry.readable then readablePrefix l1 rest + 1 else 0

/-- `for key in keys: self.entries[key].read_count += 1` over keys that are there. -/
def holdAll (l1 : L1Manager) : List ChunkKey → L1Manager
  | [] => l1
  | key :: rest =>
    match l1.entries.get? key with
    | none => holdAll l1 rest
    | some entry => holdAll (l1.hold key entry) rest

/-- Take read holds on the contiguous readable prefix of `keys`; its length. -/
def reserveReadPrefix (l1 : L1Manager) (keys : List ChunkKey) : ℕ × L1Manager :=
  let hit := l1.readablePrefix keys
  (hit, l1.holdAll (keys.take hit))

/-- The objects for `keys`; the caller must hold read locks. -/
def read (l1 : L1Manager) : List ChunkKey → Except Exc (List MemoryObj)
  | [] => .ok []
  | key :: rest =>
    match l1.entries.get? key with
    | none => .error .keyError
    | some entry => (read l1 rest).map (entry.obj :: ·)

/-- Drop read holds; temporary entries are freed when the count hits 0. -/
def finishRead (l1 : L1Manager) (keys : List ChunkKey) : Outcome L1Manager Unit :=
  loop l1 keys [] []
where
  loop (l1 : L1Manager) : List ChunkKey → List ChunkKey → List ChunkKey → Outcome L1Manager Unit
    | [], freed, touched =>
      let l1 := if touched ≠ [] then l1.notify .onTouched touched else l1
      .returned (if freed ≠ [] then l1.notify .onRemoved freed else l1) ()
    | key :: rest, freed, touched =>
      match l1.entries.get? key with
      | none => .raised l1 .keyError
      | some entry =>
        let entry := { entry with readCount := entry.readCount - 1 }
        if entry.readCount = 0 ∧ entry.isTemporary then
          loop (l1.freeEntry key entry) rest (freed ++ [key]) touched
        else loop (l1.setEntry key entry) rest freed (touched ++ [key])

/-- Turn temporary entries into resident cache entries. -/
def promote (l1 : L1Manager) : List ChunkKey → L1Manager
  | [] => l1
  | key :: rest =>
    match l1.entries.get? key with
    | none => promote l1 rest
    | some entry => promote (l1.setEntry key { entry with isTemporary := false }) rest

def isEvictable (l1 : L1Manager) (key : ChunkKey) : Bool :=
  match l1.entries.get? key with
  | none => false
  | some entry => entry.unlocked

/-- Remove unlocked entries, or any entry when `force`; the number deleted. -/
def delete (l1 : L1Manager) (keys : List ChunkKey) (force : Bool) : ℕ × L1Manager :=
  loop l1 keys []
where
  loop (l1 : L1Manager) : List ChunkKey → List ChunkKey → ℕ × L1Manager
    | [], deleted =>
      (deleted.length, if deleted ≠ [] then l1.notify .onRemoved deleted else l1)
    | key :: rest, deleted =>
      match l1.entries.get? key with
      | none => loop l1 rest deleted
      | some entry =>
        if !entry.unlocked && !force then loop l1 rest deleted
        else loop (l1.freeEntry key entry) rest (deleted ++ [key])

end L1Manager

end MiniLlmcache
