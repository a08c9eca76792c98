import MiniLlmcache.LockOrder
import MiniLlmcache.Manager

/-!
# The locks of the storage stack

What the threads of the server do with the three locks of the storage stack and with the futures of
the L2 adapters. The functions are those of the source, reduced to `Code` : a function keeps its
locked blocks, its calls, branches and loops, and its waits.

The manager calls its listeners while it holds its lock, so the LRU lock is taken above the L1 lock.
The policy calls back while it holds the LRU lock, but `is_evictable` takes no lock. The session
lock is released before the holds are dropped, futures are waited for with no lock held, and an
adapter takes none of the locks.
-/

set_option linter.unusedSectionVars false

namespace MiniLlmcache

namespace Locks

open LockOrder

/-- `L1Manager.lock`, `LRUPolicy.lock` and `PrefetchController.lock`. -/
inductive Lock
  | l1
  | lru
  | session
deriving DecidableEq

variable {A : Type}

/-! ## `l1/manager.py` -/

/-- `notify`. Of the listeners the write-back loop only queues the keys, and the policy takes its
lock for every event but `on_write_finished`. -/
def notify : Event → Code Lock A
  | .onWriteFinished => .pass
  | .onCreated | .onTouched | .onRemoved => .withLock .lru .pass

def reserveWrite : Code Lock A := .withLock .l1 .pass

def finishWrite : Code Lock A :=
  .withLock .l1 (.seq (notify .onCreated) (notify .onWriteFinished))

def finishWriteAndReserveRead : Code Lock A := .withLock .l1 (notify .onCreated)

def reserveRead : Code Lock A := .withLock .l1 .pass

def reserveReadPrefix : Code Lock A := .withLock .l1 .pass

def read : Code Lock A := .withLock .l1 .pass

def finishRead : Code Lock A :=
  .withLock .l1 (.seq (.either (notify .onTouched) .pass) (.either (notify .onRemoved) .pass))

def promote : Code Lock A := .withLock .l1 .pass

def isEvictable : Code Lock A := .pass

def delete : Code Lock A := .withLock .l1 (.either (notify .onRemoved) .pass)

def usage : Code Lock A := .withLock .l1 .pass

/-! ## `l1/eviction.py` -/

def getVictims : Code Lock A := .withLock .lru (.many isEvictable)

/-- One turn of `EvictionController.run`. -/
def evict : Code Lock A := .seq usage (.either .pass (.seq getVictims delete))

/-! ## `l1/prefetch_controller.py` -/

def startSession : Code Lock A := .withLock .session .pass

def query : Code Lock A := .withLock .session .pass

def release : Code Lock A := .seq (.withLock .session .pass) finishRead

def releaseFirst : Code Lock A := .seq (.withLock .session .pass) release

def endSession : Code Lock A := .seq release (.withLock .session .pass)

def resolve : Code Lock A := .seq (.withLock .session .pass) (.either .pass finishRead)

def lookupL2s (l2s : List A) : Code Lock A := .either .pass (.gather l2s)

def reserveLoad : Code Lock A := .many reserveWrite

/-- A load from one of the adapters. -/
def loadFrom : List A → Code Lock A
  | [] => .pass
  | l2 :: l2s => .either (.gather [l2]) (loadFrom l2s)

def loadFromL2s (l2s : List A) : Code Lock A := .many (loadFrom l2s)

def prefetch (l2s : List A) : Code Lock A :=
  .seq reserveReadPrefix (.either resolve
    (.seq (lookupL2s l2s) (.seq reserveLoad (.seq (loadFromL2s l2s)
      (.seq finishWriteAndReserveRead (.seq delete resolve))))))

/-! ## `l1/store_controller.py` -/

/-- One turn of `StoreController.run`. -/
def writeBack (l2s : List A) : Code Lock A :=
  .seq reserveRead (.either .pass (.seq (.gather l2s) finishRead))

/-! ## `server.py` -/

def lookup : Code Lock A := startSession

def freeLocks : Code Lock A := releaseFirst

def store : Code Lock A := .seq reserveWrite finishWrite

def postSend : Code Lock A := .seq promote release

/-- RETRIEVE with its `post_send`. -/
def retrieve : Code Lock A := .seq query (.seq read postSend)

/-- A handler thread. -/
def handle : Code Lock A :=
  .either store (.either retrieve (.either lookup (.either query (.either freeLocks endSession))))

/-- `store`, `lookup` and `load` of an adapter. -/
def adapter (_ : A) : Code Lock A := .pass

/-! ## No deadlock -/

/-- The threads but the workers of the adapters. -/
inductive ThreadId
  | prefetch
  | writeBack
  | eviction
  | handler (n : ℕ)
deriving DecidableEq

def code (l2s : List A) : ThreadId → Code Lock A
  | .prefetch => prefetch l2s
  | .writeBack => writeBack l2s
  | .eviction => evict
  | .handler _ => handle

/-- The LRU lock is taken above the L1 lock, and adapters are waited for without any. -/
def rank : Resource Lock A → ℕ
  | .lock .l1 | .lock .session => 0
  | .lock .lru => 1
  | .service _ => 2

-- what is held in what order is read off the code
attribute [local simp] Code.Ok Above

theorem rank_le : ∀ x : Resource Lock A, rank x ≤ 2
  | .lock .l1 | .lock .session => Nat.zero_le 2
  | .lock .lru => Nat.le_succ 1
  | .service _ => le_refl 2

theorem ok_loadFrom : ∀ l2s : List A, (loadFrom l2s).Ok rank none []
  | [] => trivial
  | _ :: l2s => by
    refine ⟨?_, ok_loadFrom l2s⟩
    simp [Code.Ok, Above]

theorem ok_finishRead : (finishRead : Code Lock A).Ok rank none [] := by
  simp [finishRead, notify, Code.Ok, Above, rank]

theorem ok_release : (release : Code Lock A).Ok rank none [] :=
  ⟨by simp [Code.Ok, Above], ok_finishRead⟩

theorem ok_resolve : (resolve : Code Lock A).Ok rank none [] :=
  ⟨by simp [Code.Ok, Above], trivial, ok_finishRead⟩

theorem ok_delete : (delete : Code Lock A).Ok rank none [] := by
  simp [delete, notify, Code.Ok, Above, rank]

theorem ok_prefetch (l2s : List A) : (prefetch l2s).Ok rank none [] := by
  refine ⟨?_, ok_resolve, ?_, ?_, ok_loadFrom l2s, ?_, ok_delete, ok_resolve⟩
  · simp [reserveReadPrefix, Code.Ok, Above]
  · simp [lookupL2s, Code.Ok, Above]
  · simp [reserveLoad, reserveWrite, Code.Ok, Above]
  · simp [finishWriteAndReserveRead, notify, Code.Ok, Above, rank]

theorem ok_handle : (handle : Code Lock A).Ok rank none [] := by
  refine ⟨?_, ⟨?_, ?_, ?_, ok_release⟩, ?_, ?_, ⟨?_, ok_release⟩, ok_release, ?_⟩
  · simp [store, reserveWrite, finishWrite, notify, Code.Ok, Above, rank]
  all_goals simp [query, read, promote, lookup, startSession, Code.Ok, Above]

theorem ok_code (l2s : List A) : ∀ i, (code l2s i).Ok rank none []
  | .prefetch => ok_prefetch l2s
  | .writeBack => by
    refine ⟨?_, trivial, ?_, ok_finishRead⟩
    · simp [reserveRead, Code.Ok, Above]
    · simp [Code.Ok, Above]
  | .eviction => by
    refine ⟨?_, trivial, ?_, ok_delete⟩
    · simp [usage, Code.Ok, Above]
    · simp [getVictims, isEvictable, Code.Ok, Above]
  | .handler _ => ok_handle

theorem ok_adapter (a : A) : (adapter a).Ok rank (some a) [] := trivial

variable [DecidableEq A]

/-- Whatever the handler threads, the background threads and the workers of the adapters do, and in
whatever order, no set of them waits for locks and futures that only threads of the set can
provide. -/
theorem storage_never_deadlocks {l2s : List A} {s : LockOrder ThreadId Lock A}
    (h : Reachable (code l2s) adapter s) (D : Set (ThreadId ⊕ A)) : ¬s.Deadlocked D :=
  no_deadlock rank_le (ok_code l2s) ok_adapter h D

/-- The actions of a STORE. -/
def storeActs : List (Act Lock A) :=
  [.acquire .l1, .release .l1, .acquire .l1, .acquire .lru, .release .lru, .release .l1]

theorem trace_store : (store : Code Lock A).Trace storeActs .ended :=
  .seq (.withLock (.pass .ended)) (.withLock (.seq (.withLock (.pass .ended)) (.pass .ended)))

/-- The actions of a turn of the eviction thread that finds nothing to delete. -/
def evictActs : List (Act Lock A) :=
  [.acquire .l1, .release .l1, .acquire .lru, .release .lru, .acquire .l1, .release .l1]

theorem trace_evict : (evict : Code Lock A).Trace evictActs .ended :=
  .seq (.withLock (.pass .ended))
    (.right (.seq (.withLock .done) (.withLock (.right (.pass .ended)))))

/-- The actions of a turn of the write-back loop with one adapter. -/
def writeBackActs (l2 : A) : List (Act Lock A) :=
  [.acquire .l1, .release .l1, .submit l2, .await l2, .acquire .l1, .release .l1]

theorem trace_writeBack (l2 : A) : (writeBack [l2]).Trace (writeBackActs l2) .ended :=
  .seq (.withLock (.pass .ended)) (.right (.seq (.gather [l2])
    (.withLock (.seq (.right (.pass .ended)) (.right (.pass .ended))))))

/-- A STORE that holds the L1 and the LRU lock. A second one waits for the L1 lock, the eviction
thread for the LRU lock, and the write-back loop for the future of the adapter. -/
theorem storage_never_deadlocks_sample : ∃ s : LockOrder ThreadId Lock ℕ,
    Reachable (code [0]) adapter s ∧ s.Waits (.inl (.handler 1)) (.lock .l1) ∧
    s.Waits (.inl .eviction) (.lock .lru) ∧ s.Waits (.inl .writeBack) (.service 0) ∧
    ∀ D, ¬s.Deadlocked D := by
  have hstore : ∀ i, ∃ x, (code [0] (.handler i)).Trace storeActs x :=
    fun _ => ⟨.ended, .left trace_store⟩
  have hrun : Run LockOrder.step (Allowed (code [0]) adapter) init
      [.start .eviction evictActs, .act (.inl .eviction), .act (.inl .eviction),
        .start .writeBack (writeBackActs 0), .act (.inl .writeBack), .act (.inl .writeBack),
        .act (.inl .writeBack), .start (.handler 0) storeActs, .act (.inl (.handler 0)),
        .act (.inl (.handler 0)), .act (.inl (.handler 0)), .act (.inl (.handler 0)),
        .start (.handler 1) storeActs] _ :=
    .cons ⟨.ended, trace_evict⟩ rfl <| .cons trivial rfl <| .cons trivial rfl <|
    .cons ⟨.ended, trace_writeBack 0⟩ rfl <| .cons trivial rfl <| .cons trivial rfl <|
    .cons trivial rfl <| .cons (hstore 0) rfl <| .cons trivial rfl <| .cons trivial rfl <|
    .cons trivial rfl <| .cons trivial rfl <| .cons (hstore 1) rfl .refl
  have hreach : Reachable (code [0]) adapter _ := ⟨_, hrun⟩
  refine ⟨_, hreach, ⟨_, rfl, ?_⟩, ⟨_, rfl, ?_⟩, ⟨_, rfl, _, rfl, ?_⟩,
    fun D => storage_never_deadlocks hreach D⟩
  · decide
  · decide
  · decide

end Locks

end MiniLlmcache
