import Mathlib.Data.List.Sort
import MiniLlmcache.Server

/-!
# The whole process

The background threads of `StorageManager` beside the handlers, and the system they make :
the prefetch worker (`prefetch_controller.py`), the write-back loop (`store_controller.py`),
the evictor (`eviction.py`) and one worker thread for each L2 adapter (`l2/base.py`).

An adapter's queue holds the tasks submitted to it, oldest first. What a task works on, and
the future it completes, is kept with the thread that waits for it. What an adapter answers
is free : it comes with the label of the step. So are the messages and the schedule, and a
run of `System.step` is any interleaving of the process.
-/

namespace MiniLlmcache

/-- The functions an adapter's queue can hold. -/
inductive Task
  | lookup
  | load
  | store
deriving DecidableEq

structure Adapter where
  tasks : List Task
  /-- Everything this adapter has stored, oldest first (a ghost). -/
  stored : List (ChunkKey × Bytes)
deriving DecidableEq

/-- `l2.submit(fn, ...)`. -/
def submit (l2s : List Adapter) (i : ℕ) (task : Task) : List Adapter :=
  l2s.modify i fun a => { a with tasks := a.tasks ++ [task] }

/-- A future of a `lookup` or `load`. -/
abbrev Future := Option (Except Exc ℕ)

/-- `[future.result() for future in futures]` : nothing while it blocks. -/
def collect : List Future → Option (Except Exc (List ℕ))
  | [] => some (.ok [])
  | none :: _ => none
  | some (.error e) :: _ => some (.error e)
  | some (.ok n) :: futures => (collect futures).map fun r => r.map (n :: ·)

/-! ## The prefetch worker -/

/-- The variables of a `prefetch` call whose deployment is known. -/
structure Prefetch where
  job : Job
  chunkNbytes : ℕ
  l1Hits : ℕ
  l2Hits : List ℕ
  /-- `load_keys` and `objs`. -/
  load : List (ChunkKey × MemoryObj)
  loaded : ℕ
deriving DecidableEq

/-- Where the prefetch worker stands. -/
inductive Worker
  | idle
  | prefetch (job : Job)
  /-- `lookup_l2s`, with the futures submitted so far. -/
  | lookup (job : Job) (chunkNbytes l1Hits : ℕ) (futures : List Future)
  /-- The loop of `reserve_load`, with the keys still to reserve. -/
  | reserve (p : Prefetch) (todo : List ChunkKey)
  /-- The loop of `load_from_l2s`, with the adapters still to ask. -/
  | load (p : Prefetch) (order : List ℕ)
  /-- Waiting for the load of adapter `i`, which has filled `filled` slots. -/
  | loading (p : Prefetch) (order : List ℕ) (i filled : ℕ) (future : Future)
  | finishWrite (p : Prefetch)
  | cleanup (p : Prefetch)
  | resolve (job : Job) (l1Keys loadedKeys : List ChunkKey)
  | finishRead (job : Job) (keys : List ChunkKey)
  /-- An exception ended the thread. -/
  | dead (job : Job) (holds : List ChunkKey) (slots : List (ChunkKey × MemoryObj))
deriving DecidableEq

namespace Prefetch

def l1Keys (p : Prefetch) : List ChunkKey := p.job.keys.take p.l1Hits

def missing (p : Prefetch) : List ChunkKey := p.job.keys.drop p.l1Hits

/-- `load_keys[:loaded]` and `load_keys[loaded:]`. -/
def loadedKeys (p : Prefetch) : List ChunkKey := (p.load.take p.loaded).map Prod.fst

def surplusKeys (p : Prefetch) : List ChunkKey := (p.load.drop p.loaded).map Prod.fst

def l2Hit (p : Prefetch) (i : ℕ) : ℕ := p.l2Hits.getD i 0

/-- `sorted(range(len(self.l2s)), key=lambda i: -l2_hits[i])`; nothing to ask for when no
slot was reserved. -/
def order (p : Prefetch) (n : ℕ) : List ℕ :=
  if p.load = [] then [] else (List.range n).insertionSort fun i j => p.l2Hit j ≤ p.l2Hit i

end Prefetch

namespace Worker

/-- One step of the prefetch worker. -/
def step (srv : CacheServer) (l2s : List Adapter) :
    Worker → Option (CacheServer × List Adapter × Worker)
  | idle =>
    match srv.jobs with
    | [] => none
    | job :: jobs => some ({ srv with jobs }, l2s, prefetch job)
  | prefetch job =>
    let (hit, l1) := srv.l1.reserveReadPrefix job.keys
    let srv := { srv with l1 }
    match job.chunkNbytes with
    | none => some (srv, l2s, resolve job (job.keys.take hit) [])
    | some n =>
      if job.keys.drop hit = [] then some (srv, l2s, reserve ⟨job, n, hit, [], [], 0⟩ [])
      else some (srv, l2s, lookup job n hit [])
  | lookup job n hit futures =>
    if futures.length < l2s.length then
      some (srv, submit l2s futures.length .lookup, lookup job n hit (futures ++ [none]))
    else
      match collect futures with
      | none => none
      | some (.error _) => some (srv, l2s, dead job (job.keys.take hit) [])
      | some (.ok l2Hits) =>
        some (srv, l2s, reserve ⟨job, n, hit, l2Hits, [], 0⟩
          ((job.keys.drop hit).take (l2Hits.foldl max 0)))
  | reserve p (key :: todo) =>
    let (reserved, l1) := srv.l1.reserveWrite [key] p.chunkNbytes true
    let srv := { srv with l1 }
    match L1Manager.reservedObj reserved key with
    | none => some (srv, l2s, load p (p.order l2s.length))
    | some obj => some (srv, l2s, reserve { p with load := p.load ++ [(key, obj)] } todo)
  | reserve p [] => some (srv, l2s, load p (p.order l2s.length))
  | load p [] => some (srv, l2s, finishWrite p)
  | load p (i :: order) =>
    if p.loaded = p.load.length ∨ p.l2Hit i ≤ p.loaded then some (srv, l2s, finishWrite p)
    else some (srv, submit l2s i .load, loading p order i 0 none)
  | loading _ _ _ _ none => none
  | loading p order _ _ (some (.ok n)) =>
    some (srv, l2s, load { p with loaded := p.loaded + n } order)
  | loading p _ _ _ (some (.error _)) => some (srv, l2s, dead p.job p.l1Keys p.load)
  | finishWrite p =>
    match srv.l1.finishWriteAndReserveRead p.loadedKeys with
    | .returned l1 _ => some ({ srv with l1 }, l2s, cleanup p)
    | .raised l1 _ => some ({ srv with l1 }, l2s, dead p.job p.l1Keys p.load)
  | cleanup p =>
    some ({ srv with l1 := (srv.l1.delete p.surplusKeys true).2 }, l2s,
      resolve p.job p.l1Keys p.loadedKeys)
  | resolve job l1Keys loadedKeys =>
    if srv.hits.contains job.requestId then
      some (srv.publish job.requestId l1Keys loadedKeys, l2s, idle)
    else some (srv, l2s, finishRead job (l1Keys ++ loadedKeys))
  | finishRead job keys =>
    match srv.l1.finishRead keys with
    | .returned l1 _ => some ({ srv with l1 }, l2s, idle)
    | .raised l1 _ => some ({ srv with l1 }, l2s, dead job keys [])
  | dead _ _ _ => none

/-- What the worker's step can do, case by case. -/
inductive Does (srv : CacheServer) (l2s : List Adapter) :
    Worker → CacheServer → List Adapter → Worker → Prop
  | take {job : Job} {jobs : List Job} (h : srv.jobs = job :: jobs) :
      Does srv l2s idle { srv with jobs } l2s (prefetch job)
  | unknown {job : Job} (h : job.chunkNbytes = none) :
      Does srv l2s (prefetch job) { srv with l1 := (srv.l1.reserveReadPrefix job.keys).2 } l2s
        (resolve job (job.keys.take (srv.l1.reserveReadPrefix job.keys).1) [])
  | allInL1 {job : Job} {n : ℕ} (h : job.chunkNbytes = some n)
      (hmiss : job.keys.drop (srv.l1.reserveReadPrefix job.keys).1 = []) :
      Does srv l2s (prefetch job) { srv with l1 := (srv.l1.reserveReadPrefix job.keys).2 } l2s
        (reserve ⟨job, n, (srv.l1.reserveReadPrefix job.keys).1, [], [], 0⟩ [])
  | inL1 {job : Job} {n : ℕ} (h : job.chunkNbytes = some n) :
      Does srv l2s (prefetch job) { srv with l1 := (srv.l1.reserveReadPrefix job.keys).2 } l2s
        (lookup job n (srv.l1.reserveReadPrefix job.keys).1 [])
  | submitLookup {job : Job} {n hit : ℕ} {futures : List Future}
      (h : futures.length < l2s.length) :
      Does srv l2s (lookup job n hit futures) srv (submit l2s futures.length .lookup)
        (lookup job n hit (futures ++ [none]))
  | lookupRaised {job : Job} {n hit : ℕ} {futures : List Future} {e : Exc}
      (h : collect futures = some (.error e)) :
      Does srv l2s (lookup job n hit futures) srv l2s (dead job (job.keys.take hit) [])
  | lookupDone {job : Job} {n hit : ℕ} {futures : List Future} {l2Hits : List ℕ}
      (h : collect futures = some (.ok l2Hits)) :
      Does srv l2s (lookup job n hit futures) srv l2s
        (reserve ⟨job, n, hit, l2Hits, [], 0⟩ ((job.keys.drop hit).take (l2Hits.foldl max 0)))
  | full {p : Prefetch} {key : ChunkKey} {todo : List ChunkKey}
      (h : L1Manager.reservedObj (srv.l1.reserveWrite [key] p.chunkNbytes true).1 key = none) :
      Does srv l2s (reserve p (key :: todo))
        { srv with l1 := (srv.l1.reserveWrite [key] p.chunkNbytes true).2 } l2s
        (load p (p.order l2s.length))
  | reserve {p : Prefetch} {key : ChunkKey} {todo : List ChunkKey} {obj : MemoryObj}
      (h : L1Manager.reservedObj (srv.l1.reserveWrite [key] p.chunkNbytes true).1 key = some obj) :
      Does srv l2s (reserve p (key :: todo))
        { srv with l1 := (srv.l1.reserveWrite [key] p.chunkNbytes true).2 } l2s
        (reserve { p with load := p.load ++ [(key, obj)] } todo)
  | reserved (p : Prefetch) : Does srv l2s (reserve p []) srv l2s (load p (p.order l2s.length))
  | loadDone (p : Prefetch) (order : List ℕ) : Does srv l2s (load p order) srv l2s (finishWrite p)
  | submitLoad {p : Prefetch} {i : ℕ} {order : List ℕ} (hlen : p.loaded ≠ p.load.length)
      (hhit : p.loaded < p.l2Hit i) :
      Does srv l2s (load p (i :: order)) srv (submit l2s i .load) (loading p order i 0 none)
  | loaded (p : Prefetch) (order : List ℕ) (i filled n : ℕ) :
      Does srv l2s (loading p order i filled (some (.ok n))) srv l2s
        (load { p with loaded := p.loaded + n } order)
  | loadRaised (p : Prefetch) (order : List ℕ) (i filled : ℕ) (e : Exc) :
      Does srv l2s (loading p order i filled (some (.error e))) srv l2s (dead p.job p.l1Keys p.load)
  | finishWrite {p : Prefetch} {l1 : L1Manager}
      (h : srv.l1.finishWriteAndReserveRead p.loadedKeys = .returned l1 ()) :
      Does srv l2s (finishWrite p) { srv with l1 } l2s (cleanup p)
  | finishWriteFail {p : Prefetch} {l1 : L1Manager} {e : Exc}
      (h : srv.l1.finishWriteAndReserveRead p.loadedKeys = .raised l1 e) :
      Does srv l2s (finishWrite p) { srv with l1 } l2s (dead p.job p.l1Keys p.load)
  | cleanup (p : Prefetch) :
      Does srv l2s (cleanup p) { srv with l1 := (srv.l1.delete p.surplusKeys true).2 } l2s
        (resolve p.job p.l1Keys p.loadedKeys)
  | publish {job : Job} {l1Keys loadedKeys : List ChunkKey}
      (h : srv.hits.contains job.requestId = true) :
      Does srv l2s (resolve job l1Keys loadedKeys)
        (srv.publish job.requestId l1Keys loadedKeys) l2s idle
  | ended {job : Job} {l1Keys loadedKeys : List ChunkKey}
      (h : srv.hits.contains job.requestId = false) :
      Does srv l2s (resolve job l1Keys loadedKeys) srv l2s (finishRead job (l1Keys ++ loadedKeys))
  | finishRead {job : Job} {keys : List ChunkKey} {l1 : L1Manager}
      (h : srv.l1.finishRead keys = .returned l1 ()) :
      Does srv l2s (finishRead job keys) { srv with l1 } l2s idle
  | finishReadFail {job : Job} {keys : List ChunkKey} {l1 : L1Manager} {e : Exc}
      (h : srv.l1.finishRead keys = .raised l1 e) :
      Does srv l2s (finishRead job keys) { srv with l1 } l2s (dead job keys [])

theorem does_of_step {srv srv' : CacheServer} {l2s l2s' : List Adapter} {w w' : Worker}
    (hs : w.step srv l2s = some (srv', l2s', w')) : Does srv l2s w srv' l2s' w' := by
  cases w with
  | idle =>
    simp only [step] at hs
    split at hs
    · cases hs
    · cases hs
      exact .take ‹_›
  | prefetch job =>
    simp only [step] at hs
    split at hs
    · cases hs
      exact .unknown ‹_›
    · split_ifs at hs with hmiss
      · cases hs
        exact .allInL1 ‹_› hmiss
      · cases hs
        exact .inL1 ‹_›
  | lookup job n hit futures =>
    simp only [step] at hs
    split_ifs at hs with hlen
    · cases hs
      exact .submitLookup hlen
    · split at hs
      · cases hs
      · cases hs
        exact .lookupRaised ‹_›
      · cases hs
        exact .lookupDone ‹_›
  | reserve p todo =>
    cases todo with
    | nil =>
      cases hs
      exact .reserved p
    | cons key todo =>
      simp only [step] at hs
      split at hs
      · cases hs
        exact .full ‹_›
      · cases hs
        exact .reserve ‹_›
  | load p order =>
    cases order with
    | nil =>
      cases hs
      exact .loadDone p []
    | cons i order =>
      simp only [step] at hs
      split_ifs at hs with h
      · cases hs
        exact .loadDone p _
      · cases hs
        rw [not_or, not_le] at h
        exact .submitLoad h.1 h.2
  | loading p order i filled future =>
    match future with
    | none => cases hs
    | some (.ok n) =>
      cases hs
      exact .loaded p order i filled n
    | some (.error e) =>
      cases hs
      exact .loadRaised p order i filled e
  | finishWrite p =>
    simp only [step] at hs
    split at hs
    · cases hs
      exact .finishWrite ‹_›
    · cases hs
      exact .finishWriteFail ‹_›
  | cleanup p =>
    cases hs
    exact .cleanup p
  | resolve job l1Keys loadedKeys =>
    simp only [step] at hs
    split_ifs at hs with h
    · cases hs
      exact .publish h
    · cases hs
      exact .ended (Bool.eq_false_iff.mpr h)
  | finishRead job keys =>
    simp only [step] at hs
    split at hs
    · cases hs
      exact .finishRead ‹_›
    · cases hs
      exact .finishReadFail ‹_›
  | dead => cases hs

end Worker

/-! ## Write-back -/

/-- A future of a `store`; while it runs, the chunks still to store. -/
inductive StoreFuture
  | running (todo : List (ChunkKey × MemoryObj))
  | ok
  | raised
deriving DecidableEq

/-- Where the write-back loop stands. -/
inductive Writeback
  | idle
  | reserve (keys : List ChunkKey)
  | submit (locked : List (ChunkKey × MemoryObj)) (futures : List StoreFuture)
  | finishRead (keys : List ChunkKey)
  /-- An exception ended the thread. -/
  | dead (locked : List (ChunkKey × MemoryObj)) (futures : List StoreFuture)
deriving DecidableEq

namespace Writeback

/-- `for future in futures: future.result()` : nothing while it blocks, else whether all
returned. -/
def await : List StoreFuture → Option Bool
  | [] => some true
  | .running _ :: _ => none
  | .raised :: _ => some false
  | .ok :: futures => await futures

/-- One step of the write-back loop. -/
def step (srv : CacheServer) (l2s : List Adapter) :
    Writeback → Option (CacheServer × List Adapter × Writeback)
  | idle =>
    match srv.l1.listeners.pending with
    | none | some [] => none
    | some (keys :: pending) =>
      some ({ srv with l1.listeners.pending := some pending }, l2s, reserve keys)
  | reserve keys =>
    let (reserved, l1) := srv.l1.reserveRead keys
    let locked := L1Manager.lockedKeys reserved
    some ({ srv with l1 }, l2s, if locked = [] then idle else submit locked [])
  | submit locked futures =>
    if futures.length < l2s.length then
      some (srv, MiniLlmcache.submit l2s futures.length .store,
        submit locked (futures ++ [.running locked]))
    else
      match await futures with
      | none => none
      | some true => some (srv, l2s, finishRead (locked.map Prod.fst))
      | some false => some (srv, l2s, dead locked futures)
  | finishRead keys =>
    match srv.l1.finishRead keys with
    | .returned l1 _ => some ({ srv with l1 }, l2s, idle)
    | .raised l1 _ => some ({ srv with l1 }, l2s, dead [] [])
  | dead _ _ => none

/-- What the write-back loop's step can do, case by case. -/
inductive Does (srv : CacheServer) (l2s : List Adapter) :
    Writeback → CacheServer → List Adapter → Writeback → Prop
  | take {keys : List ChunkKey} {pending : List (List ChunkKey)}
      (h : srv.l1.listeners.pending = some (keys :: pending)) :
      Does srv l2s idle { srv with l1.listeners.pending := some pending } l2s (reserve keys)
  | evicted {keys : List ChunkKey} (h : L1Manager.lockedKeys (srv.l1.reserveRead keys).1 = []) :
      Does srv l2s (reserve keys) { srv with l1 := (srv.l1.reserveRead keys).2 } l2s idle
  | reserve {keys : List ChunkKey} (h : L1Manager.lockedKeys (srv.l1.reserveRead keys).1 ≠ []) :
      Does srv l2s (reserve keys) { srv with l1 := (srv.l1.reserveRead keys).2 } l2s
        (submit (L1Manager.lockedKeys (srv.l1.reserveRead keys).1) [])
  | submit {locked : List (ChunkKey × MemoryObj)} {futures : List StoreFuture}
      (h : futures.length < l2s.length) :
      Does srv l2s (submit locked futures) srv (MiniLlmcache.submit l2s futures.length .store)
        (submit locked (futures ++ [.running locked]))
  | stored {locked : List (ChunkKey × MemoryObj)} {futures : List StoreFuture}
      (h : await futures = some true) :
      Does srv l2s (submit locked futures) srv l2s (finishRead (locked.map Prod.fst))
  | raised {locked : List (ChunkKey × MemoryObj)} {futures : List StoreFuture}
      (h : await futures = some false) :
      Does srv l2s (submit locked futures) srv l2s (dead locked futures)
  | finishRead {keys : List ChunkKey} {l1 : L1Manager}
      (h : srv.l1.finishRead keys = .returned l1 ()) :
      Does srv l2s (finishRead keys) { srv with l1 } l2s idle
  | finishReadFail {keys : List ChunkKey} {l1 : L1Manager} {e : Exc}
      (h : srv.l1.finishRead keys = .raised l1 e) :
      Does srv l2s (finishRead keys) { srv with l1 } l2s (dead [] [])

theorem does_of_step {srv srv' : CacheServer} {l2s l2s' : List Adapter} {w w' : Writeback}
    (hs : w.step srv l2s = some (srv', l2s', w')) : Does srv l2s w srv' l2s' w' := by
  cases w with
  | idle =>
    simp only [step] at hs
    split at hs
    · cases hs
    · cases hs
    · cases hs
      exact .take ‹_›
  | reserve keys =>
    simp only [step, Option.some.injEq, Prod.mk.injEq] at hs
    obtain ⟨rfl, rfl, rfl⟩ := hs
    split_ifs with h
    · exact .evicted h
    · exact .reserve h
  | submit locked futures =>
    simp only [step] at hs
    split_ifs at hs with hlen
    · cases hs
      exact .submit hlen
    · split at hs
      · cases hs
      · cases hs
        exact .stored ‹_›
      · cases hs
        exact .raised ‹_›
  | finishRead keys =>
    simp only [step] at hs
    split at hs
    · cases hs
      exact .finishRead ‹_›
    · cases hs
      exact .finishReadFail ‹_›
  | dead => cases hs

/-- The futures of the batch. -/
def futures : Writeback → List StoreFuture
  | submit _ futures | dead _ futures => futures
  | _ => []

def setFutures (futures : List StoreFuture) : Writeback → Writeback
  | submit locked _ => submit locked futures
  | dead locked _ => dead locked futures
  | w => w

end Writeback

/-! ## Eviction -/

/-- Where the evictor stands. -/
inductive Evictor
  | idle
  | scan
  | delete (victims : List ChunkKey)
  /-- An exception has ended the thread. -/
  | dead
deriving DecidableEq

namespace Evictor

/-- One step of the evictor. -/
def step (srv : CacheServer) : Evictor → CacheServer × Evictor
  | idle =>
    let a := srv.l1.allocator
    -- `used / total` raises when there is no pool
    (srv, if a.capacity = 0 then dead
      else if a.usedBytes * watermark.2 < a.capacity * watermark.1 then idle else scan)
  | scan => (srv, delete (srv.l1.listeners.lru.getVictims evictionRatio srv.l1.isEvictable))
  | delete victims => ({ srv with l1 := (srv.l1.delete victims false).2 }, idle)
  | dead => (srv, dead)

end Evictor

/-! ## The system -/

structure System where
  server : CacheServer
  l2s : List Adapter
  /-- Every message received, with the thread that handles it. -/
  handlers : OrderedDict ℕ (Req × Handler)
  worker : Worker
  writeback : Writeback
  evictor : Evictor

/-- What an adapter's thread does next. -/
inductive L2Act
  /-- `lookup` returns a count. -/
  | found (hits : ℕ)
  /-- `load` writes `data` into its next slot, and counts the slot if it is `complete`. -/
  | fill (data : Bytes) (complete : Bool)
  /-- `load` returns the number of slots it counted. -/
  | loaded
  /-- `store` takes its next chunk, or leaves it out. -/
  | persist (skip : Bool)
  /-- `store` returns. -/
  | stored
  /-- The function raises. -/
  | fail
deriving DecidableEq

/-- Which thread makes the next step. -/
inductive Label
  | recv (thread : ℕ) (m : Req)
  | handler (thread : ℕ)
  | worker
  | writeback
  | evictor
  | l2 (i : ℕ) (act : L2Act)
deriving DecidableEq

namespace System

def new (chunkSize capacity : ℕ) (pool : ℕ → UInt8) (adapters : ℕ) : System where
  server := .new chunkSize capacity pool (adapters ≠ 0)
  l2s := List.replicate adapters ⟨[], []⟩
  handlers := .empty
  worker := .idle
  writeback := .idle
  evictor := .idle

/-- Adapter `i` is done with its oldest task. -/
def popTask (s : System) (i : ℕ) : System :=
  { s with l2s := s.l2s.modify i fun a => { a with tasks := a.tasks.tail } }

/-- Complete the lookup future of adapter `i`, if somebody still waits for it. -/
def setLookup (s : System) (i : ℕ) (r : Except Exc ℕ) : System :=
  match s.worker with
  | .lookup job n hit futures => { s with worker := .lookup job n hit (futures.set i (some r)) }
  | _ => s

/-- Replace the store future of adapter `i`. -/
def setStore (s : System) (i : ℕ) (f : StoreFuture) : System :=
  { s with writeback := s.writeback.setFutures (s.writeback.futures.set i f) }

/-- One step of the thread of adapter `i`, whose oldest task is `task`. -/
def l2Step (s : System) (i : ℕ) (task : Task) : L2Act → Option System
  | .found hits => if task = .lookup then some ((s.popTask i).setLookup i (.ok hits)) else none
  | .fill data complete =>
    match task, s.worker with
    | .load, .loading p order j filled none =>
      if i = j then
        match p.load[p.loaded + filled]? with
        | none => none
        | some (key, obj) =>
          if data.length = obj.nbytes then
            if complete then
              some { s with
                server := s.server.fill key obj data
                worker := .loading p order j (filled + 1) none }
            else some { s with server.l1 := s.server.l1.copyInto obj data }
          else none
      else none
    | _, _ => none
  | .loaded =>
    match task, s.worker with
    | .load, .loading p order j filled none =>
      if i = j then
        some { s.popTask i with worker := .loading p order j filled (some (.ok filled)) }
      else none
    | _, _ => none
  | .persist skip =>
    match task, s.writeback.futures[i]? with
    | .store, some (.running ((key, obj) :: todo)) =>
      let s := s.setStore i (.running todo)
      if skip then some s
      else some { s with
        l2s := s.l2s.modify i fun a =>
          { a with stored := a.stored ++ [(key, s.server.l1.bytes obj)] } }
    | _, _ => none
  | .stored =>
    match task, s.writeback.futures[i]? with
    | .store, some (.running []) => some ((s.popTask i).setStore i .ok)
    | _, _ => none
  | .fail =>
    match task with
    | .lookup => some ((s.popTask i).setLookup i (.error .adapterError))
    | .load =>
      match s.worker with
      | .loading p order j filled none =>
        if i = j then
          some { s.popTask i with
            worker := .loading p order j filled (some (.error .adapterError)) }
        else none
      | _ => none
    | .store => some ((s.popTask i).setStore i .raised)

variable (blake3 : Bytes → Bytes)

/-- One step of the system. -/
def step (s : System) : Label → Option System
  | .recv thread m =>
    if s.handlers.contains thread then none
    else some { s with handlers := s.handlers.set thread (m, .start m) }
  | .handler thread =>
    match s.handlers.get? thread with
    | none => none
    | some (m, h) =>
      (h.step blake3 s.server).map fun (server, h) =>
        { s with server, handlers := s.handlers.set thread (m, h) }
  | .worker =>
    (s.worker.step s.server s.l2s).map fun (server, l2s, worker) => { s with server, l2s, worker }
  | .writeback =>
    (s.writeback.step s.server s.l2s).map fun (server, l2s, writeback) =>
      { s with server, l2s, writeback }
  | .evictor =>
    let (server, evictor) := s.evictor.step s.server
    some { s with server, evictor }
  | .l2 i act =>
    match (s.l2s[i]?).map Adapter.tasks with
    | some (task :: _) => s.l2Step i task act
    | _ => none

variable {blake3}

theorem step_recv {s s' : System} {t : ℕ} {m : Req} (hs : s.step blake3 (.recv t m) = some s') :
    s.handlers.get? t = none ∧ s' = { s with handlers := s.handlers.set t (m, .start m) } := by
  simp only [step] at hs
  split_ifs at hs with hc
  cases hs
  exact ⟨OrderedDict.contains_eq_false_iff.mp (Bool.eq_false_iff.mpr hc), rfl⟩

theorem step_handler {s s' : System} {t : ℕ} (hs : s.step blake3 (.handler t) = some s') :
    ∃ m hd srv' hd', s.handlers.get? t = some (m, hd) ∧ hd.Does blake3 s.server srv' hd' ∧
      s' = { s with server := srv', handlers := s.handlers.set t (m, hd') } := by
  simp only [step] at hs
  split at hs
  · cases hs
  · rename_i m hd hget
    obtain ⟨⟨srv', hd'⟩, hstep, rfl⟩ := Option.map_eq_some_iff.mp hs
    exact ⟨m, hd, srv', hd', hget, Handler.does_of_step hstep, rfl⟩

theorem step_worker {s s' : System} (hs : s.step blake3 .worker = some s') :
    ∃ srv' l2s' w', s.worker.Does s.server s.l2s srv' l2s' w' ∧
      s' = { s with server := srv', l2s := l2s', worker := w' } := by
  obtain ⟨⟨srv', l2s', w'⟩, hstep, rfl⟩ := Option.map_eq_some_iff.mp hs
  exact ⟨srv', l2s', w', Worker.does_of_step hstep, rfl⟩

theorem step_writeback {s s' : System} (hs : s.step blake3 .writeback = some s') :
    ∃ srv' l2s' w', s.writeback.Does s.server s.l2s srv' l2s' w' ∧
      s' = { s with server := srv', l2s := l2s', writeback := w' } := by
  obtain ⟨⟨srv', l2s', w'⟩, hstep, rfl⟩ := Option.map_eq_some_iff.mp hs
  exact ⟨srv', l2s', w', Writeback.does_of_step hstep, rfl⟩

theorem step_evictor {s s' : System} (hs : s.step blake3 .evictor = some s') :
    s' = { s with
      server := (s.evictor.step s.server).1
      evictor := (s.evictor.step s.server).2 } := by
  cases hs
  rfl

/-- The task the thread of adapter `i` works on. -/
def oldest (s : System) (i : ℕ) : Option Task := (s.l2s[i]?).bind fun a => a.tasks.head?

/-- What the thread of adapter `i` can do, case by case. -/
inductive L2Does (s : System) (i : ℕ) : L2Act → System → Prop
  | found (hits : ℕ) (ht : s.oldest i = some .lookup) :
      L2Does s i (.found hits) ((s.popTask i).setLookup i (.ok hits))
  | lookupFail (ht : s.oldest i = some .lookup) :
      L2Does s i .fail ((s.popTask i).setLookup i (.error .adapterError))
  | fill {p : Prefetch} {order : List ℕ} {filled : ℕ} {key : ChunkKey} {obj : MemoryObj}
      {data : Bytes} (hw : s.worker = .loading p order i filled none)
      (hget : p.load[p.loaded + filled]? = some (key, obj)) (hlen : data.length = obj.nbytes) :
      L2Does s i (.fill data true) { s with
        server := s.server.fill key obj data
        worker := .loading p order i (filled + 1) none }
  | scribble {p : Prefetch} {order : List ℕ} {filled : ℕ} {key : ChunkKey} {obj : MemoryObj}
      {data : Bytes} (hw : s.worker = .loading p order i filled none)
      (hget : p.load[p.loaded + filled]? = some (key, obj)) (hlen : data.length = obj.nbytes) :
      L2Does s i (.fill data false) { s with server.l1 := s.server.l1.copyInto obj data }
  | loaded {p : Prefetch} {order : List ℕ} {filled : ℕ}
      (hw : s.worker = .loading p order i filled none) (ht : s.oldest i = some .load) :
      L2Does s i .loaded
        { s.popTask i with worker := .loading p order i filled (some (.ok filled)) }
  | loadFail {p : Prefetch} {order : List ℕ} {filled : ℕ}
      (hw : s.worker = .loading p order i filled none) (ht : s.oldest i = some .load) :
      L2Does s i .fail
        { s.popTask i with worker := .loading p order i filled (some (.error .adapterError)) }
  | persist {key : ChunkKey} {obj : MemoryObj} {todo : List (ChunkKey × MemoryObj)}
      (hf : s.writeback.futures[i]? = some (.running ((key, obj) :: todo))) :
      L2Does s i (.persist false) { s.setStore i (.running todo) with
        l2s := s.l2s.modify i fun a =>
          { a with stored := a.stored ++ [(key, s.server.l1.bytes obj)] } }
  | skip {p : ChunkKey × MemoryObj} {todo : List (ChunkKey × MemoryObj)}
      (hf : s.writeback.futures[i]? = some (.running (p :: todo))) :
      L2Does s i (.persist true) (s.setStore i (.running todo))
  | stored (hf : s.writeback.futures[i]? = some (.running [])) (ht : s.oldest i = some .store) :
      L2Does s i .stored ((s.popTask i).setStore i .ok)
  | storeFail (ht : s.oldest i = some .store) :
      L2Does s i .fail ((s.popTask i).setStore i .raised)

theorem l2_does {s s' : System} {i : ℕ} {act : L2Act}
    (hs : s.step blake3 (.l2 i act) = some s') : s.L2Does i act s' := by
  obtain ⟨task, ht, hs⟩ : ∃ task, s.oldest i = some task ∧ s.l2Step i task act = some s' := by
    simp only [step] at hs
    split at hs
    · rename_i task tasks heq
      obtain ⟨a, ha, htasks⟩ := Option.map_eq_some_iff.mp heq
      exact ⟨task, by rw [oldest, ha, Option.bind_some, htasks, List.head?_cons], hs⟩
    · cases hs
  cases act with
  | found hits =>
    simp only [l2Step] at hs
    split_ifs at hs with htask
    cases hs
    exact .found hits (htask ▸ ht)
  | fill data complete =>
    simp only [l2Step] at hs
    split at hs
    case h_2 => cases hs
    rename_i p order j filled hw
    split at hs
    case isFalse => cases hs
    rename_i hij
    subst hij
    split at hs
    case h_1 => cases hs
    rename_i key obj hget
    split at hs
    case isFalse => cases hs
    rename_i hlen
    cases complete with
    | true =>
      cases hs
      exact .fill hw hget hlen
    | false =>
      cases hs
      exact .scribble hw hget hlen
  | loaded =>
    simp only [l2Step] at hs
    split at hs
    case h_2 => cases hs
    rename_i p order j filled hw
    split_ifs at hs with hij
    subst hij
    cases hs
    exact .loaded hw ht
  | persist skip =>
    simp only [l2Step] at hs
    split at hs
    case h_2 => cases hs
    rename_i key obj todo hf
    split_ifs at hs with hskip
    · cases hs
      obtain rfl := hskip
      exact .skip hf
    · cases hs
      rw [Bool.eq_false_iff.mpr hskip]
      exact .persist hf
  | stored =>
    simp only [l2Step] at hs
    split at hs
    case h_2 => cases hs
    rename_i hf
    cases hs
    exact .stored hf ht
  | fail =>
    cases task with
    | lookup =>
      cases hs
      exact .lookupFail ht
    | load =>
      simp only [l2Step] at hs
      split at hs
      case h_2 => cases hs
      rename_i p order j filled hw
      split_ifs at hs with hij
      subst hij
      cases hs
      exact .loadFail hw ht
    | store =>
      cases hs
      exact .storeFail ht

end System

end MiniLlmcache
