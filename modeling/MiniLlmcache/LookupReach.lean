import Mathlib.Data.Finset.Lattice.Fold
import Mathlib.Data.List.TakeWhile
import Mathlib.Order.Lattice.Nat
import MiniLlmcache.Failure
import MiniLlmcache.PoolCounts
import MiniLlmcache.StoreClean

/-!
# What a lookup reaches

One `prefetch` call while nothing else runs, over adapters whose contents do not change : the
steps are those of the worker and the answers of the adapters, in any order.

`Reach` says what could be found : the readable prefix of the keys in L1, and the longest prefix
of the rest that one adapter holds. `reserve_load` stops at the first key that gets no slot, and a
key that is resident behind the gap gets none although the pool is not full. So the counts that
are published add up to all that could be found exactly when no key to load is resident.
-/

namespace MiniLlmcache

/-- How many of `keys` adapter `i` holds, as a prefix. -/
def holding (contents : ℕ → ChunkKey → Option Bytes) (i : ℕ) (keys : List ChunkKey) : ℕ :=
  (keys.takeWhile fun k => (contents i k).isSome).length

/-- What adapter `i` holds for the next slot of its load. -/
def nextBlob (contents : ℕ → ChunkKey → Option Bytes) (i : ℕ) (p : Prefetch) (filled : ℕ) :
    Option Bytes :=
  (p.load[p.loaded + filled]?).bind fun x => contents i x.1

/-- The steps of a prefetch alone : the worker's, and what adapters with these contents do when
they do not fail. -/
def Answers (contents : ℕ → ChunkKey → Option Bytes) (s : System) : Label → Bool
  | .worker => true
  | .l2 i (.found hits) =>
    match s.worker with
    | .lookup job _ hit _ => hits == holding contents i (job.keys.drop hit)
    | _ => false
  | .l2 i (.fill data complete) =>
    match s.worker with
    | .loading p _ _ filled none => complete && nextBlob contents i p filled == some data
    | _ => false
  | .l2 i .loaded =>
    match s.worker with
    | .loading p _ _ filled none => (nextBlob contents i p filled).isNone
    | _ => false
  | _ => false

/-- A job, the cache it finds, and what each of the adapters holds. -/
structure Reach where
  l1 : L1Manager
  job : Job
  adapters : ℕ
  contents : ℕ → ChunkKey → Option Bytes

namespace Reach

variable (r : Reach)

/-- The length of the readable prefix in L1. -/
def hit : ℕ := r.l1.readablePrefix r.job.keys

/-- The remaining keys. -/
def rest : List ChunkKey := r.job.keys.drop r.hit

def found (i : ℕ) : ℕ := holding r.contents i r.rest

/-- The longest prefix of the remaining keys that some single adapter holds. -/
def best : ℕ := (Finset.range r.adapters).sup r.found

def reachable : List ChunkKey := r.rest.take r.best

def absent (key : ChunkKey) : Bool := !r.l1.entries.contains key

/-- The keys that get a slot. -/
def loadable : List ChunkKey := r.reachable.takeWhile r.absent

/-- The keys that are loaded : none when the size of a chunk is not known. -/
def reached : List ChunkKey := if r.job.chunkNbytes.isSome then r.loadable else []

/-- The pool has room for every missing key, and the adapters hold whole chunks. -/
structure Fits (r : Reach) : Prop where
  nodup : r.job.keys.Nodup
  inUse : r.l1.InUse
  room : ∀ n, r.job.chunkNbytes = some n →
    ((r.l1.allocator.allocate (r.l1.missing r.job.keys).length n).1).isSome
  whole : ∀ n, r.job.chunkNbytes = some n → ∀ i k blob, r.contents i k = some blob →
    blob.length = n

/-- The worker has just taken the job, and nothing else is under way. -/
structure Alone (r : Reach) (s : System) : Prop where
  l1 : s.server.l1 = r.l1
  adapters : s.l2s.length = r.adapters
  worker : s.worker = .prefetch r.job
  jobs : s.server.jobs = []
  known : s.server.hits.contains r.job.requestId = true
  tasks : ∀ i, tasksAt s.l2s i = []

end Reach

/-! ## The keys a lookup is about -/

/-- `max(l2_hits, default=0)` over all adapters. -/
theorem foldl_max_range (f : ℕ → ℕ) (n : ℕ) :
    ((List.range n).map f).foldl max 0 = (Finset.range n).sup f := by
  induction n with
  | zero => rfl
  | succ n ih =>
    rw [List.range_succ, List.map_append, List.foldl_append, ih, Finset.range_add_one,
      Finset.sup_insert, sup_comm]
    rfl

namespace Reach

variable {r : Reach}

theorem found_le (i : ℕ) : r.found i ≤ r.rest.length := (List.takeWhile_sublist _).length_le

theorem length_take_hit : (r.job.keys.take r.hit).length = r.hit := by
  rw [List.length_take]
  exact min_eq_left (L1Manager.readablePrefix_le _ _)

theorem best_le : r.best ≤ r.rest.length := Finset.sup_le fun i _ => found_le i

theorem length_reachable : r.reachable.length = r.best := by
  rw [reachable, List.length_take, min_eq_left best_le]

theorem loadable_prefix_reachable : r.loadable <+: r.reachable := List.takeWhile_prefix _

theorem length_loadable_le : r.loadable.length ≤ r.best :=
  loadable_prefix_reachable.length_le.trans length_reachable.le

theorem absent_iff {k : ChunkKey} : r.absent k = true ↔ r.l1.entries.get? k = none := by
  rw [absent, Bool.not_eq_true', OrderedDict.contains_eq_false_iff]

/-- An adapter with the longest prefix holds every key that gets a slot. -/
theorem contents_of_mem_loadable {i : ℕ} (hi : r.best ≤ r.found i) {k : ChunkKey}
    (hk : k ∈ r.loadable) : (r.contents i k).isSome := by
  have hpre : r.reachable <+: r.rest.takeWhile fun k => (r.contents i k).isSome := by
    have htake := List.prefix_iff_eq_take.mp
      (List.takeWhile_prefix (l := r.rest) fun k => (r.contents i k).isSome)
    rw [htake]
    exact List.take_prefix_take_left hi
  exact List.mem_takeWhile_imp (p := fun k => (r.contents i k).isSome)
    (hpre.subset (loadable_prefix_reachable.subset hk))

/-- The slots of a lookup are among those of its missing keys. -/
theorem length_loadable_le_missing : r.loadable.length ≤ (r.l1.missing r.job.keys).length := by
  have hfilter : r.loadable = r.loadable.filter r.absent :=
    (List.filter_eq_self.mpr fun k hk => List.mem_takeWhile_imp hk).symm
  have hsub : r.loadable.Sublist r.job.keys :=
    loadable_prefix_reachable.sublist.trans ((List.take_sublist _ _).trans (List.drop_sublist _ _))
  rw [hfilter]
  exact (hsub.filter _).length_le

/-- All that could be found is found exactly when no key to load is resident. -/
theorem length_reached_iff : r.hit + r.reached.length = r.hit + r.best ↔
    (r.job.chunkNbytes = none → r.reachable = []) ∧
      ∀ k ∈ r.reachable, r.l1.entries.get? k = none := by
  rw [Nat.add_left_cancel_iff, reached]
  rcases hn : r.job.chunkNbytes with _ | n
  · simp only [Option.isSome_none, Bool.false_eq_true, if_false, List.length_nil, forall_const]
    rw [← length_reachable, eq_comm, List.length_eq_zero_iff]
    exact ⟨fun h => ⟨h, by simp [h]⟩, fun h => h.1⟩
  · simp only [Option.isSome_some, if_true, reduceCtorEq, false_imp_iff, true_and]
    rw [← length_reachable]
    refine ⟨fun h k hk => ?_, fun h => ?_⟩
    · have heq : r.loadable = r.reachable := loadable_prefix_reachable.eq_of_length h
      exact absent_iff.mp (List.mem_takeWhile_imp (heq ▸ hk))
    · rw [loadable, List.takeWhile_eq_self_iff.mpr fun k hk => absent_iff.mpr (h k hk)]

end Reach

/-! ## The sections of the cache it goes through -/

namespace L1Manager

variable {l1 : L1Manager}

/-- `holdAll` leaves the pool alone, and which keys are there. -/
theorem untouched_holdAll : ∀ (keys : List ChunkKey) (l1 : L1Manager),
    (l1.holdAll keys).allocator = l1.allocator ∧
      ∀ k, (l1.holdAll keys).entries.contains k = l1.entries.contains k
  | [], _ => ⟨rfl, fun _ => rfl⟩
  | key :: keys, l1 => by
    rcases he : l1.entries.get? key with _ | e
    · simp only [holdAll, he]
      exact untouched_holdAll keys l1
    · simp only [holdAll, he]
      obtain ⟨halloc, hkeys⟩ := untouched_holdAll keys (l1.hold key e)
      refine ⟨halloc, fun k => (hkeys k).trans ?_⟩
      rw [Bool.eq_iff_iff, OrderedDict.contains_iff, OrderedDict.contains_iff, hold, setEntry,
        OrderedDict.mem_keys_set, or_iff_right_iff_imp]
      rintro rfl
      exact OrderedDict.mem_keys_iff.mpr ⟨e, he⟩

/-- A key that is there gets no slot. -/
theorem reserveWrite_of_present {key : ChunkKey} (n : ℕ) (t : Bool)
    (hkey : l1.entries.contains key = true) :
    reservedObj (l1.reserveWrite [key] n t).1 key = none ∧
      ∀ k, (l1.reserveWrite [key] n t).2.entries.get? k = l1.entries.get? k := by
  have hmissing : l1.missing [key] = [] := by simp [missing, hkey]
  rcases ha : l1.allocator.allocate (l1.missing [key]).length n with ⟨_ | objs, a⟩
  · rw [reserveWrite_of_none ha]
    refine ⟨?_, fun _ => rfl⟩
    rw [reservedObj, OrderedDict.get?_fromKeys]
    split_ifs <;> rfl
  · obtain ⟨hobj, -, hentries⟩ := reserveWrite_of_some (t := t) ha
    have hslices : ∀ k, (l1.slices [key] objs).get? k = none := fun k => by
      rw [slices, hmissing]
      rfl
    exact ⟨by rw [hobj, hslices], fun k => by rw [hentries, hslices]; rfl⟩

/-- A missing key gets a slot while the pool has room. -/
theorem reserveWrite_of_room {key : ChunkKey} {n count : ℕ} (t : Bool)
    (hkey : l1.entries.contains key = false) (hroom : l1.allocator.Room n (count + 1)) :
    ∃ obj, reservedObj (l1.reserveWrite [key] n t).1 key = some obj ∧ obj.nbytes = n ∧
      (l1.reserveWrite [key] n t).2.allocator.Room n count ∧
      ∀ k, (l1.reserveWrite [key] n t).2.entries.contains k =
        (l1.entries.contains k || decide (k = key)) := by
  obtain ⟨o, a, ha, hroom'⟩ := hroom.allocate_one
  have hmissing : l1.missing [key] = [key] := by simp [missing, hkey]
  have halloc : l1.allocator.allocate (l1.missing [key]).length n = (some [⟨o, n⟩], a) := by
    rw [hmissing]
    exact ha
  obtain ⟨hobj, hall, hentries⟩ := reserveWrite_of_some (t := t) halloc
  have hslices : ∀ k, (l1.slices [key] [⟨o, n⟩]).get? k =
      if key = k then some ⟨o, n⟩ else none := by
    intro k
    rw [slices, hmissing]
    exact OrderedDict.get?_set _ _ _ _
  refine ⟨⟨o, n⟩, by rw [hobj, hslices, if_pos rfl], rfl, hall ▸ hroom', fun k => ?_⟩
  rw [Bool.eq_iff_iff, OrderedDict.contains_iff, OrderedDict.mem_keys_iff, hentries, hslices,
    Bool.or_eq_true, OrderedDict.contains_iff, OrderedDict.mem_keys_iff, decide_eq_true_iff]
  by_cases hk : key = k
  · simp [hk]
  · simp [hk, Ne.symm hk]

/-- `finish_write_and_reserve_read` of keys that are all there. -/
theorem finishWriteAndReserveRead_of_present (keys : List ChunkKey) :
    ∀ (rest : List ChunkKey) (l1 : L1Manager), (∀ k ∈ rest, l1.entries.contains k = true) →
      ∃ l1', finishWriteAndReserveRead.loop keys l1 rest = .returned l1' ()
  | [], _, _ => ⟨_, rfl⟩
  | key :: rest, l1, h => by
    obtain ⟨e, he⟩ := OrderedDict.mem_keys_iff.mp
      (OrderedDict.contains_iff.mp (h key List.mem_cons_self))
    simp only [finishWriteAndReserveRead.loop, he]
    refine finishWriteAndReserveRead_of_present keys rest _ fun k hk => ?_
    rw [OrderedDict.contains_iff, setEntry, OrderedDict.mem_keys_set]
    exact Or.inr (OrderedDict.contains_iff.mp (h k (List.mem_cons_of_mem _ hk)))

end L1Manager

/-! ## Where the call stands -/

/-- The tasks of adapter `i` that the worker waits for. -/
def Worker.awaited (i : ℕ) : Worker → List Task
  | .lookup _ _ _ futures => if futures[i]? = some none then [.lookup] else []
  | .loading _ _ j _ none => if j = i then [.load] else []
  | _ => []

namespace Reach

/-- The variables of the call once the adapters have answered. -/
structure Vars (r : Reach) (n : ℕ) (p : Prefetch) : Prop where
  job : p.job = r.job
  known : r.job.chunkNbytes = some n
  chunkNbytes : p.chunkNbytes = n
  l1Hits : p.l1Hits = r.hit
  l2Hits : ∀ i < r.adapters, p.l2Hit i = r.found i
  sized : ∀ x ∈ p.load, x.2.nbytes = n

/-- Every key that is to get a slot has one. -/
structure Loads (r : Reach) (l1 : L1Manager) (n : ℕ) (p : Prefetch) : Prop extends
    Vars r n p where
  keys : p.load.map Prod.fst = r.loadable
  present : ∀ x ∈ p.load, l1.entries.contains x.1 = true

inductive Stage (r : Reach) (l1 : L1Manager) (hits : Option (Option (ℕ × ℕ))) : Worker → Prop
  | prefetch (hl1 : l1 = r.l1) : Stage r l1 hits (.prefetch r.job)
  | lookup {n : ℕ} {futures : List Future} (hn : r.job.chunkNbytes = some n)
      (halloc : l1.allocator = r.l1.allocator)
      (hkeys : ∀ k, l1.entries.contains k = r.l1.entries.contains k)
      (hlen : futures.length ≤ r.adapters)
      (hok : ∀ i (x : Except Exc ℕ), futures[i]? = some (some x) → x = .ok (r.found i)) :
      Stage r l1 hits (.lookup r.job n r.hit futures)
  | reserve {n : ℕ} {p : Prefetch} {todo : List ChunkKey} (hv : r.Vars n p) (hzero : p.loaded = 0)
      (hkeys : p.load.map Prod.fst ++ todo = r.reachable)
      (habsent : ∀ x ∈ p.load, r.absent x.1 = true)
      (hpresent : ∀ x ∈ p.load, l1.entries.contains x.1 = true)
      (htodo : ∀ k ∈ todo, l1.entries.contains k = r.l1.entries.contains k)
      (hroom : l1.allocator.Room n (todo.takeWhile r.absent).length) :
      Stage r l1 hits (.reserve p todo)
  | load {n : ℕ} {p : Prefetch} {order : List ℕ} (hp : r.Loads l1 n p)
      (horder : p.loaded = p.load.length ∨ p.loaded = 0 ∧ p.order r.adapters = order) :
      Stage r l1 hits (.load p order)
  | loading {n i filled : ℕ} {p : Prefetch} {order : List ℕ} {future : Future}
      (hp : r.Loads l1 n p) (hzero : p.loaded = 0) (hi : i < r.adapters)
      (hbest : r.best ≤ r.found i) (hfilled : filled ≤ p.load.length)
      (hfuture : ∀ x, future = some x → x = .ok p.load.length) :
      Stage r l1 hits (.loading p order i filled future)
  | finishWrite {n : ℕ} {p : Prefetch} (hp : r.Loads l1 n p) (hall : p.loaded = p.load.length) :
      Stage r l1 hits (.finishWrite p)
  | cleanup {n : ℕ} {p : Prefetch} (hv : r.Vars n p) (hkeys : p.load.map Prod.fst = r.loadable)
      (hall : p.loaded = p.load.length) : Stage r l1 hits (.cleanup p)
  | resolve {l1Keys loadedKeys : List ChunkKey} (hhit : l1Keys.length = r.hit)
      (hloaded : loadedKeys.length = r.reached.length) :
      Stage r l1 hits (.resolve r.job l1Keys loadedKeys)
  | published (h : hits = some (some (r.hit, r.reached.length))) : Stage r l1 hits .idle

structure At (r : Reach) (srv : CacheServer) (l2s : List Adapter) (w : Worker) : Prop where
  adapters : l2s.length = r.adapters
  jobs : srv.jobs = []
  known : srv.hits.contains r.job.requestId = true
  tasks : ∀ i, tasksAt l2s i = w.awaited i
  stage : r.Stage srv.l1 (srv.hits.get? r.job.requestId) w

/-- What is left of the call. -/
def rank (r : Reach) : Worker → ℕ
  | .prefetch _ => 2 * r.job.keys.length + 2 * r.adapters + 11
  | .lookup _ _ _ futures =>
    2 * r.job.keys.length + 2 * (r.adapters - futures.length) + futures.count none + 10
  | .reserve p todo => 2 * todo.length + p.load.length + 9
  | .load p _ => if p.loaded = p.load.length then 4 else p.load.length + 8
  | .loading p _ _ filled none => p.load.length - filled + 6
  | .loading _ _ _ _ (some _) => 5
  | .finishWrite _ => 3
  | .cleanup _ => 2
  | .resolve _ _ _ => 1
  | _ => 0

/-- The worker makes a step, and less is left. -/
def Advances (r : Reach) (srv : CacheServer) (l2s : List Adapter) (w : Worker) : Prop :=
  ∃ srv' l2s' w', w.step srv l2s = some (srv', l2s', w') ∧ r.At srv' l2s' w' ∧ r.rank w' < r.rank w

variable {r : Reach} {srv : CacheServer} {l2s : List Adapter}

theorem alone_at {s : System} (h : r.Alone s) : r.At s.server s.l2s s.worker := by
  refine ⟨h.adapters, h.jobs, h.known, fun i => ?_, ?_⟩
  · rw [h.tasks, h.worker]
    rfl
  · rw [h.worker]
    exact .prefetch h.l1

theorem Fits.room_loadable (h : r.Fits) {n : ℕ} (hn : r.job.chunkNbytes = some n) :
    r.l1.allocator.Room n r.loadable.length := by
  obtain ⟨objs, hobjs⟩ := Option.isSome_iff_exists.mp (h.room n hn)
  obtain ⟨live, hinv, -⟩ := h.inUse
  have hroom := PoolAllocator.room_of_allocate hinv.brk_le (Prod.ext hobjs rfl)
  exact hroom.mono length_loadable_le_missing

theorem found_of_rest_eq_nil (h : r.rest = []) (i : ℕ) : r.found i = 0 := by
  rw [found, h]
  rfl

theorem At.prefetch (hr : r.Fits) (h : r.At srv l2s (.prefetch r.job)) :
    r.Advances srv l2s (.prefetch r.job) := by
  obtain ⟨hlen, hjobs, hknown, htasks, hstage⟩ := h
  obtain ⟨hl1⟩ := hstage
  have hread : srv.l1.reserveReadPrefix r.job.keys =
      (r.hit, r.l1.holdAll (r.job.keys.take r.hit)) := by
    rw [hl1]
    rfl
  obtain ⟨halloc, hkeys⟩ := L1Manager.untouched_holdAll (r.job.keys.take r.hit) r.l1
  rcases hn : r.job.chunkNbytes with _ | n
  · have hs : (Worker.prefetch r.job).step srv l2s =
        some ({ srv with l1 := r.l1.holdAll (r.job.keys.take r.hit) }, l2s,
          .resolve r.job (r.job.keys.take r.hit) []) := by
      simp only [Worker.step, hread, hn]
    refine ⟨_, _, _, hs, ⟨hlen, hjobs, hknown, htasks, .resolve length_take_hit ?_⟩,
      by simp only [rank]; omega⟩
    rw [reached, hn]
    rfl
  by_cases hrest : r.job.keys.drop r.hit = []
  · have hs : (Worker.prefetch r.job).step srv l2s =
        some ({ srv with l1 := r.l1.holdAll (r.job.keys.take r.hit) }, l2s,
          .reserve ⟨r.job, n, r.hit, [], [], 0⟩ []) := by
      simp only [Worker.step, hread, hn, if_pos hrest]
    have hv : r.Vars n ⟨r.job, n, r.hit, [], [], 0⟩ :=
      ⟨rfl, hn, rfl, rfl, fun i _ => (found_of_rest_eq_nil hrest i).symm, by simp⟩
    have hnil : r.reachable = [] := by rw [reachable, rest, hrest, List.take_nil]
    have hroom : (r.l1.holdAll (r.job.keys.take r.hit)).allocator.Room n 0 :=
      halloc ▸ (hr.room_loadable hn).mono (Nat.zero_le _)
    exact ⟨_, _, _, hs, ⟨hlen, hjobs, hknown, htasks, .reserve hv rfl hnil.symm (by simp)
      (by simp) (by simp) hroom⟩, by simp only [rank, List.length_nil]; omega⟩
  · have hs : (Worker.prefetch r.job).step srv l2s =
        some ({ srv with l1 := r.l1.holdAll (r.job.keys.take r.hit) }, l2s,
          .lookup r.job n r.hit []) := by
      simp only [Worker.step, hread, hn, if_neg hrest]
    have htasks' : ∀ i, tasksAt l2s i = (Worker.lookup r.job n r.hit []).awaited i := fun i => by
      rw [htasks]
      simp [Worker.awaited]
    refine ⟨_, _, _, hs, ⟨hlen, hjobs, hknown, htasks', .lookup hn halloc hkeys (Nat.zero_le _)
      (by simp)⟩, ?_⟩
    simp only [rank, List.length_nil, List.count_nil]
    omega

/-- What the futures are when none is left to wait for. -/
theorem collect_of_answered {f : ℕ → ℕ} {n : ℕ} {futures : List Future} (hlen : futures.length = n)
    (h : ∀ i < n, futures[i]? = some (some (.ok (f i)))) :
    collect futures = some (.ok ((List.range n).map f)) := by
  have hall : ∀ l : List ℕ, collect (l.map fun x => some (.ok x)) = some (.ok l) := by
    intro l
    induction l with
    | nil => rfl
    | cons x l ih =>
      rw [List.map_cons, collect, ih]
      rfl
  have heq : futures = ((List.range n).map f).map fun x => some (.ok x) := by
    refine List.ext_getElem? fun i => ?_
    rw [List.getElem?_map, List.getElem?_map]
    by_cases hi : i < n
    · rw [h i hi, List.getElem?_range hi]
      rfl
    · rw [List.getElem?_eq_none (by omega), List.getElem?_eq_none (by simpa using hi)]
      rfl
  rw [heq]
  exact hall _

theorem tasksAt_submit_of_lt {i : ℕ} (hi : i < l2s.length) (task : Task) (j : ℕ) :
    tasksAt (submit l2s i task) j = tasksAt l2s j ++ if i = j then [task] else [] := by
  unfold tasksAt submit
  rw [List.getElem?_modify]
  by_cases hij : i = j
  · subst hij
    simp [List.getElem?_eq_getElem hi]
  · simp [hij]

theorem At.submitLookup {n : ℕ} {futures : List Future}
    (h : r.At srv l2s (.lookup r.job n r.hit futures)) (hlt : futures.length < l2s.length) :
    r.Advances srv l2s (.lookup r.job n r.hit futures) := by
  obtain ⟨hlen, hjobs, hknown, htasks, hstage⟩ := h
  cases hstage with
  | lookup hn halloc hkeys hle hok =>
    have hs : (Worker.lookup r.job n r.hit futures).step srv l2s =
        some (srv, submit l2s futures.length .lookup,
          .lookup r.job n r.hit (futures ++ [none])) := by
      simp only [Worker.step, if_pos hlt]
    refine ⟨_, _, _, hs, ⟨by simp [submit, hlen], hjobs, hknown, fun i => ?_,
      .lookup hn halloc hkeys ?_ fun i x hx => ?_⟩, ?_⟩
    · rw [tasksAt_submit_of_lt hlt, htasks, Worker.awaited, Worker.awaited]
      rcases Nat.lt_trichotomy i futures.length with hi | rfl | hi
      · rw [if_neg hi.ne', List.append_nil, List.getElem?_append_left hi]
      · simp
      · rw [if_neg hi.ne, List.getElem?_eq_none hi.le,
          List.getElem?_eq_none (by rw [List.length_append]; exact hi)]
        simp
    · rw [List.length_append, List.length_singleton]
      omega
    · rcases Nat.lt_or_ge i futures.length with hi | hi
      · rw [List.getElem?_append_left hi] at hx
        exact hok i x hx
      · rw [List.getElem?_append_right hi] at hx
        have hmem := List.mem_of_getElem? hx
        cases List.mem_singleton.mp hmem
    · simp only [rank, List.length_append, List.length_singleton, List.count_append,
        List.count_singleton_self]
      omega

theorem At.lookupDone (hr : r.Fits) {n : ℕ} {futures : List Future}
    (h : r.At srv l2s (.lookup r.job n r.hit futures)) (hall : futures.length = l2s.length)
    (hnone : none ∉ futures) : r.Advances srv l2s (.lookup r.job n r.hit futures) := by
  obtain ⟨hlen, hjobs, hknown, htasks, hstage⟩ := h
  cases hstage with
  | lookup hn halloc hkeys hle hok =>
    have hanswered : ∀ i < r.adapters, futures[i]? = some (some (.ok (r.found i))) := by
      intro i hi
      have hget := List.getElem?_eq_getElem (show i < futures.length by omega)
      rcases hx : futures[i] with _ | x
      · exact (hnone (hx ▸ List.getElem_mem _)).elim
      · rw [hx] at hget
        rw [hget, hok i x hget]
    have hcollect := collect_of_answered (by omega : futures.length = r.adapters) hanswered
    have hbest : ((List.range r.adapters).map r.found).foldl max 0 = r.best := foldl_max_range _ _
    have hs : (Worker.lookup r.job n r.hit futures).step srv l2s =
        some (srv, l2s, .reserve ⟨r.job, n, r.hit, (List.range r.adapters).map r.found, [], 0⟩
          r.reachable) := by
      simp only [Worker.step, if_neg (by omega : ¬futures.length < l2s.length), hcollect, hbest]
      rfl
    have hv : r.Vars n ⟨r.job, n, r.hit, (List.range r.adapters).map r.found, [], 0⟩ := by
      refine ⟨rfl, hn, rfl, rfl, fun i hi => ?_, by simp⟩
      simp [Prefetch.l2Hit, List.getD_eq_getElem?_getD, List.getElem?_range hi]
    refine ⟨_, _, _, hs, ⟨hlen, hjobs, hknown, fun i => ?_, .reserve hv rfl rfl (by simp) (by simp)
      (fun k _ => hkeys k) (halloc ▸ hr.room_loadable hn)⟩, ?_⟩
    · rw [htasks, Worker.awaited, if_neg fun hi => hnone (List.mem_of_getElem? hi)]
      rfl
    · have hle : r.reachable.length ≤ r.job.keys.length := by
        rw [reachable, rest]
        simp
      simp only [rank, List.length_nil]
      omega

/-- The reservation loop comes to its end, or to a key that is resident. -/
theorem Stage.loads {l1 l1' : L1Manager} {hits : Option (Option (ℕ × ℕ))} {p : Prefetch}
    {todo : List ChunkKey} (h : r.Stage l1 hits (.reserve p todo))
    (hend : ∀ k ∈ todo.head?, r.absent k = false)
    (hsame : ∀ k, l1'.entries.contains k = l1.entries.contains k) :
    r.Stage l1' hits (.load p (p.order r.adapters)) := by
  cases h with
  | reserve hv hzero hkeys habsent hpresent htodo hroom =>
    refine .load ⟨hv, ?_, fun x hx => (hsame _).trans (hpresent x hx)⟩ (Or.inr ⟨hzero, rfl⟩)
    have hload : ∀ k ∈ p.load.map Prod.fst, r.absent k = true := by
      intro k hk
      obtain ⟨x, hx, rfl⟩ := List.mem_map.mp hk
      exact habsent x hx
    have hstop : todo.takeWhile r.absent = [] := by
      cases todo with
      | nil => rfl
      | cons k todo => exact List.takeWhile_cons_of_neg (by simp [hend k rfl])
    rw [loadable, ← hkeys, List.takeWhile_append_of_pos hload, hstop, List.append_nil]

theorem At.reserve (hr : r.Fits) {p : Prefetch} {todo : List ChunkKey}
    (h : r.At srv l2s (.reserve p todo)) : r.Advances srv l2s (.reserve p todo) := by
  obtain ⟨hlen, hjobs, hknown, htasks, hstage⟩ := h
  have hrank : r.rank (.load p (p.order l2s.length)) < r.rank (.reserve p todo) := by
    simp only [rank]
    split_ifs <;> omega
  cases todo with
  | nil =>
    have hs : (Worker.reserve p []).step srv l2s =
        some (srv, l2s, .load p (p.order l2s.length)) := rfl
    rw [hlen] at hs hrank
    exact ⟨_, _, _, hs, ⟨hlen, hjobs, hknown, htasks, hstage.loads nofun fun _ => rfl⟩, hrank⟩
  | cons key todo =>
    cases hkey : r.absent key with
    | false =>
      -- the key is resident, and the loop stops as if the pool were full
      obtain ⟨hnone, hsame⟩ : L1Manager.reservedObj
            (srv.l1.reserveWrite [key] p.chunkNbytes true).1 key = none ∧
          ∀ k, (srv.l1.reserveWrite [key] p.chunkNbytes true).2.entries.contains k =
            srv.l1.entries.contains k := by
        cases hstage with
        | reserve hv hzero hkeys habsent hpresent htodo hroom =>
          have hthere : srv.l1.entries.contains key = true := by
            rw [htodo key List.mem_cons_self]
            simpa [absent] using hkey
          obtain ⟨hnone, hget⟩ := L1Manager.reserveWrite_of_present p.chunkNbytes true hthere
          refine ⟨hnone, fun k => ?_⟩
          rw [Bool.eq_iff_iff, OrderedDict.contains_iff, OrderedDict.contains_iff,
            OrderedDict.mem_keys_iff, OrderedDict.mem_keys_iff, hget]
      have hs : (Worker.reserve p (key :: todo)).step srv l2s =
          some ({ srv with l1 := (srv.l1.reserveWrite [key] p.chunkNbytes true).2 }, l2s,
            .load p (p.order l2s.length)) := by
        simp only [Worker.step, hnone]
      rw [hlen] at hs hrank
      refine ⟨_, _, _, hs, ⟨hlen, hjobs, hknown, htasks, hstage.loads (fun k hk => ?_) hsame⟩,
        hrank⟩
      cases hk
      exact hkey
    | true =>
      cases hstage with
      | reserve hv hzero hkeys habsent hpresent htodo hroom =>
        rw [List.takeWhile_cons_of_pos hkey, List.length_cons] at hroom
        have hgone : srv.l1.entries.contains key = false := by
          rw [htodo key List.mem_cons_self]
          simpa [absent] using hkey
        obtain ⟨obj, hobj, hn, hroom', hcontains⟩ := L1Manager.reserveWrite_of_room true hgone hroom
        rw [← hv.chunkNbytes] at hobj hroom' hcontains
        have hs : (Worker.reserve p (key :: todo)).step srv l2s =
            some ({ srv with l1 := (srv.l1.reserveWrite [key] p.chunkNbytes true).2 }, l2s,
              .reserve { p with load := p.load ++ [(key, obj)] } todo) := by
          simp only [Worker.step, hobj]
        have hnodup : (p.load.map Prod.fst ++ key :: todo).Nodup := by
          rw [hkeys]
          exact hr.nodup.sublist ((List.take_sublist _ _).trans (List.drop_sublist _ _))
        have hnew : ∀ {P : ChunkKey × MemoryObj → Prop}, (∀ x ∈ p.load, P x) → P (key, obj) →
            ∀ x ∈ p.load ++ [(key, obj)], P x := by
          intro P hold hlast x hx
          rcases List.mem_append.mp hx with hx | hx
          · exact hold x hx
          · rw [List.mem_singleton.mp hx]
            exact hlast
        refine ⟨_, _, _, hs, ⟨hlen, hjobs, hknown, htasks, .reserve (n := p.chunkNbytes)
          ⟨hv.job, hv.chunkNbytes ▸ hv.known, rfl, hv.l1Hits, hv.l2Hits, ?_⟩ hzero ?_
          (hnew habsent hkey) (hnew (fun x hx => ?_) ?_) (fun k hk => ?_) hroom'⟩, ?_⟩
        · exact hnew (hv.chunkNbytes ▸ hv.sized) (hn.trans hv.chunkNbytes.symm)
        · rw [List.map_append, List.append_assoc]
          exact hkeys
        · rw [hcontains, hpresent x hx, Bool.true_or]
        · simp [hcontains]
        · have hne : k ≠ key := by
            rintro rfl
            exact (List.nodup_cons.mp (List.nodup_append.mp hnodup).2.1).1 hk
          rw [hcontains, htodo k (List.mem_cons_of_mem _ hk), decide_eq_false hne, Bool.or_false]
        · simp only [rank, List.length_append, List.length_cons, List.length_nil]
          omega

/-- The adapter asked first has the most hits. -/
theorem head_order {p : Prefetch} {n i : ℕ} {order : List ℕ} (h : p.order n = i :: order) :
    i < n ∧ ∀ j < n, p.l2Hit j ≤ p.l2Hit i := by
  have htotal : Std.Total fun i j : ℕ => p.l2Hit j ≤ p.l2Hit i :=
    ⟨fun i j => Nat.le_total (p.l2Hit j) (p.l2Hit i)⟩
  have htrans : IsTrans ℕ fun i j : ℕ => p.l2Hit j ≤ p.l2Hit i :=
    ⟨fun _ _ _ hab hbc => Nat.le_trans hbc hab⟩
  rw [Prefetch.order] at h
  split_ifs at h
  have hsorted := List.pairwise_insertionSort (fun i j : ℕ => p.l2Hit j ≤ p.l2Hit i) (List.range n)
  have hmem : ∀ {j}, j ∈ i :: order ↔ j < n := fun {j} => by
    rw [← h, List.mem_insertionSort, List.mem_range]
  rw [h] at hsorted
  refine ⟨hmem.mp List.mem_cons_self, fun j hj => ?_⟩
  rcases List.mem_cons.mp (hmem.mpr hj) with rfl | hj
  · exact le_rfl
  · exact (List.pairwise_cons.mp hsorted).1 j hj

/-- Without an adapter to ask there is nothing to load. -/
theorem Loads.length_eq_zero {l1 : L1Manager} {n : ℕ} {p : Prefetch} (hp : r.Loads l1 n p)
    (hbest : r.best = 0) : p.load.length = 0 := by
  have hle := length_loadable_le (r := r)
  rw [← hp.keys, List.length_map] at hle
  omega

theorem best_le_of_head {p : Prefetch} {n i : ℕ} {order : List ℕ} (hv : r.Vars n p)
    (h : p.order r.adapters = i :: order) : i < r.adapters ∧ r.best ≤ r.found i := by
  obtain ⟨hi, hmax⟩ := head_order h
  refine ⟨hi, Finset.sup_le fun j hj => ?_⟩
  have hj' := Finset.mem_range.mp hj
  rw [← hv.l2Hits i hi, ← hv.l2Hits j hj']
  exact hmax j hj'

theorem At.load {p : Prefetch} {order : List ℕ} (h : r.At srv l2s (.load p order)) :
    r.Advances srv l2s (.load p order) := by
  obtain ⟨hlen, hjobs, hknown, htasks, hstage⟩ := h
  cases hstage with
  | load hp horder =>
    have hdone : (Worker.load p order).step srv l2s = some (srv, l2s, .finishWrite p) →
        p.loaded = p.load.length → r.Advances srv l2s (.load p order) := fun hs hall =>
      ⟨_, _, _, hs, ⟨hlen, hjobs, hknown, htasks, .finishWrite hp hall⟩, by simp [rank, hall]⟩
    by_cases hall : p.loaded = p.load.length
    · refine hdone ?_ hall
      cases order with
      | nil => rfl
      | cons i order => simp only [Worker.step, if_pos (Or.inl hall)]
    · obtain ⟨hzero, horder⟩ := horder.resolve_left hall
      cases order with
      | nil =>
        have hnone : r.adapters = 0 := by
          rw [Prefetch.order] at horder
          split_ifs at horder with hnil
          · simp [hzero, hnil] at hall
          · simpa using congrArg List.length horder
        refine hdone rfl (hzero.trans (hp.length_eq_zero ?_).symm)
        rw [best, hnone]
        rfl
      | cons i order =>
        obtain ⟨hi, hbest⟩ := best_le_of_head hp.toVars horder
        have hhit : p.loaded < p.l2Hit i := by
          by_contra hle
          rw [hp.l2Hits i hi, hzero] at hle
          exact hall (hzero.trans (hp.length_eq_zero (by omega)).symm)
        have hs : (Worker.load p (i :: order)).step srv l2s =
            some (srv, submit l2s i .load, .loading p order i 0 none) := by
          simp only [Worker.step, if_neg (not_or.mpr ⟨hall, Nat.not_le.mpr hhit⟩)]
        refine ⟨_, _, _, hs, ⟨by simp [submit, hlen], hjobs, hknown, fun j => ?_,
          .loading hp hzero hi hbest (Nat.zero_le _) (by rintro _ ⟨⟩)⟩, ?_⟩
        · rw [tasksAt_submit_of_lt (by omega), htasks]
          simp [Worker.awaited]
        · simp only [rank, if_neg hall]
          omega

theorem At.loaded {p : Prefetch} {order : List ℕ} {i filled : ℕ} {x : Except Exc ℕ}
    (h : r.At srv l2s (.loading p order i filled (some x))) :
    r.Advances srv l2s (.loading p order i filled (some x)) := by
  obtain ⟨hlen, hjobs, hknown, htasks, hstage⟩ := h
  cases hstage with
  | loading hp hzero hi hbest hfilled hfuture =>
    obtain rfl := hfuture x rfl
    have hall : p.loaded + p.load.length = p.load.length := by omega
    exact ⟨_, _, _, rfl, ⟨hlen, hjobs, hknown, htasks, .load (p := { p with loaded := _ })
      ⟨⟨hp.job, hp.known, hp.chunkNbytes, hp.l1Hits, hp.l2Hits, hp.sized⟩, hp.keys, hp.present⟩
      (Or.inl hall)⟩, by simp [rank, hall]⟩

theorem At.finishWrite {p : Prefetch} (h : r.At srv l2s (.finishWrite p)) :
    r.Advances srv l2s (.finishWrite p) := by
  obtain ⟨hlen, hjobs, hknown, htasks, hstage⟩ := h
  cases hstage with
  | finishWrite hp hall =>
    have hpresent : ∀ k ∈ p.loadedKeys, srv.l1.entries.contains k = true := by
      intro k hk
      obtain ⟨x, hx, rfl⟩ := List.mem_map.mp hk
      exact hp.present x (List.mem_of_mem_take hx)
    obtain ⟨l1, hl1⟩ := L1Manager.finishWriteAndReserveRead_of_present p.loadedKeys _ _ hpresent
    have hs : (Worker.finishWrite p).step srv l2s = some ({ srv with l1 }, l2s, .cleanup p) := by
      have hret : srv.l1.finishWriteAndReserveRead p.loadedKeys = .returned l1 () := hl1
      simp only [Worker.step, hret]
    exact ⟨_, _, _, hs, ⟨hlen, hjobs, hknown, htasks, .cleanup hp.toVars hp.keys hall⟩,
      by simp [rank]⟩

theorem At.cleanup {p : Prefetch} (h : r.At srv l2s (.cleanup p)) :
    r.Advances srv l2s (.cleanup p) := by
  obtain ⟨hlen, hjobs, hknown, htasks, hstage⟩ := h
  cases hstage with
  | cleanup hv hkeys hall =>
    have hhit : p.l1Keys.length = r.hit := by
      rw [Prefetch.l1Keys, hv.job, hv.l1Hits]
      exact length_take_hit
    have hloaded : p.loadedKeys.length = r.reached.length := by
      rw [Prefetch.loadedKeys, hall, List.take_length, hkeys, reached, hv.known]
      rfl
    have hstage : r.Stage (srv.l1.delete p.surplusKeys true).2
        (srv.hits.get? r.job.requestId) (.resolve p.job p.l1Keys p.loadedKeys) := by
      rw [hv.job]
      exact .resolve hhit hloaded
    exact ⟨_, _, _, rfl, ⟨hlen, hjobs, hknown, htasks, hstage⟩, by simp [rank]⟩

theorem At.resolve {job : Job} {l1Keys loadedKeys : List ChunkKey}
    (h : r.At srv l2s (.resolve job l1Keys loadedKeys)) :
    r.Advances srv l2s (.resolve job l1Keys loadedKeys) := by
  obtain ⟨hlen, hjobs, hknown, htasks, hstage⟩ := h
  cases hstage with
  | resolve hhit hloaded =>
    have hs : (Worker.resolve r.job l1Keys loadedKeys).step srv l2s =
        some (srv.publish r.job.requestId l1Keys loadedKeys, l2s, .idle) := by
      simp only [Worker.step, if_pos hknown]
    refine ⟨_, _, _, hs, ⟨hlen, hjobs, ?_, htasks, .published ?_⟩, by simp [rank]⟩
    · rw [OrderedDict.contains_iff, CacheServer.publish, OrderedDict.mem_keys_set]
      exact Or.inl rfl
    · rw [CacheServer.publish, OrderedDict.get?_set_self, hhit, hloaded]

theorem collect_of_waiting : ∀ {futures : List Future},
    (∀ (i : ℕ) (x : Except Exc ℕ), futures[i]? = some (some x) → ∃ n, x = .ok n) → none ∈ futures →
      collect futures = none
  | [], _, hnone => by cases hnone
  | none :: _, _, _ => rfl
  | some x :: futures, hok, hnone => by
    obtain ⟨n, rfl⟩ := hok 0 x rfl
    rw [collect, collect_of_waiting (fun i x hx => hok (i + 1) x hx) (by simpa using hnone)]
    rfl

/-- The worker advances, or is done, or waits for an adapter. -/
theorem At.advances (hr : r.Fits) {w : Worker} (h : r.At srv l2s w) :
    r.Advances srv l2s w ∨ w.step srv l2s = none ∧ (w = .idle ∨
      (∃ n futures, w = .lookup r.job n r.hit futures ∧ none ∈ futures) ∨
      ∃ p order i filled, w = .loading p order i filled none) := by
  rcases h with ⟨hlen, hjobs, hknown, htasks, hstage⟩
  have h : r.At srv l2s w := ⟨hlen, hjobs, hknown, htasks, hstage⟩
  cases hstage with
  | prefetch => exact Or.inl (h.prefetch hr)
  | @lookup n futures hn halloc hkeys hle hok =>
    by_cases hlt : futures.length < l2s.length
    · exact Or.inl (h.submitLookup hlt)
    · by_cases hnone : none ∈ futures
      · refine Or.inr ⟨?_, Or.inr (Or.inl ⟨n, futures, rfl, hnone⟩)⟩
        have hcollect := collect_of_waiting (fun i x hx => ⟨_, hok i x hx⟩) hnone
        simp only [Worker.step, if_neg hlt, hcollect]
      · exact Or.inl (h.lookupDone hr (by omega) hnone)
  | reserve => exact Or.inl (h.reserve hr)
  | load => exact Or.inl h.load
  | @loading n i filled p order future =>
    cases future with
    | none => exact Or.inr ⟨rfl, Or.inr (Or.inr ⟨p, order, i, filled, rfl⟩)⟩
    | some x => exact Or.inl h.loaded
  | finishWrite => exact Or.inl h.finishWrite
  | cleanup => exact Or.inl h.cleanup
  | resolve => exact Or.inl h.resolve
  | published => exact Or.inr ⟨by simp only [Worker.step, hjobs], Or.inl rfl⟩

/-! ## The answers of the adapters -/

variable {blake3 : Bytes → Bytes} {s s' : System}

theorem step_l2_of_tasksAt {i : ℕ} {task : Task} (h : tasksAt s.l2s i = [task]) (act : L2Act) :
    s.step blake3 (.l2 i act) = s.l2Step i task act := by
  unfold tasksAt at h
  rcases ha : s.l2s[i]? with _ | a
  · rw [ha] at h
    cases h
  · rw [ha] at h
    have htasks : a.tasks = [task] := h
    simp only [System.step, ha, Option.map_some, htasks]

/-- A task that the thread of an adapter works on is the one the worker waits for. -/
theorem At.awaited (h : r.At s.server s.l2s s.worker) {i : ℕ} {task : Task}
    (ht : s.oldest i = some task) : s.worker.awaited i = [task] := by
  rw [System.oldest_eq, h.tasks] at ht
  rcases hw : s.worker with _ | _ | ⟨job, n, hit, futures⟩ | _ | _ | ⟨p, order, j, filled, _ | x⟩ |
    _ | _ | _ | _ | _
  case lookup | loading.none =>
    rw [hw, Worker.awaited] at ht
    rw [Worker.awaited]
    split_ifs at ht ⊢
    · rw [← Option.some.inj ht]
    · cases ht
  all_goals
    rw [hw] at ht
    cases ht

theorem At.found (h : r.At s.server s.l2s s.worker) {i hits : ℕ}
    (ha : Answers r.contents s (.l2 i (.found hits)) = true) (ht : s.oldest i = some .lookup) :
    r.At ((s.popTask i).setLookup i (.ok hits)).server ((s.popTask i).setLookup i (.ok hits)).l2s
        ((s.popTask i).setLookup i (.ok hits)).worker ∧
      r.rank ((s.popTask i).setLookup i (.ok hits)).worker < r.rank s.worker := by
  have hawait := h.awaited ht
  obtain ⟨hlen, hjobs, hknown, htasks, hstage⟩ := h
  rw [System.server_setLookup, System.l2s_setLookup]
  rcases hw : s.worker with _ | _ | ⟨job, n, hit, futures⟩ | _ | _ | ⟨p, order, j, filled, _ | x⟩ |
    _ | _ | _ | _ | _
  case lookup =>
    rw [hw] at hawait hstage
    have hnone : futures[i]? = some none := by
      rw [Worker.awaited] at hawait
      split_ifs at hawait with hnone
      exact hnone
    obtain ⟨hi, hget⟩ := List.getElem?_eq_some_iff.mp hnone
    have hset : ((s.popTask i).setLookup i (.ok hits)).worker =
        .lookup job n hit (futures.set i (some (.ok hits))) := by
      simp only [System.setLookup, System.popTask, hw]
    rw [hset]
    cases hstage with
    | lookup hn halloc hkeys hle hok =>
      have hhits : hits = holding r.contents i (r.job.keys.drop r.hit) := by
        simpa [Answers, hw] using ha
      obtain rfl : hits = r.found i := hhits
      refine ⟨⟨by simp [System.popTask, hlen], hjobs, hknown, fun j => ?_,
        .lookup hn halloc hkeys (by simpa using hle) fun j x hx => ?_⟩, ?_⟩
      · rw [System.tasksAt_popTask, htasks, hw]
        by_cases hij : i = j
        · subst hij
          rw [if_pos rfl, hawait, Worker.awaited, List.getElem?_set_self hi, if_neg nofun]
          rfl
        · rw [if_neg hij, Worker.awaited, Worker.awaited, List.getElem?_set_ne hij]
      · by_cases hij : i = j
        · subst hij
          rw [List.getElem?_set_self hi] at hx
          rw [← Option.some.inj (Option.some.inj hx)]
        · rw [List.getElem?_set_ne hij] at hx
          exact hok j x hx
      · have hpos : 0 < futures.count none := List.count_pos_iff.mpr (hget ▸ List.getElem_mem hi)
        have hcount : (futures.set i (some (.ok (r.found i)))).count none =
            futures.count none - 1 := by
          rw [List.count_set hi, hget, beq_self_eq_true, if_pos rfl, if_neg nofun, Nat.add_zero]
        simp only [rank, List.length_set, hcount]
        omega
  all_goals simp [Answers, hw] at ha

theorem At.fill (h : r.At s.server s.l2s s.worker) {p : Prefetch} {order : List ℕ} {i filled : ℕ}
    {key : ChunkKey} {obj : MemoryObj} (data : Bytes)
    (hw : s.worker = .loading p order i filled none)
    (hget : p.load[p.loaded + filled]? = some (key, obj)) :
    r.At (s.server.fill key obj data) s.l2s (.loading p order i (filled + 1) none) ∧
      r.rank (.loading p order i (filled + 1) none) < r.rank s.worker := by
  obtain ⟨hlen, hjobs, hknown, htasks, hstage⟩ := h
  rw [hw] at htasks hstage ⊢
  cases hstage with
  | loading hp hzero hi hbest hfilled hfuture =>
    have hlt := (List.getElem?_eq_some_iff.mp hget).1
    have hp' : r.Loads (s.server.fill key obj data).l1 p.chunkNbytes p :=
      ⟨hp.chunkNbytes ▸ hp.toVars, hp.keys, hp.present⟩
    refine ⟨⟨hlen, hjobs, hknown, htasks, .loading hp' hzero hi hbest (by omega) nofun⟩, ?_⟩
    simp only [rank]
    omega

theorem At.loadDone (h : r.At s.server s.l2s s.worker) {p : Prefetch} {order : List ℕ}
    {i filled : ℕ} (ha : Answers r.contents s (.l2 i .loaded) = true)
    (hw : s.worker = .loading p order i filled none) :
    r.At s.server (s.popTask i).l2s (.loading p order i filled (some (.ok filled))) ∧
      r.rank (.loading p order i filled (some (.ok filled))) < r.rank s.worker := by
  obtain ⟨hlen, hjobs, hknown, htasks, hstage⟩ := h
  have hnext : nextBlob r.contents i p filled = none := by simpa [Answers, hw] using ha
  rw [hw] at htasks hstage ⊢
  cases hstage with
  | loading hp hzero hi hbest hfilled hfuture =>
    -- the adapter holds every key of the load, so it stops only after the last one
    have hall : filled = p.load.length := by
      by_contra hne
      have hlt : p.loaded + filled < p.load.length := by omega
      rw [nextBlob, List.getElem?_eq_getElem hlt, Option.bind_some] at hnext
      have hmem : p.load[p.loaded + filled].1 ∈ r.loadable := by
        rw [← hp.keys]
        exact List.mem_map_of_mem (List.getElem_mem hlt)
      have hholds := contents_of_mem_loadable hbest hmem
      rw [hnext] at hholds
      cases hholds
    refine ⟨⟨by simp [System.popTask, hlen], hjobs, hknown, fun j => ?_,
      .loading hp hzero hi hbest hfilled fun x hx => ?_⟩, by simp only [rank]; omega⟩
    · rw [System.tasksAt_popTask, htasks]
      by_cases hij : i = j <;> simp [Worker.awaited, hij]
    · rw [← Option.some.inj hx, hall]

/-- The step lemma. -/
theorem At.step (hr : r.Fits) (h : r.At s.server s.l2s s.worker) {l : Label}
    (ha : Answers r.contents s l = true) (hs : s.step blake3 l = some s') :
    r.At s'.server s'.l2s s'.worker ∧ r.rank s'.worker < r.rank s.worker := by
  cases l with
  | worker =>
    obtain ⟨⟨srv', l2s', w'⟩, hstep, rfl⟩ := Option.map_eq_some_iff.mp hs
    rcases h.advances hr with ⟨_, _, _, hstep', hat, hrank⟩ | ⟨hnone, -⟩
    · rw [hstep] at hstep'
      cases hstep'
      exact ⟨hat, hrank⟩
    · rw [hstep] at hnone
      cases hnone
  | l2 i act =>
    cases System.l2_does hs with
    | found hits ht => exact h.found ha ht
    | fill hw hget hlen => exact h.fill _ hw hget
    | loaded hw ht => exact h.loadDone ha hw
    | scribble hw => simp [Answers, hw] at ha
    | _ => cases ha
  | _ => cases ha

/-- While the call is not over, the worker can step or an adapter can answer. -/
theorem At.progress (blake3 : Bytes → Bytes) (hr : r.Fits) (h : r.At s.server s.l2s s.worker) :
    s.worker = .idle ∨ ∃ l, Answers r.contents s l = true ∧ (s.step blake3 l).isSome := by
  rcases h.advances hr with ⟨_, _, _, hstep, -⟩ | ⟨-, hidle | ⟨n, futures, hw, hnone⟩ |
    ⟨p, order, i, filled, hw⟩⟩
  · refine Or.inr ⟨.worker, rfl, ?_⟩
    rw [System.step, hstep]
    rfl
  · exact Or.inl hidle
  · obtain ⟨i, hi⟩ := List.mem_iff_getElem?.mp hnone
    have htask : tasksAt s.l2s i = [.lookup] := by
      rw [h.tasks, hw, Worker.awaited, if_pos hi]
    refine Or.inr ⟨.l2 i (.found (r.found i)), ?_, ?_⟩
    · simp only [Answers, hw, beq_iff_eq]
      rfl
    · rw [step_l2_of_tasksAt htask]
      rfl
  · have htask : tasksAt s.l2s i = [.load] := by rw [h.tasks, hw, Worker.awaited, if_pos rfl]
    obtain ⟨-, -, -, -, hstage⟩ := h
    rw [hw] at hstage
    cases hstage with
    | loading hp hzero hi hbest hfilled hfuture =>
      rcases hnext : p.load[p.loaded + filled]? with _ | ⟨key, obj⟩
      · refine Or.inr ⟨.l2 i .loaded, ?_, ?_⟩
        · simp [Answers, hw, nextBlob, hnext]
        · rw [step_l2_of_tasksAt htask]
          simp [System.l2Step, hw]
      · have hmem := List.mem_of_getElem? hnext
        obtain ⟨data, hdata⟩ := Option.isSome_iff_exists.mp
          (contents_of_mem_loadable hbest (hp.keys ▸ List.mem_map_of_mem hmem))
        have hlen : data.length = obj.nbytes :=
          (hr.whole _ hp.known i key data hdata).trans (hp.sized _ hmem).symm
        refine Or.inr ⟨.l2 i (.fill data true), ?_, ?_⟩
        · simp [Answers, hw, nextBlob, hnext, hdata]
        · rw [step_l2_of_tasksAt htask]
          simp [System.l2Step, hw, hnext, hlen]

/-- A prefetch that runs alone always ends, after a bounded number of steps, and the two counts
that it publishes add up to the readable prefix and the longest prefix of the rest in one adapter
exactly when no key of that second prefix is resident. -/
theorem lookup_finds_all_iff (hr : r.Fits) (h : r.Alone s) :
    (∃ n, ∀ labels s', Run (System.step blake3) (fun s l => Answers r.contents s l = true)
      s labels s' → labels.length ≤ n) ∧
    ∀ labels s', Run (System.step blake3) (fun s l => Answers r.contents s l = true) s labels s' →
      (∀ l, Answers r.contents s' l = true → s'.step blake3 l = none) →
      ∃ l1Hits l2Hits, s'.server.hits.get? r.job.requestId = some (some (l1Hits, l2Hits)) ∧
        (l1Hits + l2Hits = r.hit + r.best ↔ (r.job.chunkNbytes = none → r.reachable = []) ∧
          ∀ k ∈ r.reachable, r.l1.entries.get? k = none) := by
  have hstep : ∀ t l t', r.At t.server t.l2s t.worker → Answers r.contents t l = true →
      t.step blake3 l = some t' →
        r.At t'.server t'.l2s t'.worker ∧ r.rank t'.worker < r.rank t.worker :=
    fun _ _ _ hat ha hs => hat.step hr ha hs
  refine ⟨⟨r.rank s.worker, fun labels s' hrun => ?_⟩, fun labels s' hrun hstuck => ?_⟩
  · have hle := hrun.length_add_le (I := fun t => r.At t.server t.l2s t.worker)
      (μ := fun t => r.rank t.worker) (alone_at h) hstep
    omega
  · have hat := hrun.invariant (fun t => r.At t.server t.l2s t.worker) (alone_at h)
      fun t l t' hat ha hs => (hstep t l t' hat ha hs).1
    rcases hat.progress blake3 hr with hidle | ⟨l, ha, hsome⟩
    · obtain ⟨-, -, -, -, hstage⟩ := hat
      rw [hidle] at hstage
      cases hstage with
      | published hhits => exact ⟨_, _, hhits, length_reached_iff⟩
    · rw [hstuck l ha] at hsome
      cases hsome

end Reach

namespace System

/-- What a lookup of `tokens` finds in `s`, with an adapter that holds everything. -/
def sampleReach (s : System) (tokens : List ℕ) : Reach where
  l1 := s.server.l1
  job := ⟨"b", CacheServer.keysFor (chunkHashes sampleDigest tokens 1) "m" [0], some 2⟩
  adapters := 1
  contents _ _ := some [5, 6]

/-- `Fits` and `Alone`, as a check. -/
def fitsAlone (r : Reach) (s : System) : Bool :=
  decide (r.job.keys.Nodup ∧ s.l2s = [⟨[], []⟩] ∧ s.worker = .prefetch r.job ∧
    s.server.jobs = [] ∧ s.server.hits.contains r.job.requestId = true) &&
  ((r.l1.allocator.allocate (r.l1.missing r.job.keys).length 2).1).isSome

theorem fits_of_fitsAlone {s : System} {tokens : List ℕ} (hi : s.server.l1.InUse)
    (h : fitsAlone (sampleReach s tokens) s = true) :
    (sampleReach s tokens).Fits ∧ (sampleReach s tokens).Alone s := by
  obtain ⟨hdecide, hroom⟩ := (Bool.and_eq_true _ _).mp h
  obtain ⟨hnodup, hl2s, hworker, hjobs, hknown⟩ := of_decide_eq_true hdecide
  refine ⟨⟨hnodup, hi, fun n hn => ?_, fun n hn i k blob hblob => ?_⟩,
    ⟨rfl, by rw [hl2s]; rfl, hworker, hjobs, hknown, fun i => ?_⟩⟩
  · obtain rfl : 2 = n := Option.some.inj hn
    exact hroom
  · obtain rfl : 2 = n := Option.some.inj hn
    rw [← Option.some.inj hblob]
    rfl
  · rw [hl2s]
    rcases i with _ | i <;> rfl

theorem fits_of_sample {labels : List Label} {s : System} {tokens : List ℕ}
    (hs : sample distinct 8 labels = some s) (h : fitsAlone (sampleReach s tokens) s = true) :
    (sampleReach s tokens).Fits ∧ (sampleReach s tokens).Alone s :=
  fits_of_fitsAlone (reachable_of_sample hs).inUse h

/-- A prefetch that is over does not step again. -/
theorem stuck_of_idle {contents : ℕ → ChunkKey → Option Bytes} {s : System}
    (hw : s.worker = .idle) (hjobs : s.server.jobs = []) (l : Label)
    (ha : Answers contents s l = true) : s.step sampleDigest l = none := by
  cases l with
  | worker => simp only [step, hw, Worker.step, hjobs, Option.map_none]
  | l2 i act => cases act <;> simp [Answers, hw] at ha
  | _ => cases ha

/-- Rank 0 of `m` stores chunk `i` of the chunks `[1]`, `[2]`, `[3]` of a prompt; then request
`b` looks the prompt up and the worker has taken its job. -/
def samplePartial (i : ℕ) : List Label :=
  [.recv 0 (.registerKvCache ⟨7, "m", 0, 1, 1, 2⟩), .handler 0,
    .recv 1 (.store ⟨"a", 7, ⟨[1, 2, 3], [0], i, i + 1, 0⟩, [[5, 6]]⟩), .handler 1, .handler 1,
    .handler 1, .handler 1,
    .recv 2 (.lookup ⟨"b", [1, 2, 3], "m", 1⟩), .handler 2, .handler 2, .handler 2, .worker]

/-- The job up to its end, when `hits` chunks are found and `loaded` of them are loaded. -/
def sampleAnswers (hits loaded : ℕ) : List Label :=
  [.worker, .worker, .l2 0 (.found hits)] ++ List.replicate (loaded + 3) .worker ++
    List.replicate loaded (.l2 0 (.fill [5, 6] true)) ++
    .l2 0 .loaded :: List.replicate 5 .worker

/-- The adapter holds all three chunks and the pool has room, and one is found. -/
theorem lookup_stops_at_resident : ∃ r s labels s', Reach.Fits r ∧ r.Alone s ∧
    Run (step sampleDigest) (fun s l => Answers r.contents s l = true) s labels s' ∧
    (∀ l, Answers r.contents s' l = true → s'.step sampleDigest l = none) ∧
    s'.server.hits.get? r.job.requestId = some (some (0, 1)) ∧ r.hit + r.best = 3 := by
  have hrun : (sample distinct 8 (samplePartial 1)).map (fun s =>
      (fitsAlone (sampleReach s [1, 2, 3]) s, decide ((sampleReach s [1, 2, 3]).hit = 0 ∧
        (sampleReach s [1, 2, 3]).found 0 = 3),
      (replay (step sampleDigest) (Answers (sampleReach s [1, 2, 3]).contents) s
        (sampleAnswers 3 1)).map fun s' => decide (s'.worker = .idle ∧ s'.server.jobs = [] ∧
          s'.server.hits.get? "b" = some (some (0, 1))))) = some (true, true, some true) := by
    decide
  obtain ⟨s, hs, he⟩ := Option.map_eq_some_iff.mp hrun
  simp only [Prod.mk.injEq, decide_eq_true_eq] at he
  obtain ⟨hfits, ⟨hhit, hfound⟩, hafter⟩ := he
  obtain ⟨s', hs', hend⟩ := Option.map_eq_some_iff.mp hafter
  obtain ⟨hidle, hjobs, hhits⟩ := of_decide_eq_true hend
  obtain ⟨hf, ha⟩ := fits_of_sample hs hfits
  have hbest : (sampleReach s [1, 2, 3]).best = 3 := by
    rw [Reach.best, show (sampleReach s [1, 2, 3]).adapters = 1 from rfl, Finset.range_one,
      Finset.sup_singleton, hfound]
  exact ⟨sampleReach s [1, 2, 3], s, sampleAnswers 3 1, s', hf, ha, run_of_replay hs',
    stuck_of_idle hidle hjobs, hhits, by rw [hhit, hbest]⟩

/-- The first chunk is in L1, and the two others are found in the adapter. -/
theorem lookup_finds_all_iff_sample : ∃ r s, Reach.Fits r ∧ r.Alone s ∧ r.hit = 1 ∧ r.best = 2 ∧
    ∃ labels s' l1Hits l2Hits,
      Run (step sampleDigest) (fun s l => Answers r.contents s l = true) s labels s' ∧
      s'.server.hits.get? r.job.requestId = some (some (l1Hits, l2Hits)) ∧
      l1Hits + l2Hits = r.hit + r.best := by
  have hrun : (sample distinct 8 (samplePartial 0)).map (fun s =>
      (fitsAlone (sampleReach s [1, 2, 3]) s, decide ((sampleReach s [1, 2, 3]).hit = 1 ∧
        (sampleReach s [1, 2, 3]).found 0 = 2 ∧
        ∀ k ∈ (sampleReach s [1, 2, 3]).rest, s.server.l1.entries.get? k = none),
      (replay (step sampleDigest) (Answers (sampleReach s [1, 2, 3]).contents) s
        (sampleAnswers 2 2)).map fun s' =>
          decide (s'.worker = .idle ∧ s'.server.jobs = []))) = some (true, true, some true) := by
    decide
  obtain ⟨s, hs, he⟩ := Option.map_eq_some_iff.mp hrun
  simp only [Prod.mk.injEq, decide_eq_true_eq] at he
  obtain ⟨hfits, ⟨hhit, hfound, hnone⟩, hafter⟩ := he
  obtain ⟨s', hs', hend⟩ := Option.map_eq_some_iff.mp hafter
  obtain ⟨hidle, hjobs⟩ := of_decide_eq_true hend
  obtain ⟨hf, ha⟩ := fits_of_sample hs hfits
  have hbest : (sampleReach s [1, 2, 3]).best = 2 := by
    rw [Reach.best, show (sampleReach s [1, 2, 3]).adapters = 1 from rfl, Finset.range_one,
      Finset.sup_singleton, hfound]
  obtain ⟨-, hends⟩ := @Reach.lookup_finds_all_iff _ sampleDigest _ hf ha
  obtain ⟨l1Hits, l2Hits, hhits, hiff⟩ := hends _ s' (run_of_replay hs') (stuck_of_idle hidle hjobs)
  exact ⟨_, s, hf, ha, hhit, hbest, _, s', l1Hits, l2Hits, run_of_replay hs', hhits,
    hiff.mpr ⟨by rintro ⟨⟩, fun k hk => hnone k (List.mem_of_mem_take hk)⟩⟩

end System

end MiniLlmcache
