import MiniLlmcache.Sessions
import MiniLlmcache.Slices
import MiniLlmcache.StoreClean
import MiniLlmcache.StoreFailure

/-!
# The process comes to rest

When no message comes in, the process comes to rest whatever the schedule : the steps of handlers,
prefetch worker, write-back loop and adapters each lower `System.remaining`, so only so many of them
can follow (`countP_works_le`). The evictor does not raise it and may go on for ever, and so may a
load that writes into a slot again and again without counting it.

Nobody waits for nothing. What the worker waits for is queued with an adapter (`Settled.waits`), and
a lookup that is not answered yet has its job before it (`Settled.asked`). So where no thread can
make a step every handler has returned, all queues are empty and every lookup is answered
(`AtRest`). `comes_to_rest` puts the two together, for runs in which no adapter raises.
-/

namespace MiniLlmcache

variable {blake3 : Bytes → Bytes}

/-! ## What is left to do -/

/-- How many steps follow at most when `load` is asked of so many adapters, for `k` slots. -/
def loadSteps (adapters k : ℕ) : ℕ := adapters * (k + 3) + 5

/-- How many steps a job with `k` keys takes at most, with `n` adapters. -/
def jobSteps (n k : ℕ) : ℕ := 2 * n + (k + loadSteps n k) + 3

/-- How many steps write-back takes at most for a batch of `k` keys, with `n` adapters. -/
def batchSteps (n k : ℕ) : ℕ := n * (k + 2) + 4

theorem loadSteps_mono {n n' k k' : ℕ} (hn : n ≤ n') (hk : k ≤ k') :
    loadSteps n k ≤ loadSteps n' k' :=
  Nat.add_le_add_right (Nat.mul_le_mul hn (Nat.add_le_add_right hk 3)) 5

theorem jobSteps_mono (n : ℕ) {k k' : ℕ} (hk : k ≤ k') : jobSteps n k ≤ jobSteps n k' := by
  have := loadSteps_mono (le_refl n) hk
  simp only [jobSteps]
  omega

theorem batchSteps_mono {n k k' : ℕ} (hk : k ≤ k') : batchSteps n k ≤ batchSteps n k' :=
  Nat.add_le_add_right (Nat.mul_le_mul_left n (Nat.add_le_add_right hk 2)) 4

/-- The steps that are left for the job under way, and for what it asks of `n` adapters. -/
def Worker.left (n : ℕ) : Worker → ℕ
  | idle | dead _ _ _ => 0
  | prefetch job => jobSteps n job.keys.length
  | lookup job _ _ futures =>
    2 * (n - futures.length) + (job.keys.length + loadSteps n job.keys.length) + 2
  | reserve p todo => todo.length + loadSteps n (p.load.length + todo.length) + 1
  | load p order => loadSteps order.length p.load.length
  | loading p order _ _ _ => loadSteps order.length p.load.length + 1
  | finishWrite _ => 4
  | cleanup _ => 3
  | resolve _ _ _ => 2
  | finishRead _ _ => 1

/-- The steps that a message takes at most, with `n` adapters : those of its handler, and those of
the batch it announces or the job it queues. -/
def Req.steps (n : ℕ) : Req → ℕ
  | .lookup p => jobSteps n (p.tokenIds.length * p.worldSize) + 4
  | .store p => p.chunks.length + batchSteps n p.chunks.length + 3
  | _ => 7

/-- The steps that are left for a handler, with what it will announce or queue. -/
def Handler.left (n : ℕ) : Handler → ℕ
  | start m => m.steps n
  | startSession job => jobSteps n job.keys.length + 3
  | putJob job => jobSteps n job.keys.length + 2
  | storeReserve _ _ chunks => chunks.length + batchSteps n chunks.length + 2
  | storeCopy filled todo => todo.length + batchSteps n (filled.length + todo.length) + 1
  | retrieveRead _ _ _ => 6
  | retrieveSend _ _ _ => 5
  | retrievePromote _ _ => 4
  | releaseFirst _ _ => 4
  | release _ _ _ _ => 3
  | finishRead _ _ _ _ => 2
  | popSession _ => 1
  | done _ => 0

/-- The steps that are left for the jobs in the queue. -/
def jobsLeft (n : ℕ) (jobs : List Job) : ℕ :=
  (jobs.map fun job => jobSteps n job.keys.length + 1).sum

/-- The steps that are left for the batches in the queue. -/
def batchesLeft (n : ℕ) (batches : List (List ChunkKey)) : ℕ :=
  (batches.map fun keys => batchSteps n keys.length).sum

variable (blake3) in
theorem length_lookupJob (srv : CacheServer) (p : LookupPayload) :
    (srv.lookupJob blake3 p).keys.length ≤ p.tokenIds.length * p.worldSize := by
  unfold CacheServer.lookupJob
  split
  · exact Nat.zero_le _
  · have hrow : ∀ h : Bytes, ((List.range p.worldSize).map fun r =>
        (⟨h, p.model, r⟩ : ChunkKey)).length = p.worldSize := fun h => by simp
    rw [CacheServer.keysFor, length_flatMap_const hrow, length_chunkHashes]
    exact Nat.mul_le_mul_right _ (Nat.div_le_self _ _)

/-! ## Handlers -/

namespace Handler

variable (blake3) in
theorem left_dispatch (srv : CacheServer) (n : ℕ) (m : Req) :
    (dispatch blake3 srv m).2.left n < m.steps n := by
  cases m with
  | lookup p =>
    have hle := jobSteps_mono n (length_lookupJob blake3 srv p)
    simp only [dispatch, left, Req.steps]
    omega
  | retrieve p =>
    simp only [dispatch]
    split
    all_goals
      simp only [left, Req.steps]
      omega
  | store p =>
    simp only [dispatch]
    split
    all_goals
      simp only [left, Req.steps]
      omega
  | _ =>
    simp only [dispatch, left, Req.steps]
    omega

/-- A handler's step : what it announces or queues was counted as its own before. -/
theorem left_step {srv srv' : CacheServer} {hd hd' : Handler} (n : ℕ)
    (hs : hd.Does blake3 srv srv' hd') :
    hd'.left n + jobsLeft n srv'.jobs + batchesLeft n (hd.announces srv) <
      hd.left n + jobsLeft n srv.jobs := by
  have hquiet : batchesLeft n [] = 0 := rfl
  cases hs with
  | dispatch m =>
    have hlt := left_dispatch blake3 srv n m
    rw [(dispatch_frame blake3 srv m).2.2]
    simp only [announces, left, hquiet] at hlt ⊢
    omega
  | putJob job =>
    simp only [CacheServer.putJob, jobsLeft, List.map_append, List.sum_append, List.map_singleton,
      List.sum_singleton, left, announces, hquiet]
    omega
  | @reserve keys n' chunks =>
    have hlen := length_storeItems_le (srv.l1.reserveWrite keys n' false).1 keys chunks
    have hle := batchSteps_mono (n := n) hlen
    simp only [left, announces, hquiet, List.length_nil, Nat.zero_add]
    omega
  | @copy item filled todo hlen =>
    have hsum :
        (filled ++ [item]).length + todo.length = filled.length + (item :: todo).length := by
      simp only [List.length_append, List.length_cons, List.length_nil]
      omega
    have hjobs : (srv.fill item.key item.obj item.blob).jobs = srv.jobs := rfl
    have hnone : (storeCopy filled (item :: todo)).announces srv = [] := rfl
    rw [hjobs, hnone, hquiet, left, left, hsum, List.length_cons]
    omega
  | finishWrite h =>
    simp only [announces, h, left, batchesLeft, List.map_singleton, List.sum_singleton,
      List.length_map, List.length_nil, Nat.add_zero]
    omega
  | finishWriteFail h =>
    simp only [announces, h, left, hquiet]
    omega
  | release h =>
    rw [CacheServer.eq_of_releaseHeld.1 _ h]
    simp only [left, announces, hquiet]
    omega
  | releaseFail h =>
    rw [CacheServer.eq_of_releaseHeld.2 _ h]
    simp only [left, announces, hquiet]
    omega
  | @finishRead requestId released ending reply l1 h =>
    cases ending
    all_goals
      simp only [left, announces, hquiet, Bool.false_eq_true, if_false, if_true]
      omega
  | startSession | wrongSize | read | readFail | send | promote | releaseFirst | finishReadFail
  | pop =>
    simp only [left, announces, hquiet, CacheServer.startSession, CacheServer.popSession]
    omega

/-- Only a handler that has returned cannot go on. -/
theorem done_of_stuck (srv : CacheServer) {hd : Handler} (h : hd.step blake3 srv = none) :
    ∃ reply, hd = .done reply := by
  cases hd with
  | done reply => exact ⟨reply, rfl⟩
  | storeCopy filled todo =>
    cases todo with
    | nil =>
      simp only [step] at h
      split at h <;> cases h
    | cons item todo =>
      simp only [step] at h
      split_ifs at h
  | retrieveRead requestId keys worldSize =>
    simp only [step] at h
    split at h
    · cases h
    · split_ifs at h
  | release | finishRead =>
    simp only [step] at h
    split at h <;> cases h
  | _ => cases h

/-- A session that a handler opens has its job in the handler. -/
theorem hits_step {srv srv' : CacheServer} {hd hd' : Handler} (hs : hd.Does blake3 srv srv' hd')
    {r : String} (hopen : srv'.hits.get? r = some none) :
    srv.hits.get? r = some none ∨ ∃ job, hd' = .putJob job ∧ job.requestId = r := by
  cases hs with
  | dispatch m =>
    rw [(dispatch_frame blake3 srv m).2.1] at hopen
    exact Or.inl hopen
  | startSession job =>
    by_cases hr : job.requestId = r
    · exact Or.inr ⟨job, rfl, hr⟩
    · rw [CacheServer.startSession, OrderedDict.get?_set_ne _ _ hr] at hopen
      exact Or.inl hopen
  | release h =>
    rw [CacheServer.eq_of_releaseHeld.1 _ h] at hopen
    exact Or.inl hopen
  | releaseFail h =>
    rw [CacheServer.eq_of_releaseHeld.2 _ h] at hopen
    exact Or.inl hopen
  | pop requestId =>
    rw [CacheServer.popSession, OrderedDict.get?_erase] at hopen
    split_ifs at hopen
    exact Or.inl hopen
  | _ => exact Or.inl hopen

end Handler

/-! ## The prefetch worker -/

namespace Worker

variable {srv srv' : CacheServer} {l2s l2s' : List Adapter} {w w' : Worker}

theorem length_order (p : Prefetch) (n : ℕ) : (p.order n).length ≤ n := by
  unfold Prefetch.order
  split_ifs
  · exact Nat.zero_le n
  · rw [List.length_insertionSort, List.length_range]

theorem tasks_submit_le (l2s : List Adapter) (i : ℕ) (task : Task) :
    System.tasks (submit l2s i task) ≤ System.tasks l2s + 1 := by
  rcases Nat.lt_or_ge i l2s.length with hi | hi
  · exact (System.tasks_submit task hi).le
  · rw [submit, List.modify_eq_self hi]
    exact Nat.le_succ _

/-- A worker's step : the tasks it queues and the slots they fill were counted as its own before. -/
theorem left_step (hs : w.Does srv l2s srv' l2s' w') :
    w'.left l2s.length + w'.unfilled + System.tasks l2s' + jobsLeft l2s.length srv'.jobs <
      w.left l2s.length + w.unfilled + System.tasks l2s + jobsLeft l2s.length srv.jobs := by
  set n := l2s.length with hn
  cases hs with
  | @take job jobs h =>
    rw [h]
    simp only [left, unfilled, jobsLeft, List.map_cons, List.sum_cons]
    omega
  | unknown h =>
    simp only [left, unfilled, jobSteps]
    omega
  | @allInL1 job m h hmiss =>
    have := loadSteps_mono (le_refl n) (Nat.zero_le job.keys.length)
    simp only [left, unfilled, jobSteps, List.length_nil, Nat.add_zero]
    omega
  | inL1 h =>
    simp only [left, unfilled, jobSteps, List.length_nil, Nat.sub_zero]
    omega
  | @submitLookup job m hit futures h =>
    have := tasks_submit_le l2s futures.length .lookup
    simp only [left, unfilled, List.length_append, List.length_singleton]
    omega
  | lookupRaised h =>
    simp only [left, unfilled]
    omega
  | @lookupDone job m hit futures l2Hits h =>
    have hlen : ((job.keys.drop hit).take (l2Hits.foldl max 0)).length ≤ job.keys.length := by
      rw [List.length_take, List.length_drop]
      omega
    have := loadSteps_mono (le_refl n) hlen
    simp only [left, unfilled, List.length_nil, Nat.zero_add]
    omega
  | @full p key todo h =>
    have hlen : p.load.length ≤ p.load.length + (key :: todo).length := Nat.le_add_right _ _
    have := loadSteps_mono (length_order p n) hlen
    simp only [left, unfilled, ← hn]
    omega
  | @reserve p key todo obj h =>
    have hlen : (p.load ++ [(key, obj)]).length + todo.length =
        p.load.length + (key :: todo).length := by
      simp only [List.length_append, List.length_cons, List.length_nil]
      omega
    simp only [left, unfilled, hlen]
    rw [List.length_cons]
    omega
  | reserved p =>
    have := loadSteps_mono (length_order p n) (le_refl p.load.length)
    simp only [left, unfilled, List.length_nil, Nat.add_zero, ← hn]
    omega
  | loadDone p order =>
    simp only [left, unfilled, loadSteps]
    omega
  | @submitLoad p i order hlen hhit =>
    have := tasks_submit_le l2s i .load
    simp only [left, unfilled, loadSteps, List.length_cons, Nat.succ_mul]
    omega
  | publish h =>
    simp only [left, unfilled, CacheServer.publish]
    omega
  | _ =>
    simp only [left, unfilled]
    omega

end Worker

/-! ## The measure -/

namespace System

variable {s s' : System}

/-- How many steps the threads take at most until they are at rest. -/
def remaining (s : System) : ℕ :=
  s.work + s.worker.left s.l2s.length + jobsLeft s.l2s.length s.server.jobs +
    s.handlers.total fun _ q => q.2.left s.l2s.length

end System

/-- A step that brings its thread forward : of any thread but the evictor, and not a load that
writes into a slot without counting it. -/
def Label.works : Label → Bool
  | .handler _ | .worker | .writeback => true
  | .l2 _ (.fill _ complete) => complete
  | .l2 _ _ => true
  | .recv _ _ | .evictor => false

/-- A message comes in. -/
def Label.isMessage : Label → Bool
  | .recv _ _ => true
  | _ => false

/-- A function of an adapter raises. -/
def Label.fails : Label → Bool
  | .l2 _ .fail => true
  | _ => false

namespace System

variable {s s' : System}

theorem left_setLookup (s : System) (i n : ℕ) (r : Except Exc ℕ) :
    (s.setLookup i r).worker.left n = s.worker.left n := by
  unfold setLookup
  split
  · rename_i hw
    rw [hw]
    simp only [Worker.left, List.length_set]
  · rfl

theorem work_eq (s : System) : s.work = s.writeback.work s.l2s.length +
    batchesLeft s.l2s.length (s.pending.getD []) + tasks s.l2s + s.worker.unfilled := rfl

theorem work_storeFail {i : ℕ} (ht : s.oldest i = some .store) :
    ((s.popTask i).setStore i .raised).work < s.work := by
  have hpop := tasks_popTask ht
  have hlen : (s.popTask i).l2s.length = s.l2s.length := List.length_modify _ _ _
  rcases hf : s.writeback.futures[i]? with _ | f
  · -- no future is replaced
    have hset : s.writeback.futures.set i .raised = s.writeback.futures :=
      List.set_eq_of_length_le (List.getElem?_eq_none_iff.mp hf)
    have hsame : s.writeback.setFutures s.writeback.futures = s.writeback := by
      cases s.writeback <;> rfl
    refine work_pop ht rfl ?_ rfl (le_refl _)
    exact (congrArg s.writeback.setFutures hset).trans hsame
  · exact work_setStore (g := .raised) hf hlen rfl rfl rfl
      (Nat.add_lt_add_of_le_of_lt (Nat.zero_le _) (Nat.lt_of_succ_le hpop.le))

/-- An adapter's step lowers `work`, or writes into a slot. -/
theorem remaining_l2 {i : ℕ} {act : L2Act} (hs : s.step blake3 (.l2 i act) = some s') :
    s'.remaining + (if Label.works (.l2 i act) then 1 else 0) ≤ s.remaining := by
  have hlen := length_l2s hs
  have hsame : s'.work + (if Label.works (.l2 i act) then 1 else 0) ≤ s.work →
      s'.worker.left s.l2s.length = s.worker.left s.l2s.length →
      s'.server.jobs = s.server.jobs → s'.handlers = s.handlers →
      s'.remaining + (if Label.works (.l2 i act) then 1 else 0) ≤ s.remaining := by
    intro hwork hleft hjobs hhandlers
    simp only [remaining, hlen, hleft, hjobs, hhandlers]
    omega
  cases l2_does hs with
  | found _ ht | lookupFail ht =>
    refine hsame ?_ (left_setLookup _ _ _ _) (congrArg _ (server_setLookup _ _ _))
      (handlers_setLookup _ _ _)
    exact work_pop ht (congrArg (fun srv => srv.l1.listeners.pending) (server_setLookup _ _ _))
      (writeback_setLookup _ _ _) (l2s_setLookup _ _ _) (unfilled_setLookup _ _ _).le
  | @fill p order filled key obj data hw =>
    have hd : s.Drains (.l2 i (.fill data true)) := ⟨trivial, rfl⟩
    refine hsame (work_l2 hd hs) ?_ rfl rfl
    rw [hw]
    rfl
  | scribble => exact hsame (le_refl _) rfl rfl rfl
  | loaded hw ht | loadFail hw ht =>
    refine hsame (work_pop ht rfl rfl rfl (Nat.zero_le _)) ?_ rfl rfl
    rw [hw]
    rfl
  | persist hf =>
    have hd : s.Drains (.l2 i (.persist false)) := ⟨trivial, trivial⟩
    exact hsame (work_l2 hd hs) rfl rfl rfl
  | skip hf =>
    refine hsame (work_setStore (g := .running _) hf hlen rfl rfl rfl ?_) rfl rfl rfl
    exact Nat.add_lt_add_right (Nat.lt_succ_self _) _
  | stored hf ht =>
    have hd : s.Drains (.l2 i .stored) := ⟨trivial, trivial⟩
    exact hsame (work_l2 hd hs) rfl rfl rfl
  | storeFail ht => exact hsame (work_storeFail ht) rfl rfl rfl

/-- A step lowers what remains, if it brings its thread forward, and does not raise it. -/
theorem remaining_step {l : Label} (hl : l.isMessage = false) (hs : s.step blake3 l = some s') :
    s'.remaining + (if l.works then 1 else 0) ≤ s.remaining := by
  cases l with
  | recv => cases hl
  | handler t =>
    have hpending := pending_step hs (by rintro ⟨⟩)
    obtain ⟨m, hd, srv', hd', hget, hdoes, rfl⟩ := step_handler hs
    have hleft := Handler.left_step s.l2s.length hdoes
    have hbatches : batchesLeft s.l2s.length (srv'.l1.listeners.pending.getD []) ≤
        batchesLeft s.l2s.length (s.pending.getD []) +
          batchesLeft s.l2s.length (hd.announces s.server) := by
      have heq : srv'.l1.listeners.pending = s.pending.map (· ++ hd.announces s.server) := by
        rw [announces, hget] at hpending
        exact hpending
      rw [heq]
      rcases s.pending with _ | batches
      · exact Nat.zero_le _
      · simp only [Option.map_some, Option.getD_some, batchesLeft, List.map_append,
          List.sum_append, le_refl]
    simp only [remaining, work_eq, Label.works, if_true, OrderedDict.total_set,
      OrderedDict.total_eq s.handlers _ t, OrderedDict.at?, hget, Option.elim_some]
    simp only [pending] at hbatches ⊢
    omega
  | worker =>
    have hpending := pending_step hs (by rintro ⟨⟩)
    have hlen := length_l2s hs
    obtain ⟨srv', l2s', w', hdoes, rfl⟩ := step_worker hs
    have hleft := Worker.left_step hdoes
    have hsame : srv'.l1.listeners.pending = s.pending := by
      simpa [announces, pending] using hpending
    simp only at hlen
    simp only [remaining, work_eq, Label.works, if_true, pending, hlen, hsame]
    omega
  | writeback =>
    have hwork := work_writeback hs
    have hlen := length_l2s hs
    obtain ⟨srv', l2s', w', hdoes, rfl⟩ := step_writeback hs
    have hjobs : srv'.jobs = s.server.jobs := (Writeback.sessions_step hdoes).2.2
    simp only at hlen
    simp only [remaining, Label.works, if_true, hlen, hjobs]
    omega
  | evictor =>
    have hpending := pending_step hs (by rintro ⟨⟩)
    obtain rfl := step_evictor hs
    have hjobs : (s.evictor.step s.server).1.jobs = s.server.jobs := by cases s.evictor <;> rfl
    have hsame : (s.evictor.step s.server).1.l1.listeners.pending = s.pending := by
      simpa [announces, pending] using hpending
    simp only [remaining, work_eq, Label.works, Bool.false_eq_true, if_false, hjobs, pending, hsame,
      Nat.add_zero, le_refl]
  | l2 i act => exact remaining_l2 hs

end System

/-! ## Nobody waits for nothing -/

namespace Worker

/-- The worker waits for this task of adapter `i`. -/
def WaitsFor (i : ℕ) : Task → Worker → Prop
  | .lookup, lookup _ _ _ futures => futures[i]? = some none
  | .load, loading _ _ j _ none => i = j
  | _, _ => False

/-- The call under way is to answer `r`. -/
def Answers (r : String) : Worker → Prop
  | prefetch job | lookup job _ _ _ | resolve job _ _ => job.requestId = r
  | reserve p _ | load p _ | loading p _ _ _ _ | finishWrite p | cleanup p => p.job.requestId = r
  | idle | finishRead _ _ | dead _ _ _ => False

/-- Nothing has raised, and only the `n` adapters are asked. -/
def Sound (n : ℕ) : Worker → Prop
  | lookup _ _ _ futures => ∀ e, some (.error e) ∉ futures
  | load _ order => ∀ i ∈ order, i < n
  | loading _ order i _ future => i < n ∧ (∀ j ∈ order, j < n) ∧ ∀ e, future ≠ some (.error e)
  | dead _ _ _ => False
  | _ => True

theorem mem_order {p : Prefetch} {n i : ℕ} (h : i ∈ p.order n) : i < n := by
  unfold Prefetch.order at h
  split_ifs at h
  · cases h
  · exact List.mem_range.mp ((List.mem_insertionSort _).mp h)

/-- A future that raised is among those collected. -/
theorem error_of_collect : ∀ {futures : List Future} {e : Exc},
    collect futures = some (.error e) → some (.error e) ∈ futures
  | [], _, h => by cases h
  | none :: _, _, h => by cases h
  | some (.error e) :: _, _, h => by
    cases h
    exact List.mem_cons_self
  | some (.ok n) :: futures, e, h => by
    rw [collect] at h
    obtain ⟨r, hr, hmap⟩ := Option.map_eq_some_iff.mp h
    cases r with
    | error e' =>
      cases hmap
      exact List.mem_cons_of_mem _ (error_of_collect hr)
    | ok ns => cases hmap

/-- While `collect` blocks some future is open. -/
theorem open_of_collect : ∀ {futures : List Future},
    collect futures = none → ∃ i : ℕ, futures[i]? = some none
  | [], h => by cases h
  | none :: _, _ => ⟨0, rfl⟩
  | some (.error _) :: _, h => by cases h
  | some (.ok n) :: futures, h => by
    rw [collect, Option.map_eq_none_iff] at h
    obtain ⟨i, hi⟩ := open_of_collect h
    exact ⟨i + 1, hi⟩

/-- A step of a worker that can finish its writes and reads. -/
theorem Sound.step {srv srv' : CacheServer} {l2s l2s' : List Adapter} {w w' : Worker}
    (h : w.Sound l2s.length)
    (hwrite : ∀ p, w = finishWrite p →
      ∃ l1, srv.l1.finishWriteAndReserveRead p.loadedKeys = .returned l1 ())
    (hread : ∀ job keys, w = finishRead job keys → ∃ l1, srv.l1.finishRead keys = .returned l1 ())
    (hs : w.Does srv l2s srv' l2s' w') : w'.Sound l2s.length := by
  cases hs with
  | submitLookup =>
    intro e he
    rcases List.mem_append.mp he with he | he
    · exact h e he
    · cases List.mem_singleton.mp he
  | inL1 => exact fun e => List.not_mem_nil
  | lookupRaised hcollect => exact (h _ (error_of_collect hcollect)).elim
  | full | reserved => exact fun i hi => mem_order hi
  | @submitLoad p i order =>
    exact ⟨h i List.mem_cons_self, fun j hj => h j (List.mem_cons_of_mem i hj), nofun⟩
  | loaded => exact h.2.1
  | loadRaised _ _ _ _ e => exact (h.2.2 e rfl).elim
  | finishWriteFail hl1 =>
    obtain ⟨l1, hl1'⟩ := hwrite _ rfl
    rw [hl1] at hl1'
    cases hl1'
  | finishReadFail hl1 =>
    obtain ⟨l1, hl1'⟩ := hread _ _ rfl
    rw [hl1] at hl1'
    cases hl1'
  | _ => trivial

theorem mem_tasksAt_submit {l2s : List Adapter} {j : ℕ} {t : Task} (i : ℕ) (task : Task)
    (h : t ∈ tasksAt l2s j) : t ∈ tasksAt (submit l2s i task) j := by
  rcases tasksAt_submit l2s i task j with heq | ⟨-, heq⟩
  · rwa [heq]
  · rw [heq]
    exact List.mem_append_left _ h

theorem mem_tasksAt_submit_self {l2s : List Adapter} {i : ℕ} (hi : i < l2s.length) (task : Task) :
    task ∈ tasksAt (submit l2s i task) i := by
  simp [tasksAt, submit, List.getElem?_modify_eq, List.getElem?_eq_getElem hi]

/-- What the worker waits for after a step was queued before, or in this step. -/
theorem waits_step {srv srv' : CacheServer} {l2s l2s' : List Adapter} {w w' : Worker}
    (hsound : w.Sound l2s.length) (h : ∀ i task, w.WaitsFor i task → task ∈ tasksAt l2s i)
    (hs : w.Does srv l2s srv' l2s' w') (i : ℕ) (task : Task) (hw : w'.WaitsFor i task) :
    task ∈ tasksAt l2s' i := by
  cases hs with
  | @submitLookup job n hit futures hlt =>
    cases task with
    | lookup =>
      rcases lt_trichotomy i futures.length with hi | rfl | hi
      · refine mem_tasksAt_submit _ _ (h i .lookup ?_)
        exact (List.getElem?_append_left hi).symm.trans hw
      · exact mem_tasksAt_submit_self hlt .lookup
      · have hnone : (futures ++ [none])[i]? = none :=
          List.getElem?_eq_none (by simpa using Nat.succ_le_of_lt hi)
        cases hnone.symm.trans hw
    | load | store => exact hw.elim
  | @submitLoad p j order =>
    cases task with
    | load =>
      obtain rfl : i = j := hw
      exact mem_tasksAt_submit_self (hsound i List.mem_cons_self) .load
    | lookup | store => exact hw.elim
  | inL1 =>
    cases task with
    | lookup => cases List.getElem?_nil.symm.trans hw
    | load | store => exact hw.elim
  | _ => cases task <;> exact hw.elim

/-- A worker that waits for no adapter can only be stuck without a job. -/
theorem idle_of_stuck {srv : CacheServer} {l2s : List Adapter} {w : Worker}
    (hsound : w.Sound l2s.length) (hwaits : ∀ i task, ¬w.WaitsFor i task)
    (h : w.step srv l2s = none) : w = idle ∧ srv.jobs = [] := by
  cases w with
  | idle =>
    simp only [step] at h
    split at h
    · exact ⟨rfl, ‹_›⟩
    · cases h
  | prefetch job =>
    simp only [step] at h
    split at h
    · cases h
    · split_ifs at h
  | lookup job n hit futures =>
    simp only [step] at h
    split_ifs at h
    split at h
    · obtain ⟨i, hi⟩ := open_of_collect ‹_›
      exact (hwaits i .lookup hi).elim
    · cases h
    · cases h
  | reserve p todo =>
    cases todo with
    | nil => cases h
    | cons key todo =>
      simp only [step] at h
      split at h <;> cases h
  | load p order =>
    cases order with
    | nil => cases h
    | cons i order =>
      simp only [step] at h
      split_ifs at h
  | loading p order i filled future =>
    rcases future with _ | e | n
    · exact (hwaits i .load rfl).elim
    · cases h
    · cases h
  | finishWrite p | finishRead job keys =>
    simp only [step] at h
    split at h <;> cases h
  | cleanup p => cases h
  | resolve job l1Keys loadedKeys =>
    simp only [step] at h
    split_ifs at h
  | dead => exact hsound.elim

/-- A step that leaves `r` unanswered leaves a job for it. -/
theorem answers_step {srv srv' : CacheServer} {l2s l2s' : List Adapter} {w w' : Worker} {r : String}
    (hsound : w'.Sound l2s.length) (hopen : srv'.hits.get? r = some none)
    (h : (∃ job ∈ srv.jobs, job.requestId = r) ∨ w.Answers r)
    (hs : w.Does srv l2s srv' l2s' w') :
    (∃ job ∈ srv'.jobs, job.requestId = r) ∨ w'.Answers r := by
  cases hs with
  | @take job jobs hjobs =>
    rcases h with ⟨job', hmem, hr⟩ | h
    · rw [hjobs] at hmem
      rcases List.mem_cons.mp hmem with rfl | hmem
      · exact Or.inr hr
      · exact Or.inl ⟨job', hmem, hr⟩
    · exact h.elim
  | @publish job l1Keys loadedKeys hc =>
    refine h.imp_right fun hr => ?_
    obtain rfl : job.requestId = r := hr
    rw [CacheServer.publish, OrderedDict.get?_set_self] at hopen
    cases hopen
  | @ended job l1Keys loadedKeys hc =>
    refine h.imp_right fun hr => ?_
    obtain rfl : job.requestId = r := hr
    rw [OrderedDict.contains_eq_false_iff.mp hc] at hopen
    cases hopen
  | lookupRaised | loadRaised | finishWriteFail | finishReadFail => exact hsound.elim
  | _ => exact h

end Worker

namespace System

variable {s s' : System} {lost : Multiset ChunkKey}

/-- There is a job for `r`, in its handler, in the queue or under way. -/
def Asked (s : System) (r : String) : Prop :=
  (∃ t m job, s.handlers.get? t = some (m, .putJob job) ∧ job.requestId = r) ∨
    (∃ job ∈ s.server.jobs, job.requestId = r) ∨ s.worker.Answers r

/-- No thread has ended, nothing is waited for that is not queued, and no lookup is forgotten. -/
structure Settled (s : System) : Prop where
  alive : s.Alive
  worker : s.worker.Sound s.l2s.length
  waits : ∀ i task, s.worker.WaitsFor i task → task ∈ tasksAt s.l2s i
  asked : ∀ r, s.server.hits.get? r = some none → s.Asked r

theorem settled_new (chunkSize capacity : ℕ) (pool : ℕ → UInt8) (adapters : ℕ) :
    (new chunkSize capacity pool adapters).Settled where
  alive := ⟨by rintro _ _ ⟨⟩, List.not_mem_nil⟩
  worker := trivial
  waits i task h := by cases task <;> exact h.elim
  asked r h := by cases h

/-- The worker can release the slots it has filled. -/
theorem Inv.finishWrite_returned (h : s.Inv blake3 lost) {p : Prefetch}
    (hw : s.worker = .finishWrite p) :
    ∃ l1, s.server.l1.finishWriteAndReserveRead p.loadedKeys = .returned l1 () := by
  have hl := h.ledger
  have hholds : s.holds + lost = (Worker.finishWrite p).holds + s.server.sessions +
      ((s.handlers.total fun _ q => q.2.holds) + s.writeback.holds + lost) := by
    rw [holds, hw]
    ac_rfl
  rw [slots, add_comm (OrderedDict.total _ _), hholds, hw] at hl
  obtain ⟨l1, hl1, -⟩ := Worker.kept_finishWrite hl
  exact ⟨l1, hl1⟩

theorem Settled.worker_step (h : s.Settled) (hinv : s.Inv blake3 lost)
    (hs : s.step blake3 .worker = some s') : s'.Settled := by
  have hlen := length_l2s hs
  obtain ⟨srv', l2s', w', hdoes, rfl⟩ := step_worker hs
  have hsound : w'.Sound s.l2s.length := by
    refine h.worker.step (fun p hp => hinv.finishWrite_returned hp) (fun job keys hw => ?_) hdoes
    have hfinishing : s.finishing .worker = some keys := by rw [finishing, hw]
    obtain ⟨l1, hl1, -⟩ := hinv.finishRead_returned hfinishing
    exact ⟨l1, hl1⟩
  refine ⟨h.alive.of_eq rfl, ?_, Worker.waits_step h.worker h.waits hdoes, fun r hopen => ?_⟩
  · simp only at hlen
    rwa [hlen]
  · have hbefore : s.server.hits.get? r = some none := by
      rcases Worker.sessions_step hdoes with ⟨-, hhits⟩ | ⟨job, l1Keys, loadedKeys, -, -, -, rfl⟩
      · rwa [← hhits]
      · simp only [CacheServer.publish, OrderedDict.get?_set] at hopen
        split_ifs at hopen
        · cases hopen
        · exact hopen
    rcases h.asked r hbefore with hput | hjob
    · exact Or.inl hput
    · exact Or.inr (Worker.answers_step hsound hopen hjob hdoes)

/-- A step that leaves the worker and the queues of lookups and loads alone. -/
theorem Settled.of_eq (h : s.Settled) (halive : s'.Alive) (hworker : s'.worker = s.worker)
    (hlen : s'.l2s.length = s.l2s.length)
    (htasks : ∀ i task, task ≠ .store → task ∈ tasksAt s.l2s i → task ∈ tasksAt s'.l2s i)
    (hasked : ∀ r, s'.server.hits.get? r = some none → s'.Asked r) : s'.Settled where
  alive := halive
  worker := by
    rw [hworker, hlen]
    exact h.worker
  waits i task hw := by
    rw [hworker] at hw
    refine htasks i task ?_ (h.waits i task hw)
    rintro rfl
    exact hw.elim
  asked := hasked

/-- A handler opens a session only with a job for it, and queues the job next. -/
theorem Settled.handler (h : s.Settled) {t : ℕ} (hs : s.step blake3 (.handler t) = some s') :
    s'.Settled := by
  obtain ⟨m, hd, srv', hd', hget, hdoes, rfl⟩ := step_handler hs
  refine h.of_eq (h.alive.of_eq rfl) rfl rfl (fun _ _ _ hmem => hmem) fun r hopen => ?_
  rcases Handler.hits_step hdoes hopen with hopen | ⟨job, rfl, hr⟩
  · rcases h.asked r hopen with ⟨t', m', job, hget', hr⟩ | ⟨job, hjob, hr⟩ | hw
    · by_cases ht : t = t'
      · subst ht
        rw [hget] at hget'
        cases hget'
        cases hdoes
        exact Or.inr (Or.inl ⟨job, List.mem_append_right _ (List.mem_singleton_self _), hr⟩)
      · exact Or.inl ⟨t', m', job, (OrderedDict.get?_set_ne _ _ ht).trans hget', hr⟩
    · exact Or.inr (Or.inl ⟨job, (Handler.jobs_grow hdoes).1.subset hjob, hr⟩)
    · exact Or.inr (Or.inr hw)
  · exact Or.inl ⟨t, m, job, OrderedDict.get?_set_self _ _ _, hr⟩

/-- An adapter answers a lookup. -/
theorem Settled.found (h : s.Settled) (hinv : TaskInv s.l2s s.worker) {i hits : ℕ}
    (ht : s.oldest i = some .lookup) : ((s.popTask i).setLookup i (.ok hits)).Settled := by
  have haw : (s.popTask i).worker.Awaits i .lookup := (hinv.oldest ht (by rintro ⟨⟩)).1
  have hlen : (s.popTask i).l2s.length = s.l2s.length := List.length_modify _ _ _
  have hsound := h.worker
  rcases worker_setLookup (r := .ok hits) haw with
    ⟨job, n, hit, futures, hw, -, hw'⟩ | ⟨job, holds, slots, hw, -⟩
  · have hw : s.worker = .lookup job n hit futures := hw
    rw [hw] at hsound
    refine ⟨h.alive.of_eq (writeback_setLookup _ _ _), ?_, fun j task hwait => ?_, fun r hr => ?_⟩
    · rw [hw', l2s_setLookup, hlen]
      intro e he
      rcases List.mem_or_eq_of_mem_set he with he | he
      · exact hsound e he
      · cases he
    · rw [hw'] at hwait
      cases task with
      | lookup =>
        -- the future of adapter `i` is set, the others were open before
        have hset : (futures.set i (some (.ok hits)))[j]? = some none := hwait
        have hij : i ≠ j := by
          rintro rfl
          rw [List.getElem?_set_self'] at hset
          cases hf : futures[i]? <;> simp [hf] at hset
        rw [List.getElem?_set_ne hij] at hset
        rw [l2s_setLookup, tasksAt_popTask, if_neg hij]
        refine h.waits j .lookup ?_
        rw [hw]
        exact hset
      | load | store => exact hwait.elim
    · rw [server_setLookup] at hr
      rw [Asked, handlers_setLookup, server_setLookup, hw']
      refine (h.asked r hr).imp_right fun hor => hor.imp_right fun hans => ?_
      rwa [hw] at hans
  · rw [show s.worker = .dead job holds slots from hw] at hsound
    exact hsound.elim

/-- An adapter that does not fail. -/
theorem Settled.l2 (h : s.Settled) (hinv : TaskInv s.l2s s.worker) {i : ℕ} {act : L2Act}
    (hact : act ≠ .fail) (hs : s.step blake3 (.l2 i act) = some s') : s'.Settled := by
  have hlen := length_l2s hs
  have hsound := h.worker
  cases l2_does hs with
  | found hits ht => exact h.found hinv ht
  | lookupFail | loadFail | storeFail => exact (hact rfl).elim
  | @fill p order filled key obj data hw hget hlen' =>
    rw [hw] at hsound
    refine ⟨h.alive.of_eq rfl, hsound, fun j task hwait => ?_, fun r hr => ?_⟩
    · refine h.waits j task ?_
      rw [hw]
      cases task <;> exact hwait
    · refine (h.asked r hr).imp_right fun hor => hor.imp_right fun hans => ?_
      rwa [hw] at hans
  | @loaded p order filled hw ht =>
    rw [hw] at hsound
    refine ⟨h.alive.of_eq rfl, ?_, fun j task hwait => ?_, fun r hr => ?_⟩
    · rw [hlen]
      exact ⟨hsound.1, hsound.2.1, nofun⟩
    · cases task <;> exact hwait.elim
    · refine (h.asked r hr).imp_right fun hor => hor.imp_right fun hans => ?_
      rwa [hw] at hans
  | scribble => exact h.of_eq (h.alive.of_eq rfl) rfl hlen (fun _ _ _ hmem => hmem) h.asked
  | @persist key obj todo hf =>
    refine h.of_eq (h.alive.setStore (g := .running _) hf nofun rfl) rfl hlen
      (fun j task _ hmem => ?_) h.asked
    have htasks := tasksAt_persist s.l2s i (key, s.server.l1.bytes obj) j
    exact htasks.symm ▸ hmem
  | skip hf =>
    exact h.of_eq (h.alive.setStore (g := .running _) hf nofun rfl) rfl hlen
      (fun _ _ _ hmem => hmem) h.asked
  | stored hf ht =>
    refine h.of_eq (h.alive.setStore (g := .ok) hf nofun rfl) rfl hlen (fun j task hne hmem => ?_)
      h.asked
    have hpop := tasksAt_popTask s i j
    refine hpop.symm ▸ ?_
    split_ifs with hij
    · subst hij
      rw [oldest_eq] at ht
      obtain ⟨rest, hrest⟩ := List.head?_eq_some_iff.mp ht
      rw [hrest] at hmem ⊢
      exact (List.mem_cons.mp hmem).resolve_left hne
    · exact hmem

theorem Settled.step {l : Label} (h : s.Settled) (hinv : s.Inv blake3 lost)
    (htasks : TaskInv s.l2s s.worker) (hl : l.fails = false)
    (hs : s.step blake3 l = some s') : s'.Settled := by
  cases l with
  | recv t m =>
    obtain ⟨hnone, rfl⟩ := step_recv hs
    refine h.of_eq (h.alive.of_eq rfl) rfl rfl (fun _ _ _ hmem => hmem) fun r hopen => ?_
    refine (h.asked r hopen).imp_left ?_
    rintro ⟨t', m', job, hget, hr⟩
    refine ⟨t', m', job, ?_, hr⟩
    rw [OrderedDict.get?_set_ne _ _ (by rintro rfl; rw [hnone] at hget; cases hget)]
    exact hget
  | handler t => exact h.handler hs
  | worker => exact h.worker_step hinv hs
  | writeback =>
    have halive := h.alive.writeback hinv hs
    have hlen := length_l2s hs
    obtain ⟨srv', l2s', w', hdoes, rfl⟩ := step_writeback hs
    obtain ⟨-, hhits, hjobs⟩ := Writeback.sessions_step hdoes
    refine h.of_eq halive rfl hlen (fun j task _ hmem => ?_) fun r hopen => ?_
    · rcases Writeback.l2s_step hdoes with rfl | ⟨i, rfl⟩
      · exact hmem
      · exact Worker.mem_tasksAt_submit i .store hmem
    · rw [show _ = s.server.hits from hhits] at hopen
      simpa only [Asked, hjobs] using h.asked r hopen
  | evictor =>
    obtain rfl := step_evictor hs
    have hsame : (s.evictor.step s.server).1.hits = s.server.hits ∧
        (s.evictor.step s.server).1.jobs = s.server.jobs := by
      generalize s.evictor = e
      cases e <;> exact ⟨rfl, rfl⟩
    refine h.of_eq (h.alive.of_eq rfl) rfl rfl (fun _ _ _ hmem => hmem) fun r hopen => ?_
    rw [show _ = s.server.hits from hsame.1] at hopen
    simpa only [Asked, hsame.2] using h.asked r hopen
  | l2 i act => exact h.l2 htasks (by rintro rfl; cases hl) hs

/-! ## At rest -/

/-- Nothing is queued or under way, and no lookup waits for its answer. -/
structure AtRest (s : System) : Prop where
  handlers : ∀ t m hd, s.handlers.get? t = some (m, hd) → ∃ reply, hd = .done reply
  worker : s.worker = .idle
  jobs : s.server.jobs = []
  writeback : s.writeback = .idle
  pending : s.pending.getD [] = []
  l2s : ∀ i, tasksAt s.l2s i = []
  answered : ∀ r, s.server.hits.get? r ≠ some none

variable (blake3) in
/-- The thread of an adapter that has a task can go on. -/
theorem exists_step_of_task (htasks : TaskInv s.l2s s.worker) (hstore : s.StoreInv) {i : ℕ}
    (hne : tasksAt s.l2s i ≠ []) :
    ∃ act, Label.works (.l2 i act) = true ∧ s.step blake3 (.l2 i act) ≠ none := by
  obtain ⟨task, rest, hrest⟩ := List.exists_cons_of_ne_nil hne
  have ht : s.oldest i = some task := by rw [oldest_eq, hrest, List.head?_cons]
  cases task with
  | lookup =>
    refine ⟨.found 0, rfl, ?_⟩
    rw [step_l2 ht, l2Step, if_pos rfl]
    exact Option.some_ne_none _
  | load =>
    have haw := (htasks.oldest ht (by rintro ⟨⟩)).1
    refine ⟨.loaded, rfl, ?_⟩
    rw [step_l2 ht]
    cases hw : s.worker with
    | loading p order j filled future =>
      rw [hw] at haw
      obtain ⟨rfl, rfl⟩ := haw
      simp [l2Step, hw]
    | _ =>
      rw [hw] at haw
      cases haw
  | store =>
    obtain ⟨todo, hf⟩ := hstore.running ht
    rcases todo with _ | ⟨p, todo⟩
    · refine ⟨.stored, rfl, ?_⟩
      rw [step_l2 ht]
      simp [l2Step, hf]
    · refine ⟨.persist false, rfl, ?_⟩
      rw [step_l2 ht]
      simp [l2Step, hf]

/-- Where no thread can go on the process is at rest. -/
theorem atRest_of_stuck (h : s.Settled) (htasks : TaskInv s.l2s s.worker) (hstore : s.StoreInv)
    (hstuck : ∀ l, l.works = true → s.step blake3 l = none) : s.AtRest := by
  have hl2s : ∀ i, tasksAt s.l2s i = [] := by
    intro i
    by_contra hne
    obtain ⟨act, hworks, hsome⟩ := exists_step_of_task blake3 htasks hstore hne
    exact hsome (hstuck _ hworks)
  have hhandlers : ∀ t m hd, s.handlers.get? t = some (m, hd) → ∃ reply, hd = .done reply := by
    intro t m hd hget
    have hnone := hstuck (.handler t) rfl
    simp only [System.step, hget, Option.map_eq_none_iff] at hnone
    exact Handler.done_of_stuck s.server hnone
  have hworker : s.worker = .idle ∧ s.server.jobs = [] := by
    have hnone := hstuck .worker rfl
    rw [System.step, Option.map_eq_none_iff] at hnone
    refine Worker.idle_of_stuck h.worker (fun i task hw => ?_) hnone
    have hmem := h.waits i task hw
    rw [hl2s i] at hmem
    cases hmem
  have hrest := rest_of_stuck htasks hstore h.alive fun l hd => hstuck l ?_
  · refine ⟨hhandlers, hworker.1, hworker.2, hrest.1, hrest.2, hl2s, fun r hopen => ?_⟩
    rcases h.asked r hopen with ⟨t, m, job, hget, -⟩ | ⟨job, hjob, -⟩ | hans
    · obtain ⟨reply, hdone⟩ := hhandlers t m _ hget
      cases hdone
    · rw [hworker.2] at hjob
      cases hjob
    · rw [hworker.1] at hans
      exact hans
  · obtain ⟨-, hd⟩ := hd
    cases l with
    | writeback => rfl
    | l2 i act =>
      cases act with
      | fill data complete => exact hd
      | _ => rfl
    | _ => cases hd

/-! ## Runs -/

/-- A run without failing adapters : what holds of all its states. -/
structure Live (blake3 : Bytes → Bytes) (s : System) : Prop where
  inv : ∃ lost, s.Inv blake3 lost
  tasks : TaskInv s.l2s s.worker
  stores : s.StoreInv
  settled : s.Settled

theorem Live.step {l : Label} (h : s.Live blake3) (hd : s.Distinct blake3 l)
    (hl : l.fails = false) (hs : s.step blake3 l = some s') : s'.Live blake3 := by
  obtain ⟨lost, hinv⟩ := h.inv
  exact ⟨⟨_, (inv_step hinv hd hs).1⟩, h.tasks.step hs, h.stores.step hs,
    h.settled.step hinv h.tasks hl hs⟩

theorem live_new (chunkSize capacity : ℕ) (pool : ℕ → UInt8) (adapters : ℕ) :
    (new chunkSize capacity pool adapters).Live blake3 :=
  ⟨⟨0, inv_new _ _ _ _⟩, taskInv_new _ _ _ _, storeInv_new _ _ _ _, settled_new _ _ _ _⟩

theorem Live.of_run {ls : List Label} (h : s.Live blake3)
    (hrun : Run (System.step blake3) (fun s l => s.Distinct blake3 l ∧ l.fails = false) s ls s') :
    s'.Live blake3 :=
  hrun.invariant (Live blake3) h fun _ _ _ h hok hs => h.step hok.1 hok.2 hs

/-- Without new messages only so many steps bring a thread forward, whatever the adapters do. -/
theorem countP_works_le {ls : List Label}
    (hrun : Run (step blake3) (fun _ l => l.isMessage = false) s ls s') :
    ls.countP Label.works ≤ s.remaining := by
  have hle := hrun.countP_add_le (p := Label.works) (μ := remaining) fun _ _ _ hl hs =>
    remaining_step hl hs
  omega

theorem distinct_of_not_isMessage {l : Label} (h : l.isMessage = false) : s.Distinct blake3 l := by
  cases l with
  | recv => cases h
  | _ => trivial

/-- From every state of a run in which no adapter fails, and in every schedule : as long as no
message comes in, only so many steps bring a thread forward; and where no step does, every handler
has returned, every lookup is answered, every batch is written back and nothing is queued. -/
theorem comes_to_rest {chunkSize capacity adapters : ℕ} {pool : ℕ → UInt8} {ls : List Label}
    (h : Run (step blake3) (fun s l => s.Distinct blake3 l ∧ l.fails = false)
      (new chunkSize capacity pool adapters) ls s) :
    ∃ n, ∀ ls' s', Run (step blake3) (fun _ l => l.isMessage = false ∧ l.fails = false) s ls' s' →
      ls'.countP Label.works ≤ n ∧
        ((∀ l, l.works = true → s'.step blake3 l = none) → s'.AtRest) := by
  refine ⟨s.remaining, fun ls' s' hrun => ⟨?_, fun hstuck => ?_⟩⟩
  · exact countP_works_le (hrun.mono fun _ _ hok => hok.1)
  · have hlive := ((live_new _ _ _ _).of_run h).of_run
      (hrun.mono fun _ _ hok => ⟨distinct_of_not_isMessage hok.1, hok.2⟩)
    exact atRest_of_stuck hlive.settled hlive.tasks hlive.stores hstuck

/-- `AtRest`, as a check of everything but the answers. -/
def quiet (s : System) : Bool :=
  s.allDone && decide (s.worker = .idle) && s.server.jobs.isEmpty && decide (s.writeback = .idle) &&
    (s.pending.getD []).isEmpty && s.l2s.all fun a => a.tasks.isEmpty

theorem stuck_of_quiet (h : s.quiet = true) {l : Label} (hl : l.works = true) :
    s.step blake3 l = none := by
  simp only [quiet, Bool.and_eq_true, decide_eq_true_eq, List.isEmpty_iff] at h
  obtain ⟨⟨⟨⟨⟨hdone, hworker⟩, hjobs⟩, hwriteback⟩, hpending⟩, hl2s⟩ := h
  cases l with
  | recv | evictor => cases hl
  | handler t =>
    simp only [System.step]
    split
    · rfl
    · rename_i m hd hget
      have hhd := List.all_eq_true.mp hdone _ (OrderedDict.get?_eq_some_iff.mp hget)
      cases hd with
      | done => rfl
      | _ => cases hhd
  | worker => rw [System.step, hworker, Worker.step, hjobs, Option.map_none]
  | writeback =>
    rw [System.step, hwriteback, Writeback.step]
    simp only [pending] at hpending
    split
    · rfl
    · rfl
    · simp [*] at hpending
  | l2 i act =>
    simp only [System.step]
    split
    · rename_i task tasks heq
      obtain ⟨a, ha, htasks⟩ := Option.map_eq_some_iff.mp heq
      have hnil := List.all_eq_true.mp hl2s a (List.mem_of_getElem? ha)
      rw [htasks] at hnil
      cases hnil
    · rfl

/-- A lookup that loads its chunk from L2 is answered, and then no thread can go on. -/
theorem comes_to_rest_sample : ∃ s s' : System, ∃ n : ℕ,
    sample (fun s l => distinct s l && !l.fails) 2 (sampleReload.take 18) = some s ∧
    s'.server.hits.get? "b" = some (some (0, 1)) ∧
    (sampleReload.drop 18).countP Label.works ≤ n ∧ s'.AtRest := by
  have hshape : ((sample (fun s l => distinct s l && !l.fails) 2 (sampleReload.take 18)).bind
      fun s => (replay (step sampleDigest) (fun _ l => !l.isMessage && !l.fails) s
        (sampleReload.drop 18)).map fun s' =>
          (s'.quiet, s'.server.hits.get? "b")) = some (true, some (some (0, 1))) := by decide
  obtain ⟨s, hs, hshape⟩ := Option.bind_eq_some_iff.mp hshape
  obtain ⟨s', hs', hshape⟩ := Option.map_eq_some_iff.mp hshape
  obtain ⟨hquiet, hhits⟩ := Prod.mk.inj hshape
  have hrun := (run_of_replay hs).mono fun s l hok => by
    rw [Bool.and_eq_true, Bool.not_eq_true'] at hok
    exact (⟨of_decide_eq_true hok.1, hok.2⟩ : s.Distinct sampleDigest l ∧ l.fails = false)
  have hrun' := (run_of_replay hs').mono fun s l hok => by
    rw [Bool.and_eq_true, Bool.not_eq_true', Bool.not_eq_true'] at hok
    exact hok
  obtain ⟨n, hn⟩ := comes_to_rest hrun
  obtain ⟨hcount, hrest⟩ := hn _ _ hrun'
  exact ⟨s, s', n, hs, hhits, hcount, hrest fun l hl => stuck_of_quiet hquiet hl⟩

end System

end MiniLlmcache
