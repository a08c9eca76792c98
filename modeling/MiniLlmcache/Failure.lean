import MiniLlmcache.Sessions

/-!
# A failing L2

An adapter's exception comes out of the future the prefetch worker waits for, and nothing
in `prefetch` or `run` catches it : the worker's thread ends in the middle of the job.
`failed_job_stays` says so of every job and every point at which a lookup or a load can
raise, and of every run from there on : no job is taken again, the holds and the
write-locked slots of this one stay, and no request is resolved any more.

For this a future has to belong to the task that completes it. `TaskInv` : a lookup or load
that an adapter still has to run is one the worker waits for, and there is only one of it.
-/

namespace MiniLlmcache

open L1Manager

variable {blake3 : Bytes → Bytes}

/-! ## Tasks and futures -/

/-- The tasks of adapter `i`, oldest first. -/
def tasksAt (l2s : List Adapter) (i : ℕ) : List Task := (l2s[i]?).elim [] Adapter.tasks

theorem tasksAt_submit (l2s : List Adapter) (i : ℕ) (task : Task) (j : ℕ) :
    tasksAt (submit l2s i task) j = tasksAt l2s j ∨
      (i = j ∧ tasksAt (submit l2s i task) j = tasksAt l2s j ++ [task]) := by
  unfold tasksAt submit
  rw [List.getElem?_modify]
  split_ifs with hij
  · subst hij
    cases l2s[i]? with
    | none => exact Or.inl rfl
    | some a => exact Or.inr ⟨rfl, rfl⟩
  · exact Or.inl (by simp)

theorem tasksAt_persist (l2s : List Adapter) (i : ℕ) (p : ChunkKey × Bytes) (j : ℕ) :
    tasksAt (l2s.modify i fun a => { a with stored := a.stored ++ [p] }) j = tasksAt l2s j := by
  unfold tasksAt
  rw [List.getElem?_modify]
  split_ifs
  · cases l2s[j]? <;> rfl
  · simp

namespace Worker

/-- The worker waits for this task of adapter `i`, or died before it would have. -/
def Awaits (i : ℕ) : Task → Worker → Prop
  | .lookup, lookup _ _ _ futures => futures[i]? = some none
  | .lookup, dead _ _ _ => True
  | .load, loading _ _ j _ future => i = j ∧ future = none
  | .store, _ => True
  | _, _ => False

theorem ne_none_of_collect : ∀ {futures : List Future} {ns : List ℕ},
    collect futures = some (.ok ns) → none ∉ futures ∧ ∀ e, some (.error e) ∉ futures
  | [], _, _ => ⟨nofun, nofun⟩
  | none :: _, _, h => by cases h
  | some (.error _) :: _, _, h => by cases h
  | some (.ok n) :: futures, ns, h => by
    rw [collect] at h
    obtain ⟨r, hr, hmap⟩ := Option.map_eq_some_iff.mp h
    cases r with
    | error e => cases hmap
    | ok ns =>
      obtain ⟨hnone, herr⟩ := ne_none_of_collect hr
      refine ⟨fun hm => ?_, fun e hm => ?_⟩
      · rcases List.mem_cons.mp hm with hm | hm
        · cases hm
        · exact hnone hm
      · rcases List.mem_cons.mp hm with hm | hm
        · cases hm
        · exact herr e hm

end Worker

/-- Write-back only submits stores. -/
theorem Writeback.l2s_step {srv srv' : CacheServer} {l2s l2s' : List Adapter}
    {w w' : Writeback} (hs : w.Does srv l2s srv' l2s' w') :
    l2s' = l2s ∨ ∃ i, l2s' = MiniLlmcache.submit l2s i .store := by
  cases hs with
  | submit => exact Or.inr ⟨_, rfl⟩
  | _ => exact Or.inl rfl

namespace System

variable {s s' : System}

/-- The lookups and loads the adapters have to run are those the worker waits for. -/
structure TaskInv (l2s : List Adapter) (w : Worker) : Prop where
  awaited : ∀ i task, task ∈ tasksAt l2s i → w.Awaits i task
  once : ∀ i task, task ≠ .store → (tasksAt l2s i).count task ≤ 1

/-- No task is added, and what the worker waits for it waits for still. -/
theorem TaskInv.of_sublist {l2s l2s' : List Adapter} {w w' : Worker} (h : TaskInv l2s w)
    (hsub : ∀ i, (tasksAt l2s' i).Sublist (tasksAt l2s i))
    (haw : ∀ i task, task ∈ tasksAt l2s' i → w.Awaits i task → w'.Awaits i task) :
    TaskInv l2s' w' where
  awaited i task hm := haw i task hm (h.awaited i task ((hsub i).subset hm))
  once i task hne := ((hsub i).count_le task).trans (h.once i task hne)

/-- A task is added that the worker did not wait for before. -/
theorem TaskInv.submit {l2s : List Adapter} {w w' : Worker} {i : ℕ} {task : Task}
    (h : TaskInv l2s w) (hnew : ¬w.Awaits i task ∨ task = .store) (hw' : w'.Awaits i task)
    (haw : ∀ j t, w.Awaits j t → w'.Awaits j t) :
    TaskInv (MiniLlmcache.submit l2s i task) w' where
  awaited j t hm := by
    rcases tasksAt_submit l2s i task j with heq | ⟨rfl, heq⟩
    · exact haw j t (h.awaited j t (heq ▸ hm))
    · rw [heq] at hm
      rcases List.mem_append.mp hm with hm | hm
      · exact haw _ t (h.awaited _ t hm)
      · rw [List.mem_singleton.mp hm]
        exact hw'
  once j t hne := by
    rcases tasksAt_submit l2s i task j with heq | ⟨rfl, heq⟩
    · rw [heq]
      exact h.once j t hne
    · rw [heq, List.count_append, List.count_singleton]
      split_ifs with ht
      · obtain rfl : task = t := by simpa using ht
        have hzero : (tasksAt l2s i).count task = 0 :=
          List.count_eq_zero.mpr fun hm => (hnew.resolve_right hne) (h.awaited i task hm)
        omega
      · exact h.once i t hne

theorem TaskInv.worker {srv srv' : CacheServer} {l2s l2s' : List Adapter} {w w' : Worker}
    (h : TaskInv l2s w) (hs : w.Does srv l2s srv' l2s' w') : TaskInv l2s' w' := by
  -- a worker that waits for nothing finds no lookup or load queued
  have hidle : ∀ {v : Worker}, (∀ i task, w.Awaits i task → task = .store) → TaskInv l2s v := by
    intro v hnone
    refine h.of_sublist (fun _ => List.Sublist.refl _) fun i task _ haw => ?_
    obtain rfl := hnone i task haw
    cases v <;> trivial
  have hstore : ∀ {v : Worker} {i : ℕ}, v.Awaits i .store := by
    intro v i
    cases v <;> trivial
  cases hs with
  | @submitLookup job n hit futures hlt =>
    refine h.submit (Or.inl ?_) ?_ ?_
    · rw [Worker.Awaits, List.getElem?_eq_none le_rfl]
      nofun
    · rw [Worker.Awaits, List.getElem?_append_right le_rfl, Nat.sub_self]
      rfl
    · intro j t haw
      cases t with
      | lookup =>
        rw [Worker.Awaits] at haw ⊢
        rw [List.getElem?_append_left (List.getElem?_eq_some_iff.mp haw).1, haw]
      | load => cases haw
      | store => exact hstore
  | lookupRaised hc =>
    refine h.of_sublist (fun _ => List.Sublist.refl _) fun i task _ haw => ?_
    cases task with
    | lookup => trivial
    | load => cases haw
    | store => exact hstore
  | @lookupDone job n hit futures l2Hits hc =>
    refine hidle fun i task haw => ?_
    cases task with
    | lookup => exact ((Worker.ne_none_of_collect hc).1 (List.mem_of_getElem? haw)).elim
    | load => cases haw
    | store => rfl
  | submitLoad =>
    refine h.submit (Or.inl nofun) ⟨rfl, rfl⟩ fun j t haw => ?_
    cases t with
    | lookup | load => cases haw
    | store => exact hstore
  | loaded | loadRaised =>
    refine hidle fun i task haw => ?_
    cases task with
    | lookup => cases haw
    | load => cases haw.2
    | store => rfl
  | _ =>
    refine hidle fun i task haw => ?_
    cases task with
    | lookup | load => cases haw
    | store => rfl

theorem tasksAt_popTask (s : System) (i j : ℕ) :
    tasksAt (s.popTask i).l2s j = if i = j then (tasksAt s.l2s j).tail else tasksAt s.l2s j := by
  unfold tasksAt popTask
  simp only [List.getElem?_modify]
  split_ifs
  · cases s.l2s[j]? <;> rfl
  · simp

theorem oldest_eq (s : System) (i : ℕ) : s.oldest i = (tasksAt s.l2s i).head? := by
  unfold oldest tasksAt
  cases s.l2s[i]? <;> rfl

/-- The task an adapter works on is one the worker waits for, and it is gone afterwards. -/
theorem TaskInv.oldest (h : TaskInv s.l2s s.worker) {i : ℕ} {task : Task}
    (ht : s.oldest i = some task) (hne : task ≠ .store) :
    s.worker.Awaits i task ∧ task ∉ (tasksAt s.l2s i).tail := by
  rw [oldest_eq] at ht
  obtain ⟨rest, hrest⟩ : ∃ rest, tasksAt s.l2s i = task :: rest := by
    cases htasks : tasksAt s.l2s i with
    | nil =>
      rw [htasks] at ht
      cases ht
    | cons t rest =>
      rw [htasks] at ht
      exact ⟨rest, by rw [Option.some.inj ht]⟩
  have honce := h.once i task hne
  rw [hrest, List.count_cons_self] at honce
  refine ⟨h.awaited i task (hrest ▸ List.mem_cons_self), ?_⟩
  rw [hrest, List.tail_cons]
  exact List.count_eq_zero.mp (by omega)

/-- The worker when adapter `i` has answered its lookup. -/
theorem worker_setLookup {i : ℕ} {r : Except Exc ℕ} (h : s.worker.Awaits i .lookup) :
    (∃ job n hit futures, s.worker = .lookup job n hit futures ∧ futures[i]? = some none ∧
      (s.setLookup i r).worker = .lookup job n hit (futures.set i (some r))) ∨
    ∃ job holds slots, s.worker = .dead job holds slots ∧ (s.setLookup i r).worker = s.worker := by
  unfold setLookup
  rcases hw : s.worker with _ | _ | ⟨job, n, hit, futures⟩ | _ | _ | _ | _ | _ | _ | _ |
    ⟨job, holds, slots⟩
  case lookup =>
    rw [hw] at h
    exact Or.inl ⟨job, n, hit, futures, rfl, h, rfl⟩
  case dead => exact Or.inr ⟨job, holds, slots, rfl, hw⟩
  all_goals
    rw [hw] at h
    cases h

/-- Adapter `i` is done with a task. -/
theorem TaskInv.pop {w' : Worker} (h : TaskInv s.l2s s.worker) {i : ℕ}
    (haw : ∀ j t, t ∈ tasksAt (s.popTask i).l2s j → s.worker.Awaits j t → w'.Awaits j t) :
    TaskInv (s.popTask i).l2s w' := by
  refine h.of_sublist (fun j => ?_) haw
  rw [tasksAt_popTask]
  split_ifs
  · exact List.tail_sublist _
  · exact List.Sublist.refl _

theorem TaskInv.l2 {i : ℕ} {act : L2Act} (h : TaskInv s.l2s s.worker)
    (hs : s.step blake3 (.l2 i act) = some s') : TaskInv s'.l2s s'.worker := by
  have hlookup : ∀ r, s.oldest i = some .lookup →
      TaskInv ((s.popTask i).setLookup i r).l2s ((s.popTask i).setLookup i r).worker := by
    intro r ht
    obtain ⟨haw, hnot⟩ := h.oldest ht nofun
    rw [l2s_setLookup]
    refine h.pop fun j t hm hjt => ?_
    rcases worker_setLookup (s := s.popTask i) (r := r) haw with
      ⟨job, n, hit, futures, hw, hnone, hw'⟩ | ⟨job, holds, slots, -, hw'⟩
    · rw [show s.worker = _ from hw] at hjt
      rw [hw']
      cases t with
      | lookup =>
        have hij : i ≠ j := by
          rintro rfl
          rw [tasksAt_popTask, if_pos rfl] at hm
          exact hnot hm
        rw [Worker.Awaits] at hjt ⊢
        rwa [List.getElem?_set_ne hij]
      | load => cases hjt
      | store => trivial
    · rw [hw']
      exact hjt
  have hload : ∀ {p order filled} (f : Except Exc ℕ), s.worker = .loading p order i filled none →
      s.oldest i = some .load →
      TaskInv (s.popTask i).l2s (.loading p order i filled (some f)) := by
    intro p order filled f hw ht
    obtain ⟨-, hnot⟩ := h.oldest ht nofun
    refine h.pop fun j t hm hjt => ?_
    rw [hw] at hjt
    cases t with
    | lookup => cases hjt
    | load =>
      obtain ⟨rfl, -⟩ := hjt
      rw [tasksAt_popTask, if_pos rfl] at hm
      exact (hnot hm).elim
    | store => trivial
  cases l2_does hs with
  | found hits ht => exact hlookup _ ht
  | lookupFail ht => exact hlookup _ ht
  | fill hw =>
    refine h.of_sublist (fun _ => List.Sublist.refl _) fun j t _ hjt => ?_
    rw [hw] at hjt
    cases t <;> exact hjt
  | scribble => exact h
  | loaded hw ht => exact hload _ hw ht
  | loadFail hw ht => exact hload _ hw ht
  | @persist key obj todo hf =>
    refine h.of_sublist (fun j => ?_) fun _ _ _ hjt => hjt
    exact (tasksAt_persist s.l2s i (key, s.server.l1.bytes obj) j) ▸ List.Sublist.refl _
  | skip => exact h
  | stored | storeFail => exact h.pop fun _ _ _ hjt => hjt

theorem TaskInv.step {l : Label} (h : TaskInv s.l2s s.worker)
    (hs : s.step blake3 l = some s') : TaskInv s'.l2s s'.worker := by
  cases l with
  | recv t m =>
    obtain ⟨-, rfl⟩ := step_recv hs
    exact h
  | handler t =>
    obtain ⟨m, hd, srv', hd', -, -, rfl⟩ := step_handler hs
    exact h
  | worker =>
    obtain ⟨srv', l2s', w', hdoes, rfl⟩ := step_worker hs
    exact h.worker hdoes
  | writeback =>
    obtain ⟨srv', l2s', w', hdoes, rfl⟩ := step_writeback hs
    rcases Writeback.l2s_step hdoes with rfl | ⟨i, rfl⟩
    · exact h
    · exact h.submit (Or.inr rfl) trivial fun _ _ haw => haw
  | evictor =>
    rw [step_evictor hs]
    exact h
  | l2 i act => exact h.l2 hs

theorem taskInv_new (chunkSize capacity : ℕ) (pool : ℕ → UInt8) (adapters : ℕ) :
    TaskInv (new chunkSize capacity pool adapters).l2s .idle := by
  have hnil : ∀ i, tasksAt (new chunkSize capacity pool adapters).l2s i = [] := by
    intro i
    simp only [tasksAt, new, List.getElem?_replicate]
    split_ifs <;> rfl
  constructor
  · intro i task hm
    rw [hnil] at hm
    cases hm
  · intro i task _
    rw [hnil]
    exact Nat.zero_le _

theorem Reachable.taskInv (h : s.Reachable blake3) : TaskInv s.l2s s.worker := by
  obtain ⟨_, _, _, _, _, hrun⟩ := h
  exact hrun.invariant (fun s => TaskInv s.l2s s.worker) (taskInv_new _ _ _ _)
    fun _ _ _ hinv _ hs => hinv.step hs

end System

/-! ## After a failure -/

namespace Worker

/-- A future that the worker waits for has raised, or the worker is dead already. -/
def Failed : Worker → Prop
  | lookup _ _ _ futures => ∃ (i : ℕ) (e : Exc), futures[i]? = some (some (.error e))
  | loading _ _ _ _ (some (.error _)) => True
  | dead _ _ _ => True
  | _ => False

/-- The slots of the job, filled or not. -/
def reserved (w : Worker) : Multiset (ChunkKey × MemoryObj) := w.slots.map fun x => (x.key, x.obj)

theorem reserved_loadSlots (load : List (ChunkKey × MemoryObj)) (n : ℕ) :
    (loadSlots load n).map (fun x => (x.key, x.obj)) = load := by
  rw [loadSlots, List.map_append, List.map_map, List.map_map]
  simp only [Function.comp_def, Prod.mk.eta, List.map_id']
  exact List.take_append_drop n load

/-- The thread can only end, and it leaves its holds and its slots. -/
theorem Failed.step {srv srv' : CacheServer} {l2s l2s' : List Adapter} {w w' : Worker}
    (h : w.Failed) (hs : w.Does srv l2s srv' l2s' w') : w'.Failed ∧ srv' = srv ∧
      w'.jobIds = w.jobIds ∧ w'.holds = w.holds ∧ w'.reserved = w.reserved := by
  cases hs with
  | submitLookup =>
    obtain ⟨i, e, he⟩ := h
    have hlt := (List.getElem?_eq_some_iff.mp he).1
    exact ⟨⟨i, e, by rw [List.getElem?_append_left hlt, he]⟩, rfl, rfl, rfl, rfl⟩
  | lookupRaised => exact ⟨trivial, rfl, rfl, rfl, rfl⟩
  | lookupDone hc =>
    obtain ⟨i, e, he⟩ := h
    exact ((ne_none_of_collect hc).2 e (List.mem_of_getElem? he)).elim
  | loadRaised p order i filled e =>
    refine ⟨trivial, rfl, rfl, rfl, ?_⟩
    rw [reserved, reserved, slots, slots, Multiset.map_coe, Multiset.map_coe, reserved_loadSlots,
      reserved_loadSlots]
  | _ => cases h

end Worker

namespace System

variable {s s₁ s' : System}

/-- A lookup or a load that raises fails the job the worker is at. -/
theorem failed_of_fail (h : TaskInv s.l2s s.worker) {i : ℕ} {task : Task}
    (ht : s.oldest i = some task) (hne : task ≠ .store)
    (hs : s.step blake3 (.l2 i .fail) = some s₁) : s₁.worker.Failed := by
  cases l2_does hs with
  | lookupFail ht' =>
    obtain ⟨haw, -⟩ := h.oldest ht' nofun
    rcases worker_setLookup (s := s.popTask i) (r := .error .adapterError) haw with
      ⟨job, n, hit, futures, -, hnone, hw'⟩ | ⟨job, holds, slots, hw, hw'⟩
    · rw [hw']
      refine ⟨i, .adapterError, ?_⟩
      rw [List.getElem?_set_self (List.getElem?_eq_some_iff.mp hnone).1]
    · rw [hw', hw]
      trivial
  | loadFail => trivial
  | storeFail ht' =>
    rw [ht'] at ht
    exact (hne (Option.some.inj ht).symm).elim

/-- What a failed job leaves for good : nothing is resolved any more, the queue only grows,
and the worker keeps its place, its holds and its slots. -/
structure Stays (s s' : System) : Prop where
  tasks : TaskInv s'.l2s s'.worker
  failed : s'.worker.Failed
  jobIds : s'.worker.jobIds = s.worker.jobIds
  holds : s'.worker.holds = s.worker.holds
  reserved : s'.worker.reserved = s.worker.reserved
  jobs : s.server.jobs <+: s'.server.jobs
  hits : ∀ r v, s'.server.hits.get? r = some (some v) → s.server.hits.get? r = some (some v)

theorem Stays.of_server (h : Stays s₁ s) (htasks : TaskInv s'.l2s s'.worker)
    (hworker : s'.worker = s.worker) (hjobs : s.server.jobs <+: s'.server.jobs)
    (hhits : ∀ r v, s'.server.hits.get? r = some (some v) →
      s.server.hits.get? r = some (some v)) : Stays s₁ s' where
  tasks := htasks
  failed := hworker ▸ h.failed
  jobIds := hworker ▸ h.jobIds
  holds := hworker ▸ h.holds
  reserved := hworker ▸ h.reserved
  jobs := h.jobs.trans hjobs
  hits r v hv := h.hits r v (hhits r v hv)

/-- No handler resolves a request or takes a job. -/
theorem Handler.jobs_grow {srv srv' : CacheServer} {hd hd' : Handler}
    (hs : hd.Does blake3 srv srv' hd') : srv.jobs <+: srv'.jobs ∧
      ∀ r v, srv'.hits.get? r = some (some v) → srv.hits.get? r = some (some v) := by
  cases hs with
  | dispatch m =>
    obtain ⟨-, hhits, hjobs⟩ := Handler.dispatch_frame blake3 srv m
    rw [hhits, hjobs]
    exact ⟨List.prefix_rfl, fun _ _ h => h⟩
  | startSession job =>
    refine ⟨List.prefix_rfl, fun r v h => ?_⟩
    rw [CacheServer.startSession, OrderedDict.get?_set] at h
    split_ifs at h
    · cases h
    · exact h
  | putJob job => exact ⟨List.prefix_append _ _, fun _ _ h => h⟩
  | release hrel =>
    rw [CacheServer.eq_of_releaseHeld.1 _ hrel]
    exact ⟨List.prefix_rfl, fun _ _ h => h⟩
  | releaseFail hrel =>
    rw [CacheServer.eq_of_releaseHeld.2 _ hrel]
    exact ⟨List.prefix_rfl, fun _ _ h => h⟩
  | pop requestId =>
    refine ⟨List.prefix_rfl, fun r v h => ?_⟩
    rw [CacheServer.popSession, OrderedDict.get?_erase] at h
    split_ifs at h
    exact h
  | _ => exact ⟨List.prefix_rfl, fun _ _ h => h⟩

theorem Stays.l2 {i : ℕ} {act : L2Act} (h : Stays s₁ s)
    (hs : s.step blake3 (.l2 i act) = some s') : Stays s₁ s' := by
  have htasks := h.tasks.l2 hs
  have hfailed := h.failed
  have hsame : ∀ {t : System}, TaskInv t.l2s t.worker → t.worker = s.worker →
      t.server = s.server → Stays s₁ t := by
    intro t ht hw hsrv
    exact h.of_server ht hw (by rw [hsrv]) (by rw [hsrv]; exact fun _ _ h => h)
  have hlookup : ∀ r, s.oldest i = some .lookup →
      TaskInv ((s.popTask i).setLookup i r).l2s ((s.popTask i).setLookup i r).worker →
      Stays s₁ ((s.popTask i).setLookup i r) := by
    intro r ht htasks
    obtain ⟨haw, -⟩ := h.tasks.oldest ht nofun
    have hserver : ((s.popTask i).setLookup i r).server = s.server := server_setLookup _ _ _
    rcases worker_setLookup (s := s.popTask i) (r := r) haw with
      ⟨job, n, hit, futures, hw, hnone, hw'⟩ | ⟨job, holds, slots, -, hw'⟩
    · -- the future of the other adapter that raised is still there
      have hw : s.worker = _ := hw
      obtain ⟨htasks₀, hf, hjobIds, hholds, hreserved, hjobs, hhits⟩ := h
      rw [hw] at hf hjobIds hholds hreserved
      obtain ⟨j, e, he⟩ := hf
      have hij : i ≠ j := by
        rintro rfl
        rw [hnone] at he
        cases he
      refine ⟨htasks, ?_, ?_, ?_, ?_, ?_, ?_⟩
      · rw [hw']
        exact ⟨j, e, by rw [List.getElem?_set_ne hij, he]⟩
      · rw [hw']
        exact hjobIds
      · rw [hw']
        exact hholds
      · rw [hw']
        exact hreserved
      · rwa [hserver]
      · rwa [hserver]
    · exact hsame htasks hw' hserver
  cases l2_does hs with
  | found hits ht => exact hlookup _ ht htasks
  | lookupFail ht => exact hlookup _ ht htasks
  | fill hw | scribble hw | loaded hw | loadFail hw =>
    rw [hw] at hfailed
    cases hfailed
  | persist | skip | stored | storeFail => exact hsame htasks rfl rfl

theorem Stays.step {l : Label} (h : Stays s₁ s) (hs : s.step blake3 l = some s') :
    Stays s₁ s' := by
  have htasks := h.tasks.step hs
  cases l with
  | recv t m =>
    obtain ⟨-, rfl⟩ := step_recv hs
    exact h.of_server htasks rfl List.prefix_rfl fun _ _ h => h
  | handler t =>
    obtain ⟨m, hd, srv', hd', -, hdoes, rfl⟩ := step_handler hs
    exact h.of_server htasks rfl (Handler.jobs_grow hdoes).1 (Handler.jobs_grow hdoes).2
  | worker =>
    obtain ⟨srv', l2s', w', hdoes, rfl⟩ := step_worker hs
    obtain ⟨hf, rfl, hjobIds, hholds, hreserved⟩ := h.failed.step hdoes
    exact ⟨htasks, hf, hjobIds.trans h.jobIds, hholds.trans h.holds, hreserved.trans h.reserved,
      h.jobs, h.hits⟩
  | writeback =>
    obtain ⟨srv', l2s', w', hdoes, rfl⟩ := step_writeback hs
    obtain ⟨-, hhits, hjobs⟩ := Writeback.sessions_step hdoes
    refine h.of_server htasks rfl ?_ ?_
    · exact hjobs ▸ List.prefix_rfl
    · intro r v hv
      rwa [show srv'.hits = s.server.hits from hhits] at hv
  | evictor =>
    rw [step_evictor hs] at htasks ⊢
    refine h.of_server htasks rfl ?_ ?_
    · rcases s.evictor with _ | _ | _ | _ <;> exact List.prefix_rfl
    · rcases s.evictor with _ | _ | _ | _ <;> exact fun _ _ h => h
  | l2 i act => exact h.l2 hs

/-- A holder of the worker keeps the entry pinned beyond all sessions. -/
theorem Inv.pinned {lost : Multiset ChunkKey} (h : s.Inv blake3 lost) {k : ChunkKey}
    (hk : k ∈ s.worker.holds) : ∃ e, s.server.l1.entries.get? k = some e ∧
      (s.server.holders k + s.worker.holds.count k : ℤ) ≤ e.readCount := by
  have hmem : k ∈ s.holds + lost := by
    simp only [holds, Multiset.mem_add]
    exact Or.inl (Or.inl (Or.inr hk))
  obtain ⟨e, he, -⟩ := h.ledger.held k hmem
  refine ⟨e, he, ?_⟩
  have hcount := h.ledger.count k e he
  simp only [holds, Multiset.count_add] at hcount
  rw [s.server.count_sessions k] at hcount
  omega

/-- A slot of the worker is a write-locked entry. -/
theorem Inv.locked {lost : Multiset ChunkKey} (h : s.Inv blake3 lost) {p : ChunkKey × MemoryObj}
    (hp : p ∈ s.worker.reserved) : ∃ e, s.server.l1.entries.get? p.1 = some e ∧
      e.obj = p.2 ∧ e.writeLocked = true := by
  obtain ⟨x, hx, rfl⟩ := Multiset.mem_map.mp hp
  obtain ⟨-, e, he, hlocked, hobj, -⟩ :=
    h.ledger.slot x (Multiset.mem_add.mpr (Or.inr hx))
  exact ⟨e, he, hobj, hlocked⟩

/-- A lookup or a load that raises is the end of the prefetch worker : in every state that
can follow, the worker has not taken another job, and the queue has lost none; the holds the
job took are counted on top of all sessions' and its slots are write-locked; and no request
that was not resolved before is. -/
theorem failed_job_stays (h : s.Reachable blake3) {i : ℕ} {task : Task}
    (ht : s.oldest i = some task) (hne : task ≠ .store)
    (hs : s.step blake3 (.l2 i .fail) = some s₁) {ls : List Label}
    (hrun : Run (System.step blake3) (Distinct blake3) s₁ ls s') :
    s'.worker ≠ .idle ∧ s'.worker.jobIds = s₁.worker.jobIds ∧
      s₁.server.jobs <+: s'.server.jobs ∧
      (∀ k ∈ s₁.worker.holds, ∃ e, s'.server.l1.entries.get? k = some e ∧
        (s'.server.holders k + s₁.worker.holds.count k : ℤ) ≤ e.readCount) ∧
      (∀ p ∈ s₁.worker.reserved, ∃ e, s'.server.l1.entries.get? p.1 = some e ∧ e.obj = p.2 ∧
        e.writeLocked = true) ∧
      ∀ r v, s'.server.hits.get? r = some (some v) → s₁.server.hits.get? r = some (some v) := by
  obtain ⟨lost, hinv⟩ := h.inv
  have htasks := h.taskInv
  have hd : s.Distinct blake3 (.l2 i .fail) := trivial
  have h₁ : (∃ lost, s₁.Inv blake3 lost) ∧ Stays s₁ s₁ :=
    ⟨⟨_, (inv_step hinv hd hs).1⟩, htasks.step hs, failed_of_fail htasks ht hne hs, rfl, rfl,
      rfl, List.prefix_rfl, fun _ _ h => h⟩
  obtain ⟨⟨lost', hinv'⟩, hstays⟩ :=
    hrun.invariant (fun s => (∃ lost, s.Inv blake3 lost) ∧ Stays s₁ s) h₁
      fun _ _ _ ⟨⟨_, hinv⟩, hst⟩ hd hs => ⟨⟨_, (inv_step hinv hd hs).1⟩, hst.step hs⟩
  refine ⟨?_, hstays.jobIds, hstays.jobs, fun k hk => ?_, fun p hp => ?_, hstays.hits⟩
  · intro hidle
    have hf := hstays.failed
    rw [hidle] at hf
    exact hf
  · rw [← hstays.holds] at hk ⊢
    exact hinv'.pinned hk
  · rw [← hstays.reserved] at hp
    exact hinv'.locked hp

/-- `sampleStore`, the chunk is evicted, and the job of request `b` has just asked the
adapter to load it. -/
def sampleLoading : List Label :=
  sampleStore ++ [.evictor, .evictor, .evictor,
    .recv 2 (.lookup ⟨"b", [1], "m", 1⟩), .handler 2, .handler 2, .handler 2,
    .worker, .worker, .worker, .l2 0 (.found 1), .worker, .worker, .worker, .worker]

/-- Another request is looked up after the load has raised. -/
def sampleAfter : List Label :=
  [.worker, .recv 3 (.lookup ⟨"c", [1], "m", 1⟩), .handler 3, .handler 3, .handler 3]

theorem failed_job_stays_sample : ∃ s s₁ s', sample distinct 2 sampleLoading = some s ∧
    s.step sampleDigest (.l2 0 .fail) = some s₁ ∧
    replay (System.step sampleDigest) distinct s₁ sampleAfter = some s' ∧
    s'.worker ≠ .idle ∧ s₁.server.jobs <+: s'.server.jobs := by
  have hrun : (sample distinct 2 sampleLoading).map (fun s => (s.oldest 0,
      ((s.step sampleDigest (.l2 0 .fail)).bind fun s₁ =>
        replay (System.step sampleDigest) distinct s₁ sampleAfter).isSome)) =
      some (some .load, true) := by decide
  obtain ⟨s, hs, he⟩ := Option.map_eq_some_iff.mp hrun
  obtain ⟨ht, hafter⟩ := Prod.mk.inj he
  obtain ⟨s', hs'⟩ := Option.isSome_iff_exists.mp hafter
  obtain ⟨s₁, hs₁, hs'⟩ := Option.bind_eq_some_iff.mp hs'
  obtain ⟨hidle, -, hjobs, -⟩ := failed_job_stays (reachable_of_sample hs) ht nofun hs₁
    ((run_of_replay hs').mono fun _ _ hd => of_decide_eq_true hd)
  exact ⟨s, s₁, s', hs, hs₁, hs', hidle, hjobs⟩

/-- The load of request `b` raises : its slot stays write-locked, its status stays pending,
and the job of request `c` is never taken. -/
theorem failing_load_ends_worker : ∃ s,
    sample distinct 2 (sampleLoading ++ .l2 0 .fail :: sampleAfter) = some s ∧
    s.step sampleDigest .worker = none ∧ s.server.jobs.map Job.requestId = ["c"] ∧
    s.server.hits.get? "b" = some none ∧
    ∃ e, s.server.l1.entries.get? (sampleKey 1) = some e ∧ e.writeLocked = true := by
  have hrun : (sample distinct 2 (sampleLoading ++ .l2 0 .fail :: sampleAfter)).map (fun s =>
      ((s.step sampleDigest .worker).isNone,
        decide (s.server.jobs.map Job.requestId = ["c"] ∧ s.server.hits.get? "b" = some none),
        (s.server.l1.entries.get? (sampleKey 1)).map Entry.writeLocked)) =
      some (true, true, some true) := by decide
  obtain ⟨s, hs, he⟩ := Option.map_eq_some_iff.mp hrun
  simp only [Prod.mk.injEq, decide_eq_true_eq] at he
  obtain ⟨hstep, ⟨hjobs, hhits⟩, hentry⟩ := he
  exact ⟨s, hs, Option.isNone_iff_eq_none.mp hstep, hjobs, hhits, Option.map_eq_some_iff.mp hentry⟩

end System

end MiniLlmcache
