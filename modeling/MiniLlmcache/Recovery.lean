import Mathlib.Algebra.BigOperators.Group.Finset.Piecewise
import Mathlib.Algebra.Order.BigOperators.Group.Finset
import MiniLlmcache.LookupReach
import MiniLlmcache.Restart

/-!
# A lookup after a restart

`Reach` is about one `prefetch` call over adapters that hold given contents. Here the adapters are
the directories of a `Node` : their threads take the lookups and loads that the worker submits and
answer them file by file, in any order. `Node.Finding.step` says that this is a call of that kind :
every step either lowers what is left of the call (`Reach.rank`) or what is left of the tasks
(`Node.left`).

`Node.lookup_over_directories` : the call always ends and publishes what the directories have.
`Node.restart_finds_written_back` puts it together with `Persisted` and `keeps_of_run` : whatever
was written back is found again, by this process or a later one.
-/

namespace MiniLlmcache

variable {blake3 : Bytes → Bytes}

/-- The steps of a prefetch over the directories, while nothing else runs and nothing raises. -/
def NodeLabel.looksUp : NodeLabel → Bool
  | .run .worker | .take _ | .disk _ .next => true
  | _ => false

theorem Worker.eq_of_awaited {w : Worker} {i : ℕ} {task : Task} (h : w.awaited i = [task]) :
    (task = .lookup ∧ ∃ job c hit futures, w = .lookup job c hit futures) ∨
      task = .load ∧ ∃ p order filled, w = .loading p order i filled none := by
  cases w with
  | lookup job c hit futures =>
    rw [Worker.awaited] at h
    split_ifs at h
    cases h
    exact Or.inl ⟨rfl, job, c, hit, futures, rfl⟩
  | loading p order j filled future =>
    cases future with
    | none =>
      rw [Worker.awaited] at h
      split_ifs at h with hij
      cases h
      exact Or.inr ⟨rfl, p, order, filled, hij ▸ rfl⟩
    | some x => cases h
  | _ => cases h

namespace Node

variable {n n' : Node} {r : Reach}

/-- What the directory of adapter `i` has for a chunk. -/
def contents (n : Node) (i : ℕ) (key : ChunkKey) : Option Bytes :=
  (n.dirs[i]?).bind fun fs => fs.stored? (filename key)

/-- The call, over directories that have what `r` says. -/
structure Finding (blake3 : Bytes → Bytes) (r : Reach) (n : Node) : Prop where
  coherent : n.Coherent blake3
  at_ : r.At n.system.server n.system.l2s n.system.worker
  contents : ∀ i < r.adapters, ∀ k ∈ r.job.keys, r.contents i k = n.contents i k
  looking : ∀ (i : ℕ) (fs : FSAdapter), n.dirs[i]? = some fs → ∀ todo hits,
    fs.thread = .lookup todo hits → todo <:+ r.rest ∧
      r.found i = hits + holding r.contents i todo

theorem Finding.length (h : n.Finding blake3 r) : n.dirs.length = r.adapters :=
  h.coherent.length.trans h.at_.adapters

theorem Finding.lt (h : n.Finding blake3 r) {i : ℕ} {fs : FSAdapter} (hfs : n.dirs[i]? = some fs) :
    i < r.adapters := h.length ▸ (List.getElem?_eq_some_iff.mp hfs).1

theorem Finding.contents_eq (h : n.Finding blake3 r) {i : ℕ} {fs : FSAdapter}
    (hfs : n.dirs[i]? = some fs) {k : ChunkKey} (hk : k ∈ r.job.keys) :
    r.contents i k = fs.stored? (filename k) := by
  rw [h.contents i (h.lt hfs) k hk, Node.contents, hfs, Option.bind_some]

/-- What a thread works on is what the worker waits for. -/
theorem Finding.awaited (h : n.Finding blake3 r) {i : ℕ} {fs : FSAdapter} {task : Task}
    (hfs : n.dirs[i]? = some fs) (ht : fs.thread.task = some task) :
    n.system.worker.awaited i = [task] :=
  h.at_.awaited ((h.coherent.synced i fs hfs).oldest task ht)

theorem Finding.no_store (h : n.Finding blake3 r) {i : ℕ} {fs : FSAdapter}
    (hfs : n.dirs[i]? = some fs) : fs.thread.task ≠ some .store := by
  intro ht
  rcases Worker.eq_of_awaited (h.awaited hfs ht) with ⟨⟨⟩, -⟩ | ⟨⟨⟩, -⟩

/-- The lookup that the worker waits for. -/
theorem Finding.lookup (h : n.Finding blake3 r) {i : ℕ}
    (haw : n.system.worker.awaited i = [.lookup]) :
    ∃ c futures, n.system.worker = .lookup r.job c r.hit futures := by
  rcases Worker.eq_of_awaited haw with ⟨-, job, c, hit, futures, hw⟩ | ⟨⟨⟩, -⟩
  have hstage := h.at_.stage
  rw [hw] at hstage
  cases hstage with
  | lookup => exact ⟨c, futures, hw⟩

theorem holding_cons_of_some {contents : ℕ → ChunkKey → Option Bytes} {i : ℕ} {k : ChunkKey}
    {keys : List ChunkKey} (h : (contents i k).isSome) :
    holding contents i (k :: keys) = holding contents i keys + 1 := by
  rw [holding, List.takeWhile_cons_of_pos (by simpa using h), List.length_cons, holding]

theorem holding_cons_of_none {contents : ℕ → ChunkKey → Option Bytes} {i : ℕ} {k : ChunkKey}
    {keys : List ChunkKey} (h : contents i k = none) : holding contents i (k :: keys) = 0 := by
  rw [holding, List.takeWhile_cons_of_neg (by simp [h]), List.length_nil]

theorem mem_keys_of_rest {k : ChunkKey} (hk : k ∈ r.rest) : k ∈ r.job.keys :=
  List.mem_of_mem_drop hk

/-- The thread's next access : the process sees nothing of it, or an answer that the directory
gives. -/
theorem Finding.answers (h : n.Finding blake3 r) (hr : r.Fits) {i : ℕ} {fs fs' : FSAdapter}
    (hfs : n.dirs[i]? = some fs) (hs : fs.next = some fs') :
    (n.system.sees fs .next = [] ∧ ∃ todo hits k, fs.thread = .lookup (k :: todo) hits ∧
      fs'.thread = .lookup todo (hits + 1) ∧ (r.contents i k).isSome) ∨
    ∃ act, n.system.sees fs .next = [act] ∧ Answers r.contents n.system (.l2 i act) = true ∧
      ∀ todo hits, fs'.thread ≠ .lookup todo hits := by
  have hstore := h.no_store hfs
  unfold FSAdapter.next at hs
  simp only [System.sees]
  split at hs <;> rename_i ht <;> rw [ht] at hstore ⊢
  case h_1 => cases hs
  case h_2 | h_3 | h_4 | h_5 => exact (hstore rfl).elim
  case h_6 hits =>
    cases hs
    obtain ⟨c, futures, hw⟩ := h.lookup (h.awaited hfs (by rw [ht]; rfl))
    obtain ⟨-, hfound⟩ := h.looking i fs hfs _ _ ht
    refine Or.inr ⟨_, rfl, ?_, by rintro _ _ ⟨⟩⟩
    simp only [Answers, hw, beq_iff_eq]
    exact hfound.symm
  case h_7 key todo hits =>
    dsimp only
    obtain ⟨hsuffix, hfound⟩ := h.looking i fs hfs _ _ ht
    have hkey := mem_keys_of_rest (hsuffix.subset List.mem_cons_self)
    have hcontents := h.contents_eq hfs hkey
    rw [OrderedDict.contains]
    split at hs <;> rename_i hget <;> rw [FSAdapter.stored?] at hget <;> rw [hget]
    · cases hs
      obtain ⟨c, futures, hw⟩ := h.lookup (h.awaited hfs (by rw [ht]; rfl))
      refine Or.inr ⟨_, rfl, ?_, by rintro _ _ ⟨⟩⟩
      rw [holding_cons_of_none (hcontents.trans hget), Nat.add_zero] at hfound
      simp only [Answers, hw, beq_iff_eq]
      exact hfound.symm
    · cases hs
      exact Or.inl ⟨rfl, todo, hits, key, rfl, rfl, by
        rw [hcontents, FSAdapter.stored?, hget]
        rfl⟩
  case h_8 loaded =>
    cases hs
    obtain ⟨p, order, hw, htodo⟩ := (h.coherent.synced i fs hfs).loading _ _ ht
    refine Or.inr ⟨_, rfl, ?_, by rintro _ _ ⟨⟩⟩
    have hend : p.load[p.loaded + loaded]? = none := by
      have hnil := List.map_eq_nil_iff.mp htodo.symm
      rw [List.getElem?_eq_none_iff]
      exact List.drop_eq_nil_iff.mp hnil
    simp [Answers, hw, nextBlob, hend]
  case h_9 key nbytes todo loaded =>
    dsimp only
    obtain ⟨p, order, x, hw, hget, hslot⟩ := (h.coherent.synced i fs hfs).target ht
    obtain ⟨rfl, rfl⟩ := Prod.mk.inj hslot
    have hstage := h.at_.stage
    rw [hw] at hstage
    cases hstage with
    | loading hp =>
      have hmem := List.mem_of_getElem? hget
      have hkey : x.1 ∈ r.job.keys := mem_keys_of_rest (List.mem_of_mem_take
        (Reach.loadable_prefix_reachable.subset (hp.keys ▸ List.mem_map_of_mem hmem)))
      have hcontents := h.contents_eq hfs hkey
      have hnext : nextBlob r.contents i p loaded = fs.stored? (filename x.1) := by
        rw [nextBlob, hget, Option.bind_some, hcontents]
      rcases hfile : fs.stored? (filename x.1) with _ | data <;> rw [hfile] at hs
      · cases hs
        refine Or.inr ⟨_, rfl, ?_, by rintro _ _ ⟨⟩⟩
        simp [Answers, hw, hnext, hfile]
      · have hlen : data.length = x.2.nbytes :=
          (hr.whole _ hp.known i x.1 data (hcontents.trans hfile)).trans (hp.sized x hmem).symm
        simp only [if_neg (not_lt.mpr hlen.ge)] at hs ⊢
        cases hs
        refine Or.inr ⟨_, rfl, ?_, by rintro _ _ ⟨⟩⟩
        simp [Answers, hw, hnext, hfile, ← hlen]

theorem files_next {fs fs' : FSAdapter} (hs : fs.next = some fs')
    (hstore : fs.thread.task ≠ some .store) : fs'.files = fs.files := by
  unfold FSAdapter.next at hs
  split at hs <;> rename_i ht <;> rw [ht] at hstore
  case h_1 => cases hs
  case h_2 | h_3 | h_4 | h_5 => exact (hstore rfl).elim
  case h_7 =>
    split at hs <;> cases hs <;> rfl
  case h_9 =>
    split at hs
    · cases hs
      rfl
    · split_ifs at hs <;> cases hs <;> rfl
  all_goals
    cases hs
    rfl

theorem contents_set {i : ℕ} {fs fs' : FSAdapter} (hfs : n.dirs[i]? = some fs)
    (hfiles : fs'.files = fs.files) (system : System) (j : ℕ) (k : ChunkKey) :
    ({ n with system, dirs := n.dirs.set i fs' } : Node).contents j k = n.contents j k := by
  rw [contents, contents]
  dsimp only
  by_cases hij : i = j
  · subst hij
    rw [List.getElem?_set_self (List.getElem?_eq_some_iff.mp hfs).1, hfs, Option.bind_some,
      Option.bind_some, FSAdapter.stored?, hfiles, FSAdapter.stored?]
  · rw [List.getElem?_set_ne hij]

/-! ## What is left to do -/

variable (r) in
/-- Accesses that the thread of adapter `i` can make before the process sees one. -/
def left (n : Node) (i : ℕ) : ℕ :=
  (n.dirs[i]?).elim 0 fun fs =>
    match fs.thread with
    | .idle => if tasksAt n.system.l2s i = [] then 0 else r.job.keys.length + 1
    | .lookup todo _ => todo.length
    | _ => 0

variable (r) in
def measure (n : Node) : ℕ :=
  r.rank n.system.worker * (r.job.keys.length + 2) + ∑ i ∈ Finset.range r.adapters, n.left r i

theorem length_rest_le : r.rest.length ≤ r.job.keys.length := by
  rw [Reach.rest, List.length_drop]
  exact Nat.sub_le _ _

theorem Finding.left_le (h : n.Finding blake3 r) (i : ℕ) : n.left r i ≤ r.job.keys.length + 1 := by
  unfold left
  rcases hfs : n.dirs[i]? with _ | fs
  · exact Nat.zero_le _
  · rw [Option.elim_some]
    split
    · split_ifs
      · exact Nat.zero_le _
      · exact le_rfl
    · rename_i todo hits ht
      obtain ⟨hsuffix, -⟩ := h.looking i fs hfs todo hits ht
      exact (hsuffix.length_le.trans length_rest_le).trans (Nat.le_succ _)
    · exact Nat.zero_le _

theorem left_congr {i : ℕ} (hdir : n'.dirs[i]? = n.dirs[i]?)
    (htasks : tasksAt n'.system.l2s i = tasksAt n.system.l2s i) : n'.left r i = n.left r i := by
  rw [left, left, hdir, htasks]

/-- A step that the worker sees. -/
theorem measure_lt_of_rank (h' : n'.Finding blake3 r)
    (hrank : r.rank n'.system.worker < r.rank n.system.worker) {j : ℕ}
    (hsame : ∀ i, i ≠ j → n'.left r i = n.left r i) : n'.measure r < n.measure r := by
  have hsum : ∑ i ∈ Finset.range r.adapters, n'.left r i ≤
      ∑ i ∈ Finset.range r.adapters, n.left r i + (r.job.keys.length + 1) := by
    have hle : ∀ i ∈ Finset.range r.adapters,
        n'.left r i ≤ n.left r i + if i = j then r.job.keys.length + 1 else 0 := by
      intro i _
      split_ifs with hij
      · exact (h'.left_le i).trans (Nat.le_add_left _ _)
      · exact (hsame i hij).le
    refine (Finset.sum_le_sum hle).trans ?_
    rw [Finset.sum_add_distrib, Finset.sum_ite_eq']
    split_ifs <;> omega
  have hmul : (r.rank n'.system.worker + 1) * (r.job.keys.length + 2) ≤
      r.rank n.system.worker * (r.job.keys.length + 2) := Nat.mul_le_mul_right _ hrank
  rw [Nat.add_mul, Nat.one_mul] at hmul
  unfold measure
  omega

/-- A step that it does not see. -/
theorem measure_lt_of_left (hworker : n'.system.worker = n.system.worker) {j : ℕ}
    (hj : j < r.adapters) (hlt : n'.left r j < n.left r j)
    (hsame : ∀ i, i ≠ j → n'.left r i = n.left r i) : n'.measure r < n.measure r := by
  have hsum : ∑ i ∈ Finset.range r.adapters, n'.left r i <
      ∑ i ∈ Finset.range r.adapters, n.left r i := by
    refine Finset.sum_lt_sum (fun i _ => ?_) ⟨j, Finset.mem_range.mpr hj, hlt⟩
    by_cases hij : i = j
    · exact hij ▸ hlt.le
    · exact (hsame i hij).le
  unfold measure
  rw [hworker]
  omega

/-- The tasks of the other adapters. -/
theorem tasksAt_l2 {s s' : System} {i : ℕ} {act : L2Act} (hs : s.step blake3 (.l2 i act) = some s')
    {j : ℕ} (hij : j ≠ i) : tasksAt s'.l2s j = tasksAt s.l2s j := by
  have hpop : tasksAt (s.popTask i).l2s j = tasksAt s.l2s j := by
    rw [System.tasksAt_popTask, if_neg hij.symm]
  cases System.l2_does hs with
  | found | lookupFail =>
    rw [System.l2s_setLookup]
    exact hpop
  | fill | scribble | skip => rfl
  | loaded | loadFail | stored | storeFail => exact hpop
  | persist => exact tasksAt_persist _ _ _ _

theorem Finding.worker {system : System} (h : n.Finding blake3 r) (hr : r.Fits)
    (hs : n.system.step blake3 .worker = some system) :
    ({ n with system } : Node).Finding blake3 r ∧
      ({ n with system } : Node).measure r < n.measure r := by
  obtain ⟨hat, hrank⟩ := h.at_.step hr (l := .worker) rfl hs
  have hstep : n.step blake3 (.run .worker) = some { n with system } :=
    congrArg (Option.map fun system => ({ n with system } : Node)) hs
  have h' : ({ n with system } : Node).Finding blake3 r :=
    ⟨h.coherent.step (l := .run .worker) trivial hstep, hat, h.contents, h.looking⟩
  obtain ⟨srv', l2s', w', hdoes, rfl⟩ := System.step_worker hs
  refine ⟨h', ?_⟩
  rcases Worker.l2s_step hdoes with rfl | ⟨j, task, -, rfl⟩
  · exact measure_lt_of_rank (j := 0) h' hrank fun i _ => left_congr rfl rfl
  · refine measure_lt_of_rank h' hrank (j := j) fun i hij => left_congr rfl ?_
    rcases tasksAt_submit n.system.l2s j task i with heq | ⟨rfl, -⟩
    · exact heq
    · exact (hij rfl).elim

/-- The files of the directories after a step of one of them. -/
theorem Finding.set {i : ℕ} {fs fs' : FSAdapter} {system : System} (h : n.Finding blake3 r)
    (hc : ({ n with system, dirs := n.dirs.set i fs' } : Node).Coherent blake3)
    (hat : r.At system.server system.l2s system.worker) (hfs : n.dirs[i]? = some fs)
    (hfiles : fs'.files = fs.files) (hlook : ∀ todo hits, fs'.thread = .lookup todo hits →
      todo <:+ r.rest ∧ r.found i = hits + holding r.contents i todo) :
    ({ n with system, dirs := n.dirs.set i fs' } : Node).Finding blake3 r := by
  refine ⟨hc, hat, fun j hj k hk => ?_, fun j fs₁ hfs₁ todo hits ht => ?_⟩
  · rw [contents_set hfs hfiles]
    exact h.contents j hj k hk
  · rcases eq_or_getElem?_of_set hfs₁ with ⟨rfl, rfl⟩ | ⟨-, hfs₁⟩
    · exact hlook todo hits ht
    · exact h.looking j fs₁ hfs₁ todo hits ht

theorem Finding.take {i : ℕ} {fs fs' : FSAdapter} {task : FSTask} (h : n.Finding blake3 r)
    (hfs : n.dirs[i]? = some fs) (htask : n.system.nextTask i = some task)
    (hs : fs.step (.submit task) = some fs') :
    ({ n with dirs := n.dirs.set i fs' } : Node).Finding blake3 r ∧
      ({ n with dirs := n.dirs.set i fs' } : Node).measure r < n.measure r := by
  have hstep : n.step blake3 (.take i) = some { n with dirs := n.dirs.set i fs' } := by
    rw [Node.step, hfs, htask, Option.bind_some, Option.bind_some, hs]
    rfl
  have hc := h.coherent.step (l := .take i) trivial hstep
  simp only [FSAdapter.step, Option.ite_none_right_eq_some, Option.some.injEq] at hs
  obtain ⟨hidle, rfl⟩ := hs
  have hlt : i < n.dirs.length := (List.getElem?_eq_some_iff.mp hfs).1
  -- what was to be taken counts for more than what it is
  have hold : n.left r i = if tasksAt n.system.l2s i = [] then 0 else r.job.keys.length + 1 := by
    rw [left, hfs, Option.elim_some, hidle]
  have hdone : ∀ {t : Task}, n.system.oldest i = some t →
      (fs.submit task).files = fs.files →
      (∀ todo hits, (fs.submit task).thread = .lookup todo hits →
        todo <:+ r.rest ∧ r.found i = hits + holding r.contents i todo) →
      ({ n with dirs := n.dirs.set i (fs.submit task) } : Node).left r i ≤ r.job.keys.length →
      ({ n with dirs := n.dirs.set i (fs.submit task) } : Node).Finding blake3 r ∧
        ({ n with dirs := n.dirs.set i (fs.submit task) } : Node).measure r < n.measure r := by
    intro t ht hfiles hlook hleft
    refine ⟨h.set hc h.at_ hfs hfiles hlook, measure_lt_of_left rfl (h.lt hfs) ?_ fun j hij =>
      left_congr (List.getElem?_set_ne hij.symm) rfl⟩
    rw [System.oldest_eq] at ht
    rw [hold, if_neg fun hnil => by rw [hnil] at ht; cases ht]
    exact Nat.lt_succ_of_le hleft
  have hleft : ({ n with dirs := n.dirs.set i (fs.submit task) } : Node).left r i =
      match (fs.submit task).thread with
      | .idle => if tasksAt n.system.l2s i = [] then 0 else r.job.keys.length + 1
      | .lookup todo _ => todo.length
      | _ => 0 := by
    rw [left, List.getElem?_set_self hlt, Option.elim_some]
  unfold System.nextTask at htask
  split at htask
  · rename_i ht
    obtain ⟨c, futures, hw⟩ := h.lookup (h.at_.awaited ht)
    rw [hw] at htask
    cases htask
    refine hdone ht rfl ?_ (hleft ▸ length_rest_le)
    rintro _ _ ⟨⟩
    exact ⟨List.suffix_rfl, (Nat.zero_add _).symm⟩
  · rename_i ht
    split at htask
    · split_ifs at htask
      cases htask
      exact hdone ht rfl (by rintro _ _ ⟨⟩) (hleft ▸ Nat.zero_le _)
    · cases htask
  · rename_i ht
    rcases Worker.eq_of_awaited (h.at_.awaited ht) with ⟨⟨⟩, -⟩ | ⟨⟨⟩, -⟩
  · cases htask

theorem Finding.next {i : ℕ} {fs fs' : FSAdapter} {system : System} (h : n.Finding blake3 r)
    (hr : r.Fits) (hfs : n.dirs[i]? = some fs) (hs : fs.next = some fs')
    (hsys : n.system.answer blake3 i (n.system.sees fs .next) = some system) :
    ({ n with system, dirs := n.dirs.set i fs' } : Node).Finding blake3 r ∧
      ({ n with system, dirs := n.dirs.set i fs' } : Node).measure r < n.measure r := by
  have hstep : n.step blake3 (.disk i .next) =
      some { n with system, dirs := n.dirs.set i fs' } := by
    have hnext : fs.step .next = some fs' := hs
    simp only [Node.step, hfs, hnext, hsys, Option.bind_some, Option.map_some]
  have hc := h.coherent.step (l := .disk i .next) trivial hstep
  have hfiles := files_next hs (h.no_store hfs)
  have hlt : i < n.dirs.length := (List.getElem?_eq_some_iff.mp hfs).1
  rcases h.answers hr hfs hs with ⟨hsees, todo, hits, k, ht, ht', hk⟩ | ⟨act, hsees, hans, hlook⟩
  · rw [hsees] at hsys
    cases hsys
    obtain ⟨hsuffix, hfound⟩ := h.looking i fs hfs _ _ ht
    refine ⟨h.set hc h.at_ hfs hfiles ?_, measure_lt_of_left rfl (h.lt hfs) ?_ fun j hij =>
      left_congr (List.getElem?_set_ne hij.symm) rfl⟩
    · intro todo' hits' heq
      rw [ht'] at heq
      cases heq
      rw [holding_cons_of_some hk] at hfound
      exact ⟨(List.suffix_cons k todo).trans hsuffix, by omega⟩
    · rw [left, left, List.getElem?_set_self hlt, hfs, Option.elim_some, Option.elim_some, ht, ht']
      exact Nat.lt_succ_self _
  · rw [hsees, System.answer_singleton] at hsys
    obtain ⟨hat, hrank⟩ := h.at_.step hr hans hsys
    have h' := h.set hc hat hfs hfiles fun todo hits ht => (hlook todo hits ht).elim
    exact ⟨h', measure_lt_of_rank h' hrank fun j hij =>
      left_congr (List.getElem?_set_ne hij.symm) (tasksAt_l2 hsys hij)⟩

/-- The step lemma. -/
theorem Finding.step {l : NodeLabel} (h : n.Finding blake3 r) (hr : r.Fits) (hl : l.looksUp = true)
    (hs : n.step blake3 l = some n') : n'.Finding blake3 r ∧ n'.measure r < n.measure r := by
  cases steps_of_step hs with
  | @run l system _ hsys =>
    cases l with
    | worker => exact h.worker hr hsys
    | _ => cases hl
  | take hfs htask hstep => exact h.take hfs htask hstep
  | @disk i l fs fs' system _ hfs hstep hsys =>
    cases l with
    | next => exact h.next hr hfs hstep hsys
    | _ => cases hl
  | restart => cases hl

/-! ## The call ends -/

theorem exists_oldest {s : System} {i : ℕ} {act : L2Act}
    (hs : (s.step blake3 (.l2 i act)).isSome) : ∃ task, s.oldest i = some task := by
  simp only [System.step] at hs
  split at hs
  · rename_i task tasks heq
    obtain ⟨a, ha, htasks⟩ := Option.map_eq_some_iff.mp heq
    exact ⟨task, by rw [System.oldest, ha, Option.bind_some, htasks, List.head?_cons]⟩
  · cases hs

theorem Finding.progress (h : n.Finding blake3 r) (hr : r.Fits) :
    n.system.worker = .idle ∨ ∃ l, l.looksUp = true ∧ n.step blake3 l ≠ none := by
  rcases h.at_.progress blake3 hr with hidle | ⟨l, hans, hsome⟩
  · exact Or.inl hidle
  · refine Or.inr ?_
    cases l with
    | worker =>
      obtain ⟨system, hsys⟩ := Option.isSome_iff_exists.mp hsome
      refine ⟨.run .worker, rfl, ?_⟩
      have hstep : n.step blake3 (.run .worker) = some { n with system } :=
        congrArg (Option.map fun system => ({ n with system } : Node)) hsys
      rw [hstep]
      rintro ⟨⟩
    | l2 i act =>
      obtain ⟨task, ht⟩ := exists_oldest hsome
      have hi : i < n.dirs.length := by
        rw [h.coherent.length]
        obtain ⟨a, ha, -⟩ := Option.bind_eq_some_iff.mp ht
        exact (List.getElem?_eq_some_iff.mp ha).1
      have hfs := List.getElem?_eq_getElem hi
      by_cases hidle : n.dirs[i].thread = .idle
      · obtain ⟨n', hn'⟩ := h.coherent.exists_take hfs hidle ht
        refine ⟨.take i, rfl, ?_⟩
        rw [hn']
        rintro ⟨⟩
      · obtain ⟨fs', hnext⟩ := FSAdapter.exists_next hidle fun key blob count todo ht =>
            absurd (congrArg FSThread.task ht) (h.no_store hfs)
        obtain ⟨n', hn'⟩ := h.coherent.exists_disk_step (Or.inl rfl) hfs hnext
        refine ⟨.disk i .next, rfl, ?_⟩
        rw [hn']
        rintro ⟨⟩
    | _ => cases hans

/-- The worker has just taken the job, and the threads of the adapters have nothing to do. -/
theorem finding_of_alone (hc : n.Coherent blake3) (ha : r.Alone n.system)
    (hcontents : ∀ i < r.adapters, ∀ k ∈ r.job.keys, r.contents i k = n.contents i k) :
    n.Finding blake3 r := by
  refine ⟨hc, Reach.alone_at ha, hcontents, fun i fs hfs todo hits ht => ?_⟩
  have hold := (hc.synced i fs hfs).oldest .lookup (by rw [ht]; rfl)
  rw [System.oldest_eq, ha.tasks] at hold
  cases hold

/-- A prefetch over directories always ends, after a bounded number of accesses and steps, and
publishes the readable prefix and the longest prefix of the rest that one directory has, exactly
when no key of that second prefix is resident. -/
theorem lookup_over_directories (hc : n.Coherent blake3) (hr : r.Fits) (ha : r.Alone n.system)
    (hcontents : ∀ i < r.adapters, ∀ k ∈ r.job.keys, r.contents i k = n.contents i k) :
    (∀ labels n', Run (Node.step blake3) (fun _ l => l.looksUp = true) n labels n' →
      labels.length ≤ n.measure r) ∧
    ∀ labels n', Run (Node.step blake3) (fun _ l => l.looksUp = true) n labels n' →
      (∀ l, l.looksUp = true → n'.step blake3 l = none) →
      ∃ l1Hits l2Hits, n'.system.server.hits.get? r.job.requestId = some (some (l1Hits, l2Hits)) ∧
        (l1Hits + l2Hits = r.hit + r.best ↔ (r.job.chunkNbytes = none → r.reachable = []) ∧
          ∀ k ∈ r.reachable, r.l1.entries.get? k = none) := by
  have hfinding := finding_of_alone hc ha hcontents
  refine ⟨fun labels n' hrun => ?_, fun labels n' hrun hstuck => ?_⟩
  · have hle := hrun.length_add_le (I := fun t => t.Finding blake3 r) (μ := fun t => t.measure r)
      hfinding fun _ _ _ ht hl hs => ht.step hr hl hs
    omega
  · have h' := hrun.invariant (fun t => t.Finding blake3 r) hfinding
      fun t l t' ht hl hs => (ht.step hr hl hs).1
    rcases h'.progress hr with hidle | ⟨l, hl, hsome⟩
    · have hstage := h'.at_.stage
      rw [hidle] at hstage
      cases hstage with
      | published hhits => exact ⟨_, _, hhits, Reach.length_reached_iff⟩
    · exact (hsome (hstuck l hl)).elim

/-- `k` was in a batch that the write-back loop went through with, in this process or an earlier
one. -/
def WrittenBack (blake3 : Bytes → Bytes) (n : Node) (k : ChunkKey) : Prop :=
  ∃ (chunkSize capacity : ℕ) (pool : ℕ → UInt8) (adapters : ℕ) (labels labels' : List NodeLabel)
    (n₀ : Node) (keys : List ChunkKey),
    Run (Node.step blake3) (Distinct blake3) (new chunkSize capacity pool adapters) labels n₀ ∧
    n₀.system.writeback = .finishRead keys ∧ k ∈ keys ∧
    Run (Node.step blake3) (Distinct blake3) n₀ labels' n

/-- What was written back has a file in every directory. -/
theorem WrittenBack.contents {k : ChunkKey} (h : n.WrittenBack blake3 k) {i : ℕ}
    (hi : i < n.dirs.length) : (n.contents i k).isSome := by
  obtain ⟨chunkSize, capacity, pool, adapters, labels, labels', n₀, keys, h₀, hdone, hk, hrun⟩ := h
  obtain ⟨hc, hp⟩ := persisted_of_run h₀
  have hfs' := List.getElem?_eq_getElem hi
  obtain ⟨fs, hfs, hkeep⟩ := (keeps_of_run hc hrun).2 i _ hfs'
  have hhas := hkeep.has (hp.done keys hdone k hk i fs hfs)
  rw [Node.contents, hfs']
  exact hhas

/-- What was written back is found again. When every chunk that a LOOKUP asks for was written back,
by this process or by one that died since, there is an adapter, and none of the chunks is in L1, as
after a restart, then the prefetch ends, and the two counts it publishes add up to all of them. -/
theorem restart_finds_written_back {chunkSize capacity adapters : ℕ} {pool : ℕ → UInt8}
    {labels : List NodeLabel}
    (h : Run (Node.step blake3) (Distinct blake3) (new chunkSize capacity pool adapters) labels n)
    (hr : r.Fits) (ha : r.Alone n.system)
    (hcontents : ∀ i < r.adapters, ∀ k ∈ r.job.keys, r.contents i k = n.contents i k)
    (hknown : r.job.chunkNbytes ≠ none) (hadapters : 0 < r.adapters)
    (hback : ∀ k ∈ r.job.keys, n.WrittenBack blake3 k)
    (hgone : ∀ k ∈ r.job.keys, r.l1.entries.get? k = none) :
    (∃ bound, ∀ labels n', Run (Node.step blake3) (fun _ l => l.looksUp = true) n labels n' →
      labels.length ≤ bound) ∧
    ∀ labels n', Run (Node.step blake3) (fun _ l => l.looksUp = true) n labels n' →
      (∀ l, l.looksUp = true → n'.step blake3 l = none) →
      ∃ l1Hits l2Hits, n'.system.server.hits.get? r.job.requestId = some (some (l1Hits, l2Hits)) ∧
        l1Hits + l2Hits = r.job.keys.length := by
  have hc := h.invariant (Coherent blake3) (coherent_new _ _ _ _) fun _ _ _ hc hd hs =>
    hc.step hd hs
  obtain ⟨hbound, hends⟩ := lookup_over_directories hc hr ha hcontents
  refine ⟨⟨_, hbound⟩, fun labels n' hrun hstuck => ?_⟩
  obtain ⟨l1Hits, l2Hits, hhits, hiff⟩ := hends labels n' hrun hstuck
  refine ⟨l1Hits, l2Hits, hhits, ?_⟩
  have hmem : ∀ k ∈ r.reachable, k ∈ r.job.keys := fun k hk =>
    mem_keys_of_rest (List.mem_of_mem_take hk)
  rw [hiff.mpr ⟨fun hnone => (hknown hnone).elim, fun k hk => hgone k (hmem k hk)⟩]
  -- the first directory has all of the rest
  have hdirs : 0 < n.dirs.length := by
    rw [hc.length, ha.adapters]
    exact hadapters
  have hfound : r.found 0 = r.rest.length := by
    rw [Reach.found, holding, List.takeWhile_eq_self_iff.mpr fun k hk => ?_]
    rw [hcontents 0 hadapters k (mem_keys_of_rest hk)]
    exact (hback k (mem_keys_of_rest hk)).contents hdirs
  have hbest : r.best = r.rest.length :=
    Reach.best_le.antisymm (hfound ▸ Finset.le_sup (f := r.found) (Finset.mem_range.mpr hadapters))
  have hhit : r.hit ≤ r.job.keys.length := L1Manager.readablePrefix_le _ _
  rw [hbest, Reach.rest, List.length_drop]
  omega

/-- A prefetch that is over does not step again. -/
theorem stuck_of_idle (hw : n.system.worker = .idle) (hjobs : n.system.server.jobs = [])
    (hidle : ∀ fs ∈ n.dirs, fs.thread = .idle) (htasks : ∀ i, tasksAt n.system.l2s i = [])
    (l : NodeLabel) (hl : l.looksUp = true) : n.step blake3 l = none := by
  rcases hs : n.step blake3 l with _ | n'
  · rfl
  · cases steps_of_step hs with
    | @run l system _ hsys =>
      cases l with
      | worker =>
        rw [System.step, hw, Worker.step, hjobs] at hsys
        cases hsys
      | _ => cases hl
    | @take i fs fs' task hfs htask =>
      rw [System.nextTask, System.oldest_eq, htasks] at htask
      cases htask
    | @disk i l fs fs' system _ hfs hstep =>
      cases l with
      | next =>
        have hnext : fs.next = some fs' := hstep
        rw [FSAdapter.next, hidle fs (List.mem_of_getElem? hfs)] at hnext
        cases hnext
      | _ => cases hl
    | restart => cases hl

/-- The process that stored `[1]` has died; request `b` looks it up in the next one. -/
def sampleLookUp : List NodeLabel :=
  .restart 1 2 (fun _ => 0) [] :: ([.recv 0 (.registerKvCache ⟨7, "m", 0, 1, 1, 2⟩), .handler 0,
    .recv 1 (.lookup ⟨"b", [1], "m", 1⟩), .handler 1, .handler 1, .handler 1,
    .worker] : List Label).map .run

/-- Its prefetch. -/
def samplePrefetch : List NodeLabel :=
  [.run .worker, .run .worker, .take 0, .disk 0 .next, .disk 0 .next, .run .worker, .run .worker,
    .run .worker, .run .worker, .take 0, .disk 0 .next, .disk 0 .next, .run .worker, .run .worker,
    .run .worker, .run .worker, .run .worker]

/-- What request `b` looks up there. -/
def sampleFinding (n : Node) : Reach := System.sampleReach n.system [1]

/-- The chunk is found. -/
theorem restart_finds_written_back_sample : ∃ n labels n' l1Hits l2Hits,
    (sampleFinding n).Fits ∧ (sampleFinding n).Alone n.system ∧
    Run (Node.step System.sampleDigest) (fun _ l => l.looksUp = true) n labels n' ∧
    n'.system.server.hits.get? "b" = some (some (l1Hits, l2Hits)) ∧ l1Hits + l2Hits = 1 := by
  have hrun : (sample sampleWriteBack).map (fun n₀ =>
      (decide (n₀.system.writeback = .finishRead [System.sampleKey 1]),
        (replay (step System.sampleDigest)
          (fun n l => decide (n.Distinct System.sampleDigest l ∧ n.Apart)) n₀ sampleLookUp).map
            fun n => (System.fitsAlone (sampleFinding n) n.system,
              decide (n.contents 0 (System.sampleKey 1) = some [5, 6] ∧
                (sampleFinding n).job.keys = [System.sampleKey 1] ∧
                n.system.server.l1.entries.keys = []),
              (replay (step System.sampleDigest) (fun _ l => l.looksUp) n samplePrefetch).map
                fun n' => decide (n'.system.worker = .idle ∧ n'.system.server.jobs = [] ∧
                  n'.system.l2s = [⟨[], []⟩] ∧ n'.dirs.map (·.thread) = [.idle])))) =
      some (true, some (true, true, some true)) := by decide
  obtain ⟨n₀, hn₀, he⟩ := Option.map_eq_some_iff.mp hrun
  obtain ⟨hdone, hnext⟩ := Prod.mk.inj he
  obtain ⟨n, hn, he⟩ := Option.map_eq_some_iff.mp hnext
  simp only [Prod.mk.injEq, decide_eq_true_eq] at he
  obtain ⟨hfits, ⟨hcontents, hkeys, hempty⟩, hafter⟩ := he
  obtain ⟨n', hn', hend⟩ := Option.map_eq_some_iff.mp hafter
  obtain ⟨hidle, hjobs, hl2s, hthreads⟩ := of_decide_eq_true hend
  have hwritten := (run_of_sample hn₀).mono fun _ _ hok => hok.1
  have hthen := (run_of_replay hn).mono fun _ _ hok => (of_decide_eq_true hok).1
  have hstart := hwritten.trans hthen
  have hc := hstart.invariant (Coherent System.sampleDigest) (coherent_new _ _ _ _)
    fun _ _ _ hc hd hs => hc.step hd hs
  obtain ⟨lost, hinv⟩ := hc.sane.inv
  obtain ⟨hf, ha⟩ := System.fits_of_fitsAlone hinv.ledger.inUse hfits
  have hback : ∀ k ∈ (sampleFinding n).job.keys, n.WrittenBack System.sampleDigest k := by
    intro k hk
    rw [hkeys] at hk
    exact ⟨_, _, _, _, _, _, n₀, _, hwritten, of_decide_eq_true hdone, hk, hthen⟩
  have hsame : ∀ i < (sampleFinding n).adapters, ∀ k ∈ (sampleFinding n).job.keys,
      (sampleFinding n).contents i k = n.contents i k := by
    intro i hi k hk
    rw [hkeys, List.mem_singleton] at hk
    obtain rfl : i = 0 := Nat.lt_one_iff.mp hi
    rw [hk, hcontents]
    rfl
  have hnone : ∀ k, n.system.server.l1.entries.get? k = none := fun k => by
    rw [OrderedDict.get?_eq_none_iff, hempty]
    exact List.not_mem_nil
  have hthread : ∀ fs ∈ n'.dirs, fs.thread = .idle := fun fs hfs =>
    List.mem_singleton.mp (hthreads ▸ List.mem_map_of_mem hfs)
  have htasks : ∀ i, tasksAt n'.system.l2s i = [] := fun i => by
    rw [hl2s]
    rcases i with _ | i <;> rfl
  obtain ⟨-, hends⟩ := restart_finds_written_back hstart hf ha hsame (by rintro ⟨⟩) Nat.one_pos
    hback fun k _ => hnone k
  obtain ⟨l1Hits, l2Hits, hhits, hsum⟩ := hends _ n' (run_of_replay hn')
    (stuck_of_idle hidle hjobs hthread htasks)
  have hlen : (sampleFinding n).job.keys.length = 1 := by
    rw [hkeys]
    rfl
  exact ⟨n, _, n', l1Hits, l2Hits, hf, ha, run_of_replay hn', hhits, hsum.trans hlen⟩

end Node

end MiniLlmcache
