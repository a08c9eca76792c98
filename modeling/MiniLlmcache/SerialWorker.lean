import Mathlib.Algebra.GroupWithZero.Nat
import MiniLlmcache.Runs

/-!
# A worker thread behind a queue

Any number of threads submit tasks, each for a future of its own; one worker takes them out of the
queue in turn, works on each in steps of its own, and resolves its future. A `TaskMachine` says how
a task is started and what one step does; the step that ends a task gives its result, which may be
an exception like any other value.

`SerialWorker.serialized` : whatever the order in which submissions and steps interleave, the
futures are resolved in the order of submission, each with what its task gives when the tasks before
it were worked on one after the other and alone (`InTurn`). What has a result keeps it
(`Serialized.run`), and where tasks end, all tasks do : the worker can go on while one is left
(`Serialized.exists_step`), and only boundedly often (`length_le_measure`).
-/

variable {σ τ ρ ℓ : Type*}

/-- How a worker starts a task, and what a step of it does; a step that ends it has a result. -/
structure TaskMachine (σ τ ρ ℓ : Type*) where
  start : σ → τ → σ
  step : σ → ℓ → Option (σ × Option ρ)

namespace TaskMachine

variable (m : TaskMachine σ τ ρ ℓ)

/-- Steps that do not end the task. -/
inductive Works (s : σ) : σ → Prop
  | refl : Works s s
  | snoc {t t' : σ} {l : ℓ} : Works s t → m.step t l = some (t', none) → Works s t'

/-- A task worked on alone, from its start to its result. -/
def Exec (s : σ) (task : τ) (r : ρ) (s' : σ) : Prop :=
  ∃ t l, m.Works (m.start s task) t ∧ m.step t l = some (s', some r)

end TaskMachine

/-- Tasks in turn, each from the state that the one before it left. -/
inductive InTurn (R : σ → τ → ρ → σ → Prop) (s : σ) : List (τ × ρ) → σ → Prop
  | nil : InTurn R s [] s
  | snoc {tasks : List (τ × ρ)} {t t' : σ} {task : τ} {r : ρ} :
      InTurn R s tasks t → R t task r t' → InTurn R s (tasks ++ [(task, r)]) t'

namespace InTurn

variable {R : σ → τ → ρ → σ → Prop} {s t : σ} {tasks : List (τ × ρ)}

theorem append {more : List (τ × ρ)} {u : σ} (h : InTurn R s tasks t) (h' : InTurn R t more u) :
    InTurn R s (tasks ++ more) u := by
  induction h' with
  | nil => rwa [List.append_nil]
  | snoc _ hlast ih =>
    rw [← List.append_assoc]
    exact snoc ih hlast

/-- What every task does to a state, it does to a view of it. -/
theorem simulate {γ : Type*} {R' : γ → τ → ρ → γ → Prop} (I : σ → Prop) (view : σ → γ)
    (h : InTurn R s tasks t) (h0 : I s)
    (hsim : ∀ t task r t', I t → R t task r t' → I t' ∧ R' (view t) task r (view t')) :
    I t ∧ InTurn R' (view s) tasks (view t) := by
  induction h with
  | nil => exact ⟨h0, nil⟩
  | snoc _ hlast ih =>
    obtain ⟨hI, hR⟩ := hsim _ _ _ _ ih.1 hlast
    exact ⟨hI, snoc ih.2 hR⟩

/-- Tasks in turn on related states, when a task has one result on related states and leaves related
states. -/
theorem agree {γ : Type*} {R' : γ → τ → ρ → γ → Prop} (E : σ → γ → Prop) (P : τ → ρ → Prop)
    {s' t' : γ} {tasks' : List (τ × ρ)} (h : InTurn R s tasks t) (h' : InTurn R' s' tasks' t')
    (htasks : tasks.map Prod.fst = tasks'.map Prod.fst) (h0 : E s s')
    (hP : ∀ p ∈ tasks, P p.1 p.2)
    (hagree : ∀ u u' task r r' v v', P task r → E u u' → R u task r v → R' u' task r' v' →
      r = r' ∧ E v v') : tasks = tasks' ∧ E t t' := by
  induction h generalizing tasks' t' with
  | nil =>
    cases h' with
    | nil => exact ⟨rfl, h0⟩
    | snoc _ _ => simp at htasks
  | @snoc tasks t v task r _ hlast ih =>
    cases h' with
    | nil => simp at htasks
    | @snoc tasks' t' v' task' r' hall' hlast' =>
      rw [List.map_append, List.map_append] at htasks
      obtain ⟨hinit, heq⟩ := List.append_inj' htasks rfl
      obtain rfl : task = task' := List.singleton_injective heq
      obtain ⟨rfl, hE⟩ := ih hall' hinit fun p hp => hP p (List.mem_append_left _ hp)
      have htask := hP (task, r) (List.mem_append_right _ (List.mem_singleton_self _))
      obtain ⟨rfl, hE'⟩ := hagree _ _ _ _ _ _ _ htask hE hlast hlast'
      exact ⟨rfl, hE'⟩

/-- The task at place `i`, with the states before it and after it. -/
theorem getElem (h : InTurn R s tasks t) {i : ℕ} {task : τ} {r : ρ}
    (hi : tasks[i]? = some (task, r)) : ∃ u u', InTurn R s (tasks.take i) u ∧ R u task r u' := by
  induction h with
  | nil => cases hi
  | @snoc tasks t t' task' r' hall hlast ih =>
    rcases Nat.lt_or_ge i tasks.length with hlt | hge
    · rw [List.getElem?_append_left hlt] at hi
      rw [List.take_append_of_le_length (Nat.le_of_lt hlt)]
      exact ih hi
    · rw [List.getElem?_append_right hge] at hi
      obtain ⟨hlt, heq⟩ := List.getElem?_eq_some_iff.mp hi
      rw [List.length_singleton] at hlt
      obtain rfl : i = tasks.length := by omega
      rw [List.getElem_singleton] at heq
      cases heq
      refine ⟨t, t', ?_, hlast⟩
      rwa [List.take_left' rfl]

end InTurn

/-- A worker with the tasks that wait for it, each with the place of its future. -/
structure SerialWorker (σ τ ρ : Type*) where
  state : σ
  queue : List (ℕ × τ)
  /-- The task under way. -/
  current : Option (ℕ × τ)
  futures : List (Option ρ)
  /-- Every task submitted, oldest first (a ghost). -/
  submitted : List τ

inductive WorkerEvent (τ ℓ : Type*)
  | submit (task : τ)
  | take
  | work (l : ℓ)

/-- A step of the worker itself. -/
def WorkerEvent.own : WorkerEvent τ ℓ → Bool
  | submit _ => false
  | _ => true

namespace SerialWorker

/-- A worker that nothing was submitted to. -/
def new (s : σ) : SerialWorker σ τ ρ := ⟨s, [], none, [], []⟩

variable (m : TaskMachine σ τ ρ ℓ)

def step (w : SerialWorker σ τ ρ) : WorkerEvent τ ℓ → Option (SerialWorker σ τ ρ)
  | .submit task => some { w with
      queue := w.queue ++ [(w.futures.length, task)]
      futures := w.futures ++ [none]
      submitted := w.submitted ++ [task] }
  | .take =>
    match w.current, w.queue with
    | none, (i, task) :: queue =>
      some { w with state := m.start w.state task, queue, current := some (i, task) }
    | _, _ => none
  | .work l =>
    match w.current with
    | none => none
    | some (i, _) =>
      match m.step w.state l with
      | none => none
      | some (s, none) => some { w with state := s }
      | some (s, some r) =>
        some { w with state := s, current := none, futures := w.futures.set i (some r) }

/-- The tasks that are not done, each with the place of its future. -/
def left (w : SerialWorker σ τ ρ) : List (ℕ × τ) := w.current.toList ++ w.queue

/-- `done` are the tasks with a result, in the order of submission; the worker has the state they
left, or works from it on the next one. -/
structure Serialized (s : σ) (w : SerialWorker σ τ ρ) (done : List (τ × ρ)) (t : σ) : Prop where
  exec : InTurn m.Exec s done t
  state : match w.current with
    | none => w.state = t
    | some (_, task) => m.Works (m.start t task) w.state
  submitted : w.submitted = done.map Prod.fst ++ w.left.map Prod.snd
  places : w.left.map Prod.fst = List.range' done.length w.left.length
  futures : w.futures = done.map (fun p => some p.2) ++ List.replicate w.left.length none

variable {m} {s t : σ} {w w' : SerialWorker σ τ ρ} {done : List (τ × ρ)}

theorem Serialized.submit (h : Serialized m s w done t) (task : τ) :
    Serialized m s { w with
      queue := w.queue ++ [(w.futures.length, task)]
      futures := w.futures ++ [none]
      submitted := w.submitted ++ [task] } done t := by
  have hlen : w.futures.length = done.length + w.left.length := by
    rw [h.futures, List.length_append, List.length_map, List.length_replicate]
  have hleft : w.current.toList ++ (w.queue ++ [(w.futures.length, task)]) =
      w.left ++ [(w.futures.length, task)] := (List.append_assoc _ _ _).symm
  refine ⟨h.exec, h.state, ?_, ?_, ?_⟩
  · rw [left, hleft, List.map_append, h.submitted, List.append_assoc]
    rfl
  · rw [left, hleft, List.map_append, h.places, List.length_append, List.length_singleton,
      List.range'_concat, Nat.one_mul, hlen]
    rfl
  · rw [left, hleft, List.length_append, List.length_singleton, List.replicate_succ',
      ← List.append_assoc, ← h.futures]

theorem serialized_new (s : σ) : Serialized m s (new s) [] s := ⟨.nil, rfl, rfl, rfl, rfl⟩

/-- What one event does to the tasks done : nothing, or it adds the next one. -/
theorem Serialized.step {e : WorkerEvent τ ℓ} (h : Serialized m s w done t)
    (hs : w.step m e = some w') :
    ∃ more t', InTurn m.Exec t more t' ∧ Serialized m s w' (done ++ more) t' := by
  -- most events end no task
  have hsame : Serialized m s w' done t →
      ∃ more t', InTurn m.Exec t more t' ∧ Serialized m s w' (done ++ more) t' := fun h' =>
    ⟨[], t, .nil, by rwa [List.append_nil]⟩
  cases e with
  | submit task =>
    cases hs
    exact hsame (h.submit task)
  | take =>
    simp only [SerialWorker.step] at hs
    split at hs
    case h_2 => cases hs
    rename_i i task queue hcur hqueue
    cases hs
    have hstate := h.state
    rw [hcur] at hstate
    have hleft : w.left = (i, task) :: queue := by
      rw [left, hcur, hqueue]
      rfl
    have hsubmitted := h.submitted
    have hplaces := h.places
    have hfutures := h.futures
    rw [hleft] at hsubmitted hplaces hfutures
    refine hsame ⟨h.exec, ?_, hsubmitted, hplaces, hfutures⟩
    rw [hstate]
    exact .refl
  | work l =>
    simp only [SerialWorker.step] at hs
    split at hs
    case h_1 => cases hs
    rename_i i task hcur
    have hstate := h.state
    rw [hcur] at hstate
    have hleft : w.left = (i, task) :: w.queue := by
      rw [left, hcur]
      rfl
    have hplaces := h.places
    rw [hleft, List.map_cons, List.length_cons, List.range'_succ] at hplaces
    obtain ⟨hi, hrest⟩ := List.cons.inj hplaces
    split at hs
    case h_1 => cases hs
    case h_2 s' hmstep =>
      cases hs
      refine hsame ⟨h.exec, ?_, h.submitted, h.places, h.futures⟩
      rw [hcur]
      exact .snoc hstate hmstep
    case h_3 s' r hmstep =>
      cases hs
      have hexec : m.Exec t task r s' := ⟨_, l, hstate, hmstep⟩
      refine ⟨[(task, r)], s', .snoc .nil hexec, .snoc h.exec hexec, rfl, ?_, ?_, ?_⟩
      · rw [h.submitted, hleft, List.map_cons, List.map_append, List.append_assoc]
        rfl
      · rw [List.length_append, List.length_singleton]
        exact hrest
      · have hi : i = (done.map fun p => some p.2).length := hi.trans (List.length_map _).symm
        rw [h.futures, hleft, hi, List.length_cons, List.replicate_succ, List.set_append_right _ _
          (Nat.le_refl _), Nat.sub_self, List.map_append, List.append_assoc]
        rfl

/-- What is done stays done, and what comes after it is worked on from the state it left. -/
theorem Serialized.run {ok : SerialWorker σ τ ρ → WorkerEvent τ ℓ → Prop}
    {events : List (WorkerEvent τ ℓ)} (h : Serialized m s w done t)
    (hrun : Run (SerialWorker.step m) ok w events w') :
    ∃ more t', InTurn m.Exec t more t' ∧ Serialized m s w' (done ++ more) t' := by
  refine hrun.invariant
    (fun w' => ∃ more t', InTurn m.Exec t more t' ∧ Serialized m s w' (done ++ more) t') ?_ ?_
  · exact ⟨[], t, .nil, by rwa [List.append_nil]⟩
  · rintro v e v' ⟨more, u, hturn, hv⟩ _ hs
    obtain ⟨next, u', hnext, hv'⟩ := hv.step hs
    rw [List.append_assoc] at hv'
    exact ⟨more ++ next, u', hturn.append hnext, hv'⟩

/-- Futures are resolved in the order of submission, each with the result its task has when the
tasks before it are worked on one after the other. -/
theorem serialized {ok : SerialWorker σ τ ρ → WorkerEvent τ ℓ → Prop}
    {events : List (WorkerEvent τ ℓ)} (h : Run (step m) ok (new s) events w) :
    ∃ done t, Serialized m s w done t := by
  obtain ⟨done, t, -, hw⟩ := (serialized_new s).run h
  exact ⟨done, t, hw⟩

/-- A future that is resolved has the result of its own task. -/
theorem Serialized.of_resolved (h : Serialized m s w done t) {i : ℕ} {r : ρ}
    (hr : w.futures[i]? = some (some r)) :
    ∃ task, w.submitted[i]? = some task ∧ done[i]? = some (task, r) := by
  rw [h.futures] at hr
  rcases Nat.lt_or_ge i done.length with hlt | hge
  · rw [List.getElem?_append_left (by rwa [List.length_map]), List.getElem?_map,
      List.getElem?_eq_getElem hlt] at hr
    obtain hr := Option.some.inj (Option.some.inj hr)
    refine ⟨done[i].1, ?_, ?_⟩
    · rw [h.submitted, List.getElem?_append_left (by rwa [List.length_map]), List.getElem?_map,
        List.getElem?_eq_getElem hlt]
      rfl
    · rw [List.getElem?_eq_getElem hlt, ← hr]
  · rw [List.getElem?_append_right (by rwa [List.length_map]), List.getElem?_replicate] at hr
    split_ifs at hr
    cases hr

/-- A task that is done was submitted at its place, and its future is resolved. -/
theorem Serialized.resolved (h : Serialized m s w done t) {i : ℕ} {task : τ} {r : ρ}
    (hi : done[i]? = some (task, r)) :
    w.submitted[i]? = some task ∧ w.futures[i]? = some (some r) := by
  obtain ⟨hlt, -⟩ := List.getElem?_eq_some_iff.mp hi
  constructor
  · rw [h.submitted, List.getElem?_append_left (by rwa [List.length_map]), List.getElem?_map, hi]
    rfl
  · rw [h.futures, List.getElem?_append_left (by rwa [List.length_map]), List.getElem?_map, hi]
    rfl

theorem Serialized.take_submitted (h : Serialized m s w done t) {i : ℕ} (hi : i ≤ done.length) :
    w.submitted.take i = (done.take i).map Prod.fst := by
  rw [h.submitted, List.take_append_of_le_length (by rwa [List.length_map]), List.map_take]

/-- What is submitted has what the events ask of it. -/
theorem submitted_of_run {P : τ → Prop} {ok : SerialWorker σ τ ρ → WorkerEvent τ ℓ → Prop}
    {events : List (WorkerEvent τ ℓ)} (h : Run (step m) ok (new s) events w)
    (hok : ∀ w task, ok w (.submit task) → P task) : ∀ task ∈ w.submitted, P task := by
  refine h.invariant (fun w => ∀ task ∈ w.submitted, P task) (List.forall_mem_nil _) ?_
  intro w e w' hw he hs
  cases e with
  | submit task =>
    cases hs
    intro task' hmem
    rcases List.mem_append.mp hmem with hmem | hmem
    · exact hw task' hmem
    · rw [List.mem_singleton.mp hmem]
      exact hok w task he
  | take =>
    simp only [step] at hs
    split at hs
    · cases hs
      exact hw
    · cases hs
  | work l =>
    simp only [step] at hs
    split at hs
    · cases hs
    · split at hs
      · cases hs
      · cases hs
        exact hw
      · cases hs
        exact hw

/-! ## Every task ends -/

/-- What is left to do : `cost` bounds the steps of the task under way, and `costOf` what a task
costs that is not taken yet. -/
def measure (cost : σ → ℕ) (costOf : τ → ℕ) (w : SerialWorker σ τ ρ) : ℕ :=
  (w.current.elim 0 fun _ => cost w.state + 1) + (w.queue.map fun p => costOf p.2 + 2).sum

section measure

variable {cost : σ → ℕ} {costOf : τ → ℕ}

/-- Every step of the worker lowers what is left to do, when every step of a task lowers its
cost. -/
theorem measure_lt (hstart : ∀ s task, cost (m.start s task) ≤ costOf task)
    (hstep : ∀ s l s', m.step s l = some (s', none) → cost s' < cost s) {e : WorkerEvent τ ℓ}
    (hown : e.own = true) (hs : w.step m e = some w') :
    w'.measure cost costOf < w.measure cost costOf := by
  cases e with
  | submit task => cases hown
  | take =>
    simp only [step] at hs
    split at hs
    case h_2 => cases hs
    rename_i i task queue hcur hqueue
    cases hs
    have hle := hstart w.state task
    simp only [measure, hcur, hqueue, List.map_cons, List.sum_cons, Option.elim_some,
      Option.elim_none]
    omega
  | work l =>
    simp only [step] at hs
    split at hs
    case h_1 => cases hs
    rename_i i task hcur
    split at hs
    case h_1 => cases hs
    case h_2 s' hmstep =>
      cases hs
      have hlt := hstep _ _ _ hmstep
      simp only [measure, hcur, Option.elim_some]
      omega
    case h_3 s' r hmstep =>
      cases hs
      simp only [measure, hcur, Option.elim_some, Option.elim_none]
      omega

/-- Without further submissions only boundedly many steps are left. -/
theorem length_le_measure {ok : SerialWorker σ τ ρ → WorkerEvent τ ℓ → Prop}
    (hstart : ∀ s task, cost (m.start s task) ≤ costOf task)
    (hstep : ∀ s l s', m.step s l = some (s', none) → cost s' < cost s)
    (hown : ∀ w e, ok w e → e.own = true) {events : List (WorkerEvent τ ℓ)}
    (h : Run (step m) ok w events w') : events.length ≤ w.measure cost costOf := by
  have hle := h.length_add_le (I := fun _ => True) trivial
    fun v e v' _ ho hs => ⟨trivial, measure_lt hstart hstep (hown v e ho) hs⟩
  omega

end measure

/-- While tasks are left the worker can go on, whatever the task before gave, when a task under way
always can. -/
theorem Serialized.exists_step {P : ℓ → Prop} (h : Serialized m s w done t) (hleft : w.left ≠ [])
    (halive : ∀ u task v, m.Works (m.start u task) v → ∃ l, P l ∧ m.step v l ≠ none) :
    ∃ e, e.own = true ∧ (∀ l, e = .work l → P l) ∧ w.step m e ≠ none := by
  have hstate := h.state
  rcases hcur : w.current with _ | ⟨i, task⟩
  · rw [left, hcur] at hleft
    obtain ⟨⟨i, task⟩, queue, hqueue⟩ : ∃ p queue, w.queue = p :: queue :=
      List.exists_cons_of_ne_nil hleft
    refine ⟨.take, rfl, by rintro l ⟨⟩, ?_⟩
    simp only [SerialWorker.step, hcur, hqueue]
    rintro ⟨⟩
  · rw [hcur] at hstate
    obtain ⟨l, hl, hsome⟩ := halive t task w.state hstate
    refine ⟨.work l, rfl, by rintro _ ⟨⟩; exact hl, ?_⟩
    simp only [SerialWorker.step, hcur]
    rcases hmstep : m.step w.state l with _ | ⟨s', _ | r⟩
    · exact (hsome hmstep).elim
    · rintro ⟨⟩
    · rintro ⟨⟩

/-- Two workers on related states give a task one result, if they were given the same tasks up to
it. -/
theorem agree {γ ℓ' : Type*} {m' : TaskMachine γ τ ρ ℓ'} {s' : γ} {v : SerialWorker γ τ ρ}
    {ok : SerialWorker σ τ ρ → WorkerEvent τ ℓ → Prop}
    {ok' : SerialWorker γ τ ρ → WorkerEvent τ ℓ' → Prop} {events : List (WorkerEvent τ ℓ)}
    {events' : List (WorkerEvent τ ℓ')} (E : σ → γ → Prop) (P : τ → ρ → Prop)
    (h : Run (step m) ok (new s) events w) (h' : Run (step m') ok' (new s') events' v)
    (hP : ∀ (i : ℕ) task r, w.submitted[i]? = some task → w.futures[i]? = some (some r) → P task r)
    (h0 : E s s') (hagree : ∀ u u' task r r' t t', P task r → E u u' → m.Exec u task r t →
      m'.Exec u' task r' t' → r = r' ∧ E t t')
    {i : ℕ} {r r' : ρ} (hsame : w.submitted.take (i + 1) = v.submitted.take (i + 1))
    (hr : w.futures[i]? = some (some r)) (hr' : v.futures[i]? = some (some r')) : r = r' := by
  obtain ⟨done, t, hw⟩ := serialized h
  obtain ⟨done', t', hv⟩ := serialized h'
  obtain ⟨task, hsub, hdone⟩ := hw.of_resolved hr
  obtain ⟨task', hsub', hdone'⟩ := hv.of_resolved hr'
  obtain rfl : task = task' := by
    have hat := congrArg (·[i]?) hsame
    simp only [List.getElem?_take_of_lt (Nat.lt_succ_self i), hsub, hsub', Option.some.injEq] at hat
    exact hat
  have hlt := (List.getElem?_eq_some_iff.mp hdone).1
  have hlt' := (List.getElem?_eq_some_iff.mp hdone').1
  have hbefore : (done.take i).map Prod.fst = (done'.take i).map Prod.fst := by
    have hat := congrArg (List.take i) hsame
    rw [List.take_take, List.take_take, Nat.min_eq_left (Nat.le_succ i)] at hat
    rw [← hw.take_submitted (Nat.le_of_lt hlt), ← hv.take_submitted (Nat.le_of_lt hlt'), hat]
  obtain ⟨u, t, hturn, hexec⟩ := hw.exec.getElem hdone
  obtain ⟨u', t', hturn', hexec'⟩ := hv.exec.getElem hdone'
  have hall : ∀ p ∈ done.take i, P p.1 p.2 := fun p hp => by
    obtain ⟨j, hj⟩ := List.mem_iff_getElem?.mp (List.mem_of_mem_take hp)
    obtain ⟨hsub, hr⟩ := hw.resolved hj
    exact hP j p.1 p.2 hsub hr
  have hE := (hturn.agree E P hturn' hbefore h0 hall hagree).2
  exact (hagree u u' task r r' t t' (hP i task r hsub hr) hE hexec hexec').1

end SerialWorker
