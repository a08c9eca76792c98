import Mathlib.Data.List.Basic
import Mathlib.Logic.Function.Basic
import MiniLlmcache.Runs

/-!
# Locks taken in order

Threads that take locks and wait for futures. A future is submitted to a service, and the worker
of the service runs the tasks of its queue one after the other. A program is a `Code` over what
matters here : a lock around a block, branches, loops, and `gather`, which submits tasks to services
and waits for them in turn. Its traces (`Code.Trace`) are all sequences of actions it may take, with
an exception anywhere.

Locks and services have ranks. A code is `ok` when it takes a lock, or waits for a service, only
above all locks it holds; the job of a worker also only above its own service. Then no set of
threads is deadlocked (`no_deadlock`) : whoever provides what a thread of rank `r` waits for, waits
for something above `r`.
-/

set_option linter.unusedSectionVars false

namespace LockOrder

variable {ι L A : Type*}

/-- What a thread may wait for. -/
inductive Resource (L A : Type*)
  | lock (l : L)
  | service (a : A)

inductive Act (L A : Type*)
  | acquire (l : L)
  | release (l : L)
  /-- A new future of the service. -/
  | submit (a : A)
  /-- Wait for the oldest own future of the service. -/
  | await (a : A)
deriving DecidableEq

/-! ## Programs -/

inductive Code (L A : Type*)
  /-- Code that takes no lock and waits for nothing. -/
  | pass
  | seq (c d : Code L A)
  /-- `with lock:` around a block. -/
  | withLock (l : L) (c : Code L A)
  | either (c d : Code L A)
  | many (c : Code L A)
  /-- Submit to the services in order, then wait for all in order. -/
  | gather (as : List A)

inductive Exit
  | ended
  | raised

/-- The actions of a run of the code. Any part of it may raise, which releases its locks. -/
inductive Code.Trace : Code L A → List (Act L A) → Exit → Prop
  | pass (x : Exit) : Trace .pass [] x
  | seq {c d : Code L A} {tr tr' : List (Act L A)} {x : Exit} :
      Trace c tr .ended → Trace d tr' x → Trace (.seq c d) (tr ++ tr') x
  | seqRaised {c d : Code L A} {tr : List (Act L A)} :
      Trace c tr .raised → Trace (.seq c d) tr .raised
  | withLock {l : L} {c : Code L A} {tr : List (Act L A)} {x : Exit} :
      Trace c tr x → Trace (.withLock l c) (.acquire l :: tr ++ [.release l]) x
  | left {c d : Code L A} {tr : List (Act L A)} {x : Exit} :
      Trace c tr x → Trace (.either c d) tr x
  | right {c d : Code L A} {tr : List (Act L A)} {x : Exit} :
      Trace d tr x → Trace (.either c d) tr x
  | done {c : Code L A} : Trace (.many c) [] .ended
  | again {c : Code L A} {tr tr' : List (Act L A)} {x : Exit} :
      Trace c tr .ended → Trace (.many c) tr' x → Trace (.many c) (tr ++ tr') x
  | againRaised {c : Code L A} {tr : List (Act L A)} :
      Trace c tr .raised → Trace (.many c) tr .raised
  | gather (as : List A) : Trace (.gather as) (as.map .submit ++ as.map .await) .ended
  /-- A future raises; those after it are not waited for. -/
  | gatherRaised (as : List A) (n : ℕ) :
      Trace (.gather as) (as.map .submit ++ (as.take n).map .await) .raised

/-! ## Ranks -/

section Rank

variable (rank : Resource L A → ℕ) (base : Option A)

/-- `x` ranks above the locks held, and above the service that is worked for. -/
def Above (held : List L) (x : Resource L A) : Prop :=
  (∀ a ∈ base, rank (.service a) < rank x) ∧ ∀ l ∈ held, rank (.lock l) < rank x

/-- Every lock taken and every service waited for is above. -/
def Code.Ok (held : List L) : Code L A → Prop
  | .pass => True
  | .seq c d | .either c d => c.Ok held ∧ d.Ok held
  | .withLock l c => Above rank base held (.lock l) ∧ c.Ok (l :: held)
  | .many c => c.Ok held
  | .gather as => ∀ a ∈ as, Above rank base held (.service a)

variable [DecidableEq L]

/-- The same for actions, which end without locks. -/
def Ordered : List L → List (Act L A) → Prop
  | held, [] => held = []
  | held, .acquire l :: acts => Above rank base held (.lock l) ∧ Ordered (l :: held) acts
  | held, .release l :: acts => l ∈ held ∧ Ordered (held.filter (· ≠ l)) acts
  | held, .submit _ :: acts => Ordered held acts
  | held, .await a :: acts => Above rank base held (.service a) ∧ Ordered held acts

variable {rank base}

theorem ordered_submit_append {held : List L} {acts : List (Act L A)} : ∀ as : List A,
    Ordered rank base held acts → Ordered rank base held (as.map .submit ++ acts)
  | [], h => h
  | _ :: as, h => ordered_submit_append as h

theorem ordered_await_append {held : List L} {acts : List (Act L A)} : ∀ as : List A,
    (∀ a ∈ as, Above rank base held (.service a)) → Ordered rank base held acts →
    Ordered rank base held (as.map .await ++ acts)
  | [], _, h => h
  | a :: as, has, h => ⟨has a List.mem_cons_self,
      ordered_await_append as (fun b hb => has b (List.mem_cons_of_mem a hb)) h⟩

/-- A trace of an `ok` code goes before any ordered actions. -/
theorem Code.Trace.ordered_append {c : Code L A} {tr : List (Act L A)} {x : Exit}
    (h : c.Trace tr x) : ∀ {held : List L} {acts : List (Act L A)}, c.Ok rank base held →
      Ordered rank base held acts → Ordered rank base held (tr ++ acts) := by
  induction h with
  | pass x => exact fun _ h => h
  | seq _ _ ih ih' =>
    intro held acts hok hacts
    rw [List.append_assoc]
    exact ih hok.1 (ih' hok.2 hacts)
  | seqRaised _ ih => exact fun hok hacts => ih hok.1 hacts
  | @withLock l c tr x _ ih =>
    intro held acts hok hacts
    have hnot : l ∉ held := fun hl => Nat.lt_irrefl _ (hok.1.2 l hl)
    have hrest : Ordered rank base (l :: held) (.release l :: acts) := by
      refine ⟨List.mem_cons_self, ?_⟩
      rw [List.filter_cons_of_neg (by simp), List.filter_eq_self.mpr]
      · exact hacts
      · exact fun l' hl' => decide_eq_true fun heq => hnot (heq ▸ hl')
    have hassoc : Act.acquire l :: tr ++ [.release l] ++ acts =
        .acquire l :: (tr ++ .release l :: acts) := by simp
    rw [hassoc]
    exact ⟨hok.1, ih hok.2 hrest⟩
  | left _ ih => exact fun hok hacts => ih hok.1 hacts
  | right _ ih => exact fun hok hacts => ih hok.2 hacts
  | done => exact fun _ h => h
  | again _ _ ih ih' =>
    intro held acts hok hacts
    rw [List.append_assoc]
    exact ih hok (ih' hok hacts)
  | againRaised _ ih => exact fun hok hacts => ih hok hacts
  | gather as =>
    intro held acts hok hacts
    rw [List.append_assoc]
    exact ordered_submit_append as (ordered_await_append as hok hacts)
  | gatherRaised as n =>
    intro held acts hok hacts
    rw [List.append_assoc]
    refine ordered_submit_append as (ordered_await_append _ (fun a ha => ?_) hacts)
    exact hok a (List.mem_of_mem_take ha)

end Rank

/-! ## Threads -/

structure Thread (L A : Type*) where
  todo : List (Act L A)
  /-- Its futures, with their services, oldest first. -/
  futures : List (ℕ × A)

end LockOrder

open LockOrder in
/-- Threads `inl`, and the workers `inr` of the services. -/
structure LockOrder (ι L A : Type*) where
  threads : ι ⊕ A → Thread L A
  owner : L → Option (ι ⊕ A)
  queue : A → List ℕ
  /-- The future a worker is running the task of. -/
  current : A → Option ℕ
  done : List ℕ
  nextFuture : ℕ

namespace LockOrder

variable {ι L A : Type*}

def init : LockOrder ι L A :=
  ⟨fun _ => ⟨[], []⟩, fun _ => none, fun _ => [], fun _ => none, [], 0⟩

inductive Label (ι L A : Type*)
  /-- An idle thread begins a run of its code. -/
  | start (i : ι) (acts : List (Act L A))
  | act (p : ι ⊕ A)
  /-- An idle worker takes the next task. -/
  | take (a : A) (acts : List (Act L A))
  /-- A worker is through, and resolves the future. -/
  | resolve (a : A)

variable [DecidableEq ι] [DecidableEq L] [DecidableEq A]

def setThread (s : LockOrder ι L A) (p : ι ⊕ A) (t : Thread L A) : LockOrder ι L A :=
  { s with threads := Function.update s.threads p t }

/-- The oldest future of `p` that is of service `a`. -/
def awaited (s : LockOrder ι L A) (p : ι ⊕ A) (a : A) : Option (ℕ × A) :=
  (s.threads p).futures.find? fun f => f.2 = a

/-- The next action of `p`, unless it has to wait. -/
def act (s : LockOrder ι L A) (p : ι ⊕ A) : Option (LockOrder ι L A) :=
  match s.threads p with
  | ⟨[], _⟩ => none
  | ⟨.acquire l :: todo, futures⟩ =>
    if s.owner l = none then
      some { s.setThread p ⟨todo, futures⟩ with owner := Function.update s.owner l (some p) }
    else none
  | ⟨.release l :: todo, futures⟩ =>
    some { s.setThread p ⟨todo, futures⟩ with owner := Function.update s.owner l none }
  | ⟨.submit a :: todo, futures⟩ =>
    some { s.setThread p ⟨todo, futures ++ [(s.nextFuture, a)]⟩ with
      queue := Function.update s.queue a (s.queue a ++ [s.nextFuture])
      nextFuture := s.nextFuture + 1 }
  | ⟨.await a :: todo, futures⟩ =>
    match s.awaited p a with
    | none => some (s.setThread p ⟨todo, futures⟩)
    | some f => if f.1 ∈ s.done then some (s.setThread p ⟨todo, futures.erase f⟩) else none

def step (s : LockOrder ι L A) : Label ι L A → Option (LockOrder ι L A)
  | .start i acts =>
    if (s.threads (.inl i)).todo = [] then some (s.setThread (.inl i) ⟨acts, []⟩) else none
  | .act p => s.act p
  | .take a acts =>
    match s.current a, s.queue a with
    | none, f :: queue =>
      some { s.setThread (.inr a) ⟨acts, []⟩ with
        queue := Function.update s.queue a queue
        current := Function.update s.current a (some f) }
    | _, _ => none
  | .resolve a =>
    match s.current a, (s.threads (.inr a)).todo with
    | some f, [] =>
      some { s with current := Function.update s.current a none, done := f :: s.done }
    | _, _ => none

/-- Threads run their codes, and workers their jobs. -/
def Allowed (code : ι → Code L A) (job : A → Code L A) (_ : LockOrder ι L A) :
    Label ι L A → Prop
  | .start i acts => ∃ x, (code i).Trace acts x
  | .take a acts => ∃ x, (job a).Trace acts x
  | .act _ | .resolve _ => True

def Reachable (code : ι → Code L A) (job : A → Code L A) (s : LockOrder ι L A) : Prop :=
  ∃ ls, Run LockOrder.step (Allowed code job) init ls s

/-! ## Waiting -/

/-- `p` waits for the lock or the future `x`. -/
def Waits (s : LockOrder ι L A) (p : ι ⊕ A) (x : Resource L A) : Prop :=
  match x with
  | .lock l => ∃ todo, (s.threads p).todo = .acquire l :: todo ∧ s.owner l ≠ none
  | .service a => ∃ todo, (s.threads p).todo = .await a :: todo ∧
      ∃ f, s.awaited p a = some f ∧ f.1 ∉ s.done

/-- `q` holds the lock that `p` waits for, or has the task of its future. -/
def Provides (s : LockOrder ι L A) (p q : ι ⊕ A) (x : Resource L A) : Prop :=
  match x with
  | .lock l => s.owner l = some q
  | .service a => q = .inr a ∧ ∃ f, s.awaited p a = some f ∧
      (f.1 ∈ s.queue a ∨ s.current a = some f.1)

/-- Every thread of the set waits, for what only threads of the set can provide. -/
def Deadlocked (s : LockOrder ι L A) (D : Set (ι ⊕ A)) : Prop :=
  D.Nonempty ∧ ∀ p ∈ D, ∃ x, s.Waits p x ∧ ∀ q, s.Provides p q x → q ∈ D

/-! ## The invariant -/

/-- The service a worker is working for. -/
def base (s : LockOrder ι L A) : ι ⊕ A → Option A
  | .inl _ => none
  | .inr a => (s.current a).map fun _ => a

/-- What a thread is still to do is in order, and the tasks of its futures are with their
workers until they are done. -/
structure Inv (rank : Resource L A → ℕ) (s : LockOrder ι L A) : Prop where
  ordered : ∀ p, ∃ held, (∀ l, l ∈ held ↔ s.owner l = some p) ∧
    Ordered rank (s.base p) held (s.threads p).todo
  idle : ∀ a, s.current a = none → (s.threads (.inr a)).todo = []
  futures : ∀ p, ∀ f ∈ (s.threads p).futures,
    f.1 ∈ s.done ∨ f.1 ∈ s.queue f.2 ∨ s.current f.2 = some f.1

variable {rank : Resource L A → ℕ} {s s' : LockOrder ι L A} {p : ι ⊕ A}

theorem inv_init : (init : LockOrder ι L A).Inv rank := by
  refine ⟨fun p => ⟨[], ?_, rfl⟩, fun a _ => rfl, ?_⟩
  · simp [init]
  · simp [init]

theorem mem_of_awaited {a : A} {f : ℕ × A} (h : s.awaited p a = some f) :
    f ∈ (s.threads p).futures ∧ f.2 = a := by
  refine ⟨List.mem_of_find?_eq_some h, ?_⟩
  simpa using List.find?_some h

/-- Thread `p` goes on, and locks change hands between it and nobody. -/
theorem Inv.setThread (h : s.Inv rank) {t : Thread L A} {owner : L → Option (ι ⊕ A)}
    {queue : A → List ℕ} {n : ℕ} (hbusy : ∀ a, p = .inr a → s.current a ≠ none)
    (hheld : ∃ held, (∀ l, l ∈ held ↔ owner l = some p) ∧ Ordered rank (s.base p) held t.todo)
    (howner : ∀ q, q ≠ p → ∀ l, owner l = some q ↔ s.owner l = some q)
    (hqueue : ∀ a, ∀ f ∈ s.queue a, f ∈ queue a)
    (hfutures : ∀ f ∈ t.futures, f ∈ (s.threads p).futures ∨ f.1 ∈ queue f.2) :
    ({ s.setThread p t with owner, queue, nextFuture := n } : LockOrder ι L A).Inv rank := by
  have hself : (s.setThread p t).threads p = t := by simp [LockOrder.setThread]
  have hother : ∀ q, q ≠ p → (s.setThread p t).threads q = s.threads q := fun q hq => by
    simp [LockOrder.setThread, hq]
  have hplace : ∀ f : ℕ × A, (f.1 ∈ s.done ∨ f.1 ∈ s.queue f.2 ∨ s.current f.2 = some f.1) →
      f.1 ∈ s.done ∨ f.1 ∈ queue f.2 ∨ s.current f.2 = some f.1 :=
    fun f => Or.imp_right (Or.imp_left (hqueue f.2 f.1))
  refine ⟨fun q => ?_, fun a ha => ?_, fun q f hf => ?_⟩
  · by_cases hq : q = p
    · subst hq
      obtain ⟨held, hmem, hord⟩ := hheld
      refine ⟨held, hmem, ?_⟩
      change Ordered rank (s.base q) held ((s.setThread q t).threads q).todo
      rwa [hself]
    · obtain ⟨held, hmem, hord⟩ := h.ordered q
      refine ⟨held, fun l => (hmem l).trans (howner q hq l).symm, ?_⟩
      change Ordered rank (s.base q) held ((s.setThread p t).threads q).todo
      rwa [hother q hq]
  · have hne : .inr a ≠ p := fun heq => hbusy a heq.symm ha
    change ((s.setThread p t).threads (.inr a)).todo = []
    rw [hother _ hne]
    exact h.idle a ha
  · change f ∈ ((s.setThread p t).threads q).futures at hf
    by_cases hq : q = p
    · subst hq
      rw [hself] at hf
      rcases hfutures f hf with hf | hf
      · exact hplace f (h.futures q f hf)
      · exact Or.inr (Or.inl hf)
    · rw [hother q hq] at hf
      exact hplace f (h.futures q f hf)

theorem Inv.act (h : s.Inv rank) (hs : s.act p = some s') : s'.Inv rank := by
  have hbusy : (s.threads p).todo ≠ [] → ∀ a, p = .inr a → s.current a ≠ none := by
    rintro hne a rfl hcur
    exact hne (h.idle a hcur)
  obtain ⟨held, hmem, hord⟩ := h.ordered p
  unfold LockOrder.act at hs
  split at hs
  · exact absurd hs (by simp)
  · rename_i l todo futures ht
    rw [ht] at hord hbusy
    split_ifs at hs with hfree
    obtain rfl := Option.some.inj hs
    refine h.setThread (hbusy (by simp)) ⟨l :: held, fun l' => ?_, hord.2⟩ (fun q hq l' => ?_)
      (fun a f => id) fun f hf => Or.inl (by rwa [ht])
    · by_cases hl : l' = l
      · simp [hl]
      · simp [hl, hmem l']
    · by_cases hl : l' = l
      · simp [hl, hfree, Ne.symm hq]
      · simp [hl]
  · rename_i l todo futures ht
    rw [ht] at hord hbusy
    obtain rfl := Option.some.inj hs
    have hmine := (hmem l).mp hord.1
    refine h.setThread (hbusy (by simp)) ⟨held.filter (· ≠ l), fun l' => ?_, hord.2⟩
      (fun q hq l' => ?_) (fun a f => id) fun f hf => Or.inl (by rwa [ht])
    · by_cases hl : l' = l
      · simp [hl]
      · simp [hl, hmem l']
    · by_cases hl : l' = l
      · simp [hl, hmine, Ne.symm hq]
      · simp [hl]
  · rename_i a todo futures ht
    rw [ht] at hord hbusy
    obtain rfl := Option.some.inj hs
    refine h.setThread (hbusy (by simp)) ⟨held, hmem, hord⟩ (fun q _ l => Iff.rfl)
      (fun b f hf => ?_) fun f hf => ?_
    · by_cases hb : b = a
      · subst hb
        simp [hf]
      · simpa [hb] using hf
    · rcases List.mem_append.mp hf with hf | hf
      · exact Or.inl (by rwa [ht])
      · obtain rfl := List.mem_singleton.mp hf
        exact Or.inr (by simp)
  · rename_i a todo futures ht
    rw [ht] at hord hbusy
    have hgo : ∀ futures' : List (ℕ × A), (∀ f ∈ futures', f ∈ futures) →
        (s.setThread p ⟨todo, futures'⟩).Inv rank := fun futures' hsub =>
      h.setThread (hbusy (by simp)) ⟨held, hmem, hord.2⟩ (fun q _ l => Iff.rfl) (fun b f => id)
        fun f hf => Or.inl (by rw [ht]; exact hsub f hf)
    split at hs
    · obtain rfl := Option.some.inj hs
      exact hgo futures fun f => id
    · split_ifs at hs
      obtain rfl := Option.some.inj hs
      exact hgo _ fun f => List.mem_of_mem_erase

/-- A worker starts on the first task of its queue. -/
theorem Inv.take (h : s.Inv rank) {a : A} {job : Code L A} {acts : List (Act L A)}
    (hjob : job.Ok rank (some a) []) (htrace : ∃ x, job.Trace acts x) {f : ℕ} {queue : List ℕ}
    (hcur : s.current a = none) (hqueue : s.queue a = f :: queue) :
    ({ s.setThread (.inr a) ⟨acts, []⟩ with
      queue := Function.update s.queue a queue
      current := Function.update s.current a (some f) } : LockOrder ι L A).Inv rank := by
  have hself : (s.setThread (.inr a) ⟨acts, []⟩).threads (.inr a) = ⟨acts, []⟩ := by
    simp [LockOrder.setThread]
  have hother : ∀ q, q ≠ .inr a →
      (s.setThread (.inr a) ⟨acts, []⟩).threads q = s.threads q := fun q hq => by
    simp [LockOrder.setThread, hq]
  have hcurrent : ∀ b, b ≠ a → Function.update s.current a (some f) b = s.current b :=
    fun b hb => by simp [hb]
  refine ⟨fun q => ?_, fun b hb => ?_, fun q g hg => ?_⟩
  · obtain ⟨held, hmem, hord⟩ := h.ordered q
    refine ⟨held, hmem, ?_⟩
    change Ordered rank _ held ((s.setThread (.inr a) ⟨acts, []⟩).threads q).todo
    by_cases hq : q = .inr a
    · subst hq
      rw [h.idle a hcur] at hord
      obtain rfl : held = [] := hord
      obtain ⟨x, htrace⟩ := htrace
      have hord : Ordered rank (some a) [] (acts ++ []) := htrace.ordered_append hjob rfl
      rw [List.append_nil] at hord
      rw [hself]
      simpa [base] using hord
    · rw [hother q hq]
      rcases q with i | b
      · exact hord
      · have hne : b ≠ a := fun heq => hq (heq ▸ rfl)
        simpa [base, hcurrent b hne] using hord
  · have hne : b ≠ a := fun heq => by simp [heq] at hb
    change ((s.setThread (.inr a) ⟨acts, []⟩).threads (.inr b)).todo = []
    rw [hother _ (by simpa using hne)]
    exact h.idle b ((hcurrent b hne).symm.trans hb)
  · change g ∈ ((s.setThread (.inr a) ⟨acts, []⟩).threads q).futures at hg
    by_cases hq : q = .inr a
    · rw [hq, hself] at hg
      exact absurd hg List.not_mem_nil
    · rw [hother q hq] at hg
      refine (h.futures q g hg).imp_right fun hplace => ?_
      by_cases hga : g.2 = a
      · rw [hga, hqueue, hcur] at hplace
        rcases hplace with hplace | hplace
        · rcases List.mem_cons.mp hplace with rfl | hplace
          · exact Or.inr (by simp [hga])
          · exact Or.inl (by simpa [hga] using hplace)
        · exact absurd hplace (by simp)
      · simpa [hga] using hplace

/-- A worker that is through with its task resolves the future. -/
theorem Inv.resolve (h : s.Inv rank) {a : A} {f : ℕ} (hcur : s.current a = some f)
    (hidle : (s.threads (.inr a)).todo = []) :
    ({ s with current := Function.update s.current a none, done := f :: s.done } :
      LockOrder ι L A).Inv rank := by
  have hcurrent : ∀ b, b ≠ a → Function.update s.current a none b = s.current b :=
    fun b hb => by simp [hb]
  refine ⟨fun q => ?_, fun b hb => ?_, fun q g hg => ?_⟩
  · obtain ⟨held, hmem, hord⟩ := h.ordered q
    refine ⟨held, hmem, ?_⟩
    rcases q with i | b
    · exact hord
    · by_cases hb : b = a
      · subst hb
        change Ordered rank _ held (s.threads (.inr b)).todo
        rw [hidle] at hord ⊢
        exact hord
      · simpa [base, hcurrent b hb] using hord
  · by_cases hba : b = a
    · exact hba ▸ hidle
    · exact h.idle b ((hcurrent b hba).symm.trans hb)
  · rcases h.futures q g hg with hplace | hplace | hplace
    · exact Or.inl (List.mem_cons_of_mem f hplace)
    · exact Or.inr (Or.inl hplace)
    · by_cases hga : g.2 = a
      · rw [hga, hcur, Option.some.injEq] at hplace
        exact Or.inl (hplace ▸ List.mem_cons_self)
      · exact Or.inr (Or.inr ((hcurrent _ hga).trans hplace))

section Run

variable {code : ι → Code L A} {job : A → Code L A}

theorem Inv.step {lab : Label ι L A} (hcode : ∀ i, (code i).Ok rank none [])
    (hjob : ∀ a, (job a).Ok rank (some a) []) (h : s.Inv rank) (hok : Allowed code job s lab)
    (hs : s.step lab = some s') : s'.Inv rank := by
  rcases lab with ⟨i, acts⟩ | p | ⟨a, acts⟩ | a
  · simp only [LockOrder.step] at hs
    split_ifs at hs with hidle
    obtain rfl := Option.some.inj hs
    obtain ⟨held, hmem, hord⟩ := h.ordered (.inl i)
    rw [hidle] at hord
    obtain rfl : held = [] := hord
    obtain ⟨x, htrace⟩ := hok
    have hord : Ordered rank none [] (acts ++ []) := htrace.ordered_append (hcode i) rfl
    rw [List.append_nil] at hord
    exact h.setThread (fun a ha => by simp at ha) ⟨[], hmem, hord⟩ (fun q _ l => Iff.rfl)
      (fun b f => id) fun f hf => absurd hf List.not_mem_nil
  · exact h.act hs
  · simp only [LockOrder.step] at hs
    split at hs
    · rename_i f queue hcur hqueue
      obtain rfl := Option.some.inj hs
      exact h.take (hjob a) hok hcur hqueue
    · exact absurd hs (by simp)
  · simp only [LockOrder.step] at hs
    split at hs
    · rename_i f hcur hidle
      obtain rfl := Option.some.inj hs
      exact h.resolve hcur hidle
    · exact absurd hs (by simp)

theorem Reachable.inv (hcode : ∀ i, (code i).Ok rank none [])
    (hjob : ∀ a, (job a).Ok rank (some a) []) (h : Reachable code job s) : s.Inv rank := by
  obtain ⟨ls, hrun⟩ := h
  exact hrun.invariant (Inv rank) inv_init fun s lab s' hi hok hs => hi.step hcode hjob hok hs

end Run

/-! ## No deadlock -/

/-- A thread that waits stands below what it waits for. -/
theorem Inv.above_of_waits (h : s.Inv rank) {x : Resource L A} (hw : s.Waits p x) :
    ∃ held, (∀ l, l ∈ held ↔ s.owner l = some p) ∧ Above rank (s.base p) held x := by
  obtain ⟨held, hmem, hord⟩ := h.ordered p
  refine ⟨held, hmem, ?_⟩
  rcases x with l | a
  · obtain ⟨todo, ht, -⟩ := hw
    rw [ht] at hord
    exact hord.1
  · obtain ⟨todo, ht, -⟩ := hw
    rw [ht] at hord
    exact hord.1

/-- What a thread waits for, some thread provides. -/
theorem Inv.exists_provides (h : s.Inv rank) {x : Resource L A} (hw : s.Waits p x) :
    ∃ q, s.Provides p q x := by
  rcases x with l | a
  · obtain ⟨-, -, howner⟩ := hw
    exact Option.ne_none_iff_exists'.mp howner
  · obtain ⟨-, -, f, hf, hdone⟩ := hw
    obtain ⟨hmem, hservice⟩ := mem_of_awaited hf
    have hplace := (h.futures p f hmem).resolve_left hdone
    rw [hservice] at hplace
    exact ⟨.inr a, rfl, f, hf, hplace⟩

/-- A thread that provides `x` and waits for `y` : then `y` ranks above `x`. -/
theorem Inv.rank_lt (h : s.Inv rank) {q : ι ⊕ A} {x y : Resource L A} (hq : s.Provides p q x)
    (hw : s.Waits q y) : rank x < rank y := by
  obtain ⟨held, hmem, habove⟩ := h.above_of_waits hw
  rcases x with l | a
  · exact habove.2 l ((hmem l).mpr hq)
  · obtain ⟨rfl, -⟩ := hq
    refine habove.1 a ?_
    -- a worker that waits is running a task
    rcases hcur : s.current a with _ | f
    · have hidle := h.idle a hcur
      rcases y with l | b
      · obtain ⟨todo, ht, -⟩ := hw
        rw [hidle] at ht
        exact absurd ht (by simp)
      · obtain ⟨todo, ht, -⟩ := hw
        rw [hidle] at ht
        exact absurd ht (by simp)
    · simp [base, hcur]

theorem Inv.no_deadlock (h : s.Inv rank) {N : ℕ} (hN : ∀ x, rank x ≤ N) (D : Set (ι ⊕ A)) :
    ¬s.Deadlocked D := by
  rintro ⟨⟨p, hp⟩, hD⟩
  -- the ranks waited for grow from a thread to whoever it waits for
  have hgrow : ∀ n, ∃ q ∈ D, ∃ x, s.Waits q x ∧ (∀ q', s.Provides q q' x → q' ∈ D) ∧
      n ≤ rank x := by
    intro n
    induction n with
    | zero =>
      obtain ⟨x, hx, hin⟩ := hD p hp
      exact ⟨p, hp, x, hx, hin, Nat.zero_le _⟩
    | succ n ih =>
      obtain ⟨q, -, x, hx, hin, hn⟩ := ih
      obtain ⟨q', hq'⟩ := h.exists_provides hx
      obtain ⟨y, hy, hin'⟩ := hD q' (hin q' hq')
      have hlt := h.rank_lt hq' hy
      exact ⟨q', hin q' hq', y, hy, hin', by omega⟩
  obtain ⟨q, -, x, -, -, hn⟩ := hgrow (N + 1)
  have hle := hN x
  omega

/-- Threads and workers that take locks, and wait for services, in the order of their ranks are
never deadlocked. -/
theorem no_deadlock {code : ι → Code L A} {job : A → Code L A} {N : ℕ} (hN : ∀ x, rank x ≤ N)
    (hcode : ∀ i, (code i).Ok rank none []) (hjob : ∀ a, (job a).Ok rank (some a) [])
    (h : Reachable code job s) (D : Set (ι ⊕ A)) : ¬s.Deadlocked D :=
  (h.inv hcode hjob).no_deadlock hN D

end LockOrder
