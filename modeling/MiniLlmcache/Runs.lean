import Mathlib.Data.List.Basic

/-!
# Runs of a labelled system

A system is a partial step function : a label is enabled in a state when the step is
defined there. `Run step ok s ls t` is a run from `s` to `t` along the labels `ls` in
which every step meets `ok` in the state before it.

`Run.invariant` turns a step lemma into a run lemma, `Run.length_add_le` a measure that steps lower
into a bound on runs, and `Run.countP_add_le` does so where only some of the steps lower it.
`replay` executes a list of labels and checks `ok` on the way, so a concrete run is found by
evaluation (`run_of_replay`).
-/

variable {σ ℓ : Type*}

/-- A run along `ls` whose steps all meet `ok`. -/
inductive Run (step : σ → ℓ → Option σ) (ok : σ → ℓ → Prop) (s : σ) : List ℓ → σ → Prop
  | refl : Run step ok s [] s
  | snoc {ls : List ℓ} {t : σ} {l : ℓ} {t' : σ} :
      Run step ok s ls t → ok t l → step t l = some t' → Run step ok s (ls ++ [l]) t'

namespace Run

variable {step : σ → ℓ → Option σ} {ok ok' : σ → ℓ → Prop} {s t u : σ} {ls ls' : List ℓ}

/-- What holds at the start and is kept by every allowed step holds at the end. -/
theorem invariant (I : σ → Prop) (h : Run step ok s ls t) (h0 : I s)
    (hstep : ∀ t l t', I t → ok t l → step t l = some t' → I t') : I t := by
  induction h with
  | refl => exact h0
  | snoc _ hok hs ih => exact hstep _ _ _ ih hok hs

theorem mono (h : Run step ok s ls t) (hok : ∀ t l, ok t l → ok' t l) : Run step ok' s ls t := by
  induction h with
  | refl => exact refl
  | snoc _ ho hs ih => exact snoc ih (hok _ _ ho) hs

/-- What every allowed step says of its label, all labels have. -/
theorem forall_label {P : ℓ → Prop} (h : Run step ok s ls t) (hP : ∀ t l, ok t l → P l) :
    ∀ l ∈ ls, P l := by
  induction h with
  | refl => exact List.forall_mem_nil _
  | snoc _ ho _ ih =>
    intro l hl
    rcases List.mem_append.mp hl with hl | hl
    · exact ih l hl
    · exact List.mem_singleton.mp hl ▸ hP _ _ ho

/-- What all labels have may be added to what the steps meet. -/
theorem and_label {P : ℓ → Prop} (h : Run step ok s ls t) (hP : ∀ l ∈ ls, P l) :
    Run step (fun s l => P l ∧ ok s l) s ls t := by
  induction h with
  | refl => exact refl
  | snoc _ ho hs ih =>
    have hl := hP _ (List.mem_append_right _ (List.mem_singleton_self _))
    exact snoc (ih fun l hm => hP l (List.mem_append_left _ hm)) ⟨hl, ho⟩ hs

theorem trans (h : Run step ok s ls t) (h' : Run step ok t ls' u) :
    Run step ok s (ls ++ ls') u := by
  induction h' with
  | refl => simpa using h
  | snoc _ ho hs ih => simpa using snoc ih ho hs

theorem cons {l : ℓ} (hok : ok s l) (hs : step s l = some t) (h : Run step ok t ls u) :
    Run step ok s (l :: ls) u :=
  trans (snoc refl hok hs) h

/-- A measure that every allowed step lowers bounds the length of a run. -/
theorem length_add_le {I : σ → Prop} {μ : σ → ℕ} (h : Run step ok s ls t) (h0 : I s)
    (hstep : ∀ t l t', I t → ok t l → step t l = some t' → I t' ∧ μ t' < μ t) :
    ls.length + μ t ≤ μ s := by
  have hI : I t ∧ ls.length + μ t ≤ μ s := by
    induction h with
    | refl => exact ⟨h0, by simp⟩
    | snoc _ hok hs ih =>
      obtain ⟨hI, hle⟩ := ih
      obtain ⟨hI', hlt⟩ := hstep _ _ _ hI hok hs
      refine ⟨hI', ?_⟩
      rw [List.length_append, List.length_singleton]
      omega
  exact hI.2

/-- A measure that the allowed steps do not raise bounds the number of those that lower it. -/
theorem countP_add_le {p : ℓ → Bool} {μ : σ → ℕ} (h : Run step ok s ls t)
    (hstep : ∀ t l t', ok t l → step t l = some t' → μ t' + (if p l then 1 else 0) ≤ μ t) :
    ls.countP p + μ t ≤ μ s := by
  induction h with
  | refl => simp
  | snoc _ hok hs ih =>
    have hle := hstep _ _ _ hok hs
    rw [List.countP_append, List.countP_singleton]
    omega

end Run

/-- Execute `ls` from `s`; `none` if a label is not enabled or fails the check `ok`. -/
def replay (step : σ → ℓ → Option σ) (ok : σ → ℓ → Bool) : σ → List ℓ → Option σ
  | s, [] => some s
  | s, l :: ls => if ok s l then (step s l).bind fun t => replay step ok t ls else none

theorem run_of_replay {step : σ → ℓ → Option σ} {ok : σ → ℓ → Bool} {s t : σ} {ls : List ℓ}
    (h : replay step ok s ls = some t) : Run step (fun s l => ok s l = true) s ls t := by
  induction ls generalizing s with
  | nil =>
    cases h
    exact .refl
  | cons l ls ih =>
    unfold replay at h
    split_ifs at h with hok
    obtain ⟨t', ht', h⟩ := Option.bind_eq_some_iff.mp h
    exact .cons hok ht' (ih h)
