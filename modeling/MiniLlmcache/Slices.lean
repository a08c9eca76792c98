import Mathlib.Data.List.Basic

/-!
# Slices, and rows of one size laid end to end

`slice xs a b` is `xs[a:b]` of a language whose slices clip at the end of the list.

Rows of `n` elements each, one for every element of a list, laid end to end : the list is
`xs.flatMap f`, and row `i` is its slice of length `n` at `i * n` (`take_drop_flatMap`). Two
levels of rows, as in a matrix of rows, are two uses of the same lemma.
-/

variable {α β : Type*}

/-- `xs[a:b]`. -/
def slice (xs : List α) (a b : ℕ) : List α := (xs.drop a).take (b - a)

theorem getElem?_slice (xs : List α) {a b i : ℕ} (hi : i < b - a) :
    (slice xs a b)[i]? = xs[a + i]? := by
  rw [slice, List.getElem?_take_of_lt hi, List.getElem?_drop]

theorem length_slice (xs : List α) (a b : ℕ) : (slice xs a b).length = min b xs.length - a := by
  rw [slice, List.length_take, List.length_drop]
  omega

theorem slice_sublist (xs : List α) (a b : ℕ) : (slice xs a b).Sublist xs :=
  (List.take_sublist _ _).trans (List.drop_sublist _ _)

theorem mem_of_mem_slice {xs : List α} {a b : ℕ} {x : α} (h : x ∈ slice xs a b) : x ∈ xs :=
  (slice_sublist xs a b).mem h

/-- A slice follows what was taken before it. -/
theorem take_append_slice (xs : List α) {a b : ℕ} (h : a ≤ b) :
    xs.take a ++ slice xs a b = xs.take b := by
  obtain ⟨n, rfl⟩ := Nat.exists_eq_add_of_le h
  rw [slice, Nat.add_sub_cancel_left, List.take_add]

/-- Rows of `n` elements take `n` elements each. -/
theorem length_flatMap_const {f : α → List β} {n : ℕ} (hf : ∀ x, (f x).length = n) :
    ∀ xs : List α, (xs.flatMap f).length = xs.length * n
  | [] => (Nat.zero_mul n).symm
  | x :: xs => by
    rw [List.flatMap_cons, List.length_append, hf, length_flatMap_const hf xs, List.length_cons,
      Nat.succ_mul, Nat.add_comm]

/-- Row `i` of the rows laid end to end. -/
theorem take_drop_flatMap {f : α → List β} {n : ℕ} (hf : ∀ x, (f x).length = n) :
    ∀ {xs : List α} {i : ℕ} {x : α}, xs[i]? = some x →
      ((xs.flatMap f).drop (i * n)).take n = f x
  | [], _, _, h => by cases h
  | y :: xs, 0, x, h => by
    cases h
    rw [Nat.zero_mul, List.drop_zero, List.flatMap_cons, List.take_left' (hf _)]
  | y :: xs, i + 1, x, h => by
    have hx : xs[i]? = some x := h
    have ih := take_drop_flatMap hf hx
    rw [List.flatMap_cons, Nat.succ_mul, Nat.add_comm, ← List.drop_drop, List.drop_left' (hf _), ih]

/-- Rows of one size can be read apart. -/
theorem flatMap_inj {f : α → List β} {n : ℕ} (hn : 0 < n) (hf : ∀ x, (f x).length = n) :
    ∀ {xs ys : List α}, (∀ x ∈ xs, ∀ y ∈ ys, f x = f y → x = y) →
      xs.flatMap f = ys.flatMap f → xs = ys
  | [], ys, _, h => by
    have hlen := congrArg List.length h
    rw [length_flatMap_const hf, length_flatMap_const hf, List.length_nil, Nat.zero_mul] at hlen
    have hzero := (Nat.mul_eq_zero.mp hlen.symm).resolve_right (by omega)
    exact (List.length_eq_zero_iff.mp hzero).symm
  | x :: xs, [], _, h => by
    have hlen := congrArg List.length h
    rw [length_flatMap_const hf, List.length_cons, Nat.succ_mul, List.flatMap_nil,
      List.length_nil] at hlen
    omega
  | x :: xs, y :: ys, hinj, h => by
    rw [List.flatMap_cons, List.flatMap_cons] at h
    obtain ⟨hrow, hrest⟩ := List.append_inj h ((hf x).trans (hf y).symm)
    rw [hinj x (by simp) y (by simp) hrow,
      flatMap_inj hn hf (fun x' hx y' hy => hinj x' (by simp [hx]) y' (by simp [hy])) hrest]

theorem row_of_place {n a b : ℕ} (hb : b < n) : (a * n + b) / n = a := by
  rw [Nat.mul_comm, Nat.mul_add_div (Nat.zero_lt_of_lt hb), Nat.div_eq_of_lt hb, Nat.add_zero]

/-- A place determines its row and its place in the row. -/
theorem place_inj {n i j i' j' : ℕ} (hj : j < n) (hj' : j' < n) (h : i * n + j = i' * n + j') :
    i = i' ∧ j = j' := by
  obtain rfl : i = i' := by rw [← row_of_place (a := i) hj, h, row_of_place hj']
  exact ⟨rfl, Nat.add_left_cancel h⟩

/-- Places of different rows do not mix. -/
theorem place_lt {n m i j : ℕ} (hi : i < m) (hj : j < n) : i * n + j < m * n := by
  have hle := Nat.mul_le_mul_right n (Nat.succ_le_of_lt hi)
  rw [Nat.succ_mul] at hle
  omega

/-- What stands before the first separator, and after it. -/
theorem append_cons_inj {a : α} : ∀ {xs ys xs' ys' : List α}, a ∉ xs → a ∉ xs' →
    xs ++ a :: ys = xs' ++ a :: ys' → xs = xs' ∧ ys = ys'
  | [], _, [], _, _, _, h => ⟨rfl, (List.cons.inj h).2⟩
  | [], _, x :: xs', _, _, hx', h => absurd ((List.cons.inj h).1 ▸ List.mem_cons_self) hx'
  | x :: xs, _, [], _, hx, _, h => absurd ((List.cons.inj h).1 ▸ List.mem_cons_self) hx
  | x :: xs, ys, x' :: xs', ys', hx, hx', h => by
    obtain ⟨rfl, hrest⟩ := List.cons.inj h
    obtain ⟨rfl, hys⟩ := append_cons_inj (fun hm => hx (List.mem_cons_of_mem x hm))
      (fun hm => hx' (List.mem_cons_of_mem x hm)) hrest
    exact ⟨rfl, hys⟩

/-- What stands before the last separator, and after it. -/
theorem append_cons_inj_last {a : α} {xs ys xs' ys' : List α} (hy : a ∉ ys) (hy' : a ∉ ys')
    (h : xs ++ a :: ys = xs' ++ a :: ys') : xs = xs' ∧ ys = ys' := by
  have hrev := congrArg List.reverse h
  simp only [List.reverse_append, List.reverse_cons, List.append_assoc, List.singleton_append]
    at hrev
  obtain ⟨hys, hxs⟩ := append_cons_inj (by simpa using hy) (by simpa using hy') hrev
  exact ⟨List.reverse_injective hxs, List.reverse_injective hys⟩
