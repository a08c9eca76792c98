import Mathlib.Data.Multiset.Bind
import Mathlib.Data.List.Nodup
import Mathlib.Algebra.BigOperators.Group.Multiset.Basic

/-!
# Dictionaries in insertion order

A dictionary as a list of items with distinct keys. `set` replaces the value of a
present key in place and appends a new key, `erase` drops a key, `fromKeys` inserts a
list of keys with one value : the dictionaries of a language that iterates in
insertion order.

`get?_set` and `get?_erase` are the read-over-write rules. For anything that is added
up over the items (`total`), `total_eq` takes one key out of the sum and `total_set`
and `total_erase` put it back changed, so a fact about a whole dictionary is proved
at the key that changes.
-/

/-- Items with distinct keys, oldest first. -/
structure OrderedDict (K V : Type*) where
  items : List (K × V)
  nodup : (items.map Prod.fst).Nodup
deriving DecidableEq

namespace OrderedDict

variable {K V : Type*}

def empty : OrderedDict K V := ⟨[], List.nodup_nil⟩

def keys (d : OrderedDict K V) : List K := d.items.map Prod.fst

theorem nodup_keys (d : OrderedDict K V) : d.keys.Nodup := d.nodup

@[simp] theorem items_empty : (empty : OrderedDict K V).items = [] := rfl

@[simp] theorem keys_empty : (empty : OrderedDict K V).keys = [] := rfl

variable [DecidableEq K]

/-! ## Reading -/

def get? (d : OrderedDict K V) (k : K) : Option V :=
  (d.items.find? fun p => p.1 = k).map Prod.snd

def contains (d : OrderedDict K V) (k : K) : Bool := (d.get? k).isSome

theorem get?_eq_some_iff {d : OrderedDict K V} {k : K} {v : V} :
    d.get? k = some v ↔ (k, v) ∈ d.items := by
  unfold get?
  constructor
  · intro h
    obtain ⟨p, hp, rfl⟩ := Option.map_eq_some_iff.mp h
    have hk : p.1 = k := by simpa using List.find?_some hp
    rw [← hk]
    exact List.mem_of_find?_eq_some hp
  · intro h
    obtain ⟨l, nd⟩ := d
    induction l with
    | nil => simp at h
    | cons p l ih =>
      simp only [List.map_cons, List.nodup_cons] at nd
      rcases List.mem_cons.mp h with rfl | h
      · simp
      · have hne : p.1 ≠ k := fun e => nd.1 (e ▸ List.mem_map.mpr ⟨(k, v), h, rfl⟩)
        simpa [hne] using ih nd.2 h

theorem get?_eq_none_iff {d : OrderedDict K V} {k : K} : d.get? k = none ↔ k ∉ d.keys := by
  rw [← not_iff_not, not_not, ← ne_eq, Option.ne_none_iff_exists']
  simp only [get?_eq_some_iff, keys, List.mem_map]
  constructor
  · rintro ⟨v, h⟩
    exact ⟨(k, v), h, rfl⟩
  · rintro ⟨⟨k', v⟩, h, rfl⟩
    exact ⟨v, h⟩

theorem mem_keys_iff {d : OrderedDict K V} {k : K} : k ∈ d.keys ↔ ∃ v, d.get? k = some v := by
  rw [← not_iff_not, ← get?_eq_none_iff, Option.eq_none_iff_forall_ne_some]
  simp

theorem contains_iff {d : OrderedDict K V} {k : K} : d.contains k = true ↔ k ∈ d.keys := by
  rw [mem_keys_iff, contains, Option.isSome_iff_exists]

theorem contains_eq_false_iff {d : OrderedDict K V} {k : K} :
    d.contains k = false ↔ d.get? k = none := by
  simp [contains]

@[simp] theorem get?_empty (k : K) : (empty : OrderedDict K V).get? k = none := rfl

/-! ## Erasing -/

theorem filter_ne_eq_self {l : List (K × V)} {k : K} (h : k ∉ l.map Prod.fst) :
    (l.filter fun p => p.1 ≠ k) = l := by
  rw [List.filter_eq_self]
  exact fun p hp => decide_eq_true fun e => h (List.mem_map.mpr ⟨p, hp, e⟩)

def erase (d : OrderedDict K V) (k : K) : OrderedDict K V :=
  ⟨d.items.filter fun p => p.1 ≠ k, d.nodup.sublist (List.filter_sublist.map _)⟩

theorem get?_erase (d : OrderedDict K V) (k k' : K) :
    (d.erase k).get? k' = if k = k' then none else d.get? k' := by
  split_ifs with h
  · subst h
    rw [get?_eq_none_iff]
    simp [keys, erase]
  · cases hv : d.get? k' with
    | none =>
      rw [get?_eq_none_iff] at hv ⊢
      exact fun hm => hv ((List.filter_sublist.map _).subset hm)
    | some v =>
      rw [get?_eq_some_iff] at hv ⊢
      simp [erase, hv, Ne.symm h]

@[simp] theorem get?_erase_self (d : OrderedDict K V) (k : K) : (d.erase k).get? k = none := by
  simp [get?_erase]

theorem get?_erase_ne (d : OrderedDict K V) {k k' : K} (h : k ≠ k') :
    (d.erase k).get? k' = d.get? k' := by
  simp [get?_erase, h]

theorem erase_of_get?_eq_none {d : OrderedDict K V} {k : K} (h : d.get? k = none) :
    d.erase k = d := by
  rw [get?_eq_none_iff] at h
  obtain ⟨l, nd⟩ := d
  rw [erase, mk.injEq]
  exact filter_ne_eq_self h

theorem perm_erase {d : OrderedDict K V} {k : K} {v : V} (h : d.get? k = some v) :
    d.items.Perm ((k, v) :: (d.erase k).items) := by
  rw [get?_eq_some_iff] at h
  obtain ⟨l, nd⟩ := d
  simp only [erase] at h ⊢
  induction l with
  | nil => simp at h
  | cons p l ih =>
    simp only [List.map_cons, List.nodup_cons] at nd
    rcases List.mem_cons.mp h with rfl | h
    · rw [List.filter_cons_of_neg (by simp), filter_ne_eq_self nd.1]
    · have hne : p.1 ≠ k := fun e => nd.1 (e ▸ List.mem_map.mpr ⟨(k, v), h, rfl⟩)
      simpa [hne] using ((ih nd.2 h).cons p).trans (.swap _ _ _)

/-! ## Writing -/

/-- Replace the value of `k` where it stands, or append `k`. -/
def setItems (k : K) (v : V) : List (K × V) → List (K × V)
  | [] => [(k, v)]
  | p :: l => if p.1 = k then (k, v) :: l else p :: setItems k v l

theorem map_fst_setItems (k : K) (v : V) (l : List (K × V)) :
    (setItems k v l).map Prod.fst =
      if k ∈ l.map Prod.fst then l.map Prod.fst else l.map Prod.fst ++ [k] := by
  induction l with
  | nil => simp [setItems]
  | cons p l ih =>
    by_cases h : p.1 = k
    · simp [setItems, h]
    · simp only [setItems, if_neg h, List.map_cons, ih, List.mem_cons]
      simp only [Ne.symm h, false_or]
      split_ifs <;> simp

def set (d : OrderedDict K V) (k : K) (v : V) : OrderedDict K V :=
  ⟨setItems k v d.items, by
    rw [map_fst_setItems]
    split_ifs with h
    · exact d.nodup
    · exact List.nodup_append.mpr ⟨d.nodup, List.nodup_singleton k, by
        simpa using fun a b hab e => h (List.mem_map.mpr ⟨(a, b), hab, e⟩)⟩⟩

theorem items_set_of_get?_eq_none {d : OrderedDict K V} {k : K} (v : V) (h : d.get? k = none) :
    (d.set k v).items = d.items ++ [(k, v)] := by
  rw [get?_eq_none_iff] at h
  obtain ⟨l, nd⟩ := d
  simp only [keys, set] at h ⊢
  induction l with
  | nil => rfl
  | cons p l ih =>
    simp only [List.map_cons, List.nodup_cons, List.mem_cons, not_or] at nd h
    simp [setItems, Ne.symm h.1, ih nd.2 h.2]

theorem keys_set (d : OrderedDict K V) (k : K) (v : V) :
    (d.set k v).keys = if k ∈ d.keys then d.keys else d.keys ++ [k] :=
  map_fst_setItems k v d.items

theorem mem_keys_set {d : OrderedDict K V} {k k' : K} {v : V} :
    k' ∈ (d.set k v).keys ↔ k' = k ∨ k' ∈ d.keys := by
  rw [keys_set]
  split_ifs with h
  · constructor
    · exact Or.inr
    · rintro (rfl | h')
      · exact h
      · exact h'
  · simp [or_comm]

theorem perm_set (d : OrderedDict K V) (k : K) (v : V) :
    (d.set k v).items.Perm ((k, v) :: (d.erase k).items) := by
  obtain ⟨l, nd⟩ := d
  simp only [set, erase]
  induction l with
  | nil => simp [setItems]
  | cons p l ih =>
    simp only [List.map_cons, List.nodup_cons] at nd
    by_cases h : p.1 = k
    · rw [List.filter_cons_of_neg (by simp [h]), filter_ne_eq_self (h ▸ nd.1), setItems, if_pos h]
    · simpa [setItems, h] using ((ih nd.2).cons p).trans (.swap _ _ _)

theorem get?_set (d : OrderedDict K V) (k k' : K) (v : V) :
    (d.set k v).get? k' = if k = k' then some v else d.get? k' := by
  have hmem : ∀ w, (k', w) ∈ (d.set k v).items ↔ (k', w) ∈ (k, v) :: (d.erase k).items :=
    fun w => (perm_set d k v).mem_iff
  split_ifs with h
  · rw [get?_eq_some_iff, hmem, h]
    exact List.mem_cons_self
  · rw [← get?_erase_ne d h]
    ext w
    rw [get?_eq_some_iff, get?_eq_some_iff, hmem, List.mem_cons]
    simp [Ne.symm h]

theorem eq_or_get?_of_set {d : OrderedDict K V} {k k' : K} {v v' : V}
    (h : (d.set k v).get? k' = some v') : (k = k' ∧ v = v') ∨ d.get? k' = some v' := by
  rw [get?_set] at h
  split_ifs at h with hk
  · exact Or.inl ⟨hk, Option.some.inj h⟩
  · exact Or.inr h

@[simp] theorem get?_set_self (d : OrderedDict K V) (k : K) (v : V) :
    (d.set k v).get? k = some v := by
  simp [get?_set]

theorem get?_set_ne (d : OrderedDict K V) {k k' : K} (v : V) (h : k ≠ k') :
    (d.set k v).get? k' = d.get? k' := by
  simp [get?_set, h]

/-- `move_to_end` after an insertion : `k` becomes the newest key. -/
def setLast (d : OrderedDict K V) (k : K) (v : V) : OrderedDict K V :=
  (d.erase k).set k v

theorem keys_erase (d : OrderedDict K V) (k : K) :
    (d.erase k).keys = d.keys.filter fun k' => k' ≠ k := by
  rw [keys, keys, erase, List.filter_map]
  rfl

theorem mem_keys_erase {d : OrderedDict K V} {k k' : K} :
    k' ∈ (d.erase k).keys ↔ k' ≠ k ∧ k' ∈ d.keys := by
  simp [keys_erase, and_comm]

theorem keys_setLast (d : OrderedDict K V) (k : K) (v : V) :
    (d.setLast k v).keys = (d.keys.filter fun k' => k' ≠ k) ++ [k] := by
  rw [setLast, keys_set, if_neg (by simp [keys_erase]), keys_erase]

theorem mem_keys_setLast {d : OrderedDict K V} {k k' : K} {v : V} :
    k' ∈ (d.setLast k v).keys ↔ k' = k ∨ k' ∈ d.keys := by
  rw [keys_setLast]
  by_cases h : k' = k <;> simp [h]

/-! ## Inserting a list of keys -/

/-- Set the pairs in order. -/
def setAll (d : OrderedDict K V) (l : List (K × V)) : OrderedDict K V :=
  l.foldl (fun d p => d.set p.1 p.2) d

@[simp] theorem setAll_nil (d : OrderedDict K V) : d.setAll [] = d := rfl

@[simp] theorem setAll_cons (d : OrderedDict K V) (p : K × V) (l : List (K × V)) :
    d.setAll (p :: l) = (d.set p.1 p.2).setAll l := rfl

theorem get?_setAll_of_not_mem (d : OrderedDict K V) {l : List (K × V)} {k : K}
    (h : k ∉ l.map Prod.fst) : (d.setAll l).get? k = d.get? k := by
  induction l generalizing d with
  | nil => rfl
  | cons p l ih =>
    simp only [List.map_cons, List.mem_cons, not_or] at h
    rw [setAll_cons, ih _ h.2, get?_set_ne _ _ (Ne.symm h.1)]

theorem get?_setAll_of_mem (d : OrderedDict K V) {l : List (K × V)} {k : K} {v : V}
    (hnd : (l.map Prod.fst).Nodup) (h : (k, v) ∈ l) : (d.setAll l).get? k = some v := by
  induction l generalizing d with
  | nil => simp at h
  | cons p l ih =>
    simp only [List.map_cons, List.nodup_cons] at hnd
    rcases List.mem_cons.mp h with rfl | h
    · rw [setAll_cons, get?_setAll_of_not_mem _ hnd.1, get?_set_self]
    · exact ih _ hnd.2 h

theorem get?_setAll_of_nodup (d : OrderedDict K V) {l : List (K × V)}
    (hnd : (l.map Prod.fst).Nodup) {k : K} {v : V} : (d.setAll l).get? k = some v ↔
      (k, v) ∈ l ∨ k ∉ l.map Prod.fst ∧ d.get? k = some v := by
  constructor
  · intro h
    by_cases hk : k ∈ l.map Prod.fst
    · obtain ⟨⟨k', v'⟩, hmem, rfl⟩ := List.mem_map.mp hk
      rw [get?_setAll_of_mem d hnd hmem] at h
      cases h
      exact Or.inl hmem
    · rw [get?_setAll_of_not_mem d hk] at h
      exact Or.inr ⟨hk, h⟩
  · rintro (h | ⟨hk, h⟩)
    · exact get?_setAll_of_mem d hnd h
    · rw [get?_setAll_of_not_mem d hk, h]

/-- The pair that stands last for a key decides. -/
theorem get?_setAll (d : OrderedDict K V) (l : List (K × V)) (k : K) :
    (d.setAll l).get? k = ((empty.setAll l).get? k).or (d.get? k) := by
  induction l generalizing d with
  | nil => simp
  | cons p l ih =>
    rw [setAll_cons, setAll_cons, ih, ih (empty.set p.1 p.2), Option.or_assoc, get?_set, get?_set]
    split_ifs <;> simp

theorem get?_empty_setAll_eq_none {l : List (K × V)} {k : K} :
    ((empty : OrderedDict K V).setAll l).get? k = none ↔ k ∉ l.map Prod.fst := by
  induction l with
  | nil => simp
  | cons p l ih =>
    rw [setAll_cons, get?_setAll, Option.or_eq_none_iff, ih, get?_set, List.map_cons,
      List.mem_cons, not_or]
    split_ifs with h
    · simp [h]
    · simp [Ne.symm h]

theorem mem_of_get?_empty_setAll {k : K} {v : V} : ∀ {l : List (K × V)},
    ((empty : OrderedDict K V).setAll l).get? k = some v → (k, v) ∈ l
  | [], h => by simp at h
  | p :: l, h => by
    rw [setAll_cons, get?_setAll, Option.or_eq_some_iff, get?_set] at h
    rcases h with h | ⟨-, h⟩
    · exact List.mem_cons_of_mem _ (mem_of_get?_empty_setAll h)
    · split_ifs at h with hk
      · cases h
        exact hk ▸ List.mem_cons_self
      · simp at h

theorem get?_empty_setAll_map {W : Type*} (f : V → W) (l : List (K × V)) (k : K) :
    ((empty : OrderedDict K W).setAll (l.map fun p => (p.1, f p.2))).get? k =
      (((empty : OrderedDict K V).setAll l).get? k).map f := by
  induction l with
  | nil => rfl
  | cons p l ih =>
    rw [List.map_cons, setAll_cons, setAll_cons, get?_setAll, ih, get?_setAll (empty.set p.1 p.2),
      get?_set, get?_set, Option.map_or]
    split_ifs <;> rfl

/-- `dict.fromkeys`. -/
def fromKeys (ks : List K) (v : V) : OrderedDict K V :=
  empty.setAll (ks.map fun k => (k, v))

theorem keys_setAll_of_nodup (d : OrderedDict K V) {l : List (K × V)}
    (hnd : (l.map Prod.fst).Nodup) (h : ∀ k ∈ l.map Prod.fst, k ∉ d.keys) :
    (d.setAll l).keys = d.keys ++ l.map Prod.fst := by
  induction l generalizing d with
  | nil => simp
  | cons p l ih =>
    simp only [List.map_cons, List.nodup_cons, List.mem_cons, forall_eq_or_imp] at hnd h
    have hk : (d.set p.1 p.2).keys = d.keys ++ [p.1] := by rw [keys_set, if_neg h.1]
    rw [setAll_cons, ih _ hnd.2, hk, List.map_cons, List.append_assoc, List.singleton_append]
    intro k hkl
    rw [hk, List.mem_append, List.mem_singleton, not_or]
    exact ⟨h.2 k hkl, fun e => hnd.1 (e ▸ hkl)⟩

/-- Distinct keys keep their order. -/
theorem keys_fromKeys {ks : List K} (h : ks.Nodup) (v : V) : (fromKeys ks v).keys = ks := by
  have hid : (ks.map fun k => (k, v)).map Prod.fst = ks := by simp [Function.comp_def]
  rw [fromKeys, keys_setAll_of_nodup _ (by rwa [hid]) (by simp), hid]
  simp

theorem get?_fromKeys (ks : List K) (v : V) (k : K) :
    (fromKeys ks v).get? k = if k ∈ ks then some v else none := by
  suffices ∀ d : OrderedDict K V, (d.setAll (ks.map fun k => (k, v))).get? k =
      if k ∈ ks then some v else d.get? k by simpa [fromKeys] using this empty
  intro d
  induction ks generalizing d with
  | nil => simp
  | cons k' ks ih =>
    simp only [List.map_cons, setAll_cons, ih, get?_set, List.mem_cons]
    by_cases h1 : k ∈ ks
    · simp [h1]
    · simp [h1, eq_comm]

/-! ## Pruning -/

omit [DecidableEq K] in
theorem filterMap_sublist (f : V → Option V) : ∀ l : List (K × V),
    ((l.filterMap fun p => (f p.2).map fun v => (p.1, v)).map Prod.fst).Sublist (l.map Prod.fst)
  | [] => List.Sublist.refl _
  | p :: l => by
    rw [List.filterMap_cons]
    cases f p.2 with
    | none => exact (filterMap_sublist f l).cons p.1
    | some v => exact (filterMap_sublist f l).cons_cons p.1

/-- A loop over a copy of the items that replaces a value or deletes its key. -/
def prune (d : OrderedDict K V) (f : V → Option V) : OrderedDict K V :=
  ⟨d.items.filterMap fun p => (f p.2).map fun v => (p.1, v),
    d.nodup.sublist (filterMap_sublist f d.items)⟩

theorem get?_prune (d : OrderedDict K V) (f : V → Option V) (k : K) :
    (d.prune f).get? k = (d.get? k).bind f := by
  ext w
  rw [get?_eq_some_iff, Option.bind_eq_some_iff, prune]
  simp only [List.mem_filterMap, Option.map_eq_some_iff, get?_eq_some_iff]
  constructor
  · rintro ⟨⟨k', v⟩, hmem, w', hf, heq⟩
    cases heq
    exact ⟨v, hmem, hf⟩
  · rintro ⟨v, hmem, hf⟩
    exact ⟨(k, v), hmem, w, hf, rfl⟩

/-! ## Sums over the items -/

section total

variable {M : Type*} [AddCommMonoid M]

/-- The sum of `f` over the items. -/
def total (d : OrderedDict K V) (f : K → V → M) : M := (d.items.map fun p => f p.1 p.2).sum

omit [DecidableEq K] in
@[simp] theorem total_empty (f : K → V → M) : (empty : OrderedDict K V).total f = 0 := rfl

/-- The value `f` has at `k`, or nothing. -/
def at? (d : OrderedDict K V) (f : K → V → M) (k : K) : M := (d.get? k).elim 0 (f k)

/-- One key, taken out of the sum. -/
theorem total_eq (d : OrderedDict K V) (f : K → V → M) (k : K) :
    d.total f = d.at? f k + (d.erase k).total f := by
  unfold at?
  cases h : d.get? k with
  | none => simp [erase_of_get?_eq_none h]
  | some v => simpa [total] using ((perm_erase h).map _).sum_eq

theorem total_set (d : OrderedDict K V) (f : K → V → M) (k : K) (v : V) :
    (d.set k v).total f = f k v + (d.erase k).total f := by
  simpa [total] using ((perm_set d k v).map _).sum_eq

/-- Sums of functions that agree on the items. -/
theorem total_congr {d : OrderedDict K V} {f g : K → V → M}
    (h : ∀ k v, d.get? k = some v → f k v = g k v) : d.total f = d.total g := by
  unfold total
  refine congrArg List.sum (List.map_congr_left fun p hp => ?_)
  exact h p.1 p.2 (get?_eq_some_iff.mpr hp)

end total

omit [DecidableEq K] in
theorem mem_total {α : Type*} {d : OrderedDict K V} {f : K → V → Multiset α} {x : α} :
    x ∈ d.total f ↔ ∃ p ∈ d.items, x ∈ f p.1 p.2 := by
  rw [total]
  generalize d.items = l
  induction l with
  | nil => simp
  | cons p l ih => simp [ih]

end OrderedDict
