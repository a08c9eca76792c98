import Mathlib.Data.List.Dedup
import Mathlib.Data.List.Sort

/-!
# Lists by last use

A list is kept in the order of last use : using a group of elements moves them to its end, in the
group's order. After any uses the list is the groups in the order of their last use
(`foldl_moveToEnd`; `List.dedup` keeps the last of equal elements).

When elements are taken from the front of such a list, the rest of some given sequence stays an
initial segment of it at every point exactly when the list is that sequence reversed
(`filter_prefix_iff_eq_reverse`).
-/

variable {α ι : Type*}

section Order

variable [DecidableEq α]

/-- Use the elements of `group`. -/
def moveToEnd (order group : List α) : List α := order.filter (· ∉ group) ++ group

/-- One by one, the elements of a group without repetition end up in its order. -/
theorem foldl_moveToEnd_singleton : ∀ (group order : List α), group.Nodup →
    group.foldl (fun order a => moveToEnd order [a]) order = moveToEnd order group
  | [], order, _ => by simp [moveToEnd]
  | a :: group, order, hnd => by
    obtain ⟨ha, hnd⟩ := List.nodup_cons.mp hnd
    rw [List.foldl_cons, foldl_moveToEnd_singleton group _ hnd]
    simp only [moveToEnd, List.filter_append, List.filter_filter, List.filter_singleton]
    rw [List.append_assoc]
    congr 1
    · refine List.filter_congr fun b _ => ?_
      simp [Bool.and_comm]
    · simp [ha]

/-- The groups, each at its last use. -/
theorem foldl_moveToEnd [DecidableEq ι] (f : ι → List α)
    (hdisjoint : ∀ i j a, a ∈ f i → a ∈ f j → i = j) : ∀ (es : List ι) (order : List α),
    es.foldl (fun order i => moveToEnd order (f i)) order =
      order.filter (fun a => ∀ i ∈ es, a ∉ f i) ++ es.dedup.flatMap f
  | [], order => by simp
  | i :: es, order => by
    rw [List.foldl_cons, foldl_moveToEnd f hdisjoint es]
    simp only [moveToEnd, List.filter_append, List.filter_filter]
    have hold : (order.filter fun a => (decide (∀ j ∈ es, a ∉ f j) && decide (a ∉ f i))) =
        order.filter fun a => ∀ j ∈ i :: es, a ∉ f j := by
      refine List.filter_congr fun a _ => ?_
      simp [Bool.and_comm]
    rw [hold, List.append_assoc]
    congr 1
    by_cases hi : i ∈ es
    · -- used again later, the group moves once more
      have hgone : (f i).filter (fun a => ∀ j ∈ es, a ∉ f j) = [] :=
        List.filter_eq_nil_iff.mpr fun a ha => by simpa using ⟨i, hi, ha⟩
      rw [hgone, List.dedup_cons_of_mem hi, List.nil_append]
    · have hstays : (f i).filter (fun a => ∀ j ∈ es, a ∉ f j) = f i :=
        List.filter_eq_self.mpr fun a ha => by
          simpa using fun j hj ha' => hi (hdisjoint i j a ha ha' ▸ hj)
      rw [hstays, List.dedup_cons_of_notMem hi, List.flatMap_cons]

/-- An element whose removal leaves an initial segment is the last. -/
theorem eq_erase_append_of_erase {seq : List α} {a : α} (hnd : seq.Nodup) (ha : a ∈ seq)
    (h : seq.erase a <+: seq) : seq = seq.erase a ++ [a] := by
  obtain ⟨tail, htail⟩ := h
  obtain ⟨x, rfl⟩ : ∃ x, tail = [x] := by
    have hlen := congrArg List.length htail
    have hpos := List.length_pos_of_mem ha
    rw [List.length_append, List.length_erase_of_mem ha] at hlen
    exact List.length_eq_one_iff.mp (by omega)
  have hx : a = x := by
    have hmem := htail ▸ ha
    simpa [hnd.not_mem_erase] using hmem
  exact hx ▸ htail.symm

/-- What is left of `seq` after taking from the front of `order`. -/
theorem filter_not_mem_take_cons {seq : List α} (hnd : seq.Nodup) (a : α) (order : List α)
    (t : ℕ) : seq.filter (· ∉ (a :: order).take (t + 1)) =
      (seq.erase a).filter (· ∉ order.take t) := by
  rw [List.take_succ_cons, hnd.erase_eq_filter, List.filter_filter]
  refine List.filter_congr fun b _ => ?_
  by_cases hb : b = a <;> simp [hb]

theorem eq_reverse_of_forall_take : ∀ {order seq : List α}, order.Perm seq → seq.Nodup →
    (∀ t, seq.filter (· ∉ order.take t) <+: seq) → order = seq.reverse
  | [], seq, hperm, _, _ => by
    obtain rfl := hperm.nil_eq
    rfl
  | a :: order, seq, hperm, hnd, h => by
    have hmem : a ∈ seq := hperm.subset List.mem_cons_self
    have hfirst : seq.erase a <+: seq := by
      have := h 1
      rw [filter_not_mem_take_cons hnd] at this
      simpa using this
    have hseq := eq_erase_append_of_erase hnd hmem hfirst
    have hperm' : order.Perm (seq.erase a) := by
      have := hperm.erase a
      rwa [List.erase_cons_head] at this
    have hrest : order = (seq.erase a).reverse :=
      eq_reverse_of_forall_take hperm' (hnd.erase a) fun t => by
        have hstep := filter_not_mem_take_cons hnd a order t ▸ h (t + 1)
        exact List.prefix_of_prefix_length_le hstep hfirst (List.length_filter_le _ _)
    rw [hseq, List.reverse_append, ← hrest]
    rfl

/-- Taking from the front of `order` always leaves an initial segment of `seq`, its permutation,
exactly when `order` is `seq` reversed. -/
theorem filter_prefix_iff_eq_reverse {order seq : List α} (hperm : order.Perm seq)
    (hnd : seq.Nodup) : (∀ t, seq.filter (· ∉ order.take t) <+: seq) ↔ order = seq.reverse := by
  refine ⟨eq_reverse_of_forall_take hperm hnd, fun h t => ?_⟩
  have hseq : seq = (order.drop t).reverse ++ (order.take t).reverse := by
    rw [← List.reverse_append, List.take_append_drop, h, List.reverse_reverse]
  have hdisjoint := List.disjoint_take_drop (hperm.nodup_iff.mpr hnd) (le_refl t)
  have hkeep : (order.drop t).reverse.filter (· ∉ order.take t) = (order.drop t).reverse :=
    List.filter_eq_self.mpr fun b hb =>
      decide_eq_true fun hb' => hdisjoint hb' (List.mem_reverse.mp hb)
  have hdrop : (order.take t).reverse.filter (· ∉ order.take t) = [] :=
    List.filter_eq_nil_iff.mpr fun b hb => by simpa using hb
  have hfilter : seq.filter (· ∉ order.take t) = (order.drop t).reverse := by
    rw [hseq, List.filter_append, hkeep, hdrop, List.append_nil]
  rw [hfilter]
  exact ⟨_, hseq.symm⟩

end Order

/-! ## Stamps -/

section Stamps

variable {τ : Type*} [LT τ] {order : List α} {stamp : α → Option τ}

/-- `order` lists what has a stamp, the oldest first. -/
structure SortedByStamp (order : List α) (stamp : α → Option τ) : Prop where
  mem : ∀ a, a ∈ order ↔ (stamp a).isSome
  nodup : order.Nodup
  sorted : order.Pairwise fun a b => ∀ s ∈ stamp a, ∀ t ∈ stamp b, s < t

theorem SortedByStamp.nil : SortedByStamp ([] : List α) (fun _ => (none : Option τ)) :=
  ⟨by simp, List.nodup_nil, .nil⟩

variable [DecidableEq α]

/-- The list of the others, when one element loses its stamp. -/
theorem SortedByStamp.forget (h : SortedByStamp order stamp) (a : α) :
    SortedByStamp (order.filter (· ∉ [a])) (Function.update stamp a none) where
  mem b := by
    rw [List.mem_filter, h.mem, Function.update_apply]
    by_cases hb : b = a <;> simp [hb]
  nodup := h.nodup.filter _
  sorted := by
    refine (h.sorted.sublist List.filter_sublist).imp_of_mem fun {b c} hb hc hbc s hs t ht => ?_
    have hne : ∀ {x}, x ∈ order.filter (· ∉ [a]) → x ≠ a := fun hx => by
      simpa using (List.mem_filter.mp hx).2
    rw [Function.update_of_ne (hne hb)] at hs
    rw [Function.update_of_ne (hne hc)] at ht
    exact hbc s hs t ht

/-- An element with a stamp later than all others goes to the end. -/
theorem SortedByStamp.use (h : SortedByStamp order stamp) {a : α} {t : τ}
    (ht : ∀ b, b ≠ a → ∀ s ∈ stamp b, s < t) :
    SortedByStamp (moveToEnd order [a]) (Function.update stamp a (some t)) := by
  have hrest := h.forget a
  have hne : ∀ {b}, b ∈ order.filter (· ∉ [a]) → b ≠ a := fun hb => by
    simpa using (List.mem_filter.mp hb).2
  refine ⟨fun b => ?_, ?_, ?_⟩
  · rw [moveToEnd, List.mem_append, List.mem_singleton, hrest.mem]
    by_cases hb : b = a <;> simp [hb]
  · rw [moveToEnd, List.nodup_append]
    refine ⟨hrest.nodup, List.nodup_singleton a, fun b hb c hc => ?_⟩
    rw [List.mem_singleton.mp hc]
    exact hne hb
  · rw [moveToEnd, List.pairwise_append]
    refine ⟨hrest.sorted.imp_of_mem fun {b c} hb hc hbc s hs t ht => ?_, by simp, ?_⟩
    · rw [Function.update_of_ne (hne hb)] at hs
      rw [Function.update_of_ne (hne hc)] at ht
      refine hbc s ?_ t ?_
      · rwa [Function.update_of_ne (hne hb)]
      · rwa [Function.update_of_ne (hne hc)]
    · intro b hb c hc s hs u hu
      rw [Function.update_of_ne (hne hb)] at hs
      rw [List.mem_singleton.mp hc, Function.update_self] at hu
      obtain rfl := Option.some.inj hu
      exact ht b (hne hb) s hs

end Stamps

/-! ## Consecutive groups -/

section Groups

variable {groups : List (List α)}

/-- Group `i`. -/
def groupAt (groups : List (List α)) (i : ℕ) : List α := groups.getD i []

theorem map_groupAt (groups : List (List α)) :
    (List.range groups.length).map (groupAt groups) = groups := by
  refine List.ext_getElem (by simp) fun i hi _ => ?_
  simp only [List.length_map, List.length_range] at hi
  simp [groupAt, hi]

theorem lt_of_mem_groupAt {i : ℕ} {a : α} (ha : a ∈ groupAt groups i) : i < groups.length := by
  by_contra h
  simp [groupAt, List.getElem?_eq_none (not_lt.mp h)] at ha

theorem mem_flatten_iff_groupAt {a : α} : a ∈ groups.flatten ↔ ∃ i, a ∈ groupAt groups i := by
  conv_lhs => rw [← map_groupAt groups]
  simp only [List.mem_flatten, List.mem_map, List.mem_range]
  constructor
  · rintro ⟨-, ⟨i, -, rfl⟩, ha⟩
    exact ⟨i, ha⟩
  · rintro ⟨i, ha⟩
    exact ⟨_, ⟨i, lt_of_mem_groupAt ha, rfl⟩, ha⟩

/-- Without repetition, groups are disjoint. -/
theorem groupAt_unique (hnd : groups.flatten.Nodup) {i j : ℕ} {a : α} (hi : a ∈ groupAt groups i)
    (hj : a ∈ groupAt groups j) : i = j := by
  have hpair := (List.nodup_flatten.mp hnd).2
  rw [← map_groupAt groups, List.pairwise_map, List.pairwise_iff_getElem] at hpair
  have hlt : ∀ {i j : ℕ}, a ∈ groupAt groups i → a ∈ groupAt groups j → ¬i < j := by
    intro i j hi hj h
    have hn := lt_of_mem_groupAt hj
    exact hpair i j (by simpa using h.trans hn) (by simpa using hn) h (by simpa using hi)
      (by simpa using hj)
  have h1 := hlt hi hj
  have h2 := hlt hj hi
  omega

theorem reverse_flatten_eq (groups : List (List α)) : groups.flatten.reverse =
    (List.range groups.length).reverse.flatMap fun i => (groupAt groups i).reverse := by
  conv_lhs => rw [← map_groupAt groups]
  rw [← List.flatMap_def, List.reverse_flatMap]
  rfl

theorem flatMap_filter_ne_nil (f : ℕ → List α) : ∀ is : List ℕ,
    (is.filter fun i => f i ≠ []).flatMap f = is.flatMap f
  | [] => rfl
  | i :: is => by
    by_cases hi : f i = []
    · rw [List.filter_cons_of_neg (by simpa using hi), flatMap_filter_ne_nil f is,
        List.flatMap_cons, hi, List.nil_append]
    · rw [List.filter_cons_of_pos (by simpa using hi), List.flatMap_cons, List.flatMap_cons,
        flatMap_filter_ne_nil f is]

/-- Reversed groups laid end to end are the whole sequence reversed exactly when the last group
comes first, and so on down; empty groups do not matter. -/
theorem flatMap_reverse_eq_iff {is : List ℕ} (hnd : groups.flatten.Nodup) (his : is.Nodup)
    (hall : ∀ i, groupAt groups i ≠ [] → i ∈ is) :
    (is.flatMap fun i => (groupAt groups i).reverse) = groups.flatten.reverse ↔
      (is.filter fun i => groupAt groups i ≠ []).Pairwise (· > ·) := by
  have hfilter : ∀ is : List ℕ, (is.filter fun i => (groupAt groups i).reverse ≠ []) =
      is.filter fun i => groupAt groups i ≠ [] := fun is =>
    List.filter_congr fun i _ => by simp
  rw [reverse_flatten_eq]
  constructor
  · intro h
    -- an element before another one is of the same group or of a later one
    let R : α → α → Prop := fun a b => ∀ i j, a ∈ groupAt groups i → b ∈ groupAt groups j → j ≤ i
    have hR : (is.flatMap fun i => (groupAt groups i).reverse).Pairwise R := by
      rw [h, List.pairwise_flatMap]
      refine ⟨fun i _ => List.pairwise_of_forall_mem_list fun a ha b hb j k hj hk => ?_, ?_⟩
      · rw [groupAt_unique hnd hj (List.mem_reverse.mp ha),
          groupAt_unique hnd hk (List.mem_reverse.mp hb)]
      · rw [List.pairwise_reverse]
        refine List.pairwise_lt_range.imp fun {i j} hij b hb a ha k l hk hl => ?_
        rw [groupAt_unique hnd hk (List.mem_reverse.mp hb),
          groupAt_unique hnd hl (List.mem_reverse.mp ha)]
        exact hij.le
    have hpair := (List.pairwise_flatMap.mp hR).2
    have hboth := (hpair.and his).sublist
      (List.filter_sublist (p := fun i => groupAt groups i ≠ []))
    refine hboth.imp_of_mem fun {i j} hi hj hij => ?_
    obtain ⟨a, ha⟩ := List.exists_mem_of_ne_nil _ (of_decide_eq_true (List.mem_filter.mp hi).2)
    obtain ⟨b, hb⟩ := List.exists_mem_of_ne_nil _ (of_decide_eq_true (List.mem_filter.mp hj).2)
    have hle := hij.1 a (List.mem_reverse.mpr ha) b (List.mem_reverse.mpr hb) i j ha hb
    have hneq := hij.2
    omega
  · intro h
    rw [← flatMap_filter_ne_nil _ is, ← flatMap_filter_ne_nil _ (List.range _).reverse, hfilter,
      hfilter]
    congr 1
    refine List.Pairwise.eq_of_mem_iff h ?_ fun i => ?_
    · exact (List.pairwise_reverse.mpr List.pairwise_lt_range).sublist List.filter_sublist
    · simp only [List.mem_filter, List.mem_reverse, List.mem_range, decide_eq_true_eq]
      constructor
      · rintro ⟨-, hi⟩
        obtain ⟨a, ha⟩ := List.exists_mem_of_ne_nil _ hi
        exact ⟨lt_of_mem_groupAt ha, hi⟩
      · rintro ⟨-, hi⟩
        exact ⟨hall i hi, hi⟩

end Groups
