import MiniLlmcache.Memory
import MiniLlmcache.Runs

/-!
# What an allocation depends on

Whether `allocate` succeeds depends on counts only : the length of the free list of each size,
and the room above the bump pointer. `PoolCounts` is the pool reduced to these, with the sizes of
the slices in use; `counts_call` says that the pool's calls are the calls on the counts. So two
pools with equal counts answer alike forever.

A request that does not fit has moved the bump pointer first, and what it took is then kept for
its size. `outcomes_after_failure_iff` : this is harmless exactly when not even one slice was
taken, or a single byte that no other size could use.
-/

namespace MiniLlmcache

/-- A call of the pool's callers, who hold slices in a list. -/
inductive PoolCall
  | allocate (count nbytes : ℕ)
  /-- Free the `i`-th slice held. -/
  | free (i : ℕ)
deriving DecidableEq

/-- The pool and the slices its callers hold. -/
structure Pool where
  allocator : PoolAllocator
  live : List MemoryObj

namespace Pool

def new (capacity : ℕ) (pool : ℕ → UInt8) : Pool := ⟨.new capacity pool, []⟩

/-- One call; `false` for an allocation that returns nothing. -/
def call (p : Pool) : PoolCall → Bool × Pool
  | .allocate count nbytes =>
    match p.allocator.allocate count nbytes with
    | (none, allocator) => (false, { p with allocator })
    | (some objs, allocator) => (true, ⟨allocator, p.live ++ objs⟩)
  | .free i =>
    match p.live[i]? with
    | none => (true, p)
    | some obj => (true, ⟨p.allocator.free obj, p.live.eraseIdx i⟩)

def after (p : Pool) (calls : List PoolCall) : Pool := calls.foldl (fun p c => (p.call c).2) p

/-- What a sequence of calls returns. -/
def outcomes (p : Pool) : List PoolCall → List Bool
  | [] => []
  | c :: calls => (p.call c).1 :: outcomes (p.call c).2 calls

/-- A state that some calls reach. -/
def Reachable (p : Pool) : Prop := ∃ capacity pool calls, p = (new capacity pool).after calls

theorem inv_call {p : Pool} (h : p.allocator.Inv p.live) (c : PoolCall) :
    (p.call c).2.allocator.Inv (p.call c).2.live := by
  cases c with
  | allocate count nbytes =>
    rcases ha : p.allocator.allocate count nbytes with ⟨_ | objs, a⟩
    · simp only [call, ha]
      exact PoolAllocator.inv_allocate_none h ha
    · simp only [call, ha]
      exact (PoolAllocator.inv_allocate_some h ha).2.2
  | free i =>
    rcases hi : p.live[i]? with _ | obj
    · simp only [call, hi]
      exact h
    · obtain ⟨hlt, rfl⟩ := List.getElem?_eq_some_iff.mp hi
      simp only [call, hi]
      exact PoolAllocator.inv_free (h.perm (List.getElem_cons_eraseIdx_perm hlt).symm)

theorem Reachable.inv {p : Pool} (h : p.Reachable) : p.allocator.Inv p.live := by
  obtain ⟨capacity, pool, calls, rfl⟩ := h
  induction calls using List.reverseRecOn with
  | nil => exact PoolAllocator.inv_new capacity pool
  | append_singleton calls c ih =>
    rw [after, List.foldl_append]
    exact inv_call ih c

end Pool

/-! ## Counts -/

/-- A pool without its offsets : how many slices of each size are free, and the sizes of those
in use. -/
structure PoolCounts where
  capacity : ℕ
  brk : ℕ
  free : ℕ → ℕ
  sizes : List ℕ

namespace PoolCounts

def room (s : PoolCounts) : ℕ := s.capacity - s.brk

/-- How many of `wanted` slices of size `n` the bump pointer gives. -/
def fresh (s : PoolCounts) (wanted n : ℕ) : ℕ := if n = 0 then wanted else min wanted (s.room / n)

def call (s : PoolCounts) : PoolCall → Bool × PoolCounts
  | .allocate count n =>
    let m := s.fresh (count - s.free n) n
    if s.free n + m < count then
      (false, { s with
        brk := s.brk + m * n
        free := Function.update s.free n (s.free n + m) })
    else
      (true, { s with
        brk := s.brk + m * n
        free := Function.update s.free n (s.free n - count)
        sizes := s.sizes ++ List.replicate count n })
  | .free i =>
    match s.sizes[i]? with
    | none => (true, s)
    | some n => (true, { s with
        free := Function.update s.free n (s.free n + 1)
        sizes := s.sizes.eraseIdx i })

def outcomes (s : PoolCounts) : List PoolCall → List Bool
  | [] => []
  | c :: calls => (s.call c).1 :: outcomes (s.call c).2 calls

end PoolCounts

/-! ## The pool's calls are calls on the counts -/

namespace PoolAllocator

theorem length_popFree (n : ℕ) (free offsets : List ℕ) :
    (popFree n free offsets).1.length = offsets.length + min n free.length ∧
      (popFree n free offsets).2.length = free.length - n := by
  induction n generalizing free offsets with
  | zero => simp [popFree]
  | succ n ih =>
    unfold popFree
    split
    · rename_i hnone
      simp [List.getLast?_eq_none_iff.mp hnone]
    · rename_i o ho
      obtain ⟨init, rfl⟩ := List.getLast?_eq_some_iff.mp ho
      obtain ⟨h1, h2⟩ := ih (init ++ [o]).dropLast (offsets ++ [o])
      simp only [List.dropLast_concat, List.length_append, List.length_singleton] at h1 h2 ⊢
      omega

/-- The turns of the bump loop. -/
theorem bump_eq (nbytes capacity : ℕ) : ∀ (n brk : ℕ) (offsets : List ℕ), brk ≤ capacity →
    ∃ m, (bump nbytes capacity n brk offsets).1.length = offsets.length + m ∧
      (bump nbytes capacity n brk offsets).2 = brk + m * nbytes ∧
      m = if nbytes = 0 then n else min n ((capacity - brk) / nbytes)
  | 0, brk, offsets, _ => ⟨0, by simp [bump], by simp [bump], by simp⟩
  | n + 1, brk, offsets, hle => by
    unfold bump
    split_ifs with h h0 h0
    · obtain ⟨m, h1, h2, h3⟩ := bump_eq nbytes capacity n (brk + nbytes) (offsets ++ [brk]) h
      refine ⟨m + 1, ?_, ?_, ?_⟩
      · rw [h1, List.length_append, List.length_singleton]
        omega
      · rw [h2, Nat.succ_mul]
        omega
      · rw [h3, if_pos h0]
    · obtain ⟨m, h1, h2, h3⟩ := bump_eq nbytes capacity n (brk + nbytes) (offsets ++ [brk]) h
      refine ⟨m + 1, ?_, ?_, ?_⟩
      · rw [h1, List.length_append, List.length_singleton]
        omega
      · rw [h2, Nat.succ_mul]
        omega
      · have hroom : capacity - brk = capacity - (brk + nbytes) + nbytes := by omega
        rw [h3, if_neg h0, hroom, Nat.add_div_right _ (Nat.pos_of_ne_zero h0)]
        omega
    · omega
    · have hzero : (capacity - brk) / nbytes = 0 := Nat.div_eq_of_lt (by omega)
      exact ⟨0, by simp, by simp, by rw [hzero]; omega⟩

/-- What the two loops of `allocate` collect. -/
theorem collect_eq (a : PoolAllocator) (hbrk : a.brk ≤ a.capacity) (count n : ℕ) :
    ∃ m, (a.collect count n).1.length = min count (a.freeList n).length + m ∧
      (a.collect count n).2.1.length = (a.freeList n).length - count ∧
      (a.collect count n).2.2 = a.brk + m * n ∧
      m = if n = 0 then count - (a.freeList n).length
        else min (count - (a.freeList n).length) ((a.capacity - a.brk) / n) := by
  obtain ⟨h1, h2⟩ := length_popFree count (a.freeList n) []
  rw [List.length_nil, Nat.zero_add] at h1
  obtain ⟨m, hlen, hnew, hm⟩ := bump_eq n a.capacity
    (count - (popFree count (a.freeList n) []).1.length) a.brk
    (popFree count (a.freeList n) []).1 hbrk
  have hwanted : count - min count (a.freeList n).length = count - (a.freeList n).length := by
    omega
  refine ⟨m, hlen.trans (by rw [h1]), h2, hnew, ?_⟩
  rw [hm, h1, hwanted]

/-- The pool can give `count` more slices of size `n`. -/
structure Room (a : PoolAllocator) (n count : ℕ) : Prop where
  brk_le : a.brk ≤ a.capacity
  fits : n = 0 ∨ count ≤ (a.freeList n).length + (a.capacity - a.brk) / n

theorem Room.mono {a : PoolAllocator} {n count count' : ℕ} (h : a.Room n count)
    (hle : count' ≤ count) : a.Room n count' :=
  ⟨h.brk_le, h.fits.imp_right hle.trans⟩

theorem room_of_allocate {a a' : PoolAllocator} {n count : ℕ} {objs : List MemoryObj}
    (hbrk : a.brk ≤ a.capacity) (ha : a.allocate count n = (some objs, a')) : a.Room n count := by
  obtain ⟨m, hlen, -, -, hm⟩ := a.collect_eq hbrk count n
  simp only [allocate] at ha
  split_ifs at ha with hlt
  · cases ha
  · refine ⟨hbrk, or_iff_not_imp_left.mpr fun h0 => ?_⟩
    rw [if_neg h0] at hm
    omega

/-- One slice taken. -/
theorem Room.allocate_one {a : PoolAllocator} {n count : ℕ} (h : a.Room n (count + 1)) :
    ∃ o a', a.allocate 1 n = (some [⟨o, n⟩], a') ∧ a'.Room n count := by
  obtain ⟨m, hlen, hfree, hbrk, hm⟩ := a.collect_eq h.brk_le 1 n
  have hbrk_le := h.brk_le
  have hone : (a.collect 1 n).1.length = 1 ∧ a.brk + m * n ≤ a.capacity ∧
      (n = 0 ∨ count ≤ (a.freeList n).length - 1 + (a.capacity - (a.brk + m * n)) / n) := by
    by_cases h0 : n = 0
    · subst h0
      simp only [if_true] at hm
      exact ⟨by omega, by simpa using hbrk_le, Or.inl rfl⟩
    · have hfits := h.fits.resolve_left h0
      rw [if_neg h0] at hm
      by_cases hf : (a.freeList n).length = 0
      · have hdiv : 1 ≤ (a.capacity - a.brk) / n := by omega
        obtain rfl : 1 = m := by omega
        have hle := (Nat.le_div_iff_mul_le (Nat.pos_of_ne_zero h0)).mp hdiv
        rw [Nat.one_mul] at hle ⊢
        refine ⟨by omega, by omega, Or.inr ?_⟩
        have hsplit : a.capacity - a.brk = a.capacity - (a.brk + n) + n := by omega
        rw [hsplit, Nat.add_div_right _ (Nat.pos_of_ne_zero h0)] at hfits
        omega
      · obtain rfl : 0 = m := by omega
        rw [Nat.zero_mul, Nat.add_zero]
        exact ⟨by omega, by omega, Or.inr (by omega)⟩
  obtain ⟨hcount, hle, hfits⟩ := hone
  obtain ⟨o, ho⟩ := List.length_eq_one_iff.mp hcount
  have hlt : ¬(a.collect 1 n).1.length < 1 := by omega
  refine ⟨o, { a with
    brk := (a.collect 1 n).2.2
    freeSegments := a.freeSegments.set n (a.collect 1 n).2.1
    usedBytes := a.usedBytes + (1 * n : ℕ) }, ?_, ?_, ?_⟩
  · simp only [allocate, if_neg hlt]
    rw [ho, List.map_singleton]
  · rw [hbrk]
    exact hle
  · rw [freeList, OrderedDict.get?_set_self, Option.getD_some, hfree, hbrk]
    exact hfits

end PoolAllocator

namespace Pool

variable {p : Pool}

def counts (p : Pool) : PoolCounts where
  capacity := p.allocator.capacity
  brk := p.allocator.brk
  free n := (p.allocator.freeList n).length
  sizes := p.live.map MemoryObj.nbytes

/-- Writing the free list of one size. -/
theorem length_freeList_set {a b : PoolAllocator} {n : ℕ} {l : List ℕ}
    (h : b.freeSegments = a.freeSegments.set n l) : (fun k => (b.freeList k).length) =
      Function.update (fun k => (a.freeList k).length) n l.length := by
  funext k
  rw [PoolAllocator.freeList, h, OrderedDict.get?_set, Function.update_apply]
  by_cases hk : n = k
  · simp [hk]
  · simp [hk, Ne.symm hk, PoolAllocator.freeList]

/-- An allocation on the pool is the one on its counts. -/
theorem counts_allocate (hbrk : p.allocator.brk ≤ p.allocator.capacity) (count n : ℕ) :
    (p.call (.allocate count n)).1 = (p.counts.call (.allocate count n)).1 ∧
      (p.call (.allocate count n)).2.counts = (p.counts.call (.allocate count n)).2 := by
  obtain ⟨m, hlen, hfree, hbrk', hm⟩ := p.allocator.collect_eq hbrk count n
  have hfresh : p.counts.fresh (count - p.counts.free n) n = m := hm.symm
  have hf : p.counts.free n = (p.allocator.freeList n).length := rfl
  by_cases hlt : (p.allocator.collect count n).1.length < count
  · -- nothing is returned, and what was collected goes to the free list
    have hfew : p.counts.free n + m < count := by omega
    have hall : p.allocator.allocate count n = (none, { p.allocator with
        brk := (p.allocator.collect count n).2.2
        freeSegments := p.allocator.freeSegments.set n
          ((p.allocator.collect count n).2.1 ++ (p.allocator.collect count n).1) }) := by
      simp only [PoolAllocator.allocate, if_pos hlt]
    simp only [call, hall, PoolCounts.call, hfresh, if_pos hfew, true_and]
    simp only [counts, PoolCounts.mk.injEq, hbrk', true_and, and_true]
    rw [length_freeList_set rfl, List.length_append, hfree, hlen]
    congr 1
    omega
  · have henough : ¬p.counts.free n + m < count := by omega
    have hall : p.allocator.allocate count n =
        (some ((p.allocator.collect count n).1.map fun o => ⟨o, n⟩), { p.allocator with
          brk := (p.allocator.collect count n).2.2
          freeSegments := p.allocator.freeSegments.set n (p.allocator.collect count n).2.1
          usedBytes := p.allocator.usedBytes + (count * n : ℕ) }) := by
      simp only [PoolAllocator.allocate, if_neg hlt]
    have hcount : (p.allocator.collect count n).1.length = count :=
      le_antisymm (p.allocator.length_collect_le count n) (Nat.not_lt.mp hlt)
    simp only [call, hall, PoolCounts.call, hfresh, if_neg henough, true_and]
    simp only [counts, PoolCounts.mk.injEq, hbrk', true_and]
    refine ⟨?_, ?_⟩
    · rw [length_freeList_set rfl, hfree]
    · have hsizes : ((p.allocator.collect count n).1.map fun _ => n) = List.replicate count n := by
        rw [List.map_const', hcount]
      rw [List.map_append, List.map_map, ← hsizes]
      rfl

/-- A call on the pool is the call on its counts. -/
theorem counts_call (hbrk : p.allocator.brk ≤ p.allocator.capacity) (c : PoolCall) :
    (p.call c).1 = (p.counts.call c).1 ∧ (p.call c).2.counts = (p.counts.call c).2 := by
  cases c with
  | allocate count n => exact counts_allocate hbrk count n
  | free i =>
    have hi : p.counts.sizes[i]? = p.live[i]?.map MemoryObj.nbytes := List.getElem?_map ..
    rcases hl : p.live[i]? with _ | obj
    · rw [hl, Option.map_none] at hi
      simp only [call, hl, PoolCounts.call, hi, and_self]
    · rw [hl, Option.map_some] at hi
      simp only [call, hl, PoolCounts.call, hi, true_and]
      simp only [counts, PoolCounts.mk.injEq, PoolAllocator.free, true_and]
      refine ⟨?_, List.eraseIdx_map .. |>.symm⟩
      rw [length_freeList_set (a := p.allocator) rfl, List.length_append, List.length_singleton]
      rfl

theorem outcomes_eq : ∀ (calls : List PoolCall) {p : Pool}, p.allocator.Inv p.live →
    p.outcomes calls = p.counts.outcomes calls
  | [], _, _ => rfl
  | c :: calls, p, h => by
    obtain ⟨hbool, hcounts⟩ := counts_call h.brk_le c
    rw [outcomes, PoolCounts.outcomes, hbool, outcomes_eq calls (inv_call h c), hcounts]

end Pool

/-! ## A failed allocation -/

namespace PoolCounts

variable {s t : PoolCounts}

/-- The one byte at the end of the pool is a free slice of its own in `t`, and still above the
bump pointer in `s`. -/
structure LastByte (s t : PoolCounts) : Prop where
  capacity : t.capacity = s.capacity
  room : s.capacity = s.brk + 1
  full : t.brk = s.capacity
  free : t.free = Function.update s.free 1 (s.free 1 + 1)
  sizes : t.sizes = s.sizes

theorem LastByte.rooms (h : LastByte s t) : s.room = 1 ∧ t.room = 0 := by
  rw [PoolCounts.room, PoolCounts.room, h.capacity, h.full, h.room]
  omega

theorem call_allocate {count n m : ℕ} (hm : s.fresh (count - s.free n) n = m) :
    s.call (.allocate count n) = if s.free n + m < count then
      (false, { s with
        brk := s.brk + m * n
        free := Function.update s.free n (s.free n + m) })
    else
      (true, { s with
        brk := s.brk + m * n
        free := Function.update s.free n (s.free n - count)
        sizes := s.sizes ++ List.replicate count n }) := by
  simp only [call, hm]

/-- An allocation of a size other than one byte does not see the last byte. -/
theorem LastByte.allocate_ne (h : LastByte s t) (count : ℕ) {n : ℕ} (hn : n ≠ 1) :
    (t.call (.allocate count n)).1 = (s.call (.allocate count n)).1 ∧
      LastByte (s.call (.allocate count n)).2 (t.call (.allocate count n)).2 := by
  have hroom := h.room
  obtain ⟨hs1, ht0⟩ := h.rooms
  have hfree : t.free n = s.free n := by rw [h.free, Function.update_of_ne hn]
  obtain ⟨m, hs, ht, hmul⟩ : ∃ m, s.fresh (count - s.free n) n = m ∧
      t.fresh (count - t.free n) n = m ∧ m * n = 0 := by
    by_cases h0 : n = 0
    · subst h0
      exact ⟨count - s.free 0, rfl, by rw [hfree]; rfl, rfl⟩
    · have hs : s.room / n = 0 := Nat.div_eq_of_lt (by omega)
      exact ⟨0, by simp [fresh, h0, hs], by simp [fresh, h0, ht0], by simp⟩
  rw [call_allocate hs, call_allocate ht, hfree]
  split_ifs
  · refine ⟨rfl, h.capacity, ?_, ?_, ?_, h.sizes⟩
    · simpa [hmul] using hroom
    · simpa [hmul] using h.full
    · simp only [h.free, Function.update_of_ne hn.symm]
      exact Function.update_comm hn.symm _ _ _
  · refine ⟨rfl, h.capacity, ?_, ?_, ?_, by rw [h.sizes]⟩
    · simpa [hmul] using hroom
    · simpa [hmul] using h.full
    · simp only [h.free, Function.update_of_ne hn.symm]
      exact Function.update_comm hn.symm _ _ _

/-- An allocation of single bytes may take the last one; then the pools are equal. -/
theorem LastByte.allocate_one (h : LastByte s t) (count : ℕ) :
    (t.call (.allocate count 1)).1 = (s.call (.allocate count 1)).1 ∧
      ((t.call (.allocate count 1)).2 = (s.call (.allocate count 1)).2 ∨
        LastByte (s.call (.allocate count 1)).2 (t.call (.allocate count 1)).2) := by
  have hroom := h.room
  obtain ⟨hs1, ht0⟩ := h.rooms
  have hfree : t.free 1 = s.free 1 + 1 := by rw [h.free, Function.update_self]
  have hs : s.fresh (count - s.free 1) 1 = min (count - s.free 1) 1 := by simp [fresh, hs1]
  have ht : t.fresh (count - t.free 1) 1 = 0 := by simp [fresh, ht0]
  rw [call_allocate hs, call_allocate ht, hfree]
  rcases Nat.lt_trichotomy (s.free 1 + 1) count with hlt | rfl | hgt
  · -- both fail, and `s` moves the byte to the free list
    have hone : min (count - s.free 1) 1 = 1 := by omega
    rw [hone, if_pos (by omega), if_pos (by omega)]
    refine ⟨rfl, Or.inl ?_⟩
    simp only [mk.injEq, h.capacity, h.sizes, h.full, h.free, Function.update_idem, and_true]
    exact ⟨trivial, by omega⟩
  · have hone : min (s.free 1 + 1 - s.free 1) 1 = 1 := by omega
    rw [hone, if_neg (by omega), if_neg (by omega)]
    refine ⟨rfl, Or.inl ?_⟩
    simp only [mk.injEq, h.capacity, h.sizes, h.full, h.free, Function.update_idem, and_true]
    refine ⟨trivial, by omega, ?_⟩
    congr 1
    omega
  · have hnone : min (count - s.free 1) 1 = 0 := by omega
    rw [hnone, if_neg (by omega), if_neg (by omega)]
    refine ⟨rfl, Or.inr ⟨h.capacity, ?_, ?_, ?_, by rw [h.sizes]⟩⟩
    · simpa using hroom
    · simpa using h.full
    · simp only [h.free, Function.update_idem, Function.update_self]
      congr 1
      omega

/-- It does not matter on which side of the bump pointer one byte is. -/
theorem LastByte.call (h : LastByte s t) (c : PoolCall) : (t.call c).1 = (s.call c).1 ∧
    ((t.call c).2 = (s.call c).2 ∨ LastByte (s.call c).2 (t.call c).2) := by
  cases c with
  | allocate count n =>
    by_cases hn : n = 1
    · subst hn
      exact h.allocate_one count
    · obtain ⟨hbool, hnext⟩ := h.allocate_ne count hn
      exact ⟨hbool, Or.inr hnext⟩
  | free i =>
    simp only [PoolCounts.call, h.sizes]
    rcases s.sizes[i]? with _ | n
    · exact ⟨rfl, Or.inr h⟩
    · refine ⟨rfl, Or.inr ⟨h.capacity, h.room, h.full, ?_, rfl⟩⟩
      funext k
      simp only [h.free, Function.update_apply]
      by_cases hk : k = n <;> by_cases h1 : k = 1 <;> by_cases hn : n = 1 <;> simp_all

theorem LastByte.outcomes : ∀ (calls : List PoolCall) {s t : PoolCounts}, LastByte s t →
    t.outcomes calls = s.outcomes calls
  | [], _, _, _ => rfl
  | c :: calls, s, t, h => by
    obtain ⟨hbool, hnext⟩ := h.call c
    rw [PoolCounts.outcomes, PoolCounts.outcomes, hbool]
    rcases hnext with heq | hnext
    · rw [heq]
    · rw [hnext.outcomes calls]

/-- A failed allocation takes all slices that the bump pointer still gives. -/
theorem call_of_failed {count n : ℕ} (hfail : (s.call (.allocate count n)).1 = false) :
    0 < n ∧ s.free n + s.room / n < count ∧ (s.call (.allocate count n)).2 = { s with
      brk := s.brk + s.room / n * n
      free := Function.update s.free n (s.free n + s.room / n) } := by
  rw [call_allocate rfl] at hfail ⊢
  split_ifs at hfail ⊢ with hlt
  by_cases h0 : n = 0
  · rw [fresh, if_pos h0] at hlt
    omega
  · rw [fresh, if_neg h0] at hlt ⊢
    have hm : min (count - s.free n) (s.room / n) = s.room / n := by omega
    rw [hm] at hlt ⊢
    exact ⟨Nat.pos_of_ne_zero h0, hlt, rfl⟩

/-- Whether one allocation succeeds. -/
theorem allocates_iff {count n : ℕ} (hn : 0 < n) :
    (s.call (.allocate count n)).1 = true ↔ count ≤ s.free n + s.room / n := by
  rw [call_allocate rfl, fresh, if_neg hn.ne']
  split_ifs with h
  · simp only [false_iff]
    omega
  · simp only [true_iff]
    omega

/-- After a failure that took a slice, some allocation of another size fails that would have
succeeded. -/
theorem outcomes_ne_of_took {count n : ℕ} (hfail : (s.call (.allocate count n)).1 = false)
    (htook : n ≤ s.room) (hroom : 2 ≤ s.room) : ∃ c : PoolCall,
      (s.call c).1 = true ∧ ((s.call (.allocate count n)).2.call c).1 = false := by
  obtain ⟨hn, -, hafter⟩ := call_of_failed hfail
  set t := (s.call (.allocate count n)).2 with ht
  have htroom : t.room = s.room % n := by
    have hdiv := Nat.div_add_mod' s.room n
    rw [hafter]
    simp only [room] at hdiv ⊢
    omega
  have hfree : ∀ {z}, z ≠ n → t.free z = s.free z := fun hz => by
    rw [hafter]
    exact Function.update_of_ne hz _ _
  have hmod := Nat.mod_lt s.room hn
  -- all that was left in one piece, or single bytes when that is just the piece asked for
  obtain ⟨z, hz, hzn, hfits, hgone⟩ : ∃ z, 0 < z ∧ z ≠ n ∧ 1 ≤ s.room / z ∧ t.room / z = 0 := by
    by_cases heq : s.room = n
    · refine ⟨1, Nat.one_pos, by omega, by simpa using (by omega : 1 ≤ s.room), ?_⟩
      rw [htroom, heq, Nat.mod_self, Nat.zero_div]
    · refine ⟨s.room, by omega, heq, by rw [Nat.div_self (by omega)], ?_⟩
      rw [htroom]
      exact Nat.div_eq_of_lt (by omega)
  refine ⟨.allocate (s.free z + 1) z, (allocates_iff hz).mpr (by omega), ?_⟩
  rw [Bool.eq_false_iff, Ne, allocates_iff hz, hfree hzn, hgone]
  omega

/-- Exactly when a failed allocation has no effect on what later calls return. -/
theorem outcomes_after_failure_iff {count n : ℕ}
    (hfail : (s.call (.allocate count n)).1 = false) :
    (∀ calls, (s.call (.allocate count n)).2.outcomes calls = s.outcomes calls) ↔
      s.room < n ∨ s.room ≤ 1 := by
  constructor
  · intro h
    by_contra hcon
    rw [not_or, not_lt, not_le] at hcon
    obtain ⟨c, hs, ht⟩ := outcomes_ne_of_took hfail hcon.1 hcon.2
    have hone := h [c]
    simp only [outcomes, List.cons.injEq, and_true] at hone
    rw [hs, ht] at hone
    cases hone
  · intro h calls
    obtain ⟨hn, -, hafter⟩ := call_of_failed hfail
    by_cases hnone : s.room < n
    · rw [hafter, Nat.div_eq_of_lt hnone]
      simp
    · have hroom : s.room = 1 := by omega
      obtain rfl : n = 1 := by omega
      have hcap : s.capacity = s.brk + 1 := by
        rw [room] at hroom
        omega
      refine LastByte.outcomes calls ?_
      rw [hafter, hroom]
      exact ⟨rfl, hcap, hcap.symm, rfl, rfl⟩

end PoolCounts

namespace Pool

/-- A failed allocation has no lasting effect exactly when it took no slice off the bump pointer,
or a last single byte : then, and only then, every later sequence of calls returns what it would
have returned without it. -/
theorem failed_allocation_harmless_iff {p : Pool} (h : p.Reachable) {count nbytes : ℕ}
    (hfail : (p.call (.allocate count nbytes)).1 = false) :
    (∀ calls, (p.call (.allocate count nbytes)).2.outcomes calls = p.outcomes calls) ↔
      p.allocator.capacity - p.allocator.brk < nbytes ∨
        p.allocator.capacity - p.allocator.brk ≤ 1 := by
  have hinv := h.inv
  obtain ⟨hbool, hcounts⟩ := counts_call hinv.brk_le (.allocate count nbytes)
  rw [hbool] at hfail
  have hiff := PoolCounts.outcomes_after_failure_iff hfail
  simp only [outcomes_eq _ hinv, outcomes_eq _ (inv_call hinv (.allocate count nbytes)), hcounts]
  exact hiff

/-- A pool of four bytes with one slice of two in use : two more do not fit, and what the failed
request took is free for its own size only. -/
theorem failed_allocation_takes_room : ∃ p : Pool, p.Reachable ∧
    (p.call (.allocate 2 2)).1 = false ∧
    p.outcomes [.allocate 1 1] = [true] ∧
    (p.call (.allocate 2 2)).2.outcomes [.allocate 1 1] = [false] :=
  ⟨(new 4 fun _ => 0).after [.allocate 1 2], ⟨4, _, _, rfl⟩, by decide, by decide, by decide⟩

/-- With that slice in use and one of three bytes wanted, nothing is taken. -/
theorem failed_allocation_harmless_iff_sample : ∃ p : Pool, p.Reachable ∧
    (p.call (.allocate 1 3)).1 = false ∧
    ∀ calls, (p.call (.allocate 1 3)).2.outcomes calls = p.outcomes calls :=
  ⟨(new 4 fun _ => 0).after [.allocate 1 2], ⟨4, _, _, rfl⟩, by decide,
    (failed_allocation_harmless_iff ⟨4, _, _, rfl⟩ (by decide)).mpr (Or.inl (by decide))⟩

end Pool

end MiniLlmcache
