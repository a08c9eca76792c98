import MiniLlmcache.PoolCounts

/-!
# What the pool can give

The allocator over any calls that free a slice at most once. `Carved` records the slices that the
bump pointer has cut off, with the size each was cut for : they follow one another from 0 to `brk`
(`Adjacent`), and each is in use or on the free list of that size, never both. So the slices tile
`[0, brk)`, and a request is served exactly when the free list of its size and the room above `brk`
have enough (`allocate_isSome_iff`). `allocator_exact` puts this together for whole histories, and
says what it comes to when they use one size.
-/

namespace MiniLlmcache

/-! ## Adjacent slices -/

/-- The slices follow one another from `start` to `stop`. -/
def Adjacent : ℕ → List MemoryObj → ℕ → Prop
  | start, [], stop => start = stop
  | start, o :: objs, stop => o.offset = start ∧ Adjacent (start + o.nbytes) objs stop

theorem Adjacent.append : ∀ {objs objs' : List MemoryObj} {start mid stop : ℕ},
    Adjacent start objs mid → Adjacent mid objs' stop → Adjacent start (objs ++ objs') stop
  | [], _, _, _, _, h, h' => h ▸ h'
  | _ :: _, _, _, _, _, h, h' => ⟨h.1, h.2.append h'⟩

theorem Adjacent.le : ∀ {objs : List MemoryObj} {start stop : ℕ},
    Adjacent start objs stop → start ≤ stop
  | [], _, _, h => Nat.le_of_eq h
  | _ :: _, _, _, h => (Nat.le_add_right _ _).trans h.2.le

/-- Every byte between the ends is in a slice, and no other. -/
theorem Adjacent.covers : ∀ {objs : List MemoryObj} {start stop : ℕ}, Adjacent start objs stop →
    ∀ i, (start ≤ i ∧ i < stop) ↔ ∃ o ∈ objs, o.offset ≤ i ∧ i < o.offset + o.nbytes
  | [], start, stop, h, i => by
    have heq : start = stop := h
    simp only [List.not_mem_nil, false_and, exists_false, iff_false]
    omega
  | o :: objs, start, stop, h, i => by
    obtain ⟨hstart, htail⟩ := h
    have hle := htail.le
    simp only [List.mem_cons, exists_eq_or_imp, ← htail.covers i]
    omega

/-- `m` slices of one size. -/
theorem adjacent_range (start n : ℕ) : ∀ m : ℕ,
    Adjacent start ((List.range m).map fun i => ⟨start + i * n, n⟩) (start + m * n)
  | 0 => by simp [Adjacent]
  | m + 1 => by
    rw [List.range_succ, List.map_append, Nat.succ_mul, ← Nat.add_assoc]
    exact (adjacent_range start n m).append ⟨rfl, rfl⟩

/-! ## Slices cut off the pool -/

namespace PoolAllocator

/-- `free(objs)`. -/
def freeAll (a : PoolAllocator) (objs : List MemoryObj) : PoolAllocator := objs.foldl free a

/-- The slices that an allocation cuts off above the bump pointer. -/
def cut (a : PoolAllocator) (count nbytes : ℕ) : List MemoryObj :=
  (List.range (((a.allocate count nbytes).2.brk - a.brk) / nbytes)).map fun i =>
    ⟨a.brk + i * nbytes, nbytes⟩

/-- The offsets that the bump loop collects. -/
theorem bump_offsets (nbytes capacity : ℕ) : ∀ (n brk : ℕ) (offsets : List ℕ),
    ∃ m, bump nbytes capacity n brk offsets =
      (offsets ++ (List.range m).map (fun i => brk + i * nbytes), brk + m * nbytes)
  | 0, brk, offsets => ⟨0, by simp [bump]⟩
  | n + 1, brk, offsets => by
    unfold bump
    split_ifs with h
    · obtain ⟨m, hm⟩ := bump_offsets nbytes capacity n (brk + nbytes) (offsets ++ [brk])
      refine ⟨m + 1, hm.trans ?_⟩
      rw [List.range_succ_eq_map, List.map_cons, List.map_map, List.append_assoc,
        List.singleton_append]
      refine Prod.ext_iff.mpr ⟨?_, by rw [Nat.succ_mul]; omega⟩
      simp only [Nat.zero_mul, Nat.add_zero, Function.comp_def, Nat.succ_mul]
      congr 3
      funext i
      omega
    · exact ⟨0, by simp⟩

/-- What the loops collect and leave are the free slices of the size, and what is cut off. -/
theorem collect_perm (a : PoolAllocator) (count nbytes : ℕ) :
    ∃ m, (a.collect count nbytes).2.2 = a.brk + m * nbytes ∧
      ((a.collect count nbytes).1 ++ (a.collect count nbytes).2.1).Perm
        (a.freeList nbytes ++ (List.range m).map fun i => a.brk + i * nbytes) := by
  obtain ⟨m, hm⟩ := bump_offsets nbytes a.capacity
    (count - (popFree count (a.freeList nbytes) []).1.length) a.brk
    (popFree count (a.freeList nbytes) []).1
  refine ⟨m, congrArg Prod.snd hm, ?_⟩
  have hpop := popFree_perm count (a.freeList nbytes) []
  have hfst : (a.collect count nbytes).1 = (popFree count (a.freeList nbytes) []).1 ++
    (List.range m).map (fun i => a.brk + i * nbytes) := congrArg Prod.fst hm
  rw [hfst, List.append_assoc]
  refine (List.Perm.append_left _ List.perm_append_comm).trans ?_
  rw [← List.append_assoc]
  exact hpop.append_right _

variable {a a' : PoolAllocator} {count nbytes : ℕ}

/-- The free slices are the ones of a size, and the others. -/
theorem coe_freeObjs (a : PoolAllocator) (n : ℕ) : (a.freeObjs : Multiset MemoryObj) =
    ((a.freeList n).map fun o => (⟨o, n⟩ : MemoryObj)) + (a.otherFree n : Multiset MemoryObj) :=
  Multiset.coe_eq_coe.mpr (a.freeObjs_perm n)

theorem coe_freeObjs_set {n : ℕ} {l : List ℕ}
    (h : a'.freeSegments = a.freeSegments.set n l) : (a'.freeObjs : Multiset MemoryObj) =
    (l.map fun o => (⟨o, n⟩ : MemoryObj)) + (a.otherFree n : Multiset MemoryObj) :=
  Multiset.coe_eq_coe.mpr (freeObjs_set_perm h)

theorem brk_allocate (a : PoolAllocator) (count nbytes : ℕ) :
    (a.allocate count nbytes).2.brk = (a.collect count nbytes).2.2 := by
  simp only [allocate]
  split_ifs <;> rfl

theorem capacity_allocate (a : PoolAllocator) (count nbytes : ℕ) :
    (a.allocate count nbytes).2.capacity = a.capacity := by
  simp only [allocate]
  split_ifs <;> rfl

/-- What an allocation cuts off follows the slices below the bump pointer. -/
theorem adjacent_cut (a : PoolAllocator) (count : ℕ) (hn : 0 < nbytes) :
    Adjacent a.brk (a.cut count nbytes) (a.allocate count nbytes).2.brk := by
  obtain ⟨m, hbrk, -⟩ := a.collect_perm count nbytes
  rw [cut, brk_allocate, hbrk, Nat.add_sub_cancel_left, Nat.mul_div_cancel _ hn]
  exact adjacent_range a.brk nbytes m

/-- What an allocation hands out and leaves free is what was free, and what it cuts off. -/
theorem allocate_perm (a : PoolAllocator) (count : ℕ) (hn : 0 < nbytes) :
    (((a.allocate count nbytes).1.getD [] ++ (a.allocate count nbytes).2.freeObjs :
      List MemoryObj)).Perm (a.freeObjs ++ a.cut count nbytes) := by
  obtain ⟨m, hbrk, hperm⟩ := a.collect_perm count nbytes
  have hcut : a.cut count nbytes = ((List.range m).map fun i => a.brk + i * nbytes).map
      fun o => (⟨o, nbytes⟩ : MemoryObj) := by
    rw [cut, brk_allocate, hbrk, Nat.add_sub_cancel_left, Nat.mul_div_cancel _ hn, List.map_map]
    rfl
  have hsplit := hperm.map fun o => (⟨o, nbytes⟩ : MemoryObj)
  simp only [List.map_append, ← hcut, ← Multiset.coe_eq_coe, ← Multiset.coe_add] at hsplit
  rw [← Multiset.coe_eq_coe, ← Multiset.coe_add, ← Multiset.coe_add, a.coe_freeObjs nbytes,
    add_right_comm, ← hsplit]
  simp only [allocate]
  split_ifs
  · rw [coe_freeObjs_set rfl, List.map_append, ← Multiset.coe_add, Option.getD_none,
      Multiset.coe_nil, zero_add, add_comm (Multiset.ofList _) (Multiset.ofList _)]
  · rw [coe_freeObjs_set rfl, Option.getD_some, add_assoc]

/-- Freeing moves a slice to the free ones. -/
theorem free_perm (a : PoolAllocator) (obj : MemoryObj) :
    (a.free obj).freeObjs.Perm (obj :: a.freeObjs) := by
  rw [← Multiset.coe_eq_coe, coe_freeObjs_set rfl, ← Multiset.cons_coe,
    a.coe_freeObjs obj.nbytes, List.map_append, ← Multiset.coe_add, List.map_singleton,
    Multiset.coe_singleton, ← Multiset.singleton_add]
  unfold freeList
  rw [← add_assoc, add_comm ({obj} : Multiset MemoryObj)]

theorem freeAll_perm : ∀ (objs : List MemoryObj) (a : PoolAllocator),
    (a.freeAll objs).freeObjs.Perm (objs ++ a.freeObjs)
  | [], _ => .refl _
  | obj :: objs, a =>
    (freeAll_perm objs (a.free obj)).trans
      (((a.free_perm obj).append_left objs).trans List.perm_middle)

theorem inv_freeAll {live : List MemoryObj} : ∀ (objs : List MemoryObj) {a : PoolAllocator},
    a.Inv (objs ++ live) → (a.freeAll objs).Inv live
  | [], _, h => h
  | _ :: objs, _, h => inv_freeAll objs (inv_free h)

theorem brk_freeAll : ∀ (objs : List MemoryObj) (a : PoolAllocator),
    (a.freeAll objs).brk = a.brk ∧ (a.freeAll objs).capacity = a.capacity
  | [], _ => ⟨rfl, rfl⟩
  | obj :: objs, a => brk_freeAll objs (a.free obj)

/-- A request is served exactly when the free slices of its size and the room above the bump
pointer are enough. -/
theorem allocate_isSome_iff (hbrk : a.brk ≤ a.capacity) (hn : 0 < nbytes) :
    (a.allocate count nbytes).1.isSome = true ↔
      count ≤ (a.freeList nbytes).length + (a.capacity - a.brk) / nbytes := by
  obtain ⟨m, hlen, -, -, hm⟩ := a.collect_eq hbrk count nbytes
  rw [if_neg hn.ne'] at hm
  simp only [allocate]
  split_ifs with hlt
  · simp only [Option.isSome_none, Bool.false_eq_true, false_iff]
    omega
  · simp only [Option.isSome_some, true_iff]
    omega

/-- The other free slices are of other sizes. -/
theorem nbytes_ne_of_mem_otherFree {n : ℕ} {o : MemoryObj} (h : o ∈ a.otherFree n) :
    o.nbytes ≠ n := by
  obtain ⟨p, hp, ho⟩ := List.mem_flatMap.mp h
  obtain ⟨x, -, rfl⟩ := List.mem_map.mp ho
  have hkey : p.1 ∈ (a.freeSegments.erase n).keys := List.mem_map.mpr ⟨p, hp, rfl⟩
  exact (OrderedDict.mem_keys_erase.mp hkey).1

/-- When all slices have one size, it succeeds as long as the pool has room for one more each. -/
theorem allocate_isSome_iff_of_one_size {live : List MemoryObj} (h : a.Inv live) (hn : 0 < nbytes)
    (hone : ∀ o ∈ live ++ a.freeObjs, o.nbytes = nbytes) :
    (a.allocate count nbytes).1.isSome = true ↔ live.length + count ≤ a.capacity / nbytes := by
  have hother : a.otherFree nbytes = [] := by
    refine List.eq_nil_iff_forall_not_mem.mpr fun o ho => nbytes_ne_of_mem_otherFree ho ?_
    refine hone o (List.mem_append_right _ ((a.freeObjs_perm nbytes).mem_iff.mpr ?_))
    exact List.mem_append_right _ ho
  have hfree : a.freeObjs.length = (a.freeList nbytes).length := by
    rw [(a.freeObjs_perm nbytes).length_eq, hother, List.append_nil, List.length_map, freeList]
  have hbrk : (live.length + (a.freeList nbytes).length) * nbytes = a.brk := by
    have hsum := h.tiles.sum
    rwa [List.map_congr_left hone, List.map_const', List.sum_replicate_nat,
      List.length_append, hfree] at hsum
  have hle := h.brk_le
  have hroom := (Nat.le_div_iff_mul_le hn).mpr (hbrk.trans_le hle)
  rw [allocate_isSome_iff hle hn, ← hbrk, Nat.mul_comm, Nat.sub_mul_div]
  omega

end PoolAllocator

/-! ## Whole histories -/

/-- A call of the pool's callers. -/
inductive SliceCall
  | allocate (count nbytes : ℕ)
  | free (objs : List MemoryObj)

/-- The pool and the slices its callers hold, with every slice cut off so far. -/
structure Carved where
  pool : Pool
  cuts : List MemoryObj

namespace Carved

def new (capacity : ℕ) (bytes : ℕ → UInt8) : Carved := ⟨.new capacity bytes, []⟩

def step (s : Carved) : SliceCall → Option Carved
  | .allocate count nbytes => some
    ⟨(s.pool.call (.allocate count nbytes)).2, s.cuts ++ s.pool.allocator.cut count nbytes⟩
  | .free objs => some ⟨⟨s.pool.allocator.freeAll objs, s.pool.live.diff objs⟩, s.cuts⟩

/-- Sizes are positive, and slices are freed while they are in use, each once. -/
def Allows (s : Carved) : SliceCall → Prop
  | .allocate _ nbytes => 0 < nbytes
  | .free objs => objs.Subperm s.pool.live

/-- The call allocates slices of one size. -/
def OneSize (nbytes : ℕ) : SliceCall → Prop
  | .allocate _ n => n = nbytes
  | .free _ => True

structure Inv (capacity : ℕ) (s : Carved) : Prop where
  allocator : s.pool.allocator.Inv s.pool.live
  capacity_eq : s.pool.allocator.capacity = capacity
  adjacent : Adjacent 0 s.cuts s.pool.allocator.brk
  perm : (s.pool.live ++ s.pool.allocator.freeObjs).Perm s.cuts

theorem inv_new (capacity : ℕ) (bytes : ℕ → UInt8) : (new capacity bytes).Inv capacity :=
  ⟨PoolAllocator.inv_new capacity bytes, rfl, rfl, .refl _⟩

variable {capacity : ℕ} {s s' : Carved}

theorem call_allocate (p : Pool) (count nbytes : ℕ) : (p.call (.allocate count nbytes)).2 =
    ⟨(p.allocator.allocate count nbytes).2,
      p.live ++ (p.allocator.allocate count nbytes).1.getD []⟩ := by
  rcases ha : p.allocator.allocate count nbytes with ⟨_ | objs, a⟩
  · simp only [Pool.call, ha, Option.getD_none, List.append_nil]
  · simp only [Pool.call, ha, Option.getD_some]

theorem Inv.step (h : s.Inv capacity) {c : SliceCall} (hok : s.Allows c)
    (hs : s.step c = some s') : s'.Inv capacity := by
  cases c with
  | allocate count nbytes =>
    cases hs
    have hinv := Pool.inv_call h.allocator (.allocate count nbytes)
    rw [call_allocate] at hinv ⊢
    refine ⟨hinv, (s.pool.allocator.capacity_allocate count nbytes).trans h.capacity_eq,
      h.adjacent.append (s.pool.allocator.adjacent_cut count hok), ?_⟩
    have hperm := (s.pool.allocator.allocate_perm count hok).append_left s.pool.live
    rw [← List.append_assoc, ← List.append_assoc] at hperm
    exact hperm.trans (h.perm.append_right _)
  | free objs =>
    cases hs
    have hlive : (objs ++ s.pool.live.diff objs).Perm s.pool.live :=
      List.subperm_append_diff_self_of_count_le fun o _ => hok.count_le o
    obtain ⟨hbrk, hcap⟩ := PoolAllocator.brk_freeAll objs s.pool.allocator
    refine ⟨PoolAllocator.inv_freeAll objs (h.allocator.perm hlive.symm),
      hcap.trans h.capacity_eq, hbrk.symm ▸ h.adjacent, .trans ?_ h.perm⟩
    refine ((PoolAllocator.freeAll_perm objs s.pool.allocator).append_left _).trans ?_
    rw [← List.append_assoc]
    exact (List.perm_append_comm.trans hlive).append_right _

theorem cuts_of_oneSize {nbytes : ℕ} (h : ∀ o ∈ s.cuts, o.nbytes = nbytes) {c : SliceCall}
    (hone : OneSize nbytes c) (hs : s.step c = some s') : ∀ o ∈ s'.cuts, o.nbytes = nbytes := by
  cases c with
  | allocate count n =>
    cases hs
    intro o ho
    rcases List.mem_append.mp ho with ho | ho
    · exact h o ho
    · obtain ⟨i, -, rfl⟩ := List.mem_map.mp ho
      exact hone
  | free objs =>
    cases hs
    exact h

/-- The slices in use and the free slices are disjoint and cover `[0, brk)`; each slice ever cut
off is one of them, on the free list of its size if it is not in use; and a request is served
exactly when there is enough for it. -/
structure Sound (capacity : ℕ) (s : Carved) : Prop where
  brk_le : s.pool.allocator.brk ≤ capacity
  disjoint : (s.pool.live ++ s.pool.allocator.freeObjs).Pairwise MemoryObj.Disjoint
  covers : ∀ i, i < s.pool.allocator.brk ↔
    ∃ o ∈ s.pool.live ++ s.pool.allocator.freeObjs, o.offset ≤ i ∧ i < o.offset + o.nbytes
  ownList : (s.pool.live ++ s.pool.allocator.freeObjs).Perm s.cuts
  used : s.pool.allocator.usedBytes = ((s.pool.live.map MemoryObj.nbytes).sum : ℕ)
  allocates : ∀ count nbytes, 0 < nbytes →
    ((s.pool.allocator.allocate count nbytes).1.isSome = true ↔
      count ≤ (s.pool.allocator.freeList nbytes).length +
        (capacity - s.pool.allocator.brk) / nbytes)

theorem Inv.sound (h : s.Inv capacity) : s.Sound capacity where
  brk_le := h.capacity_eq ▸ h.allocator.brk_le
  disjoint := h.allocator.tiles.disjoint
  covers i := by
    have hcovers := h.adjacent.covers i
    rw [and_iff_right (Nat.zero_le i)] at hcovers
    simp only [hcovers, h.perm.mem_iff]
  ownList := h.perm
  used := h.allocator.used
  allocates count nbytes hn := by
    rw [PoolAllocator.allocate_isSome_iff h.allocator.brk_le hn, h.capacity_eq]

/-- Allocator soundness and exact capacity, after any calls with positive sizes that free each
slice at most once; and when the calls use one size, a request succeeds exactly when the slices in
use and the new ones fit the pool. -/
theorem allocator_exact {bytes : ℕ → UInt8} {calls : List SliceCall}
    (hrun : Run step Allows (new capacity bytes) calls s) : s.Sound capacity ∧
    ∀ nbytes, 0 < nbytes → (∀ c ∈ calls, OneSize nbytes c) → ∀ count,
      ((s.pool.allocator.allocate count nbytes).1.isSome = true ↔
        s.pool.live.length + count ≤ capacity / nbytes) := by
  have hinv := hrun.invariant (Inv capacity) (inv_new capacity bytes) fun _ _ _ h hok hs =>
    h.step hok hs
  refine ⟨hinv.sound, fun nbytes hn hone count => ?_⟩
  have hcuts := (hrun.and_label hone).invariant (fun s => ∀ o ∈ s.cuts, o.nbytes = nbytes)
    (fun o ho => absurd ho List.not_mem_nil) fun _ _ _ h hok hs => cuts_of_oneSize h hok.1 hs
  rw [← hinv.capacity_eq]
  exact PoolAllocator.allocate_isSome_iff_of_one_size hinv.allocator hn fun o ho =>
    hcuts o (hinv.perm.mem_iff.mp ho)

/-- In a pool of five bytes two slices of two bytes are taken, and the first is given back : one
more fits, and not two. -/
theorem allocator_exact_sample : ∃ s : Carved, s.pool.live = [⟨2, 2⟩] ∧ s.Sound 5 ∧
    (s.pool.allocator.allocate 1 2).1.isSome = true ∧
    (s.pool.allocator.allocate 2 2).1.isSome ≠ true := by
  have hrun : Run step Allows (new 5 fun _ => 0) [.allocate 2 2, .free [⟨0, 2⟩]] _ :=
    .cons Nat.two_pos rfl (.cons (List.singleton_subperm_iff.mpr (by decide)) rfl .refl)
  obtain ⟨hsound, hone⟩ := allocator_exact hrun
  have hfits := hone 2 Nat.two_pos (by simp [OneSize])
  exact ⟨_, rfl, hsound, (hfits 1).mpr (by decide), fun h => absurd ((hfits 2).mp h) (by decide)⟩

end Carved

end MiniLlmcache
