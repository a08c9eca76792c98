import Mathlib.Algebra.GroupWithZero.Nat
import MiniLlmcache.Protocol

/-!
# The L1 pool

`l1/memory.py` : one byte pool, carved into slices. `allocate` takes slices of the
requested size from the free list of that size, then from the bump pointer; a request
that does not fit leaves what it collected on the free list. `free` puts a slice back
on the list of its size.

`PoolAllocator.Inv a live` says that the slices in use (`live`) and the free slices
tile `[0, brk)` : they are pairwise disjoint, end below `brk`, and their sizes add up
to it. `inv_allocate` and `inv_free` keep it, so two slices in use never overlap, and
writing through one never changes the bytes of another (`bytes_copy_of_disjoint`).
-/

namespace MiniLlmcache

/-- One allocated slice of the pool. -/
structure MemoryObj where
  offset : ℕ
  nbytes : ℕ
deriving DecidableEq, Repr

structure PoolAllocator where
  /-- `pool.numel()`. -/
  capacity : ℕ
  /-- The bytes of the pool; what lies outside `[0, capacity)` is never used. -/
  pool : ℕ → UInt8
  brk : ℕ
  /-- Free segments per chunk size, as offsets into the pool. -/
  freeSegments : OrderedDict ℕ (List ℕ)
  usedBytes : ℤ

namespace PoolAllocator

/-- `PoolAllocator(capacity_bytes)` over uninitialised memory. -/
def new (capacity : ℕ) (pool : ℕ → UInt8) : PoolAllocator :=
  ⟨capacity, pool, 0, .empty, 0⟩

/-- `while len(offsets) < count and free: offsets.append(free.pop())`, with `n` offsets
still wanted. -/
def popFree : ℕ → List ℕ → List ℕ → List ℕ × List ℕ
  | 0, free, offsets => (offsets, free)
  | n + 1, free, offsets =>
    match free.getLast? with
    | none => (offsets, free)
    | some o => popFree n free.dropLast (offsets ++ [o])

/-- The second loop of `allocate` : move the bump pointer, with `n` offsets still
wanted. -/
def bump (nbytes capacity : ℕ) : ℕ → ℕ → List ℕ → List ℕ × ℕ
  | 0, brk, offsets => (offsets, brk)
  | n + 1, brk, offsets =>
    if brk + nbytes ≤ capacity then bump nbytes capacity n (brk + nbytes) (offsets ++ [brk])
    else (offsets, brk)

/-- The two loops of `allocate` : the offsets collected, what is left of the free list,
and the new bump pointer. -/
def collect (a : PoolAllocator) (count nbytes : ℕ) : List ℕ × List ℕ × ℕ :=
  let popped := popFree count ((a.freeSegments.get? nbytes).getD []) []
  let bumped := bump nbytes a.capacity (count - popped.1.length) a.brk popped.1
  (bumped.1, popped.2, bumped.2)

/-- Allocate `count` slices of `nbytes` each, or nothing. -/
def allocate (a : PoolAllocator) (count nbytes : ℕ) : Option (List MemoryObj) × PoolAllocator :=
  let (offsets, free, brk) := a.collect count nbytes
  if offsets.length < count then
    (none, { a with brk, freeSegments := a.freeSegments.set nbytes (free ++ offsets) })
  else
    (some (offsets.map fun o => ⟨o, nbytes⟩), { a with
      brk
      freeSegments := a.freeSegments.set nbytes free
      usedBytes := a.usedBytes + (count * nbytes : ℕ) })

/-- Give one slice back. Its size has a list : `allocate` made one (`Inv.listed`). -/
def free (a : PoolAllocator) (obj : MemoryObj) : PoolAllocator :=
  { a with
    usedBytes := a.usedBytes - obj.nbytes
    freeSegments := a.freeSegments.set obj.nbytes
      ((a.freeSegments.get? obj.nbytes).getD [] ++ [obj.offset]) }

/-- `bytes(obj.byte_array)`. -/
def bytes (a : PoolAllocator) (obj : MemoryObj) : Bytes :=
  (List.range obj.nbytes).map fun i => a.pool (obj.offset + i)

/-- `obj.byte_array[:] = data` for data of the slice's length. -/
def copy (a : PoolAllocator) (obj : MemoryObj) (data : Bytes) : PoolAllocator :=
  { a with pool := fun i =>
      if obj.offset ≤ i then (data[i - obj.offset]?).getD (a.pool i) else a.pool i }

end PoolAllocator

/-! ## Slices that tile the pool -/

def MemoryObj.Disjoint (o o' : MemoryObj) : Prop :=
  o.offset + o.nbytes ≤ o'.offset ∨ o'.offset + o'.nbytes ≤ o.offset

theorem MemoryObj.Disjoint.symm {o o' : MemoryObj} (h : o.Disjoint o') : o'.Disjoint o :=
  Or.symm h

/-- The slices are pairwise disjoint and fill `[0, brk)`. -/
structure Tiles (brk : ℕ) (objs : List MemoryObj) : Prop where
  disjoint : objs.Pairwise MemoryObj.Disjoint
  bounded : ∀ o ∈ objs, o.offset + o.nbytes ≤ brk
  sum : (objs.map MemoryObj.nbytes).sum = brk

theorem Tiles.perm {brk : ℕ} {l l' : List MemoryObj} (h : Tiles brk l) (hp : l.Perm l') :
    Tiles brk l' where
  disjoint := (hp.pairwise_iff MemoryObj.Disjoint.symm).mp h.disjoint
  bounded o ho := h.bounded o (hp.mem_iff.mpr ho)
  sum := by rw [← (hp.map _).sum_eq, h.sum]

theorem tiles_nil : Tiles 0 [] := ⟨.nil, by simp, rfl⟩

/-- The slice above the bump pointer. -/
theorem Tiles.push {brk : ℕ} {l : List MemoryObj} (h : Tiles brk l) (n : ℕ) :
    Tiles (brk + n) (⟨brk, n⟩ :: l) where
  disjoint := List.pairwise_cons.mpr ⟨fun o ho => Or.inr (h.bounded o ho), h.disjoint⟩
  bounded o ho := by
    rcases List.mem_cons.mp ho with rfl | ho
    · exact le_rfl
    · exact (h.bounded o ho).trans (Nat.le_add_right _ _)
  sum := by rw [List.map_cons, List.sum_cons, h.sum, Nat.add_comm]

/-! ## The allocator invariant -/

namespace PoolAllocator

/-- Every free segment as a slice. -/
def freeObjs (a : PoolAllocator) : List MemoryObj :=
  a.freeSegments.items.flatMap fun p => p.2.map fun o => ⟨o, p.1⟩

/-- `live` are the slices in use. -/
structure Inv (a : PoolAllocator) (live : List MemoryObj) : Prop where
  brk_le : a.brk ≤ a.capacity
  tiles : Tiles a.brk (live ++ a.freeObjs)
  used : a.usedBytes = ((live.map MemoryObj.nbytes).sum : ℕ)
  listed : ∀ o ∈ live, o.nbytes ∈ a.freeSegments.keys

theorem inv_new (capacity : ℕ) (pool : ℕ → UInt8) : (new capacity pool).Inv [] :=
  ⟨Nat.zero_le _, tiles_nil, rfl, by simp⟩

theorem Inv.perm {a : PoolAllocator} {l l' : List MemoryObj} (h : a.Inv l) (hp : l.Perm l') :
    a.Inv l' where
  brk_le := h.brk_le
  tiles := h.tiles.perm (hp.append_right _)
  used := by rw [h.used, (hp.map _).sum_eq]
  listed o ho := h.listed o (hp.mem_iff.mpr ho)

/-- The free slices of every size but `n`. -/
def otherFree (a : PoolAllocator) (n : ℕ) : List MemoryObj :=
  (a.freeSegments.erase n).items.flatMap fun p => p.2.map fun o => ⟨o, p.1⟩

/-- The free slices, with the list of one size taken out. -/
theorem freeObjs_perm (a : PoolAllocator) (n : ℕ) :
    a.freeObjs.Perm
      (((a.freeSegments.get? n).getD []).map (fun o => ⟨o, n⟩) ++ a.otherFree n) := by
  unfold freeObjs otherFree
  cases h : a.freeSegments.get? n with
  | none => simp [OrderedDict.erase_of_get?_eq_none h]
  | some l => simpa using (OrderedDict.perm_erase h).flatMap_right _

theorem freeObjs_set_perm {a a' : PoolAllocator} {n : ℕ} {l : List ℕ}
    (h : a'.freeSegments = a.freeSegments.set n l) :
    a'.freeObjs.Perm (l.map (fun o => ⟨o, n⟩) ++ a.otherFree n) := by
  unfold freeObjs otherFree
  rw [h]
  simpa using (OrderedDict.perm_set a.freeSegments n l).flatMap_right _

/-- What `popFree` takes, it takes off the list. -/
theorem popFree_perm (n : ℕ) (free offsets : List ℕ) :
    ((popFree n free offsets).1 ++ (popFree n free offsets).2).Perm (offsets ++ free) := by
  induction n generalizing free offsets with
  | zero => exact .refl _
  | succ n ih =>
    unfold popFree
    split
    · exact .refl _
    · rename_i o ho
      refine (ih _ _).trans ?_
      obtain ⟨init, rfl⟩ := List.getLast?_eq_some_iff.mp ho
      have hswap : ([o] ++ init).Perm (init ++ [o]) := List.perm_append_comm
      simpa using hswap.append_left offsets

theorem length_popFree_le (n : ℕ) (free offsets : List ℕ) :
    (popFree n free offsets).1.length ≤ offsets.length + n := by
  induction n generalizing free offsets with
  | zero => simp [popFree]
  | succ n ih =>
    unfold popFree
    split
    · simp
    · have := ih free.dropLast (offsets ++ [‹ℕ›])
      simp only [List.length_append, List.length_singleton] at this
      omega

/-- The bump loop cuts fresh slices off the untouched part of the pool. -/
theorem bump_tiles {nbytes capacity : ℕ} {rest : List MemoryObj} :
    ∀ (n brk : ℕ) (offsets : List ℕ), brk ≤ capacity →
      Tiles brk (offsets.map (fun o => ⟨o, nbytes⟩) ++ rest) →
      (bump nbytes capacity n brk offsets).2 ≤ capacity ∧
      Tiles (bump nbytes capacity n brk offsets).2
        ((bump nbytes capacity n brk offsets).1.map (fun o => ⟨o, nbytes⟩) ++ rest)
  | 0, _, _, hle, ht => ⟨hle, ht⟩
  | n + 1, brk, offsets, hle, ht => by
    unfold bump
    split_ifs with h
    · refine bump_tiles n _ _ h ((ht.push nbytes).perm ?_)
      rw [List.map_append, List.append_assoc]
      exact List.perm_middle.symm
    · exact ⟨hle, ht⟩

theorem length_bump_le (nbytes capacity n brk : ℕ) (offsets : List ℕ) :
    (bump nbytes capacity n brk offsets).1.length ≤ offsets.length + n := by
  induction n generalizing brk offsets with
  | zero => simp [bump]
  | succ n ih =>
    unfold bump
    split_ifs
    · have := ih (brk + nbytes) (offsets ++ [brk])
      simp only [List.length_append, List.length_singleton] at this
      omega
    · simp

theorem length_collect_le (a : PoolAllocator) (count nbytes : ℕ) :
    (a.collect count nbytes).1.length ≤ count := by
  have hpop := length_popFree_le count ((a.freeSegments.get? nbytes).getD []) []
  have hbump := length_bump_le nbytes a.capacity
    (count - (popFree count ((a.freeSegments.get? nbytes).getD []) []).1.length) a.brk
    (popFree count ((a.freeSegments.get? nbytes).getD []) []).1
  simp only [List.length_nil, zero_add] at hpop
  simp only [collect]
  omega

/-- The slices collected, the slices in use and the slices left free tile the pool up to
the new bump pointer. -/
theorem collect_tiles {a : PoolAllocator} {live : List MemoryObj} (h : a.Inv live)
    {count nbytes brk : ℕ} {offsets free : List ℕ}
    (hc : a.collect count nbytes = (offsets, free, brk)) :
    brk ≤ a.capacity ∧ Tiles brk (offsets.map (fun o => ⟨o, nbytes⟩) ++
      (live ++ (free.map (fun o => ⟨o, nbytes⟩) ++ a.otherFree nbytes))) := by
  simp only [collect, Prod.mk.injEq] at hc
  obtain ⟨rfl, rfl, rfl⟩ := hc
  refine bump_tiles _ _ _ h.brk_le (h.tiles.perm ?_)
  have hpop := (popFree_perm count ((a.freeSegments.get? nbytes).getD []) []).map
    fun o => (⟨o, nbytes⟩ : MemoryObj)
  rw [List.map_append, List.nil_append] at hpop
  refine ((a.freeObjs_perm nbytes).append_left live).trans ?_
  refine ((hpop.symm.append_right _).append_left live).trans ?_
  rw [List.append_assoc]
  exact List.perm_append_comm_assoc _ _ _

/-- A request that fits hands out `count` new slices in use. -/
theorem inv_allocate_some {a a' : PoolAllocator} {live objs : List MemoryObj} {count nbytes : ℕ}
    (h : a.Inv live) (ha : a.allocate count nbytes = (some objs, a')) :
    objs.length = count ∧ (∀ o ∈ objs, o.nbytes = nbytes) ∧ a'.Inv (live ++ objs) := by
  rcases hc : a.collect count nbytes with ⟨offsets, free, brk⟩
  obtain ⟨hle, ht⟩ := collect_tiles h hc
  have hlen := a.length_collect_le count nbytes
  simp only [allocate, hc] at ha hlen
  split_ifs at ha with hlt
  · simp at ha
  simp only [Prod.mk.injEq, Option.some.injEq] at ha
  obtain ⟨rfl, rfl⟩ := ha
  have hcount : offsets.length = count := by omega
  refine ⟨by simpa, by simp, hle, ?_, ?_, ?_⟩
  · refine ht.perm (.trans ?_ ((freeObjs_set_perm rfl).symm.append_left _))
    rw [List.append_assoc]
    exact List.perm_append_comm_assoc _ _ _
  · simp [h.used, Function.comp_def, hcount]
  · intro o ho
    rw [OrderedDict.mem_keys_set]
    rcases List.mem_append.mp ho with ho | ho
    · exact Or.inr (h.listed o ho)
    · obtain ⟨x, -, rfl⟩ := List.mem_map.mp ho
      exact Or.inl rfl

/-- A request that does not fit leaves the slices in use as they were. -/
theorem inv_allocate_none {a a' : PoolAllocator} {live : List MemoryObj} {count nbytes : ℕ}
    (h : a.Inv live) (ha : a.allocate count nbytes = (none, a')) : a'.Inv live := by
  rcases hc : a.collect count nbytes with ⟨offsets, free, brk⟩
  obtain ⟨hle, ht⟩ := collect_tiles h hc
  simp only [allocate, hc] at ha
  split_ifs at ha
  · simp only [Prod.mk.injEq, true_and] at ha
    subst ha
    refine ⟨hle, ?_, h.used, fun o ho => OrderedDict.mem_keys_set.mpr (Or.inr (h.listed o ho))⟩
    refine ht.perm (.trans ?_ ((freeObjs_set_perm rfl).symm.append_left _))
    rw [List.map_append, List.append_assoc]
    refine (List.perm_append_comm_assoc _ _ _).trans (.append_left _ ?_)
    exact List.perm_append_comm_assoc _ _ _
  · simp at ha

@[simp] theorem pool_allocate (a : PoolAllocator) (count nbytes : ℕ) :
    (a.allocate count nbytes).2.pool = a.pool := by
  simp only [allocate]
  split_ifs <;> rfl

theorem usedBytes_allocate_none {a a' : PoolAllocator} {count nbytes : ℕ}
    (ha : a.allocate count nbytes = (none, a')) : a'.usedBytes = a.usedBytes := by
  simp only [allocate] at ha
  split_ifs at ha
  · simp only [Prod.mk.injEq, true_and] at ha
    rw [← ha]
  · simp at ha

/-- Freeing a slice in use. -/
theorem inv_free {a : PoolAllocator} {live : List MemoryObj} {obj : MemoryObj}
    (h : a.Inv (obj :: live)) : (a.free obj).Inv live where
  brk_le := h.brk_le
  tiles := by
    refine h.tiles.perm (.trans ?_ ((freeObjs_set_perm rfl).symm.append_left _))
    refine ((a.freeObjs_perm obj.nbytes).append_left (obj :: live)).trans ?_
    rw [List.map_append, List.append_assoc, List.cons_append]
    exact List.perm_middle.symm.trans (List.perm_middle.symm.append_left live)
  used := by
    have := h.used
    simp only [List.map_cons, List.sum_cons] at this
    simp only [free]
    omega
  listed o ho :=
    OrderedDict.mem_keys_set.mpr (Or.inr (h.listed o (List.mem_cons_of_mem _ ho)))

/-- `free_segments[n]`. -/
def freeList (a : PoolAllocator) (n : ℕ) : List ℕ := (a.freeSegments.get? n).getD []

/-- A freed slice is on the free list of its size, and what was there stays there. -/
theorem mem_freeList_free {a : PoolAllocator} {obj obj' : MemoryObj}
    (h : obj' = obj ∨ obj'.offset ∈ a.freeList obj'.nbytes) :
    obj'.offset ∈ (a.free obj).freeList obj'.nbytes := by
  simp only [freeList, free, OrderedDict.get?_set] at h ⊢
  split_ifs with hn
  · rw [Option.getD_some, List.mem_append]
    rcases h with rfl | h
    · exact Or.inr List.mem_cons_self
    · exact Or.inl (hn ▸ h)
  · rcases h with rfl | h
    · exact absurd rfl hn
    · exact h

@[simp] theorem pool_free (a : PoolAllocator) (obj : MemoryObj) : (a.free obj).pool = a.pool := rfl

/-! ## Bytes -/

theorem inv_copy {a : PoolAllocator} {live : List MemoryObj} (h : a.Inv live) (obj : MemoryObj)
    (data : Bytes) : (a.copy obj data).Inv live :=
  ⟨h.brk_le, h.tiles, h.used, h.listed⟩

@[simp] theorem length_bytes (a : PoolAllocator) (obj : MemoryObj) :
    (a.bytes obj).length = obj.nbytes := by
  simp [bytes]

theorem bytes_congr {a a' : PoolAllocator} (h : a'.pool = a.pool) (obj : MemoryObj) :
    a'.bytes obj = a.bytes obj := by
  simp [bytes, h]

/-- A slice holds what was copied into it. -/
theorem bytes_copy_self (a : PoolAllocator) {obj : MemoryObj} {data : Bytes}
    (h : data.length = obj.nbytes) : (a.copy obj data).bytes obj = data := by
  refine List.ext_getElem (by simp [h]) fun i hi _ => ?_
  simp only [length_bytes] at hi
  simp [bytes, copy, h ▸ hi]

/-- Copying into a slice, or into the front of it, leaves every disjoint slice alone. -/
theorem bytes_copy_of_le (a : PoolAllocator) {obj obj' : MemoryObj} {data : Bytes}
    (h : data.length ≤ obj.nbytes) (hd : obj.Disjoint obj') :
    (a.copy obj data).bytes obj' = a.bytes obj' := by
  unfold bytes
  refine List.map_congr_left fun i hi => ?_
  rw [List.mem_range] at hi
  simp only [copy]
  split_ifs with hle
  · rw [List.getElem?_eq_none, Option.getD_none]
    unfold MemoryObj.Disjoint at hd
    omega
  · rfl

theorem bytes_copy_of_disjoint (a : PoolAllocator) {obj obj' : MemoryObj} {data : Bytes}
    (h : data.length = obj.nbytes) (hd : obj.Disjoint obj') :
    (a.copy obj data).bytes obj' = a.bytes obj' :=
  a.bytes_copy_of_le h.le hd

end PoolAllocator

end MiniLlmcache
