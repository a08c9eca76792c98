import Mathlib.Algebra.BigOperators.Group.List.Basic
import Mathlib.Data.List.Forall2
import Mathlib.Data.List.Nodup
import Mathlib.Data.Multiset.Bind
import MiniLlmcache.Slices

/-!
# Strided views of a memory

A memory is a function from cells to contents. A view of it has a first cell, and for each of its
dimensions a size and a stride. `StridedView.cells` lists its cells in row-major order, with the
last index running fastest, so what a view reads is a list and the place of an index in that list
depends on the shape alone (`getElem?_cells`).

`select` fixes the first index and `swap` exchanges the first two dimensions. A view that is
swapped has the same cells in another order (`cells_swap_perm`), and the rows of a view whose cells
are all different do not share a cell (`disjoint_select`). `contiguous` has the strides that lay the
cells out one after the other.
-/

variable {α : Type*}

/-- The first cell of a view, and the size and the stride of each dimension. -/
structure StridedView where
  offset : ℕ
  dims : List (ℕ × ℕ)
deriving DecidableEq, Repr

namespace StridedView

def shapeOf (dims : List (ℕ × ℕ)) : List ℕ := dims.map Prod.fst

def shape (v : StridedView) : List ℕ := shapeOf v.dims

def cellsFrom : List (ℕ × ℕ) → ℕ → List ℕ
  | [], offset => [offset]
  | (size, stride) :: dims, offset =>
    (List.range size).flatMap fun i => cellsFrom dims (offset + i * stride)

/-- The cells of a view, the last index running fastest. -/
def cells (v : StridedView) : List ℕ := cellsFrom v.dims v.offset

def cellFrom : List (ℕ × ℕ) → ℕ → List ℕ → ℕ
  | (_, stride) :: dims, offset, i :: index => cellFrom dims (offset + i * stride) index
  | _, offset, _ => offset

/-- The cell of an index. -/
def cell (v : StridedView) (index : List ℕ) : ℕ := cellFrom v.dims v.offset index

/-- An index has one entry for each dimension, below its size. -/
def InBounds (shape index : List ℕ) : Prop := List.Forall₂ (· < ·) index shape

/-- The place of an index in row-major order. -/
def place : List ℕ → List ℕ → ℕ
  | _ :: shape, i :: index => i * shape.prod + place shape index
  | _, _ => 0

/-- The view with its first index fixed. -/
def select (v : StridedView) (i : ℕ) : StridedView :=
  match v.dims with
  | [] => v
  | (_, stride) :: dims => ⟨v.offset + i * stride, dims⟩

/-- The view with its first two dimensions exchanged. -/
def swap (v : StridedView) : Option StridedView :=
  match v.dims with
  | d :: d' :: dims => some ⟨v.offset, d' :: d :: dims⟩
  | _ => none

/-- The strides that lay the cells out one after the other. -/
def contiguous : List ℕ → List (ℕ × ℕ)
  | [] => []
  | size :: shape => (size, shape.prod) :: contiguous shape

/-- The dimensions when every cell is spread out to `w` cells. -/
def spread (w : ℕ) (dims : List (ℕ × ℕ)) : List (ℕ × ℕ) :=
  dims.map (fun d => (d.1, d.2 * w)) ++ [(w, 1)]

/-! ## Places -/

@[simp] theorem shapeOf_nil : shapeOf [] = [] := rfl

@[simp] theorem shapeOf_cons (d : ℕ × ℕ) (dims : List (ℕ × ℕ)) :
    shapeOf (d :: dims) = d.1 :: shapeOf dims := rfl

theorem length_cellsFrom : ∀ (dims : List (ℕ × ℕ)) (offset : ℕ),
    (cellsFrom dims offset).length = (shapeOf dims).prod
  | [], _ => rfl
  | (size, stride) :: dims, offset => by
    rw [cellsFrom, length_flatMap_const fun i => length_cellsFrom dims (offset + i * stride),
      List.length_range, shapeOf_cons, List.prod_cons]

@[simp] theorem length_cells (v : StridedView) : v.cells.length = v.shape.prod :=
  length_cellsFrom v.dims v.offset

theorem place_lt_prod : ∀ {shape index : List ℕ}, InBounds shape index →
    place shape index < shape.prod
  | [], [], _ => Nat.one_pos
  | _ :: _, _ :: _, h => by
    cases h with
    | cons hi hindex => exact place_lt hi (place_lt_prod hindex)

/-- The cell of an index stands at its place. -/
theorem getElem?_cellsFrom : ∀ {dims : List (ℕ × ℕ)} (offset : ℕ) {index : List ℕ},
    InBounds (shapeOf dims) index →
    (cellsFrom dims offset)[place (shapeOf dims) index]? = some (cellFrom dims offset index)
  | [], offset, [], _ => rfl
  | (size, stride) :: dims, offset, i :: index, h => by
    cases h with
    | cons hi hindex =>
      have hindex : InBounds (shapeOf dims) index := hindex
      have hrow := take_drop_flatMap
        (fun i => length_cellsFrom dims (offset + i * stride)) (List.getElem?_range hi)
      have hat := getElem?_cellsFrom (offset + i * stride) hindex
      rw [← hrow, List.getElem?_take_of_lt (place_lt_prod hindex), List.getElem?_drop] at hat
      exact hat

theorem getElem?_cells (v : StridedView) {index : List ℕ} (h : InBounds v.shape index) :
    v.cells[place v.shape index]? = some (v.cell index) :=
  getElem?_cellsFrom v.offset h

/-- Every cell is that of an index. -/
theorem exists_index_of_mem_cellsFrom {c : ℕ} : ∀ {dims : List (ℕ × ℕ)} {offset : ℕ},
    c ∈ cellsFrom dims offset →
    ∃ index, InBounds (shapeOf dims) index ∧ cellFrom dims offset index = c
  | [], offset, h => ⟨[], .nil, (List.mem_singleton.mp h).symm⟩
  | (size, stride) :: dims, offset, h => by
    obtain ⟨i, hi, hc⟩ := List.mem_flatMap.mp h
    obtain ⟨index, hindex, rfl⟩ := exists_index_of_mem_cellsFrom hc
    exact ⟨i :: index, .cons (List.mem_range.mp hi) hindex, rfl⟩

theorem exists_index_of_mem_cells {v : StridedView} {c : ℕ} (h : c ∈ v.cells) :
    ∃ index, InBounds v.shape index ∧ v.cell index = c :=
  exists_index_of_mem_cellsFrom h

theorem inBounds_append_singleton {shape index : List ℕ} {size i : ℕ} :
    InBounds shape index → i < size → InBounds (shape ++ [size]) (index ++ [i])
  | .nil, hi => .cons hi .nil
  | .cons hj hindex, hi => .cons hj (inBounds_append_singleton hindex hi)

theorem exists_of_inBounds_append_singleton {shape index : List ℕ} {size : ℕ}
    (h : InBounds (shape ++ [size]) index) :
    ∃ index' i, index = index' ++ [i] ∧ InBounds shape index' ∧ i < size := by
  induction shape generalizing index with
  | nil =>
    rcases h with _ | ⟨hi, _ | _⟩
    exact ⟨[], _, rfl, .nil, hi⟩
  | cons n shape ih =>
    rcases h with _ | ⟨hj, h⟩
    obtain ⟨index', i, rfl, hindex, hi⟩ := ih h
    exact ⟨_ :: index', i, rfl, .cons hj hindex, hi⟩

/-! ## Rows -/

/-- The cells of a view are those of its rows, row after row. -/
theorem cells_eq_flatMap (v : StridedView) {size : ℕ} {shape : List ℕ}
    (h : v.shape = size :: shape) :
    v.cells = (List.range size).flatMap fun i => (v.select i).cells := by
  obtain ⟨offset, dims⟩ := v
  cases dims with
  | nil => cases h
  | cons d dims =>
    obtain ⟨rfl, -⟩ := List.cons.inj h
    rfl

theorem shape_select (v : StridedView) {size : ℕ} {shape : List ℕ} (h : v.shape = size :: shape)
    (i : ℕ) : (v.select i).shape = shape := by
  obtain ⟨offset, dims⟩ := v
  cases dims with
  | nil => cases h
  | cons d dims => exact (List.cons.inj h).2

theorem cell_select (v : StridedView) {size : ℕ} {shape : List ℕ} (h : v.shape = size :: shape)
    (i : ℕ) (index : List ℕ) : (v.select i).cell index = v.cell (i :: index) := by
  obtain ⟨offset, dims⟩ := v
  cases dims with
  | nil => cases h
  | cons d dims => rfl

theorem select_sublist (v : StridedView) {size : ℕ} {shape : List ℕ} (h : v.shape = size :: shape)
    {i : ℕ} (hi : i < size) : (v.select i).cells.Sublist v.cells := by
  rw [v.cells_eq_flatMap h]
  exact List.sublist_flatten_of_mem (List.mem_map.mpr ⟨i, List.mem_range.mpr hi, rfl⟩)

/-- Different rows do not share a cell. -/
theorem disjoint_select (v : StridedView) {size : ℕ} {shape : List ℕ} (h : v.shape = size :: shape)
    (hnd : v.cells.Nodup) {i j : ℕ} (hi : i < size) (hj : j < size) (hij : i ≠ j) :
    (v.select i).cells.Disjoint (v.select j).cells := by
  rw [v.cells_eq_flatMap h, List.nodup_flatMap] at hnd
  have : Std.Symm (Function.onFun List.Disjoint fun i => (v.select i).cells) :=
    ⟨fun _ _ hd => hd.symm⟩
  exact hnd.2.forall (List.mem_range.mpr hi) (List.mem_range.mpr hj) hij

/-! ## Exchanging two dimensions -/

theorem cell_swap {v v' : StridedView} (h : v.swap = some v') (i j : ℕ) (index : List ℕ) :
    v'.cell (j :: i :: index) = v.cell (i :: j :: index) := by
  obtain ⟨offset, dims⟩ := v
  match dims with
  | [] | [_] => cases h
  | d :: d' :: dims =>
    cases h
    exact congrArg (cellFrom dims · index) (Nat.add_right_comm offset (j * d'.2) (i * d.2))

/-- An exchange of dimensions reorders the cells. -/
theorem cells_swap_perm {v v' : StridedView} (h : v.swap = some v') : v'.cells.Perm v.cells := by
  obtain ⟨offset, dims⟩ := v
  match dims with
  | [] | [_] => cases h
  | d :: d' :: dims =>
    cases h
    rw [← Multiset.coe_eq_coe]
    have hrows : ∀ (n n' : ℕ) (f : ℕ → ℕ → List ℕ),
        (((List.range n).flatMap fun i => (List.range n').flatMap fun j => f i j : List ℕ) :
          Multiset ℕ) = (List.range n : Multiset ℕ).bind fun i =>
            (List.range n' : Multiset ℕ).bind fun j => (f i j : Multiset ℕ) := fun n n' f => by
      rw [← Multiset.coe_bind]
      exact Multiset.bind_congr fun i _ => (Multiset.coe_bind _ _).symm
    calc ((cellsFrom (d' :: d :: dims) offset : List ℕ) : Multiset ℕ)
        = (List.range d'.1 : Multiset ℕ).bind fun j => (List.range d.1 : Multiset ℕ).bind fun i =>
            (cellsFrom dims (offset + j * d'.2 + i * d.2) : Multiset ℕ) := hrows _ _ _
      _ = (List.range d.1 : Multiset ℕ).bind fun i => (List.range d'.1 : Multiset ℕ).bind fun j =>
            (cellsFrom dims (offset + i * d.2 + j * d'.2) : Multiset ℕ) := by
          rw [Multiset.bind_bind]
          simp only [Nat.add_right_comm offset]
      _ = (cellsFrom (d :: d' :: dims) offset : List ℕ) := (hrows _ _ _).symm

/-! ## Contiguous views -/

@[simp] theorem shapeOf_contiguous : ∀ shape : List ℕ, shapeOf (contiguous shape) = shape
  | [] => rfl
  | size :: shape => by rw [contiguous, shapeOf_cons, shapeOf_contiguous shape]

theorem flatMap_range' (m offset : ℕ) : ∀ n : ℕ,
    ((List.range n).flatMap fun i => List.range' (offset + i * m) m) = List.range' offset (n * m)
  | 0 => by simp
  | n + 1 => by
    rw [List.range_succ, List.flatMap_append, flatMap_range' m offset n, List.flatMap_singleton,
      Nat.succ_mul]
    exact List.range'_append_1

/-- The cells of a contiguous view, one after the other. -/
theorem cellsFrom_contiguous : ∀ (shape : List ℕ) (offset : ℕ),
    cellsFrom (contiguous shape) offset = List.range' offset shape.prod
  | [], _ => rfl
  | size :: shape, offset => by
    rw [contiguous, cellsFrom]
    simp only [cellsFrom_contiguous shape]
    rw [flatMap_range', List.prod_cons]

theorem spread_contiguous (w : ℕ) : ∀ shape : List ℕ,
    spread w (contiguous shape) = contiguous (shape ++ [w])
  | [] => rfl
  | size :: shape => by
    have ih := spread_contiguous w shape
    simp only [spread, contiguous, List.map_cons, List.cons_append] at ih ⊢
    rw [ih, List.prod_append, List.prod_singleton]

@[simp] theorem shapeOf_spread (w : ℕ) (dims : List (ℕ × ℕ)) :
    shapeOf (spread w dims) = shapeOf dims ++ [w] := by
  simp [shapeOf, spread, Function.comp_def]

end StridedView

/-! ## Reading and writing cells -/

/-- The contents of some cells. -/
def readCells (mem : ℕ → α) (cells : List ℕ) : List α := cells.map mem

/-- Write one item to each cell. -/
def writeCells (mem : ℕ → α) (cells : List ℕ) (data : List α) : ℕ → α :=
  (cells.zip data).foldl (fun mem p => Function.update mem p.1 p.2) mem

theorem writeCells_of_notMem {c : ℕ} : ∀ {cells : List ℕ} {data : List α} (mem : ℕ → α),
    c ∉ cells → writeCells mem cells data c = mem c
  | [], _, _, _ => rfl
  | _ :: _, [], _, _ => rfl
  | d :: cells, x :: data, mem, h => by
    rw [List.mem_cons, not_or] at h
    exact (writeCells_of_notMem (Function.update mem d x) h.2).trans (Function.update_of_ne h.1 _ _)

/-- What a cell holds afterwards depends on what it held alone. -/
theorem writeCells_congr {c : ℕ} : ∀ (cells : List ℕ) (data : List α) {mem mem' : ℕ → α},
    mem c = mem' c → writeCells mem cells data c = writeCells mem' cells data c
  | [], _, _, _, h => h
  | _ :: _, [], _, _, h => h
  | d :: cells, x :: data, mem, mem', h => by
    have hupdate : Function.update mem d x c = Function.update mem' d x c := by
      simp only [Function.update_apply, h]
    exact writeCells_congr cells data hupdate

/-- Cells that are not written keep what they have. -/
theorem readCells_writeCells_of_disjoint {cells cells' : List ℕ} (data : List α) (mem : ℕ → α)
    (h : cells'.Disjoint cells) :
    readCells (writeCells mem cells data) cells' = readCells mem cells' :=
  List.map_congr_left fun _ hc => writeCells_of_notMem mem fun hc' => h hc hc'

/-- Different cells read back what was written to them. -/
theorem readCells_writeCells : ∀ {cells : List ℕ} {data : List α} (mem : ℕ → α), cells.Nodup →
    data.length = cells.length → readCells (writeCells mem cells data) cells = data
  | [], [], _, _, _ => rfl
  | c :: cells, x :: data, mem, hnd, hlen => by
    obtain ⟨hc, hnd⟩ := List.nodup_cons.mp hnd
    have ih := readCells_writeCells (Function.update mem c x) hnd (Nat.succ.inj hlen)
    have hfirst : writeCells (Function.update mem c x) cells data c = x := by
      rw [writeCells_of_notMem _ hc, Function.update_self]
    exact congrArg₂ List.cons hfirst ih
