import MiniLlmcache.Protocol
import MiniLlmcache.Strided

/-!
# Layouts of the KV tensors

`l0/kv_format.py`. vLLM builds its KV tensors in four layouts. `detect` reads the layout off the
shape of one tensor, and `normalize` moves the block dimension of every tensor to the front.

A tensor is a strided view of device memory, counted in items of some bytes; `Tensor.bytes` is the
same view counted in bytes. An index of a block's item is put into the tensor by
`GPUKVFormat.place`, which says where a layout has its block dimension. `detect_place` says exactly
when a layout is recognised, and `normalize_place` that the rows of the views it returns are the
blocks, item by item, and that nothing is lost.
-/

namespace MiniLlmcache

open StridedView

/-- A tensor in device memory. -/
structure Tensor where
  /-- `data_ptr()`. -/
  addr : ℕ
  /-- The size of each dimension, and its stride in items. -/
  dims : List (ℕ × ℕ)
  itemsize : ℕ
deriving DecidableEq

namespace Tensor

def shape (t : Tensor) : List ℕ := shapeOf t.dims

/-- The bytes of a tensor; the last index is that of the byte in its item. -/
def bytes (t : Tensor) : StridedView := ⟨t.addr, spread t.itemsize t.dims⟩

def nbytes (t : Tensor) : ℕ := t.shape.prod * t.itemsize

/-- `t.movedim(1, 0)`. -/
def movedim (t : Tensor) : Except Exc Tensor :=
  match t.dims with
  | d :: d' :: dims => .ok { t with dims := d' :: d :: dims }
  | _ => .error .indexError

@[simp] theorem shape_bytes (t : Tensor) : t.bytes.shape = t.shape ++ [t.itemsize] :=
  shapeOf_spread _ _

@[simp] theorem length_cells_bytes (t : Tensor) : t.bytes.cells.length = t.nbytes := by
  rw [length_cells, shape_bytes, List.prod_append, List.prod_singleton, nbytes]

theorem swap_bytes {t t' : Tensor} (h : t.movedim = .ok t') : t.bytes.swap = some t'.bytes := by
  obtain ⟨addr, dims, itemsize⟩ := t
  match dims with
  | [] | [_] => cases h
  | d :: d' :: dims =>
    cases h
    rfl

end Tensor

/-- vLLM layout names (`NL` layers are the outer list dimension). -/
inductive GPUKVFormat
  /-- `NL_X_NB_TWO_BS_NH_HS`. -/
  | faBlockFirst
  /-- `NL_X_TWO_NB_BS_NH_HS`. -/
  | faKvFirst
  /-- `NL_X_NB_BS_NH_HS`. -/
  | faSplit
  /-- `NL_X_NB_BS_HS`. -/
  | mla
deriving DecidableEq, Repr

/-- Identify the layout from the shape of one KV tensor. -/
def detect (shape : List ℕ) (numBlocks : Option ℕ) : Except Exc GPUKVFormat :=
  if shape.length = 5 ∧ shape[1]? = some 2 ∧ (numBlocks = none ∨ shape[0]? = numBlocks) then
    .ok .faBlockFirst
  else if shape.length = 5 ∧ shape[0]? = some 2 then .ok .faKvFirst
  else if shape.length = 4 then .ok .faSplit
  else if shape.length = 3 ∧ (numBlocks = none ∨ shape[0]? = numBlocks) then .ok .mla
  else .error .valueError

/-- A comprehension whose body may raise. -/
theorem mapM_eq_ok_iff {α β : Type} {f : α → Except Exc β} : ∀ {xs : List α} {ys : List β},
    xs.mapM f = .ok ys ↔ List.Forall₂ (fun x y => f x = .ok y) xs ys
  | [], [] => iff_of_true rfl .nil
  | [], _ :: _ => iff_of_false (by rintro ⟨⟩) (by rintro ⟨⟩)
  | x :: xs, ys => by
    rw [List.mapM_cons]
    rcases hx : f x with e | y
    · refine iff_of_false (by rintro ⟨⟩) ?_
      rintro (_ | ⟨h, -⟩)
      rw [hx] at h
      cases h
    · rcases hxs : xs.mapM f with e | zs
      · refine iff_of_false (by rintro ⟨⟩) ?_
        rintro (_ | ⟨-, h⟩)
        rw [mapM_eq_ok_iff.mpr h] at hxs
        cases hxs
      · have hrest := mapM_eq_ok_iff.mp hxs
        constructor
        · intro h
          cases h
          exact .cons hx hrest
        · rintro (_ | ⟨h, hys⟩)
          rw [hx] at h
          cases h
          rw [mapM_eq_ok_iff.mpr hys] at hxs
          cases hxs
          rfl

/-- Return tensors in block-first layout (dim 0 = block index). -/
def normalize (tensors : List Tensor) (numBlocks : Option ℕ) : Except Exc (List Tensor) :=
  match tensors with
  | [] => .error .indexError
  | t :: _ =>
    match detect t.shape numBlocks with
    | .error e => .error e
    | .ok .faKvFirst => tensors.mapM Tensor.movedim
    | .ok _ => .ok tensors

namespace GPUKVFormat

/-- Where a layout has the block dimension : `b` put into the sizes, or an index, of a block. -/
def place (fmt : GPUKVFormat) (b : ℕ) (row : List ℕ) : List ℕ :=
  match fmt, row with
  | .faKvFirst, kv :: row => kv :: b :: row
  | _, row => b :: row

/-- The sizes of one block, `block_size`, `num_kv_heads` and `head_size` given. -/
def blockShape (fmt : GPUKVFormat) (bs nh hs : ℕ) : List ℕ :=
  match fmt with
  | .faBlockFirst | .faKvFirst => [2, bs, nh, hs]
  | .faSplit => [bs, nh, hs]
  | .mla => [bs, hs]

/-- What tells a layout with `nb` blocks from the others. -/
def Told (fmt : GPUKVFormat) (nb : ℕ) (numBlocks : Option ℕ) : Prop :=
  match fmt with
  | .faBlockFirst | .mla => numBlocks = none ∨ numBlocks = some nb
  | .faKvFirst => nb = 2 → numBlocks ≠ none ∧ numBlocks ≠ some 2
  | .faSplit => True

/-- A layout is recognised, unless `num_blocks` is another number of blocks, or two blocks are
taken for keys and values. -/
theorem detect_place (fmt : GPUKVFormat) (nb bs nh hs : ℕ) (numBlocks : Option ℕ) :
    detect (fmt.place nb (fmt.blockShape bs nh hs)) numBlocks = .ok fmt ↔
      fmt.Told nb numBlocks := by
  cases fmt with
  | faBlockFirst =>
    simp only [detect, place, blockShape, Told]
    grind
  | faKvFirst =>
    -- two blocks make the first size that of a block-first tensor, too
    simp only [detect, place, blockShape, Told]
    grind
  | faSplit => simp [detect, place, blockShape, Told]
  | mla =>
    simp only [detect, place, blockShape, Told]
    grind

end GPUKVFormat

/-- `t'` has the blocks of `t` as its rows : the same bytes, each at the index without its block
in the row of the block. -/
structure BlockFirst (fmt : GPUKVFormat) (nb : ℕ) (row : List ℕ) (t t' : Tensor) : Prop where
  shape : t'.shape = nb :: row
  itemsize : t'.itemsize = t.itemsize
  cell : ∀ b index byte, index.length = row.length →
    t'.bytes.cell (b :: index ++ [byte]) = t.bytes.cell (fmt.place b index ++ [byte])
  perm : t'.bytes.cells.Perm t.bytes.cells

theorem blockFirst_self {fmt : GPUKVFormat} {nb : ℕ} {row : List ℕ} {t : Tensor}
    (hfmt : fmt ≠ .faKvFirst) (h : t.shape = fmt.place nb row) : BlockFirst fmt nb row t t := by
  have hplace : ∀ b index, fmt.place b index = b :: index := fun b index => by
    cases fmt with
    | faKvFirst => exact (hfmt rfl).elim
    | faBlockFirst | faSplit | mla => rfl
  refine ⟨h.trans (hplace _ _), rfl, fun b index byte _ => ?_, List.Perm.refl _⟩
  rw [hplace]

theorem movedim_place {nb kv : ℕ} {row : List ℕ} {t : Tensor}
    (h : t.shape = GPUKVFormat.faKvFirst.place nb (kv :: row)) :
    ∃ t', t.movedim = .ok t' ∧ BlockFirst .faKvFirst nb (kv :: row) t t' := by
  obtain ⟨addr, dims, itemsize⟩ := t
  match dims with
  | [] | [_] => cases h
  | d :: d' :: dims =>
    cases h
    have hswap := Tensor.swap_bytes (t := ⟨addr, d :: d' :: dims, itemsize⟩) rfl
    refine ⟨_, rfl, rfl, rfl, fun b index byte hindex => ?_, cells_swap_perm hswap⟩
    cases index with
    | nil => cases hindex
    | cons i index => exact cell_swap hswap i b (index ++ [byte])

theorem movedims_place {nb kv : ℕ} {row : List ℕ} : ∀ {tensors : List Tensor},
    (∀ t ∈ tensors, t.shape = GPUKVFormat.faKvFirst.place nb (kv :: row)) →
    ∃ views, tensors.mapM Tensor.movedim = .ok views ∧
      List.Forall₂ (BlockFirst .faKvFirst nb (kv :: row)) tensors views
  | [], _ => ⟨[], rfl, .nil⟩
  | t :: tensors, h => by
    obtain ⟨t', ht, hfirst⟩ := movedim_place (h t List.mem_cons_self)
    obtain ⟨views, hviews, hrest⟩ := movedims_place fun u hu => h u (List.mem_cons_of_mem t hu)
    exact ⟨t' :: views, mapM_eq_ok_iff.mpr (.cons ht (mapM_eq_ok_iff.mp hviews)),
      .cons hfirst hrest⟩

/-- The tensors of a recognised layout are normalised to views whose rows are the blocks. -/
theorem normalize_place {fmt : GPUKVFormat} {nb bs nh hs : ℕ} {numBlocks : Option ℕ}
    {tensors : List Tensor} (hne : tensors ≠ []) (htold : fmt.Told nb numBlocks)
    (hshape : ∀ t ∈ tensors, t.shape = fmt.place nb (fmt.blockShape bs nh hs)) :
    ∃ views, normalize tensors numBlocks = .ok views ∧
      List.Forall₂ (BlockFirst fmt nb (fmt.blockShape bs nh hs)) tensors views := by
  cases tensors with
  | nil => exact (hne rfl).elim
  | cons t tensors =>
    have hdetect := (fmt.detect_place nb bs nh hs numBlocks).mpr htold
    rw [← hshape t List.mem_cons_self] at hdetect
    rw [normalize, hdetect]
    by_cases hfmt : fmt = .faKvFirst
    · subst hfmt
      exact movedims_place hshape
    · refine ⟨t :: tensors, ?_,
        List.forall₂_same.mpr fun u hu => blockFirst_self hfmt (hshape u hu)⟩
      cases fmt with
      | faKvFirst => exact (hfmt rfl).elim
      | faBlockFirst | faSplit | mla => rfl

end MiniLlmcache
