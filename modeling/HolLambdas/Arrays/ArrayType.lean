import HolLambdas.MachineInt
import HolLambdas.RowMajor
import Mathlib.Data.List.Basic
import Mathlib.LinearAlgebra.Matrix.Defs

/-!
# Arrays of `float8`

What `matrix_ops.c` works on: PostgreSQL arrays of numbers, with a number of dimensions, and a
size and a lower bound for each. An `ArrayShape` is one that PostgreSQL accepts: the number of
elements stays below `MaxArraySize`, and header and elements fit into one allocation. The file
has two conventions of its own. An array with first lower bound -1 is a scalar, and a vector is
an array of one dimension, a matrix with one column.

An access outside the elements is an error here; the source does not notice it.
-/

namespace HolLambdas.Arrays

variable {K : Type}

/-- The errors, with the texts of the source, and reads and writes outside an array. -/
inductive MatError where
  /-- "array size exceeds the maximum allowed (%d)", "invalid memory alloc request size %zu" -/
  | tooLarge
  /-- "Matrix Multiplication Internal: Two column vectors can not be multiplied!" -/
  | columnVectors
  /-- "Matrix element-wise addition(inplace): Number of dimensions mismatched!" -/
  | addNdim
  /-- "Matrix element-wise addition(inplace): dimension %d mismatched!" -/
  | addDim (i : Nat)
  /-- "Matrix element-wise Multiplication: Number of dimensions mismatched!" -/
  | elemNdim
  /-- "Matrix element-wise Multiplication: Matrices are mismatched!" -/
  | elemDims
  /-- "Softmax CCE: Arrays *labels* and *input* do not have same number of dims! ..." -/
  | softmaxNdim
  /-- "Softmax CCE: Dim %d does not match ..." -/
  | softmaxDim (i : Nat)
  /-- "Softmax Derivation: Arrays *labels* and *input* do not match!" -/
  | softmaxLength
  /-- "Softmax CCE: Array *input* is not a vector!", and the same for the labels and the
  derivation -/
  | notVector
  /-- "Matrix element-wise Subtraction: Number of dimensions mismatched!" -/
  | subNdim
  /-- "Matrix element-wise Subtraction: Dimensions mismatched!" -/
  | subDims
  /-- "mat_apply_gradient: derivatives and weight matrix do not match!" -/
  | gradientNdim
  /-- "mat_apply_gradient: Dimensions do not match in derivatives and weights!" -/
  | gradientDims
  /-- An access outside an array. -/
  | outside
deriving DecidableEq, Repr

/-! ## Shapes -/

def MaxArraySize : Nat := MaxAllocSize / 8

/-- The loop of `ArrayGetNItems`: the product so far is an `int32`. -/
def itemsLoop : Nat → List Nat → Except MatError Nat
  | ret, [] => .ok ret
  | ret, d :: dims =>
    if ((ret * d : Nat) : Int) ≤ PG_INT32_MAX then itemsLoop (ret * d) dims else .error .tooLarge

/-- `ArrayGetNItems`; an array without dimensions is empty. -/
def arrayGetNItems (dims : List Nat) : Except MatError Nat :=
  if dims = [] then .ok 0
  else do
    let ret ← itemsLoop 1 dims
    if ret ≤ MaxArraySize then .ok ret else .error .tooLarge

/-- `ARR_OVERHEAD_NONULLS`: the header, and two `int`s for each dimension, aligned. -/
def arrOverheadNonulls (ndim : Nat) : Nat :=
  (16 + 8 * ndim + 7) / 8 * 8

/-- Dimensions of an array that `palloc` grants. -/
structure ArrayShape where
  dims : List Nat
  lbound : List Int
  nitems : Nat
  lbound_length : lbound.length = dims.length
  nitems_eq : arrayGetNItems dims = .ok nitems
  size_le : nitems * 8 + arrOverheadNonulls dims.length ≤ MaxAllocSize

/-- A shape that is written down. -/
def ArrayShape.of (dims : List Nat) (lbound : List Int) (nitems : Nat)
    (h : lbound.length = dims.length ∧ arrayGetNItems dims = .ok nitems ∧
      nitems * 8 + arrOverheadNonulls dims.length ≤ MaxAllocSize) : ArrayShape :=
  ⟨dims, lbound, nitems, h.1, h.2.1, h.2.2⟩

variable {s : ArrayShape} {dims : List Nat} {m n : Nat}

theorem ArrayShape.ext_dims {s' : ArrayShape} (hdims : s.dims = s'.dims)
    (hlbound : s.lbound = s'.lbound) : s = s' := by
  obtain ⟨dims, lbound, nitems, _, hn, _⟩ := s
  obtain ⟨dims', lbound', nitems', _, hn', _⟩ := s'
  obtain rfl : dims = dims' := hdims
  obtain rfl : lbound = lbound' := hlbound
  obtain rfl : nitems = nitems' := Except.ok.inj (hn.symm.trans hn')
  rfl

/-- `ArrayType`, with its elements. -/
structure ArrayType (K : Type) extends ArrayShape where
  data : List K
  data_length : data.length = nitems

namespace ArrayType

variable {a : ArrayType K} {s : ArrayShape} {g : Nat → K} {p : Nat}

theorem ext_data {b : ArrayType K} (hshape : a.toArrayShape = b.toArrayShape)
    (hdata : a.data = b.data) : a = b := by
  obtain ⟨s, data, _⟩ := a
  obtain ⟨s', data', _⟩ := b
  obtain rfl : s = s' := hshape
  obtain rfl : data = data' := hdata
  rfl

/-- `ARR_NDIM` -/
def ndim (a : ArrayType K) : Nat := a.dims.length

/-- An element by its cell. -/
def read (a : ArrayType K) (p : Nat) : Except MatError K :=
  match a.data[p]? with
  | some x => .ok x
  | none => .error .outside

/-- `ARR_DATA_PTR(a)[p] = x`. -/
def write (a : ArrayType K) (p : Nat) (x : K) : Except MatError (ArrayType K) :=
  if p < a.nitems then
    .ok { a with data := a.data.set p x, data_length := by rw [List.length_set, a.data_length] }
  else .error .outside

/-- `isScalar` -/
def isScalar (a : ArrayType K) : Except MatError Bool :=
  match a.lbound with
  | [] => .error .outside
  | lb :: _ => .ok (lb = -1)

theorem isScalar_congr {b : ArrayType K} (h : a.lbound = b.lbound) : a.isScalar = b.isScalar := by
  unfold isScalar
  rw [h]

/-- The lower bound of an array without dimensions is not there. -/
theorem isScalar_error (h : a.ndim = 0) : a.isScalar = .error .outside := by
  have hnil : a.lbound = [] := List.length_eq_zero_iff.mp (a.lbound_length.trans h)
  unfold isScalar
  rw [hnil]

theorem isScalar_cases (a : ArrayType K) :
    a.ndim = 0 ∧ a.isScalar = .error .outside ∨ a.ndim ≠ 0 ∧ ∃ b, a.isScalar = .ok b := by
  by_cases h : a.ndim = 0
  · exact .inl ⟨h, isScalar_error h⟩
  · refine .inr ⟨h, ?_⟩
    unfold isScalar
    split
    · next hnil =>
      exact absurd (a.lbound_length.symm.trans (congrArg List.length hnil)) h
    · exact ⟨_, rfl⟩

theorem isScalar_of_not_mem (h : -1 ∉ a.lbound) (hdims : a.dims ≠ []) : a.isScalar = .ok false := by
  have hlen := a.lbound_length
  unfold isScalar
  split
  · next hnil =>
    rw [hnil] at hlen
    exact absurd (List.length_eq_zero_iff.mp hlen.symm) hdims
  · next lb lbs hcons =>
    rw [hcons] at h
    have hne : lb ≠ -1 := fun he => h (he ▸ List.mem_cons_self)
    simp [hne]

/-! ## Arrays by their cells -/

/-- The array of a shape with element `g p` in cell `p`. -/
def tab (s : ArrayShape) (g : Nat → K) : ArrayType K :=
  { s with
    data := (List.range s.nitems).map g
    data_length := by rw [List.length_map, List.length_range] }

@[simp] theorem tab_dims (s : ArrayShape) (g : Nat → K) : (tab s g).dims = s.dims := rfl

@[simp] theorem tab_lbound (s : ArrayShape) (g : Nat → K) : (tab s g).lbound = s.lbound := rfl

@[simp] theorem tab_nitems (s : ArrayShape) (g : Nat → K) : (tab s g).nitems = s.nitems := rfl

@[simp] theorem tab_shape (s : ArrayShape) (g : Nat → K) : (tab s g).toArrayShape = s := rfl

theorem tab_congr {g' : Nat → K} (h : ∀ p, p < s.nitems → g p = g' p) : tab s g = tab s g' := by
  refine ext_data rfl (List.map_congr_left fun p hp => h p ?_)
  exact List.mem_range.mp hp

theorem read_tab (hp : p < s.nitems) : (tab s g).read p = .ok (g p) := by
  simp [read, tab, hp]

theorem write_tab (x : K) (hp : p < s.nitems) :
    (tab s g).write p x = .ok (tab s (Function.update g p x)) := by
  rw [write, tab_nitems, if_pos hp]
  refine congrArg _ (ext_data rfl (List.ext_getElem ?_ ?_))
  · simp [tab]
  · intro q hq hq'
    simp only [tab, List.getElem_set, List.getElem_map, List.getElem_range, Function.update_apply,
      eq_comm]

theorem tab_inj {g' : Nat → K} : tab s g = tab s g' ↔ ∀ p, p < s.nitems → g p = g' p := by
  refine ⟨fun h p hp => ?_, tab_congr⟩
  have hread := congrArg (read · p) h
  rw [read_tab hp, read_tab hp] at hread
  exact Except.ok.inj hread

variable [Zero K]

/-- The element in a cell, zero outside. -/
def cell (a : ArrayType K) (p : Nat) : K :=
  a.data.getD p 0

theorem tab_cell (a : ArrayType K) : tab a.toArrayShape a.cell = a := by
  refine ext_data rfl (List.ext_getElem ?_ ?_)
  · rw [a.data_length, (tab a.toArrayShape a.cell).data_length, tab_nitems]
  · intro p hp hp'
    simp [tab, cell, List.getD_eq_getElem?_getD, hp']

theorem cell_tab (hp : p < s.nitems) : (tab s g).cell p = g p := by
  simp [tab, cell, List.getD_eq_getElem?_getD, hp]

theorem read_eq (hp : p < a.nitems) : a.read p = .ok (a.cell p) := by
  rw [← a.data_length] at hp
  simp [read, cell, List.getD_eq_getElem?_getD, hp]

/-! ## Arrays as matrices -/

/-- The matrix with `m` rows and `n` columns that stands in the elements. -/
def matrix (a : ArrayType K) (m n : Nat) : Matrix (Fin m) (Fin n) K :=
  Matrix.of fun i j => a.cell (i * n + j)

end ArrayType

/-- `initResult`: zeros. -/
def initResult [Zero K] (dims : List Nat) (lbs : List Int) (hlen : lbs.length = dims.length) :
    Except MatError (ArrayType K) :=
  match h : arrayGetNItems dims with
  | .error e => .error e
  | .ok nelems =>
    if hsize : nelems * 8 + arrOverheadNonulls dims.length ≤ MaxAllocSize then
      .ok (.tab ⟨dims, lbs, nelems, hlen, h, hsize⟩ fun _ => 0)
    else .error .tooLarge

/-- There is an array with these dimensions. -/
def Fits (dims : List Nat) : Prop :=
  ∃ n, arrayGetNItems dims = .ok n ∧ n * 8 + arrOverheadNonulls dims.length ≤ MaxAllocSize

theorem ArrayShape.fits (s : ArrayShape) : Fits s.dims :=
  ⟨s.nitems, s.nitems_eq, s.size_le⟩

theorem itemsLoop_error {ret : Nat} {e : MatError} (h : itemsLoop ret dims = .error e) :
    e = .tooLarge := by
  induction dims generalizing ret with
  | nil => cases h
  | cons d dims ih =>
    rw [itemsLoop] at h
    split at h
    · exact ih h
    · cases h
      rfl

theorem arrayGetNItems_error {e : MatError} (h : arrayGetNItems dims = .error e) :
    e = .tooLarge := by
  unfold arrayGetNItems at h
  split at h
  · cases h
  · cases hloop : itemsLoop 1 dims with
    | error e' =>
      rw [hloop] at h
      cases h
      exact itemsLoop_error hloop
    | ok ret =>
      rw [hloop, ok_bind] at h
      split at h
      · cases h
      · cases h
        rfl

theorem initResult_of_fits [Zero K] {l : List Int} (hlen : l.length = dims.length) (h : Fits dims) :
    ∃ s : ArrayShape, s.dims = dims ∧ s.lbound = l ∧
      (initResult dims l hlen : Except MatError (ArrayType K)) = .ok (.tab s fun _ => 0) := by
  obtain ⟨n, hn, hsize⟩ := h
  refine ⟨⟨dims, l, n, hlen, hn, hsize⟩, rfl, rfl, ?_⟩
  unfold initResult
  split
  · next e he => cases hn.symm.trans he
  · next n' hn' =>
    cases hn.symm.trans hn'
    rw [dif_pos hsize]

/-- `initResult(ARR_NDIM(a), ARR_DIMS(a), ARR_LBOUND(a))` -/
def initLike [Zero K] (a : ArrayType K) : Except MatError (ArrayType K) :=
  initResult a.dims a.lbound a.lbound_length

theorem initLike_eq [Zero K] (a : ArrayType K) :
    initLike a = .ok (.tab a.toArrayShape fun _ => 0) := by
  obtain ⟨s, hdims, hlbound, hinit⟩ := initResult_of_fits (K := K) a.lbound_length a.fits
  rw [initLike, hinit, ArrayShape.ext_dims hdims hlbound]

theorem initResult_of_not_fits [Zero K] {lbs : List Int} (hlen : lbs.length = dims.length)
    (h : ¬ Fits dims) :
    (initResult dims lbs hlen : Except MatError (ArrayType K)) = .error .tooLarge := by
  unfold initResult
  split
  · next e he => rw [arrayGetNItems_error he]
  · next n hn => rw [dif_neg fun hsize => h ⟨n, hn, hsize⟩]

/-! ## One and two dimensions -/

theorem arrayGetNItems_vector (n : Nat) :
    arrayGetNItems [n] = if n ≤ MaxArraySize then .ok n else .error .tooLarge := by
  have hmax : (MaxArraySize : Int) ≤ PG_INT32_MAX := by decide
  simp only [arrayGetNItems, itemsLoop, Nat.one_mul, List.cons_ne_nil, if_false]
  by_cases hn : n ≤ MaxArraySize
  · rw [if_pos (by omega), if_pos hn, ok_bind, if_pos hn]
  · rw [if_neg hn]
    split
    · rw [ok_bind, if_neg hn]
    · rfl

theorem arrayGetNItems_matrix (hn : 0 < n) :
    arrayGetNItems [m, n] = if m * n ≤ MaxArraySize then .ok (m * n) else .error .tooLarge := by
  have hmax : (MaxArraySize : Int) ≤ PG_INT32_MAX := by decide
  have hm : m ≤ m * n := Nat.le_mul_of_pos_right m hn
  simp only [arrayGetNItems, itemsLoop, Nat.one_mul, List.cons_ne_nil, if_false]
  by_cases hmn : m * n ≤ MaxArraySize
  · rw [if_pos (by omega), if_pos (by omega), if_pos hmn, ok_bind, if_pos hmn]
  · rw [if_neg hmn]
    split
    · split
      · rw [ok_bind, if_neg hmn]
      · rfl
    · rfl

theorem fits_vector : Fits [n] ↔ n * 8 + 24 ≤ MaxAllocSize := by
  have hmax : MaxArraySize = 134217727 := by decide
  have halloc : MaxAllocSize = 1073741823 := by decide
  have hover : arrOverheadNonulls [n].length = 24 := by simp [arrOverheadNonulls]
  unfold Fits
  rw [arrayGetNItems_vector, hover]
  constructor
  · rintro ⟨k, hk, hsize⟩
    split at hk
    · cases hk
      exact hsize
    · cases hk
  · intro hsize
    exact ⟨n, if_pos (by omega), hsize⟩

theorem fits_matrix (hn : 0 < n) : Fits [m, n] ↔ m * n * 8 + 32 ≤ MaxAllocSize := by
  have hmax : MaxArraySize = 134217727 := by decide
  have halloc : MaxAllocSize = 1073741823 := by decide
  have hover : arrOverheadNonulls [m, n].length = 32 := by simp [arrOverheadNonulls]
  unfold Fits
  rw [arrayGetNItems_matrix hn, hover]
  constructor
  · rintro ⟨k, hk, hsize⟩
    split at hk
    · cases hk
      exact hsize
    · cases hk
  · intro hsize
    exact ⟨m * n, if_pos (by omega), hsize⟩

theorem ArrayShape.nitems_vector (h : s.dims = [n]) : s.nitems = n := by
  have hn := s.nitems_eq
  rw [h, arrayGetNItems_vector] at hn
  split at hn
  · exact (Except.ok.inj hn).symm
  · cases hn

theorem ArrayShape.nitems_matrix (h : s.dims = [m, n]) (hn : 0 < n) : s.nitems = m * n := by
  have heq := s.nitems_eq
  rw [h, arrayGetNItems_matrix hn] at heq
  split at heq
  · exact (Except.ok.inj heq).symm
  · cases heq

theorem ArrayShape.lbound_vector (h : s.dims = [m]) : ∃ lb, s.lbound = [lb] := by
  have hlen := s.lbound_length
  rw [h] at hlen
  exact List.length_eq_one_iff.mp hlen

theorem ArrayShape.lbound_matrix (h : s.dims = [m, n]) : ∃ lb lb', s.lbound = [lb, lb'] := by
  have hlen := s.lbound_length
  rw [h] at hlen
  exact List.length_eq_two.mp hlen

/-- An array that reads as a matrix with `m` rows and `n` columns. An array without elements has no
dimensions in PostgreSQL, so no size is zero. -/
structure Sized (a : ArrayType K) (m n : Nat) : Prop where
  dims : a.dims = [m] ∧ n = 1 ∨ a.dims = [m, n]
  rows_pos : 0 < m
  cols_pos : 0 < n

theorem Sized.nitems {a : ArrayType K} (h : Sized a m n) : a.nitems = m * n := by
  rcases h.dims with ⟨hdims, rfl⟩ | hdims
  · rw [ArrayShape.nitems_vector hdims, Nat.mul_one]
  · exact ArrayShape.nitems_matrix hdims h.cols_pos

/-- An array that reads as a matrix with `m` rows and `n` columns, and is no scalar. -/
structure Operand (a : ArrayType K) (m n : Nat) : Prop where
  dims : a.dims = [m] ∧ n = 1 ∨ a.dims = [m, n]
  rows_pos : 0 < m
  cols_pos : 0 < n
  lbound : -1 ∉ a.lbound

namespace Operand

variable {a : ArrayType K} {m n : Nat}

theorem sized (h : Operand a m n) : Sized a m n :=
  ⟨h.dims, h.rows_pos, h.cols_pos⟩

theorem nitems (h : Operand a m n) : a.nitems = m * n :=
  h.sized.nitems

theorem isScalar (h : Operand a m n) : a.isScalar = .ok false := by
  refine ArrayType.isScalar_of_not_mem h.lbound ?_
  rcases h.dims with ⟨hdims, _⟩ | hdims <;> rw [hdims] <;> exact List.cons_ne_nil _ _

end Operand

end HolLambdas.Arrays
