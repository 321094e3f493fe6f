import HolLambdas.Arrays.Product

/-!
# Transposing and scaling

What transposing does to shapes. Transposing twice keeps the elements in their order, but a matrix
with one column comes back as a vector, and a matrix with one row has lost its first lower bound
(`transpose_twice`).

A product with a scalar multiplies the elements of a copy. The copy is of the operand that was
passed and not of the transposed one, so the transposition gets lost (`scale_transposed_iff`).
-/

namespace HolLambdas.Arrays

open RowMajor ArrayType

variable {K : Type} [CommRing K] {m n : Nat}

/-- Arrays that read as the same matrix have the same elements. -/
theorem Sized.data_eq {a b : ArrayType K} (ha : Sized a m n) (hb : Sized b m n)
    (h : a.matrix m n = b.matrix m n) : a.data = b.data := by
  have hcell : ∀ p, p < m * n → a.cell p = b.cell p := by
    intro p hp
    have hentry := congrFun₂ h ⟨p / n, div_lt_of_lt_mul hp⟩ ⟨p % n, Nat.mod_lt p ha.cols_pos⟩
    rwa [ArrayType.matrix, ArrayType.matrix, Matrix.of_apply, Matrix.of_apply,
      ← (eq_cell_iff (Nat.mod_lt p ha.cols_pos)).mpr ⟨rfl, rfl⟩] at hentry
  rw [← tab_cell a, ← tab_cell b]
  show (List.range a.nitems).map a.cell = (List.range b.nitems).map b.cell
  rw [ha.nitems, hb.nitems]
  exact List.map_congr_left fun p hp => hcell p (List.mem_range.mp hp)

/-! ## Transposing twice -/

def transposeTwice (a : ArrayType K) : Except MatError (ArrayType K) := do
  let t ← matrixTransposeInternal a
  matrixTransposeInternal t

omit [CommRing K] in
/-- What was transposed can be transposed again. -/
theorem Sized.fits_twice {a t : ArrayType K} (h : Sized a m n)
    (hdims : t.dims = transposeDims a.dims) : Fits (transposeDims t.dims) := by
  by_cases hrow : a.dims = [1, n]
  · have hfits := a.fits
    rw [hrow] at hfits
    rw [hdims, hrow]
    exact hfits
  · refine fits_transposeDims (h.transposed hdims) ?_
    rw [ndim, hdims]
    rcases h.dims with ⟨ha, _⟩ | ha
    · rw [ha]
      rfl
    · have hm : m ≠ 1 := fun hm => hrow (hm ▸ ha)
      rw [ha, transposeDims, if_neg hm]
      rfl

theorem transposeTwice_ok {a : ArrayType K} (h : Operand a m n)
    (hfits : Fits (transposeDims a.dims)) :
    ∃ t, transposeTwice a = .ok t ∧ t.dims = transposeDims (transposeDims a.dims) ∧
      t.lbound = transposeLbound (transposeDims a.dims) (transposeLbound a.dims a.lbound) ∧
        t.data = a.data := by
  obtain ⟨t, ht, hdims, hlbound, hmatrix⟩ := transpose_sized h.sized h.isScalar hfits
  have hsized := h.sized.transposed hdims
  have hoperand : Operand t n m := ⟨hsized.dims, hsized.rows_pos, hsized.cols_pos,
    hlbound ▸ not_mem_transposeLbound h.lbound⟩
  obtain ⟨u, hu, hdims', hlbound', hmatrix'⟩ :=
    transpose_sized hsized hoperand.isScalar (h.sized.fits_twice hdims)
  refine ⟨u, ?_, by rw [hdims', hdims], by rw [hlbound', hlbound, hdims], ?_⟩
  · rw [transposeTwice, ht, ok_bind, hu]
  · refine (hsized.transposed hdims').data_eq h.sized ?_
    rw [hmatrix', hmatrix, Matrix.transpose_transpose]

/-- **Transposing twice** gives back a vector, if there is an array for the row, and a matrix with
more than one row and more than one column. A row comes back with 1 as its first lower bound, and a
matrix with one column as the vector of its elements. -/
theorem transpose_twice {a : ArrayType K} {m n : Nat} (h : Operand a m n) :
    (a.ndim = 1 → Fits [1, m] → transposeTwice a = .ok a) ∧
      (a.ndim = 1 → ¬ Fits [1, m] → transposeTwice a = .error .tooLarge) ∧
      (a.ndim = 2 → m ≠ 1 → n ≠ 1 → transposeTwice a = .ok a) ∧
      (a.ndim = 2 → m = 1 → ∃ t, transposeTwice a = .ok t ∧ t.dims = a.dims ∧
        t.lbound = [1, a.lbound.getD 1 0] ∧ t.data = a.data) ∧
      (a.ndim = 2 → m ≠ 1 → n = 1 → ∃ t, transposeTwice a = .ok t ∧ t.dims = [m] ∧
        t.lbound = [a.lbound.getD 0 0] ∧ t.data = a.data) := by
  rcases h.dims with ⟨hdims, rfl⟩ | hdims
  · -- a vector
    obtain ⟨lb, hbound⟩ := ArrayShape.lbound_vector hdims
    have hone : a.ndim = 1 := by rw [ndim, hdims]; rfl
    have htrans : transposeDims a.dims = [1, m] := by rw [hdims]; rfl
    refine ⟨fun _ hfits => ?_, fun _ hfits => ?_, by omega, by omega, by omega⟩
    · obtain ⟨t, ht, hdims', hlbound, hdata⟩ := transposeTwice_ok h (htrans ▸ hfits)
      rw [ht]
      refine congrArg _ (ext_data (ArrayShape.ext_dims ?_ ?_) hdata)
      · rw [hdims', htrans, hdims]
        simp [transposeDims]
      · rw [hlbound, htrans, hbound, hdims]
        simp [transposeLbound]
    · rw [transposeTwice, transpose_error h.sized h.isScalar (htrans ▸ hfits)]
      rfl
  · -- a matrix
    obtain ⟨lb, lb', hbound⟩ := ArrayShape.lbound_matrix hdims
    have htwo : a.ndim = 2 := by rw [ndim, hdims]; rfl
    obtain ⟨t, ht, hdims', hlbound, hdata⟩ :=
      transposeTwice_ok h (fits_transposeDims h.sized htwo)
    rw [hdims] at hdims' hlbound
    rw [hbound] at hlbound
    refine ⟨by omega, by omega, fun _ hm hn => ?_, fun _ hm => ?_, fun _ hm hn => ?_⟩
    · rw [ht]
      refine congrArg _ (ext_data (ArrayShape.ext_dims ?_ ?_) hdata)
      · rw [hdims', hdims]
        simp [transposeDims, hm, hn]
      · rw [hlbound, hbound]
        simp [transposeDims, transposeLbound, hm, hn]
    · subst hm
      refine ⟨t, ht, ?_, ?_, hdata⟩
      · rw [hdims', hdims]
        simp [transposeDims]
      · rw [hlbound, hbound]
        simp [transposeDims, transposeLbound]
    · subst hn
      refine ⟨t, ht, ?_, ?_, hdata⟩
      · rw [hdims']
        simp [transposeDims, hm]
      · rw [hlbound, hbound]
        simp [transposeDims, transposeLbound, hm]

theorem transpose_twice_column : transposeTwice (column 3 (by decide)) =
    .ok (column 3 (by decide)) :=
  (transpose_twice (operand_column (n := 3) (by decide) (by decide))).1 rfl
    ((fits_matrix (by decide)).mpr (by decide))

/-- A matrix with one column. -/
def columnMatrix : ArrayType ℤ :=
  tab (.of [2, 1] [1, 1] 2 (by decide)) fun p => p + 1

/-- A matrix with one row, the one with number 5. -/
def rowFive : ArrayType ℤ :=
  tab (.of [1, 2] [5, 1] 2 (by decide)) fun p => p + 1

/-- A column comes back as a vector, the row number is lost, and the longest vector has no row. -/
theorem transposeTwice_changes :
    Operand columnMatrix 2 1 ∧ transposeTwice columnMatrix = .ok (column 2 (by decide)) ∧
      Operand rowFive 1 2 ∧ transposeTwice rowFive = .ok (row 2 (by decide) (by decide)) ∧
      Operand (column 134217724 (by decide)) 134217724 1 ∧
        transposeTwice (column 134217724 (by decide)) = .error .tooLarge := by
  have hcolumn := operand_column (n := 134217724) (by decide) (by decide)
  refine ⟨⟨.inr rfl, by decide, by decide, by decide⟩, rfl,
    ⟨.inr rfl, by decide, by decide, by decide⟩, rfl, hcolumn, ?_⟩
  have hfits : ¬ Fits [1, 134217724] := by
    rw [fits_matrix (by decide)]
    decide
  rw [transposeTwice, transpose_error hcolumn.sized hcolumn.isScalar hfits]
  rfl

/-! ## Scaling -/

/-- The elements multiplied by a number. -/
def scaled (v : K) (a : ArrayType K) : ArrayType K :=
  tab a.toArrayShape fun p => a.cell p * v

theorem scaleLoop_eq {s a : ArrayType K} {length : Nat} (hs : 0 < s.nitems)
    (hlength : length = a.nitems) : scaleLoop length s a = .ok (scaled (s.cell 0) a) := by
  subst hlength
  have hloop : scaleLoop a.nitems s (tab a.toArrayShape a.cell) = .ok (scaled (s.cell 0) a) := by
    refine loop_elements _ _ fun p hp g hg => ?_
    rw [read_tab hp, ok_bind, read_eq hs, ok_bind, write_tab _ hp, hg]
  rwa [tab_cell] at hloop

/-- Scaling commutes with transposing, on both sides. -/
def ScaleCommutes (s x : ArrayType K) : Prop :=
  ∃ t, matrixTransposeInternal x = .ok t ∧
    matrixMulInternal s x false true = .ok (scaled (s.cell 0) t) ∧
      matrixMulInternal x s true false = .ok (scaled (s.cell 0) t)

section Scale

variable {s x t : ArrayType K} (hs : s.isScalar = .ok true) (hpos : 0 < s.nitems)
  (ht : matrixTransposeInternal x = .ok t) (hitems : t.nitems = x.nitems)

include hs hpos ht hitems in
/-- The left scalar scales the operand as it was passed. -/
theorem matrixMulInternal_scalar_left :
    matrixMulInternal s x false true = .ok (scaled (s.cell 0) x) := by
  have hleft : transposeIf false s = .ok s := rfl
  have hright : transposeIf true x = .ok t := ht
  unfold matrixMulInternal
  rw [hleft, ok_bind, hright, ok_bind, hs, ok_bind, if_pos rfl]
  exact scaleLoop_eq hpos hitems

include hs hpos ht hitems in
theorem matrixMulInternal_scalar_right (htscalar : t.isScalar = .ok false) :
    matrixMulInternal x s true false = .ok (scaled (s.cell 0) x) := by
  have hleft : transposeIf true x = .ok t := ht
  have hright : transposeIf false s = .ok s := rfl
  unfold matrixMulInternal
  rw [hleft, ok_bind, hright, ok_bind, htscalar, ok_bind, if_neg Bool.false_ne_true, hs, ok_bind,
    if_pos rfl]
  exact scaleLoop_eq hpos hitems

end Scale

omit [CommRing K] in
/-- Only a square matrix keeps its dimensions. -/
theorem transposeDims_eq_iff {a : ArrayType K} (h : Sized a m n) :
    a.dims = transposeDims a.dims ↔ a.dims = [m, m] ∧ m ≠ 1 := by
  rcases h.dims with ⟨hdims, _⟩ | hdims
  · rw [hdims]
    simp [transposeDims]
  · rw [hdims]
    by_cases hm : m = 1
    · simp [transposeDims, hm]
    · simp [transposeDims, hm, eq_comm]

theorem scaled_eq_iff {x t : ArrayType K} {v : K} :
    scaled v x = scaled v t ↔ x.dims = t.dims ∧ x.lbound = t.lbound ∧
      ∀ p, p < x.nitems → x.cell p * v = t.cell p * v := by
  constructor
  · intro h
    have hshape : x.toArrayShape = t.toArrayShape := congrArg (·.toArrayShape) h
    refine ⟨congrArg (·.dims) hshape, congrArg (·.lbound) hshape, ?_⟩
    unfold scaled at h
    rwa [← hshape, tab_inj] at h
  · rintro ⟨hdims, hlbound, hcell⟩
    unfold scaled
    rw [← ArrayShape.ext_dims hdims hlbound]
    exact tab_congr hcell

/-- **Scaling commutes with transposing** for square matrices only, with equal lower bounds and
symmetric elements once they are scaled: for an `x` that its transposition does not change. -/
theorem scale_transposed_iff {s x : ArrayType K} {m n : Nat} (hs : s.isScalar = .ok true)
    (hpos : 0 < s.nitems) (hx : Sized x m n) (hscalar : x.isScalar = .ok false) :
    ScaleCommutes s x ↔
      x.dims = [m, m] ∧ m ≠ 1 ∧ x.lbound.getD 0 0 = x.lbound.getD 1 0 ∧
        ∀ i j, i < m → j < m → x.cell (i * m + j) * s.cell 0 = x.cell (j * m + i) * s.cell 0 := by
  by_cases hfits : Fits (transposeDims x.dims)
  · obtain ⟨t, ht, hdims, hlbound, hmatrix⟩ := transpose_sized hx hscalar hfits
    have hitems : t.nitems = x.nitems := by
      rw [(hx.transposed hdims).nitems, hx.nitems, Nat.mul_comm]
    have hleft := matrixMulInternal_scalar_left hs hpos ht hitems
    have hcommutes : ScaleCommutes s x ↔ scaled (s.cell 0) x = scaled (s.cell 0) t := by
      constructor
      · rintro ⟨t', ht', hleft', -⟩
        obtain rfl : t = t' := Except.ok.inj (ht.symm.trans ht')
        exact Except.ok.inj (hleft.symm.trans hleft')
      · intro heq
        have htscalar := (isScalar_congr (scaled_eq_iff.mp heq).2.1).symm.trans hscalar
        have hright := matrixMulInternal_scalar_right hs hpos ht hitems htscalar
        exact ⟨t, ht, heq ▸ hleft, heq ▸ hright⟩
    rw [hcommutes, scaled_eq_iff, hdims, transposeDims_eq_iff hx, hlbound, and_assoc]
    refine and_congr_right fun hsquare => and_congr_right fun hm => and_congr ?_ ?_
    · obtain ⟨lb, lb', hbound⟩ := ArrayShape.lbound_matrix hsquare
      rw [hsquare, hbound]
      simp [transposeLbound, hm, eq_comm]
    · obtain rfl : n = m := by
        rcases hx.dims with ⟨hvector, _⟩ | hmatrix
        · rw [hvector] at hsquare
          cases hsquare
        · rw [hmatrix] at hsquare
          cases hsquare
          rfl
      have hentry : ∀ i j, i < n → j < n → t.cell (i * n + j) = x.cell (j * n + i) :=
        fun i j hi hj => congrFun₂ hmatrix ⟨i, hi⟩ ⟨j, hj⟩
      rw [hx.nitems]
      constructor
      · intro h i j hi hj
        rw [h _ (cell_lt hi hj), hentry i j hi hj]
      · intro h p hp
        have hmod := Nat.mod_lt p hx.cols_pos
        have hdiv : p / n < n := div_lt_of_lt_mul hp
        rw [(eq_cell_iff hmod).mpr ⟨rfl, rfl⟩, hentry _ _ hdiv hmod]
        exact h _ _ hdiv hmod
  · refine iff_of_false ?_ ?_
    · rintro ⟨t, ht, -⟩
      rw [transpose_error hx hscalar hfits] at ht
      cases ht
    · rintro ⟨hsquare, -⟩
      exact hfits (fits_transposeDims hx (by rw [ndim, hsquare]; rfl))

/-- The scalar 1. -/
def scalarOne : ArrayType ℤ :=
  tab (.of [1] [-1] 1 (by decide)) fun _ => 1

/-- A matrix of threes. -/
def threes : ArrayType ℤ :=
  tab (.of [2, 2] [1, 1] 4 (by decide)) fun _ => 3

theorem scale_transposed_iff_threes : ScaleCommutes scalarOne threes := by
  have hsized : Sized threes 2 2 := ⟨.inr rfl, by decide, by decide⟩
  refine (scale_transposed_iff rfl (by decide) hsized rfl).mpr ⟨rfl, by decide, rfl, ?_⟩
  intro i j hi hj
  rw [threes, cell_tab (cell_lt hi hj), cell_tab (cell_lt hj hi)]

/-- The vector comes back as it was, and its transposition is a row. -/
theorem scaleCommutes_column_fails :
    matrixTransposeInternal (column 2 (by decide)) = .ok (row 2 (by decide) (by decide)) ∧
      matrixMulInternal scalarOne (column 2 (by decide)) false true = .ok (column 2 (by decide)) ∧
        ¬ ScaleCommutes scalarOne (column 2 (by decide)) := by
  refine ⟨rfl, rfl, ?_⟩
  rintro ⟨t, ht, hleft, -⟩
  obtain rfl : row 2 (by decide) (by decide) = t := Except.ok.inj ht
  have hdims : [2] = [1, 2] := congrArg (·.dims) (Except.ok.inj hleft)
  cases hdims

end HolLambdas.Arrays
