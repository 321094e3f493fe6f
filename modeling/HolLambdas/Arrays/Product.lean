import HolLambdas.Arrays.ArrayType
import Mathlib.Algebra.BigOperators.Fin
import Mathlib.Data.Matrix.Mul

/-!
# Products of arrays

`matrix_mul`, which SQL calls, and `matrix_mul_internal`, which the derivation calls, with flags
for transposing an operand first. Both find the sizes of the product from the first dimension of
the left operand and the dimensions of the right one, and use the number of rows of the right
operand as the row length of the left one. They add up in different orders:
`matrix_mul_internal` computes one element after the other, `matrix_mul` adds one product at a
time to the elements of a row.

Transposing changes the number of dimensions: a vector becomes a matrix with one row, and such a
matrix becomes a vector.

For operands that fit together, and are not both vectors, the result is the product of the
matrices (`matrixMulInternal_spec`), and no cell outside an array is used. What can still happen
is that there is no array of the size that is needed. Operands that do not fit together are not
recognised (`matrixMul_rejected_iff`).
-/

namespace HolLambdas.Arrays

open RowMajor ArrayType

variable {K : Type}

/-! ## The routines -/

/-- `copyArray`: header and elements. What was allocated once can be allocated again. -/
def copyArray (a : ArrayType K) : ArrayType K := a

/-- `memcpy` of the elements, as many as the target has. -/
def copyElements (ret a : ArrayType K) : Except MatError (ArrayType K) :=
  loop (fun p ret => do ret.write p (← a.read p)) ret.nitems ret

/-- The loops of `matrix_transpose_internal` for an array with `n` columns. -/
def transposeLoop (a : ArrayType K) (m n : Nat) (ret : ArrayType K) :
    Except MatError (ArrayType K) :=
  loop (fun i ret =>
    loop (fun j ret => do ret.write (j * m + i) (← a.read (i * n + j))) n ret) m ret

section Routines

variable [CommRing K]

/-- `matrix_transpose_internal`: a vector becomes a row. -/
def matrixTransposeInternal (org : ArrayType K) : Except MatError (ArrayType K) := do
  if ← org.isScalar then return copyArray org
  match org.dims, org.lbound with
  | [n], [lb] =>
    let ret ← initResult [1, n] [1, lb] rfl
    copyElements ret org
  | m :: n :: dims, lb :: lb' :: _ =>
    -- only a matrix can be a row
    if dims = [] ∧ m = 1 then
      let ret ← initResult [n] [lb'] rfl
      copyElements ret org
    else
      let ret ← initResult [n, m] [lb', lb] rfl
      transposeLoop org m n ret
  | _, _ => .error .outside

/-- The sizes of a product: `dima`, `dimb` and `dimc`, with the array for the result. -/
structure Product (K : Type) where
  dima : Nat
  dimb : Nat
  dimc : Nat
  ret : ArrayType K

/-- The second half of both routines up to the loops. -/
def initProduct (a1 a2 : ArrayType K) : Except MatError (Product K) := do
  if a1.ndim = 1 ∧ a2.ndim = 1 then throw .columnVectors
  let dima := a1.dims.headD 0
  let dimb := a2.dims.headD 0
  let dimc := if a2.ndim = 2 then a2.dims.getD 1 0 else 1
  let ret ←
    if dima = 1 ∧ dimc = 1 then initResult [1] [-1] rfl
    else if a2.ndim = 2 then initResult [dima, dimc] [1, 1] rfl
    else initResult [dima] [1] rfl
  return { dima, dimb, dimc, ret }

/-- `tmp += ps1[MAT_2D(i, j, dimb)] * ps2[MAT_2D(j, k, dimc)]` for all `j`. -/
def dotLoop (a1 a2 : ArrayType K) (dimb dimc i k : Nat) : Except MatError K :=
  loop (fun j tmp => do
    let x ← a1.read (i * dimb + j)
    let y ← a2.read (j * dimc + k)
    return tmp + x * y) dimb 0

/-- The loops of `matrix_mul_internal`. -/
def internalLoops (a1 a2 : ArrayType K) (p : Product K) : Except MatError (ArrayType K) :=
  loop (fun i ret => loop (fun k ret => do
    let tmp ← dotLoop a1 a2 p.dimb p.dimc i k
    ret.write (i * p.dimc + k) tmp) p.dimc ret) p.dima p.ret

/-- `ps[MAT_2D(i, k, dimc)] += ps1[MAT_2D(i, j, dimb)] * ps2[MAT_2D(j, k, dimc)]` for all `k`. -/
def addLoop (a1 a2 : ArrayType K) (dimb dimc i j : Nat) (ret : ArrayType K) :
    Except MatError (ArrayType K) :=
  loop (fun k ret => do
    let x ← a1.read (i * dimb + j)
    let y ← a2.read (j * dimc + k)
    let z ← ret.read (i * dimc + k)
    ret.write (i * dimc + k) (z + x * y)) dimc ret

def rowLoop (a1 a2 : ArrayType K) (dimb dimc i : Nat) (ret : ArrayType K) :
    Except MatError (ArrayType K) :=
  loop (addLoop a1 a2 dimb dimc i) dimb ret

/-- The loops of `matrix_mul`. -/
def externalLoops (a1 a2 : ArrayType K) (p : Product K) : Except MatError (ArrayType K) :=
  loop (rowLoop a1 a2 p.dimb p.dimc) p.dima p.ret

/-- `data[i] *= s[0]` on a copy, for the first `length` elements. -/
def scaleLoop (length : Nat) (s ret : ArrayType K) : Except MatError (ArrayType K) :=
  loop (fun i ret => do
    let x ← ret.read i
    let y ← s.read 0
    ret.write i (x * y)) length ret

/-- `(transpose) ? (matrix_transpose_internal(Mat)) : (Mat)` -/
def transposeIf (transpose : Bool) (mat : ArrayType K) : Except MatError (ArrayType K) :=
  if transpose then matrixTransposeInternal mat else .ok mat

/-- `matrix_mul_internal`. -/
def matrixMulInternal (matA matB : ArrayType K) (transposeA transposeB : Bool) :
    Except MatError (ArrayType K) := do
  let a1 ← transposeIf transposeA matA
  let a2 ← transposeIf transposeB matB
  -- the copy is of the operand before it was transposed
  if ← a1.isScalar then return ← scaleLoop a2.nitems a1 (copyArray matB)
  if ← a2.isScalar then return ← scaleLoop a1.nitems a2 (copyArray matA)
  let p ← initProduct a1 a2
  internalLoops a1 a2 p

/-- `matrix_mul`. -/
def matrixMul (a1 a2 : ArrayType K) : Except MatError (ArrayType K) := do
  if ← a1.isScalar then return ← scaleLoop a2.nitems a1 (copyArray a2)
  if ← a2.isScalar then return ← scaleLoop a1.nitems a2 (copyArray a1)
  let p ← initProduct a1 a2
  externalLoops a1 a2 p

end Routines

/-! ## The loops -/

section Loops

variable {s : ArrayShape} {u v : Nat → Nat}

/-- A loop over the cells of one row, where `(u p, v p)` are the coordinates of a cell. -/
theorem loop_row {body : Nat → ArrayType K → Except MatError (ArrayType K)} {i n : Nat}
    (cell : Nat → Nat) (new old : Nat → K) (hlt : ∀ p, p < s.nitems → v p < n)
    (hcell : ∀ k, k < n → ∀ p, p = cell k ↔ u p = i ∧ v p = k)
    (hbody : ∀ k, k < n → ∀ g, g (cell k) = old (cell k) →
      body k (tab s g) = .ok (tab s (Function.update g (cell k) (new (cell k))))) :
    loop body n (tab s old) = .ok (tab s fun p => if u p = i then new p else old p) := by
  -- `Before` also counts the rows that are done, where nothing changes
  have hround : ∀ k, k < n →
      body k (tab s fun p => if Before (u p) (v p) i k then (if u p = i then new p else old p)
          else old p) =
        .ok (tab s fun p => if Before (u p) (v p) i (k + 1) then (if u p = i then new p else old p)
          else old p) := by
    intro k hk
    obtain ⟨hu, hv⟩ := (hcell k hk (cell k)).mp rfl
    rw [hbody k hk _ (if_neg (by simp [Before, hu, hv])), ← update_before (hcell k hk), if_pos hu]
  have hloop := loop_eq (fun k => tab s fun p =>
    if Before (u p) (v p) i k then (if u p = i then new p else old p) else old p) hround
  have hstart : (fun p => if Before (u p) (v p) i 0 then (if u p = i then new p else old p)
      else old p) = old := by
    funext p
    rw [if_congr before_zero rfl rfl]
    split
    · next hp => exact if_neg (Nat.ne_of_lt hp)
    · rfl
  rw [hstart] at hloop
  rw [hloop]
  refine congrArg _ (tab_congr fun p hp => ?_)
  rw [if_congr (before_last (hlt p hp)) rfl rfl]
  split
  · rfl
  · next hp => exact (if_neg (by omega)).symm

/-- A loop over the elements, in their order. -/
theorem loop_elements {body : Nat → ArrayType K → Except MatError (ArrayType K)} (new old : Nat → K)
    (hbody : ∀ p, p < s.nitems → ∀ g, g p = old p →
      body p (tab s g) = .ok (tab s (Function.update g p (new p)))) :
    loop body s.nitems (tab s old) = .ok (tab s new) := by
  have hloop := loop_row (u := fun _ => 0) (v := id) (i := 0) id new old (fun _ hp => hp)
    (fun k _ p => by simp) hbody
  simpa only [if_true] using hloop

/-- Row `i` after the rows before it. -/
theorem if_eq_or_lt (u : Nat → Nat) (i : Nat) (new old : Nat → K) :
    (fun p => if u p = i then new p else if u p < i then new p else old p) =
      fun p => if u p < i + 1 then new p else old p := by
  funext p
  rcases Nat.lt_trichotomy (u p) i with h | h | h
  · rw [if_neg (by omega), if_pos h, if_pos (by omega)]
  · rw [if_pos h, if_pos (by omega)]
  · rw [if_neg (by omega), if_neg (by omega), if_neg (by omega)]

/-- A loop over the cells of all rows. -/
theorem loop_cells [Zero K] {body : Nat → Nat → ArrayType K → Except MatError (ArrayType K)}
    {m n : Nat} (cell : Nat → Nat → Nat) (new : Nat → K)
    (hlt : ∀ p, p < s.nitems → u p < m ∧ v p < n)
    (hcell : ∀ i k, i < m → k < n → ∀ p, p = cell i k ↔ u p = i ∧ v p = k)
    (hbody : ∀ i k, i < m → k < n → ∀ g,
      body i k (tab s g) = .ok (tab s (Function.update g (cell i k) (new (cell i k))))) :
    loop (fun i ret => loop (body i) n ret) m (tab s fun _ => 0) = .ok (tab s new) := by
  have hround : ∀ i, i < m → loop (body i) n (tab s fun p => if u p < i then new p else 0) =
      .ok (tab s fun p => if u p < i + 1 then new p else 0) := by
    intro i hi
    rw [loop_row (cell i) new _ (fun p hp => (hlt p hp).2) (hcell i · hi)
      fun k hk g _ => hbody i k hi hk g]
    exact congrArg _ (congrArg _ (if_eq_or_lt u i new fun _ => 0))
  have hloop := loop_eq (fun i => tab s fun p => if u p < i then new p else 0) hround
  simp only [Nat.not_lt_zero, if_false] at hloop
  rw [hloop]
  exact congrArg _ (tab_congr fun p hp => if_pos (hlt p hp).1)

end Loops

variable [CommRing K] {s : ArrayShape} {a : ArrayType K} {m n : Nat}

theorem copyElements_tab (hn : s.nitems = a.nitems) (g : Nat → K) :
    copyElements (tab s g) a = .ok (tab s a.cell) := by
  rw [copyElements, tab_nitems]
  refine loop_elements _ _ fun p hp g _ => ?_
  rw [read_eq (hn ▸ hp), ok_bind, write_tab _ hp]

theorem div_lt_of_lt_mul {p : Nat} (h : p < m * n) : p / n < m :=
  Nat.div_lt_of_lt_mul (by rwa [Nat.mul_comm])

theorem transposeLoop_tab (hm : 0 < m) (ha : a.nitems = m * n) (hs : s.nitems = n * m) :
    transposeLoop a m n (tab s fun _ => 0) =
      .ok (tab s fun p => a.cell (p % m * n + p / m)) := by
  refine loop_cells (u := fun p => p % m) (v := fun p => p / m) (fun i j => j * m + i) _ ?_ ?_ ?_
  · intro p hp
    exact ⟨Nat.mod_lt p hm, div_lt_of_lt_mul (hs ▸ hp)⟩
  · intro i j hi hj p
    rw [eq_cell_iff hi, and_comm]
  · intro i j hi hj g
    have hread : i * n + j < a.nitems := ha ▸ cell_lt hi hj
    rw [read_eq hread, ok_bind, write_tab _ (hs ▸ cell_lt hj hi), cell_mod j hi, cell_div j hi]

/-- The first `b` summands of the element of a product in cell `p`. -/
def dotUpTo (a1 a2 : ArrayType K) (dimb dimc b p : Nat) : K :=
  ∑ j ∈ Finset.range b, a1.cell (p / dimc * dimb + j) * a2.cell (j * dimc + p % dimc)

/-- The element of a product in cell `p`. -/
def dot (a1 a2 : ArrayType K) (dimb dimc p : Nat) : K :=
  dotUpTo a1 a2 dimb dimc dimb p

theorem dotUpTo_zero (a1 a2 : ArrayType K) (dimb dimc p : Nat) : dotUpTo a1 a2 dimb dimc 0 p = 0 :=
  Finset.sum_range_zero _

theorem dotUpTo_succ (a1 a2 : ArrayType K) {dimb dimc i k : Nat} (b : Nat) (hk : k < dimc) :
    dotUpTo a1 a2 dimb dimc (b + 1) (i * dimc + k) =
      dotUpTo a1 a2 dimb dimc b (i * dimc + k) +
        a1.cell (i * dimb + b) * a2.cell (b * dimc + k) := by
  rw [dotUpTo, Finset.sum_range_succ, cell_div i hk, cell_mod i hk, dotUpTo, cell_div i hk,
    cell_mod i hk]

section Sizes

variable {s : ArrayShape} {a1 a2 : ArrayType K} {dima dimb dimc : Nat}
  (h1 : a1.nitems = dima * dimb) (h2 : a2.nitems = dimb * dimc) (hs : s.nitems = dima * dimc)

include h1 h2 in
theorem dotLoop_eq {i k : Nat} (hi : i < dima) (hk : k < dimc) :
    dotLoop a1 a2 dimb dimc i k = .ok (dot a1 a2 dimb dimc (i * dimc + k)) := by
  rw [dotLoop, ← dotUpTo_zero a1 a2 dimb dimc (i * dimc + k)]
  refine loop_eq (fun b => dotUpTo a1 a2 dimb dimc b (i * dimc + k)) fun j hj => ?_
  rw [read_eq (h1 ▸ cell_lt hi hj), read_eq (h2 ▸ cell_lt hj hk), dotUpTo_succ a1 a2 j hk]
  rfl

include h1 h2 hs in
theorem internalLoops_tab (hc : 0 < dimc) :
    internalLoops a1 a2 ⟨dima, dimb, dimc, tab s fun _ => 0⟩ =
      .ok (tab s (dot a1 a2 dimb dimc)) := by
  refine loop_cells (u := fun p => p / dimc) (v := fun p => p % dimc) (fun i k => i * dimc + k) _
    ?_ ?_ ?_
  · intro p hp
    exact ⟨div_lt_of_lt_mul (hs ▸ hp), Nat.mod_lt p hc⟩
  · intro i k hi hk p
    exact eq_cell_iff hk
  · intro i k hi hk g
    rw [dotLoop_eq h1 h2 hi hk, ok_bind, write_tab _ (hs ▸ cell_lt hi hk)]

include h1 h2 hs in
theorem addLoop_tab {i j : Nat} (hi : i < dima) (hj : j < dimb) {g : Nat → K}
    (hg : ∀ p, p / dimc = i → g p = dotUpTo a1 a2 dimb dimc j p) :
    addLoop a1 a2 dimb dimc i j (tab s g) =
      .ok (tab s fun p => if p / dimc = i then dotUpTo a1 a2 dimb dimc (j + 1) p else g p) := by
  refine loop_row (u := fun p => p / dimc) (v := fun p => p % dimc) (fun k => i * dimc + k) _ _
    ?_ ?_ ?_
  · intro p hp
    refine Nat.mod_lt p (Nat.pos_of_ne_zero ?_)
    rintro rfl
    rw [hs, Nat.mul_zero] at hp
    exact absurd hp (Nat.not_lt_zero p)
  · intro k hk p
    exact eq_cell_iff hk
  · intro k hk h hcell
    have hout := hs ▸ cell_lt hi hk
    rw [read_eq (h1 ▸ cell_lt hi hj), read_eq (h2 ▸ cell_lt hj hk), ok_bind, ok_bind,
      read_tab hout, ok_bind, write_tab _ hout, hcell, hg _ (cell_div i hk),
      dotUpTo_succ a1 a2 j hk]

include h1 h2 hs in
/-- The elements of a row grow by one summand in each round. -/
theorem rowLoop_tab {i : Nat} (hi : i < dima) {g : Nat → K} (hg : ∀ p, p / dimc = i → g p = 0) :
    rowLoop a1 a2 dimb dimc i (tab s g) =
      .ok (tab s fun p => if p / dimc = i then dot a1 a2 dimb dimc p else g p) := by
  have hround : ∀ j, j < dimb → addLoop a1 a2 dimb dimc i j
      (tab s fun p => if p / dimc = i then dotUpTo a1 a2 dimb dimc j p else g p) =
        .ok (tab s fun p => if p / dimc = i then dotUpTo a1 a2 dimb dimc (j + 1) p else g p) := by
    intro j hj
    rw [addLoop_tab h1 h2 hs hi hj fun p hp => if_pos hp]
    refine congrArg _ (congrArg _ (funext fun p => ?_))
    by_cases hp : p / dimc = i
    · rw [if_pos hp, if_pos hp]
    · rw [if_neg hp, if_neg hp, if_neg hp]
  have hloop := loop_eq
    (fun j => tab s fun p => if p / dimc = i then dotUpTo a1 a2 dimb dimc j p else g p) hround
  have hstart : (fun p => if p / dimc = i then dotUpTo a1 a2 dimb dimc 0 p else g p) = g := by
    funext p
    split
    · next hp => rw [dotUpTo_zero, hg p hp]
    · rfl
  rw [hstart] at hloop
  exact hloop

include h1 h2 hs in
theorem externalLoops_tab :
    externalLoops a1 a2 ⟨dima, dimb, dimc, tab s fun _ => 0⟩ =
      .ok (tab s (dot a1 a2 dimb dimc)) := by
  have hround : ∀ i, i < dima → rowLoop a1 a2 dimb dimc i
      (tab s fun p => if p / dimc < i then dot a1 a2 dimb dimc p else 0) =
        .ok (tab s fun p => if p / dimc < i + 1 then dot a1 a2 dimb dimc p else 0) := by
    intro i hi
    rw [rowLoop_tab h1 h2 hs hi fun p hp => if_neg (by omega)]
    exact congrArg _ (congrArg _ (if_eq_or_lt _ _ _ _))
  have hloop := loop_eq (fun i => tab s fun p => if p / dimc < i then dot a1 a2 dimb dimc p else 0)
    hround
  simp only [Nat.not_lt_zero, if_false] at hloop
  rw [externalLoops, hloop]
  exact congrArg _ (tab_congr fun p hp => if_pos (div_lt_of_lt_mul (hs ▸ hp)))

end Sizes

/-! ## Transposing -/

/-- The dimensions after transposing. -/
def transposeDims : List Nat → List Nat
  | [n] => [1, n]
  | [m, n] => if m = 1 then [n] else [n, m]
  | dims => dims

theorem matrix_transposed {g : Nat → K} (hs : s.nitems = n * m)
    (hg : ∀ i j, i < m → j < n → g (j * m + i) = a.cell (i * n + j)) :
    (tab s g).matrix n m = (a.matrix m n).transpose := by
  ext j i
  show (tab s g).cell (j * m + i) = a.cell (i * n + j)
  rw [cell_tab (hs ▸ cell_lt j.isLt i.isLt), hg i j i.isLt j.isLt]

/-- The lower bounds after transposing. -/
def transposeLbound : List Nat → List Int → List Int
  | [_], [lb] => [1, lb]
  | [m, _], [lb, lb'] => if m = 1 then [lb'] else [lb', lb]
  | _, lbound => lbound

/-- An array that is no scalar can be transposed if there is an array for it. -/
theorem transpose_sized (h : Sized a m n) (hscalar : a.isScalar = .ok false)
    (hfits : Fits (transposeDims a.dims)) :
    ∃ t, matrixTransposeInternal a = .ok t ∧ t.dims = transposeDims a.dims ∧
      t.lbound = transposeLbound a.dims a.lbound ∧ t.matrix n m = (a.matrix m n).transpose := by
  have hitems := h.nitems
  unfold matrixTransposeInternal
  rw [hscalar, ok_bind, if_neg Bool.false_ne_true]
  rcases h.dims with ⟨hdims, rfl⟩ | hdims
  · -- a vector becomes a row
    obtain ⟨lb, hbound⟩ := ArrayShape.lbound_vector hdims
    have htrans : transposeDims [m] = [1, m] := rfl
    rw [hdims, htrans] at hfits
    rw [hdims, htrans, hbound]
    obtain ⟨s, hsdims, hslb, hinit⟩ := initResult_of_fits (K := K) (l := [1, lb]) rfl hfits
    have hs := ArrayShape.nitems_matrix hsdims h.rows_pos
    refine ⟨tab s a.cell, ?_, hsdims, hslb, ?_⟩
    · dsimp only
      rw [hinit, ok_bind, copyElements_tab (by rw [hs, hitems, Nat.mul_comm])]
    · refine matrix_transposed hs fun i j _ hj => ?_
      rw [Nat.lt_one_iff.mp hj, Nat.zero_mul, Nat.zero_add, Nat.mul_one, Nat.add_zero]
  · obtain ⟨lb, lb', hbound⟩ := ArrayShape.lbound_matrix hdims
    rw [hdims] at hfits ⊢
    rw [hbound]
    by_cases hm : m = 1
    · -- a row becomes a vector
      subst hm
      have htrans : transposeDims [1, n] = [n] := by simp [transposeDims]
      have hlbound : transposeLbound [1, n] [lb, lb'] = [lb'] := by simp [transposeLbound]
      rw [htrans] at hfits ⊢
      rw [hlbound]
      obtain ⟨s, hsdims, hslb, hinit⟩ := initResult_of_fits (K := K) (l := [lb']) rfl hfits
      have hs := ArrayShape.nitems_vector hsdims
      refine ⟨tab s a.cell, ?_, hsdims, hslb, ?_⟩
      · dsimp only
        rw [if_pos ⟨rfl, rfl⟩, hinit, ok_bind, copyElements_tab (by rw [hs, hitems, Nat.one_mul])]
      · refine matrix_transposed (by rw [hs, Nat.mul_one]) fun i j hi _ => ?_
        rw [Nat.lt_one_iff.mp hi, Nat.zero_mul, Nat.zero_add, Nat.mul_one, Nat.add_zero]
    · have htrans : transposeDims [m, n] = [n, m] := by simp [transposeDims, hm]
      have hlbound : transposeLbound [m, n] [lb, lb'] = [lb', lb] := by simp [transposeLbound, hm]
      rw [htrans] at hfits ⊢
      rw [hlbound]
      obtain ⟨s, hsdims, hslb, hinit⟩ := initResult_of_fits (K := K) (l := [lb', lb]) rfl hfits
      have hs := ArrayShape.nitems_matrix hsdims h.rows_pos
      refine ⟨tab s fun p => a.cell (p % m * n + p / m), ?_, hsdims, hslb, ?_⟩
      · dsimp only
        rw [if_neg fun hrow => hm hrow.2, hinit, ok_bind, transposeLoop_tab h.rows_pos hitems hs]
      · refine matrix_transposed hs fun i j hi _ => ?_
        rw [cell_mod j hi, cell_div j hi]

omit [CommRing K] in
theorem Sized.transposed {t : ArrayType K} (h : Sized a m n)
    (hdims : t.dims = transposeDims a.dims) :
    Sized t n m := by
  refine ⟨?_, h.cols_pos, h.rows_pos⟩
  rcases h.dims with ⟨ha, rfl⟩ | ha
  · exact .inr (hdims.trans (by rw [ha]; rfl))
  · rw [ha, transposeDims] at hdims
    split at hdims
    · next hm => exact .inl ⟨hdims, hm⟩
    · exact .inr hdims

theorem not_mem_transposeLbound {dims : List Nat} {lbound : List Int} (h : -1 ∉ lbound) :
    -1 ∉ transposeLbound dims lbound := by
  unfold transposeLbound
  split
  · simpa using h
  · split
    · exact fun hmem => h (List.mem_cons_of_mem _ hmem)
    · simpa [or_comm] using h
  · exact h

/-- A transposed operand is there if there is an array for it. -/
theorem transpose_ok (h : Operand a m n) (hfits : Fits (transposeDims a.dims)) :
    ∃ t, matrixTransposeInternal a = .ok t ∧ t.dims = transposeDims a.dims ∧ Operand t n m ∧
      t.matrix n m = (a.matrix m n).transpose := by
  obtain ⟨t, ht, hdims, hlbound, hmatrix⟩ := transpose_sized h.sized h.isScalar hfits
  have hsized := h.sized.transposed hdims
  exact ⟨t, ht, hdims, ⟨hsized.dims, hsized.rows_pos, hsized.cols_pos,
    hlbound ▸ not_mem_transposeLbound h.lbound⟩, hmatrix⟩

omit [CommRing K] in
/-- Only for a vector there may be none. -/
theorem fits_transposeDims (h : Sized a m n) (hndim : a.ndim = 2) :
    Fits (transposeDims a.dims) := by
  have hfits := a.fits
  rcases h.dims with ⟨hdims, _⟩ | hdims
  · rw [ndim, hdims] at hndim
    cases hndim
  · rw [hdims, fits_matrix h.cols_pos] at hfits
    rw [hdims]
    by_cases hm : m = 1
    · subst hm
      have htrans : transposeDims [1, n] = [n] := by simp [transposeDims]
      rw [htrans, fits_vector]
      omega
    · have htrans : transposeDims [m, n] = [n, m] := by simp [transposeDims, hm]
      rw [htrans, fits_matrix h.rows_pos, Nat.mul_comm n m]
      exact hfits

theorem transpose_error (h : Sized a m n) (hscalar : a.isScalar = .ok false)
    (hfits : ¬ Fits (transposeDims a.dims)) :
    matrixTransposeInternal a = .error .tooLarge := by
  rcases h.dims with ⟨hdims, rfl⟩ | hdims
  · obtain ⟨lb, hbound⟩ := ArrayShape.lbound_vector hdims
    have htrans : transposeDims [m] = [1, m] := rfl
    rw [hdims, htrans] at hfits
    unfold matrixTransposeInternal
    rw [hscalar, ok_bind, if_neg Bool.false_ne_true, hdims, hbound]
    dsimp only
    rw [initResult_of_not_fits rfl hfits]
    rfl
  · exact absurd (fits_transposeDims h (by rw [ndim, hdims]; rfl)) hfits

/-! ## Products -/

/-- The dimensions of a product with `r` rows and `c` columns: of one dimension if the right
operand has one, and for a single element. -/
def productDims (r c : Nat) (dims2 : List Nat) : List Nat :=
  if r = 1 ∧ c = 1 then [1] else if dims2.length = 2 then [r, c] else [r]

/-- A single element is a scalar. -/
def productLbound (r c : Nat) (dims2 : List Nat) : List Int :=
  if r = 1 ∧ c = 1 then [-1] else if dims2.length = 2 then [1, 1] else [1]

section Sized

variable {a1 a2 : ArrayType K} {r k n c : Nat} (h1 : Sized a1 r k) (h2 : Sized a2 n c)
  (hndim : ¬ (a1.ndim = 1 ∧ a2.ndim = 1))

include h1 h2 hndim in
/-- The array for the product, or that there is none. The columns of the left operand have no part
in it. -/
theorem initProduct_eq :
    (Fits (productDims r c a2.dims) → ∃ s : ArrayShape, s.dims = productDims r c a2.dims ∧
        s.lbound = productLbound r c a2.dims ∧
          initProduct a1 a2 = .ok ⟨r, n, c, tab s fun _ => 0⟩) ∧
      (¬ Fits (productDims r c a2.dims) → initProduct a1 a2 = .error .tooLarge) := by
  have hrows : a1.dims.headD 0 = r := by
    rcases h1.dims with ⟨hdims, _⟩ | hdims <;> rw [hdims] <;> rfl
  have hinner : a2.dims.headD 0 = n := by
    rcases h2.dims with ⟨hdims, _⟩ | hdims <;> rw [hdims] <;> rfl
  have hcols : (if a2.ndim = 2 then a2.dims.getD 1 0 else 1) = c := by
    rcases h2.dims with ⟨hdims, rfl⟩ | hdims <;> rw [ndim, hdims] <;> rfl
  unfold initProduct
  rw [if_neg hndim, hrows, hinner, hcols]
  have hresult : ∀ {dims : List Nat} {l : List Int} (hlen : l.length = dims.length),
      (Fits dims → ∃ s : ArrayShape, s.dims = dims ∧ s.lbound = l ∧
        (initResult dims l hlen >>= fun ret => pure (⟨r, n, c, ret⟩ : Product K)) =
          (.ok ⟨r, n, c, tab s fun _ => 0⟩ : Except MatError (Product K))) ∧
      (¬ Fits dims → (initResult dims l hlen >>= fun ret => pure (⟨r, n, c, ret⟩ : Product K)) =
        (.error .tooLarge : Except MatError (Product K))) := by
    intro dims l hlen
    refine ⟨fun hfits => ?_, fun hfits => ?_⟩
    · obtain ⟨s, hdims, hl, hinit⟩ := initResult_of_fits (K := K) hlen hfits
      exact ⟨s, hdims, hl, by rw [hinit]; rfl⟩
    · rw [initResult_of_not_fits hlen hfits]
      rfl
  unfold productDims productLbound
  by_cases hone : r = 1 ∧ c = 1
  · simp only [if_pos hone]
    exact hresult rfl
  · by_cases htwo : a2.ndim = 2
    · have htwo' : a2.dims.length = 2 := htwo
      simp only [if_neg hone, if_pos htwo, if_pos htwo']
      exact hresult rfl
    · have htwo' : ¬ a2.dims.length = 2 := htwo
      simp only [if_neg hone, if_neg htwo, if_neg htwo']
      exact hresult rfl

omit [CommRing K] in
include h2 in
theorem nitems_product {s : ArrayShape} (hdims : s.dims = productDims r c a2.dims) :
    s.nitems = r * c := by
  unfold productDims at hdims
  split at hdims
  · next hone =>
    rw [ArrayShape.nitems_vector hdims, hone.1, hone.2]
  · split at hdims
    · exact ArrayShape.nitems_matrix hdims h2.cols_pos
    · next hlen =>
      rcases h2.dims with ⟨_, rfl⟩ | h
      · rw [ArrayShape.nitems_vector hdims, Nat.mul_one]
      · rw [h] at hlen
        exact absurd rfl hlen

end Sized

section Conformable

variable {a1 a2 : ArrayType K} {r n c : Nat} (h1 : Operand a1 r n) (h2 : Operand a2 n c)
  (hndim : ¬ (a1.ndim = 1 ∧ a2.ndim = 1))

theorem matrix_dot {s : ArrayShape} (hs : s.nitems = r * c) :
    (tab s (dot a1 a2 n c)).matrix r c = a1.matrix r n * a2.matrix n c := by
  ext i k
  rw [Matrix.mul_apply]
  show (tab s (dot a1 a2 n c)).cell (i * c + k) =
    ∑ j : Fin n, a1.cell (i * n + j) * a2.cell (j * c + k)
  rw [cell_tab (hs ▸ cell_lt i.isLt k.isLt), dot, dotUpTo, cell_div i k.isLt, cell_mod i k.isLt,
    Finset.sum_range]

/-- What a product of these dimensions is. -/
structure IsProduct (p : ArrayType K) (dims2 : List Nat) (x : Matrix (Fin r) (Fin n) K)
    (y : Matrix (Fin n) (Fin c) K) : Prop where
  dims : p.dims = productDims r c dims2
  lbound : p.lbound = productLbound r c dims2
  matrix : p.matrix r c = x * y

include h1 h2 hndim in
/-- Both routines return the product, if there is an array for it. -/
theorem loops_ok (hfits : Fits (productDims r c a2.dims)) :
    ∃ p, IsProduct p a2.dims (a1.matrix r n) (a2.matrix n c) ∧
      (initProduct a1 a2 >>= internalLoops a1 a2) = .ok p ∧
        (initProduct a1 a2 >>= externalLoops a1 a2) = .ok p := by
  obtain ⟨s, hdims, hlb, hinit⟩ := (initProduct_eq h1.sized h2.sized hndim).1 hfits
  have hs := nitems_product h2.sized hdims
  refine ⟨tab s (dot a1 a2 n c), ⟨hdims, hlb, matrix_dot hs⟩, ?_, ?_⟩
  · rw [hinit, ok_bind, internalLoops_tab h1.nitems h2.nitems hs h2.cols_pos]
  · rw [hinit, ok_bind, externalLoops_tab h1.nitems h2.nitems hs]

end Conformable

/-- The dimensions of an operand, transposed or not. -/
def operandDims (transpose : Bool) (dims : List Nat) : List Nat :=
  if transpose then transposeDims dims else dims

/-- The matrix of an operand, transposed or not. -/
def operandMatrix (transpose : Bool) (a : ArrayType K) (m n : Nat) : Matrix (Fin m) (Fin n) K :=
  if transpose then (a.matrix n m).transpose else a.matrix m n

theorem operand_ok {t : Bool} (h : Operand a (if t then n else m) (if t then m else n))
    (hfits : Fits (operandDims t a.dims)) :
    ∃ a', transposeIf t a = .ok a' ∧
      a'.dims = operandDims t a.dims ∧ Operand a' m n ∧ a'.matrix m n = operandMatrix t a m n := by
  cases t with
  | false => exact ⟨a, rfl, rfl, h, rfl⟩
  | true => exact transpose_ok h hfits

theorem operand_error {t : Bool} (h : Operand a (if t then n else m) (if t then m else n))
    (hfits : ¬ Fits (operandDims t a.dims)) :
    transposeIf t a = .error .tooLarge := by
  cases t with
  | false => exact absurd a.fits hfits
  | true => exact transpose_error h.sized h.isScalar hfits

/-- Operands that are no scalars get to the product. -/
theorem matrixMulInternal_eq {b a1 a2 : ArrayType K} {transposeA transposeB : Bool} {m' n' : Nat}
    (ha : transposeIf transposeA a = .ok a1) (hb : transposeIf transposeB b = .ok a2)
    (h1 : Operand a1 m n) (h2 : Operand a2 m' n') :
    matrixMulInternal a b transposeA transposeB = initProduct a1 a2 >>= internalLoops a1 a2 := by
  unfold matrixMulInternal
  rw [ha, ok_bind, hb, ok_bind, h1.isScalar, ok_bind, if_neg Bool.false_ne_true, h2.isScalar,
    ok_bind, if_neg Bool.false_ne_true]

theorem matrixMul_eq {a1 a2 : ArrayType K} {m' n' : Nat} (h1 : Operand a1 m n)
    (h2 : Operand a2 m' n') :
    matrixMul a1 a2 = initProduct a1 a2 >>= externalLoops a1 a2 := by
  unfold matrixMul
  rw [h1.isScalar, ok_bind, if_neg Bool.false_ne_true, h2.isScalar, ok_bind,
    if_neg Bool.false_ne_true]

/-- There are arrays for the operands and for the product. -/
def ProductFits (a b : ArrayType K) (transposeA transposeB : Bool) (r c : Nat) : Prop :=
  Fits (operandDims transposeA a.dims) ∧ Fits (operandDims transposeB b.dims) ∧
    Fits (productDims r c (operandDims transposeB b.dims))

/-- **Matrix products.** For operands that are `r × n` and `n × c` after transposing and not
both vectors, the routine returns their product, with no access outside an array, if there are
arrays for it; otherwise it raises an error. Without transposing, `matrix_mul` does the same. -/
theorem matrixMulInternal_spec {a b : ArrayType K} (transposeA transposeB : Bool) (r n c : Nat)
    (ha : Operand a (if transposeA then n else r) (if transposeA then r else n))
    (hb : Operand b (if transposeB then c else n) (if transposeB then n else c))
    (hndim : ¬ ((operandDims transposeA a.dims).length = 1 ∧
      (operandDims transposeB b.dims).length = 1)) :
    (ProductFits a b transposeA transposeB r c →
        ∃ p, matrixMulInternal a b transposeA transposeB = .ok p ∧
          IsProduct p (operandDims transposeB b.dims) (operandMatrix transposeA a r n)
            (operandMatrix transposeB b n c)) ∧
      (¬ ProductFits a b transposeA transposeB r c →
        matrixMulInternal a b transposeA transposeB = .error .tooLarge) ∧
      (transposeA = false → transposeB = false →
        matrixMul a b = matrixMulInternal a b false false) := by
  refine ⟨?_, ?_, ?_⟩
  · rintro ⟨hfa, hfb, hfp⟩
    obtain ⟨a1, ha1, hdims1, h1, hm1⟩ := operand_ok ha hfa
    obtain ⟨a2, ha2, hdims2, h2, hm2⟩ := operand_ok hb hfb
    rw [← hdims1, ← hdims2] at hndim
    rw [← hdims2] at hfp
    obtain ⟨p, hp, hinternal, _⟩ := loops_ok h1 h2 hndim hfp
    rw [hdims2, hm1, hm2] at hp
    exact ⟨p, (matrixMulInternal_eq ha1 ha2 h1 h2).trans hinternal, hp⟩
  · intro hfits
    by_cases hfa : Fits (operandDims transposeA a.dims)
    · obtain ⟨a1, ha1, hdims1, h1, _⟩ := operand_ok ha hfa
      by_cases hfb : Fits (operandDims transposeB b.dims)
      · obtain ⟨a2, ha2, hdims2, h2, _⟩ := operand_ok hb hfb
        rw [← hdims1, ← hdims2] at hndim
        rw [matrixMulInternal_eq ha1 ha2 h1 h2, (initProduct_eq h1.sized h2.sized hndim).2]
        · rfl
        · rw [hdims2]
          exact fun hfp => hfits ⟨hfa, hfb, hfp⟩
      · unfold matrixMulInternal
        rw [ha1, ok_bind, operand_error hb hfb]
        rfl
    · unfold matrixMulInternal
      rw [operand_error ha hfa]
      rfl
  · rintro rfl rfl
    rw [matrixMul_eq ha hb, matrixMulInternal_eq rfl rfl ha hb]
    by_cases hfp : Fits (productDims r c b.dims)
    · obtain ⟨p, _, hinternal, hexternal⟩ := loops_ok ha hb hndim hfp
      rw [hinternal, hexternal]
    · rw [(initProduct_eq ha.sized hb.sized hndim).2 hfp]
      rfl

/-! ## A column and a row -/

/-- The shape of a vector. -/
def vectorShape (n : Nat) (h : n * 8 + 24 ≤ MaxAllocSize) : ArrayShape where
  dims := [n]
  lbound := [1]
  nitems := n
  lbound_length := rfl
  nitems_eq := by
    have hmax : MaxArraySize = 134217727 := by decide
    have halloc : MaxAllocSize = 1073741823 := by decide
    rw [arrayGetNItems_vector, if_pos (by omega)]
  size_le := by simpa [arrOverheadNonulls] using h

/-- The shape of a row. -/
def rowShape (n : Nat) (hn : 0 < n) (h : n * 8 + 32 ≤ MaxAllocSize) : ArrayShape where
  dims := [1, n]
  lbound := [1, 1]
  nitems := n
  lbound_length := rfl
  nitems_eq := by
    have hmax : MaxArraySize = 134217727 := by decide
    have halloc : MaxAllocSize = 1073741823 := by decide
    rw [arrayGetNItems_matrix hn, Nat.one_mul, if_pos (by omega)]
  size_le := by simpa [arrOverheadNonulls] using h

/-- The numbers from 1 on. -/
def column (n : Nat) (h : n * 8 + 24 ≤ MaxAllocSize) : ArrayType ℤ :=
  tab (vectorShape n h) fun p => p + 1

def row (n : Nat) (hn : 0 < n) (h : n * 8 + 32 ≤ MaxAllocSize) : ArrayType ℤ :=
  tab (rowShape n hn h) fun p => p + 1

theorem operand_column (hn : 0 < n) (h : n * 8 + 24 ≤ MaxAllocSize) : Operand (column n h) n 1 :=
  ⟨.inl ⟨rfl, rfl⟩, hn, Nat.one_pos, by simp [column, vectorShape]⟩

theorem operand_row (hn : 0 < n) (h : n * 8 + 32 ≤ MaxAllocSize) : Operand (row n hn h) 1 n :=
  ⟨.inr rfl, Nat.one_pos, hn, by simp [row, rowShape]⟩

/-- A column of three, transposed, by a column of three: `1 * 1 + 2 * 2 + 3 * 3`. -/
theorem matrixMulInternal_spec_squares :
    ∃ p, matrixMulInternal (column 3 (by decide)) (column 3 (by decide)) true false = .ok p ∧
      p.dims = [1] ∧ p.lbound = [-1] ∧ p.matrix 1 1 0 0 = 14 := by
  have hcolumn := operand_column (n := 3) (by decide) (by decide)
  have hspec := matrixMulInternal_spec true false 1 3 1 hcolumn hcolumn (by decide)
  obtain ⟨p, hp, hprod⟩ := hspec.1 ⟨(fits_matrix (by decide)).mpr (by decide),
    fits_vector.mpr (by decide), fits_vector.mpr (by decide)⟩
  refine ⟨p, hp, hprod.dims, hprod.lbound, ?_⟩
  rw [hprod.matrix]
  decide

/-- A column by a row of 20000: there is no array for the 400000000 elements. -/
theorem outerProduct_tooLarge :
    Operand (column 20000 (by decide)) 20000 1 ∧
      Operand (row 20000 (by decide) (by decide)) 1 20000 ∧
        matrixMulInternal (column 20000 (by decide)) (row 20000 (by decide) (by decide))
          false false =
          .error .tooLarge := by
  have h1 := operand_column (n := 20000) (by decide) (by decide)
  have h2 := operand_row (n := 20000) (by decide) (by decide)
  refine ⟨h1, h2, ?_⟩
  rw [matrixMulInternal_eq rfl rfl h1 h2, (initProduct_eq h1.sized h2.sized (by decide)).2]
  · rfl
  · have hdims : productDims 20000 20000 [1, 20000] = [20000, 20000] := rfl
    show ¬ Fits (productDims 20000 20000 [1, 20000])
    rw [hdims, fits_matrix (by decide)]
    decide

/-! ## Operands that do not fit together -/

/-- The routine raises an error of its own and uses no cell outside an array. -/
def Rejected {α : Type} (r : Except MatError α) : Prop :=
  ∃ e, r = .error e ∧ e ≠ .outside

/-- The only error is an access outside an array. -/
def OnlyOutside {α : Type} (r : Except MatError α) : Prop :=
  ∀ e, r = .error e → e = .outside

theorem OnlyOutside.not_rejected {α : Type} {r : Except MatError α} (h : OnlyOutside r) :
    ¬ Rejected r := by
  rintro ⟨e, he, hne⟩
  exact hne (h e he)

theorem OnlyOutside.bind {α β : Type} {x : Except MatError α} {f : α → Except MatError β}
    (hx : OnlyOutside x) (hf : ∀ a, OnlyOutside (f a)) : OnlyOutside (x >>= f) := by
  intro e he
  cases hxe : x with
  | error e' =>
    rw [hxe] at he
    cases he
    exact hx e hxe
  | ok a =>
    rw [hxe] at he
    exact hf a e he

theorem onlyOutside_loop {S : Type} {body : Nat → S → Except MatError S}
    (hbody : ∀ i s, OnlyOutside (body i s)) (n : Nat) (s : S) : OnlyOutside (loop body n s) := by
  induction n with
  | zero => exact fun e he => nomatch he
  | succ n ih => exact ih.bind (hbody n)

omit [CommRing K] in
theorem onlyOutside_read (a : ArrayType K) (p : Nat) : OnlyOutside (a.read p) := by
  intro e he
  unfold ArrayType.read at he
  split at he
  · cases he
  · cases he
    rfl

omit [CommRing K] in
theorem onlyOutside_write (a : ArrayType K) (p : Nat) (x : K) : OnlyOutside (a.write p x) := by
  intro e he
  unfold ArrayType.write at he
  split at he
  · cases he
  · cases he
    rfl

theorem onlyOutside_externalLoops (a1 a2 : ArrayType K) (p : Product K) :
    OnlyOutside (externalLoops a1 a2 p) := by
  refine onlyOutside_loop (fun i ret => onlyOutside_loop (fun j ret => ?_) _ _) _ _
  refine onlyOutside_loop (fun k ret => ?_) _ _
  refine (onlyOutside_read a1 _).bind fun x => (onlyOutside_read a2 _).bind fun y => ?_
  exact (onlyOutside_read ret _).bind fun z => onlyOutside_write ret _ _

/-- **What is rejected**: two vectors, and operands for whose product there is no array. The columns
of the left operand are compared with nothing, so operands that do not fit together are not rejected
for that. -/
theorem matrixMul_rejected_iff {a b : ArrayType K} {m n m' n' : Nat} (ha : Sized a m n)
    (hb : Sized b m' n') (hscalar : a.isScalar = .ok false) (hscalar' : b.isScalar = .ok false) :
    Rejected (matrixMul a b) ↔ a.ndim = 1 ∧ b.ndim = 1 ∨ ¬ Fits (productDims m n' b.dims) := by
  have hmul : matrixMul a b = initProduct a b >>= externalLoops a b := by
    unfold matrixMul
    rw [hscalar, ok_bind, if_neg Bool.false_ne_true, hscalar', ok_bind, if_neg Bool.false_ne_true]
  rw [hmul]
  by_cases hndim : a.ndim = 1 ∧ b.ndim = 1
  · have hinit : initProduct a b = .error .columnVectors := by
      unfold initProduct
      rw [if_pos hndim]
      rfl
    rw [hinit]
    exact iff_of_true ⟨.columnVectors, rfl, nofun⟩ (.inl hndim)
  · obtain ⟨hok, herror⟩ := initProduct_eq ha hb hndim
    by_cases hfits : Fits (productDims m n' b.dims)
    · obtain ⟨s, _, _, hinit⟩ := hok hfits
      rw [hinit, ok_bind]
      refine iff_of_false (onlyOutside_externalLoops a b _).not_rejected ?_
      rintro (h | h)
      · exact hndim h
      · exact h hfits
    · rw [herror hfits]
      exact iff_of_true ⟨.tooLarge, rfl, nofun⟩ (.inr hfits)

/-- Two vectors, of three elements and of two. -/
theorem matrixMul_rejected_iff_columns :
    Rejected (matrixMul (column 3 (by decide)) (column 2 (by decide))) :=
  (matrixMul_rejected_iff (operand_column (n := 3) (by decide) (by decide)).sized
    (operand_column (n := 2) (by decide) (by decide)).sized rfl rfl).mpr
    (.inl ⟨rfl, rfl⟩)

/-- A row of two by a vector of one element gives an array, and a row of one by a vector of two
reads outside the row. -/
theorem matrixMul_of_row :
    Operand (row 2 (by decide) (by decide)) 1 2 ∧ Operand (column 1 (by decide)) 1 1 ∧
      (∃ p, matrixMul (row 2 (by decide) (by decide)) (column 1 (by decide)) = .ok p) ∧
      matrixMul (row 1 (by decide) (by decide)) (column 2 (by decide)) = .error .outside :=
  ⟨operand_row _ _, operand_column (by decide) _, ⟨_, rfl⟩, rfl⟩

end HolLambdas.Arrays
