import HolLambdas.Arrays.Elementwise
import Mathlib.Analysis.SpecialFunctions.ExpDeriv
import Mathlib.Analysis.SpecialFunctions.Log.Deriv

/-!
# The softmax loss and its derivative

`softmax_cce_internal` and `softmax_cce_derive` subtract the largest element first, so that `exp`
stays in range; over the real numbers that element cancels. What is left is the loss
`∑ k, (x k - log (∑ j, exp (x j))) * y k`, without the minus sign of a cross entropy, and the
vector `exp (x k) / ∑ j, exp (x j) - y k`, which is the gradient with that sign.
-/

namespace HolLambdas.Arrays

open RowMajor ArrayType

variable {K : Type}

/-! ## The routines -/

/-- The check for a vector, whose first part can not hold. -/
def notVector (a : ArrayType K) : Bool :=
  (a.ndim > 2 && a.ndim ≤ 0) || (a.ndim == 2 && a.dims.headD 0 != 1)

/-- The checks of `softmax_cce_internal`. -/
def checkCce (input labels : ArrayType K) : Except MatError Unit := do
  if input.ndim ≠ labels.ndim then throw .softmaxNdim
  if let some i := (List.range input.ndim).find? fun i => labels.dims[i]? != input.dims[i]? then
    throw (.softmaxDim i)
  if notVector input then throw .notVector
  if notVector labels then throw .notVector

/-- The checks of `softmax_cce_derive`. -/
def checkDerive (input labels : ArrayType K) : Except MatError Unit := do
  if input.nitems ≠ labels.nitems then throw .softmaxLength
  if notVector input then throw .notVector
  if notVector labels then throw .notVector

section Routines

variable [CommRing K] (less : K → K → Bool) (exp log : K → K)

/-- `max`, from `data[0]` on, with the elements from `start` on. -/
def maxLoop (start : Nat) (a : ArrayType K) : Except MatError K := do
  let first ← a.read 0
  loop (fun i max => do
    let x ← a.read (start + i)
    return if less max x then x else max) (a.nitems - start) first

/-- `sum += f(result[i])` for all elements. -/
def sumLoop (f : K → K) (result : ArrayType K) : Except MatError K :=
  loop (fun i sum => do return sum + f (← result.read i)) result.nitems 0

/-- The elements minus the largest one, and the sum of their exponentials. -/
def shiftLoops (start : Nat) (input result : ArrayType K) : Except MatError (ArrayType K × K) := do
  let max ← maxLoop less start input
  let result ← fillLoop (fun i _ => do return (← input.read i) - max) input.nitems result
  let sum ← sumLoop exp result
  return (result, sum)

/-- `softmax_cce_internal`: the loss. -/
def softmaxCceInternal (input labels : ArrayType K) : Except MatError K := do
  checkCce input labels
  -- the result is in a buffer for as many elements
  let shifted ← shiftLoops less exp 0 input (tab input.toArrayShape fun _ => 0)
  let result ← fillLoop (fun i result => do
    return ((← result.read i) - log shifted.2) * (← labels.read i)) input.nitems shifted.1
  sumLoop id result

/-- `softmax_cce_derive`. -/
def softmaxCceDerive (input labels : ArrayType K) : Except MatError (ArrayType K) := do
  checkDerive input labels
  let result ← initLike input
  let shifted ← shiftLoops less exp 1 input result
  fillLoop (fun i result => do
    return exp ((← result.read i) - log shifted.2) - (← labels.read i)) input.nitems shifted.1

end Routines

/-! ## The loops -/

section Loops

variable [CommRing K] (less : K → K → Bool) (exp log : K → K)

/-- Some element is returned; which one does not matter in the end. -/
theorem maxLoop_ok (start : Nat) {a : ArrayType K} (h : 0 < a.nitems) :
    ∃ c, maxLoop less start a = .ok c := by
  unfold maxLoop
  rw [read_eq h, ok_bind]
  refine exists_loop (fun i hi max => ?_) _
  rw [read_eq (show start + i < a.nitems by omega)]
  exact ⟨_, rfl⟩

theorem sumLoop_eq (f : K → K) (s : ArrayShape) (g : Nat → K) :
    sumLoop f (tab s g) = .ok (∑ p ∈ Finset.range s.nitems, f (g p)) := by
  unfold sumLoop
  rw [tab_nitems]
  refine loop_eq (fun n => ∑ p ∈ Finset.range n, f (g p)) fun i hi => ?_
  rw [read_tab hi, Finset.sum_range_succ]
  rfl

theorem shiftLoops_ok (start : Nat) {a : ArrayType K} (h : 0 < a.nitems) (g : Nat → K) :
    ∃ c, shiftLoops less exp start a (tab a.toArrayShape g) =
      .ok (tab a.toArrayShape fun p => a.cell p - c,
        ∑ p ∈ Finset.range a.nitems, exp (a.cell p - c)) := by
  obtain ⟨c, hc⟩ := maxLoop_ok less start h
  refine ⟨c, ?_⟩
  unfold shiftLoops
  rw [hc, ok_bind, fillLoop_tab (fun p => a.cell p - c) g, ok_bind, sumLoop_eq]
  · rfl
  · intro p hp _ _
    rw [read_eq hp]
    rfl

variable {a y : ArrayType K} (hdims : a.dims = y.dims) (hvector : notVector a = false)
  (hpos : 0 < a.nitems)

omit [CommRing K] in
include hdims in
theorem nitems_congr : a.nitems = y.nitems :=
  Except.ok.inj (a.nitems_eq.symm.trans (hdims ▸ y.nitems_eq))

omit [CommRing K] in
include hdims hvector in
theorem checks_ok : checkCce a y = .ok () ∧ checkDerive a y = .ok () := by
  have hndim : a.ndim = y.ndim := congrArg List.length hdims
  have hvector' : notVector y = false := by
    unfold notVector at hvector ⊢
    rwa [← hndim, ← hdims]
  have hfind : (List.range a.ndim).find? (fun i => y.dims[i]? != a.dims[i]?) = none := by
    simp [hdims]
  unfold checkCce checkDerive
  rw [if_neg (not_not_intro hndim), hfind, if_neg (not_not_intro (nitems_congr hdims)), hvector,
    hvector']
  exact ⟨rfl, rfl⟩

include hdims hvector hpos in
theorem softmaxCceInternal_eq : ∃ c, softmaxCceInternal less exp log a y =
    .ok (∑ p ∈ Finset.range a.nitems, (a.cell p - c -
      log (∑ q ∈ Finset.range a.nitems, exp (a.cell q - c))) * y.cell p) := by
  obtain ⟨c, hc⟩ := shiftLoops_ok less exp 0 hpos fun _ => 0
  refine ⟨c, ?_⟩
  unfold softmaxCceInternal
  rw [(checks_ok hdims hvector).1, ok_bind, hc, ok_bind]
  rw [fillLoop_tab (fun p => (a.cell p - c -
    log (∑ q ∈ Finset.range a.nitems, exp (a.cell q - c))) * y.cell p), ok_bind, sumLoop_eq]
  · rfl
  · intro p hp g hg
    rw [read_tab hp, read_eq (nitems_congr hdims ▸ hp), hg]
    rfl

include hdims hvector hpos in
theorem softmaxCceDerive_eq : ∃ c, softmaxCceDerive less exp log a y =
    .ok (tab a.toArrayShape fun p => exp (a.cell p - c -
      log (∑ q ∈ Finset.range a.nitems, exp (a.cell q - c))) - y.cell p) := by
  obtain ⟨c, hc⟩ := shiftLoops_ok less exp 1 hpos fun _ => 0
  refine ⟨c, ?_⟩
  unfold softmaxCceDerive
  rw [(checks_ok hdims hvector).2, ok_bind, initLike_eq, ok_bind, hc, ok_bind]
  refine fillLoop_tab _ _ fun p hp g hg => ?_
  rw [read_tab hp, read_eq (nitems_congr hdims ▸ hp), hg]
  rfl

end Loops

/-! ## The loss over the real numbers -/

section Real

open Real

variable {n : Nat}

noncomputable def sumExp (x : Fin n → ℝ) : ℝ := ∑ j, exp (x j)

theorem sumExp_pos (hn : 0 < n) (x : Fin n → ℝ) : 0 < sumExp x :=
  Finset.sum_pos (fun j _ => exp_pos (x j)) ⟨⟨0, hn⟩, Finset.mem_univ _⟩

/-- What is subtracted from all elements cancels. -/
theorem log_sum_shift (hn : 0 < n) (x : Fin n → ℝ) (c : ℝ) :
    log (∑ j, exp (x j - c)) = log (sumExp x) - c := by
  have hsum : ∑ j, exp (x j - c) = sumExp x * exp (-c) := by
    rw [sumExp, Finset.sum_mul]
    exact Finset.sum_congr rfl fun j _ => by rw [sub_eq_add_neg, exp_add]
  rw [hsum, log_mul (sumExp_pos hn x).ne' (exp_pos _).ne', log_exp, sub_eq_add_neg]

/-- The loss that is computed. -/
noncomputable def loss (y x : Fin n → ℝ) : ℝ := ∑ k, (x k - log (sumExp x)) * y k

/-- The linear form with these coefficients. -/
noncomputable def form (g : Fin n → ℝ) : (Fin n → ℝ) →L[ℝ] ℝ :=
  ∑ k, g k • ContinuousLinearMap.proj k

theorem form_single (g : Fin n → ℝ) (k : Fin n) : form g (Pi.single k 1) = g k := by
  simp [form, Pi.single_apply]

theorem form_injective : Function.Injective (form (n := n)) := by
  intro g g' h
  funext k
  rw [← form_single g k, ← form_single g' k, h]

theorem hasFDerivAt_loss (hn : 0 < n) {y : Fin n → ℝ} (hy : ∑ k, y k = 1) (x : Fin n → ℝ) :
    HasFDerivAt (loss y) (form fun k => y k - exp (x k) / sumExp x) x := by
  have hcoord : ∀ k, HasFDerivAt (fun z : Fin n → ℝ => z k) (ContinuousLinearMap.proj k) x :=
    fun k => (ContinuousLinearMap.proj (R := ℝ) (φ := fun _ : Fin n => ℝ) k).hasFDerivAt
  have hsum : HasFDerivAt sumExp (form fun k => exp (x k)) x :=
    HasFDerivAt.fun_sum fun k _ => (hcoord k).exp
  have hlog := hsum.log (sumExp_pos hn x).ne'
  have hloss := HasFDerivAt.fun_sum (u := Finset.univ) fun k _ =>
    ((hcoord k).sub hlog).mul_const (y k)
  refine hloss.congr_fderiv ?_
  rw [Finset.sum_congr rfl fun k _ => smul_sub (y k) _ _, Finset.sum_sub_distrib,
    ← Finset.sum_smul, hy, one_smul, form, Finset.smul_sum, ← Finset.sum_sub_distrib]
  refine Finset.sum_congr rfl fun k _ => ?_
  rw [smul_smul, ← sub_smul, ← div_eq_inv_mul]

/-! ## The arrays -/

/-- The array of a shape with the elements of a vector. -/
noncomputable def vector (s : ArrayShape) (x : Fin n → ℝ) : ArrayType ℝ :=
  tab s fun p => if h : p < n then x ⟨p, h⟩ else 0

theorem cell_vector {s : ArrayShape} (hs : s.nitems = n) (x : Fin n → ℝ) (k : Fin n) :
    (vector s x).cell k = x k := by
  rw [vector, cell_tab (hs ▸ k.isLt), dif_pos k.isLt]

/-- `softmax_cce` and `softmax_cce_derive` over the real numbers. -/
noncomputable def softmaxCce (input labels : ArrayType ℝ) : Except MatError ℝ :=
  softmaxCceInternal (fun a b => decide (a < b)) exp log input labels

noncomputable def softmaxDerive (input labels : ArrayType ℝ) : Except MatError (ArrayType ℝ) :=
  softmaxCceDerive (fun a b => decide (a < b)) exp log input labels

/-- A vector of `n` elements, as PostgreSQL has it or as a row. -/
structure VectorShape (s : ArrayShape) (n : Nat) : Prop where
  dims : s.dims = [n] ∨ s.dims = [1, n]
  pos : 0 < n

theorem VectorShape.nitems {s : ArrayShape} (h : VectorShape s n) : s.nitems = n := by
  rcases h.dims with hdims | hdims
  · exact ArrayShape.nitems_vector hdims
  · rw [ArrayShape.nitems_matrix hdims h.pos, Nat.one_mul]

theorem VectorShape.notVector {s : ArrayShape} (h : VectorShape s n) (x : Fin n → ℝ) :
    notVector (vector s x) = false := by
  unfold Arrays.notVector vector ndim
  rcases h.dims with hdims | hdims <;> simp [hdims]

section Vectors

variable {s s' : ArrayShape} (hs : VectorShape s n) (hdims : s.dims = s'.dims) (x y : Fin n → ℝ)

include hs hdims in
theorem nitems_labels : s'.nitems = n :=
  VectorShape.nitems ⟨hdims ▸ hs.dims, hs.pos⟩

include hs in
theorem sum_cells (f : ℝ → ℝ) :
    ∑ p ∈ Finset.range s.nitems, f ((vector s x).cell p) = ∑ k, f (x k) := by
  rw [hs.nitems, Finset.sum_range]
  exact Finset.sum_congr rfl fun k _ => by rw [cell_vector hs.nitems]

include hs hdims in
theorem softmaxCce_vector : softmaxCce (vector s x) (vector s' y) = .ok (loss y x) := by
  have hpos : 0 < (vector s x).nitems := hs.nitems.symm ▸ hs.pos
  obtain ⟨c, hc⟩ := softmaxCceInternal_eq (fun a b => decide (a < b)) exp log
    (a := vector s x) (y := vector s' y) hdims (hs.notVector x) hpos
  rw [softmaxCce, hc]
  refine congrArg _ ?_
  have hshape : (vector s x).nitems = s.nitems := rfl
  rw [hshape, sum_cells hs x fun z => exp (z - c), log_sum_shift hs.pos, hs.nitems,
    Finset.sum_range]
  refine Finset.sum_congr rfl fun k _ => ?_
  rw [cell_vector hs.nitems, cell_vector (nitems_labels hs hdims), sub_sub_sub_cancel_right]

include hs hdims in
theorem softmaxDerive_vector : softmaxDerive (vector s x) (vector s' y) =
    .ok (vector s fun k => exp (x k) / sumExp x - y k) := by
  have hpos : 0 < (vector s x).nitems := hs.nitems.symm ▸ hs.pos
  obtain ⟨c, hc⟩ := softmaxCceDerive_eq (fun a b => decide (a < b)) exp log
    (a := vector s x) (y := vector s' y) hdims (hs.notVector x) hpos
  rw [softmaxDerive, hc]
  have hshape : (vector s x).nitems = s.nitems := rfl
  refine congrArg _ (tab_congr fun p hp => ?_)
  have hlt : p < n := hs.nitems ▸ hp
  have hx : (vector s x).cell p = x ⟨p, hlt⟩ := cell_vector hs.nitems x ⟨p, hlt⟩
  have hy : (vector s' y).cell p = y ⟨p, hlt⟩ :=
    cell_vector (nitems_labels hs hdims) y ⟨p, hlt⟩
  rw [hshape, sum_cells hs x fun z => exp (z - c), log_sum_shift hs.pos, hx, hy,
    sub_sub_sub_cancel_right, exp_sub, exp_log (sumExp_pos hs.pos x), dif_pos hlt]

end Vectors

/-- The derivative belongs to the loss: it is the gradient with respect to the input. -/
def DeriveIsGradient (s s' : ArrayShape) (x y : Fin n → ℝ) : Prop :=
  ∃ f g, (∀ z, softmaxCce (vector s z) (vector s' y) = .ok (f z)) ∧
    softmaxDerive (vector s x) (vector s' y) = .ok (vector s g) ∧ HasFDerivAt f (form g) x

section Gradient

variable {s s' : ArrayShape} (hs : VectorShape s n) (hdims : s.dims = s'.dims) (x : Fin n → ℝ)
  {y : Fin n → ℝ} (hy : ∑ k, y k = 1)

include hs hdims hy in
theorem labels_of_deriveIsGradient (h : DeriveIsGradient s s' x y) (k : Fin n) :
    y k * sumExp x = exp (x k) := by
  obtain ⟨f, g, hf, hg, hderiv⟩ := h
  obtain rfl : f = loss y :=
    funext fun z => Except.ok.inj ((hf z).symm.trans (softmaxCce_vector hs hdims z y))
  have hgradient := form_injective (hderiv.unique (hasFDerivAt_loss hs.pos hy x))
  have hvector := Except.ok.inj (hg.symm.trans (softmaxDerive_vector hs hdims x y))
  have hcell := cell_vector hs.nitems g k
  rw [hvector, cell_vector hs.nitems, hgradient] at hcell
  have hsoftmax : y k = exp (x k) / sumExp x := by linarith
  rw [hsoftmax]
  exact div_mul_cancel₀ _ (sumExp_pos hs.pos x).ne'

include hs hdims hy in
/-- **The derivative belongs to the loss** for labels that are the softmax of the input only; in
general it is the gradient with the opposite sign. -/
theorem deriveIsGradient_iff :
    DeriveIsGradient s s' x y ↔ ∀ k, y k * ∑ j, exp (x j) = exp (x k) := by
  refine ⟨labels_of_deriveIsGradient hs hdims x hy, fun h => ?_⟩
  refine ⟨loss y, _, fun z => softmaxCce_vector hs hdims z y, softmaxDerive_vector hs hdims x y, ?_⟩
  refine (hasFDerivAt_loss hs.pos hy x).congr_fderiv (congrArg form (funext fun k => ?_))
  have hsoftmax : exp (x k) / sumExp x = y k :=
    (div_eq_iff (sumExp_pos hs.pos x).ne').mpr (h k).symm
  rw [hsoftmax]

end Gradient

/-- Two elements 0 with labels 1/2: the loss is at its extremum. -/
theorem deriveIsGradient_iff_half :
    DeriveIsGradient (vectorShape 2 (by decide)) (vectorShape 2 (by decide))
      (fun _ : Fin 2 => 0) (fun _ => 1 / 2) :=
  (deriveIsGradient_iff ⟨.inl rfl, Nat.two_pos⟩ rfl _ (by simp)).mpr fun _ => by simp

/-- Two elements 0, of which the first has label 1: the loss grows with the first element, and the
derivative for it is -1/2. -/
theorem not_deriveIsGradient_oneHot :
    ¬ DeriveIsGradient (vectorShape 2 (by decide)) (vectorShape 2 (by decide))
      (fun _ : Fin 2 => 0) ![1, 0] := by
  intro h
  have hlabels := labels_of_deriveIsGradient ⟨.inl rfl, Nat.two_pos⟩ rfl _ (by simp) h 0
  simp [sumExp] at hlabels

end Real

end HolLambdas.Arrays
