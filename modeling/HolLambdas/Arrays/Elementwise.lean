import HolLambdas.Arrays.Product
import Mathlib.Algebra.Field.Rat
import Mathlib.Tactic.NormNum
import Mathlib.Tactic.Ring

/-!
# Routines that work element by element

Products, differences and gradient updates, one element after the other, on arrays of any rank. Each
loop fills an array that is there: a new one of zeros, a copy, or an operand itself.

`mat_sub_ms`, `mat_sub_sm` and `mat_mul_sm` take the elements from the new array and not from the
operand, so they agree with the routines on two arrays for zeros only (`scalarOps_agree_iff`). The
update of scalar weights uses neither the weights nor a difference (`descentStep_iff`).
-/

namespace HolLambdas.Arrays

open RowMajor ArrayType

variable {K : Type}

/-! ## The loop -/

/-- `data[i] = …` for the first `length` elements. -/
def fillLoop (value : Nat → ArrayType K → Except MatError K) (length : Nat) (ret : ArrayType K) :
    Except MatError (ArrayType K) :=
  loop (fun i ret => do ret.write i (← value i ret)) length ret

theorem fillLoop_tab {s : ArrayShape} {value : Nat → ArrayType K → Except MatError K}
    (new old : Nat → K)
    (hvalue : ∀ p, p < s.nitems → ∀ g, g p = old p → value p (tab s g) = .ok (new p)) :
    fillLoop value s.nitems (tab s old) = .ok (tab s new) := by
  refine loop_elements new old fun p hp g hg => ?_
  rw [hvalue p hp g hg, ok_bind, write_tab _ hp]

/-- `data[i] = f(data[i])` -/
def mapLoop (f : K → K) (length : Nat) (ret : ArrayType K) : Except MatError (ArrayType K) :=
  fillLoop (fun i ret => do return f (← ret.read i)) length ret

theorem mapLoop_tab {s : ArrayShape} (f : K → K) (g : Nat → K) :
    mapLoop f s.nitems (tab s g) = .ok (tab s fun p => f (g p)) := by
  refine fillLoop_tab _ _ fun p hp h hh => ?_
  rw [read_tab hp, hh]
  rfl

/-- `data[i] = f(a1Data[i], a2Data[i])` -/
def zipLoop (f : K → K → K) (length : Nat) (a1 a2 ret : ArrayType K) :
    Except MatError (ArrayType K) :=
  fillLoop (fun i _ => do return f (← a1.read i) (← a2.read i)) length ret

theorem zipLoop_tab [Zero K] {s : ArrayShape} {a1 a2 : ArrayType K} (f : K → K → K) (g : Nat → K)
    (h1 : a1.nitems = s.nitems) (h2 : a2.nitems = s.nitems) :
    zipLoop f s.nitems a1 a2 (tab s g) = .ok (tab s fun p => f (a1.cell p) (a2.cell p)) := by
  refine fillLoop_tab _ _ fun p hp h _ => ?_
  rw [read_eq (h1 ▸ hp), read_eq (h2 ▸ hp)]
  rfl

/-! ## The routines -/

/-- The number of dimensions or a size differs: the two checks, one error each. -/
def checkDims (ndim dims : MatError) (a b : ArrayType K) : Except MatError Unit := do
  if a.ndim ≠ b.ndim then throw ndim
  if a.dims ≠ b.dims then throw dims

section Routines

variable [CommRing K]

/-- `matrix_elem_mult`. -/
def matrixElemMult (a b : ArrayType K) : Except MatError (ArrayType K) := do
  if ← a.isScalar then
    let elem ← a.read 0
    return ← mapLoop (elem * ·) b.nitems (copyArray b)
  if ← b.isScalar then
    let elem ← b.read 0
    return ← mapLoop (elem * ·) a.nitems (copyArray a)
  checkDims .elemNdim .elemDims a b
  let ret ← initLike a
  zipLoop (· * ·) a.nitems a b ret

/-- `mat_sub_mm`. -/
def matSubMm (a1 a2 : ArrayType K) : Except MatError (ArrayType K) := do
  checkDims .subNdim .subDims a1 a2
  let ret ← initLike a1
  zipLoop (· - ·) ret.nitems a1 a2 ret

/-- A routine on an array and a number: the loop reads the elements of the new array. -/
def scalarOp (f : K → K) (a1 : ArrayType K) : Except MatError (ArrayType K) := do
  let ret ← initLike a1
  mapLoop f ret.nitems ret

def matSubMs (a1 : ArrayType K) (scalar : K) : Except MatError (ArrayType K) :=
  scalarOp (· - scalar) a1

def matSubSm (scalar : K) (a1 : ArrayType K) : Except MatError (ArrayType K) :=
  scalarOp (scalar - ·) a1

def matMulSm (scalar : K) (a1 : ArrayType K) : Except MatError (ArrayType K) :=
  scalarOp (scalar * ·) a1

end Routines

/-- `mat_apply_gradient`. With scalar weights it returns the scaled derivatives. -/
def matApplyGradient [Field K] (weights derivatives : ArrayType K) (learningRate : K)
    (batchSize : Int) : Except MatError (ArrayType K) := do
  if ← weights.isScalar then
    return ← mapLoop (fun x => x * learningRate / batchSize) derivatives.nitems
      (copyArray derivatives)
  -- "The to-be-applied gradient cannot be a scalar!" is a warning
  if ← derivatives.isScalar then return weights
  checkDims .gradientNdim .gradientDims weights derivatives
  fillLoop (fun i data => do
    return (← data.read i) - learningRate * (← derivatives.read i) / batchSize)
      weights.nitems weights

/-! ## Numbers and arrays -/

section Scalar

variable [CommRing K]

omit [CommRing K] in
theorem checkDims_self (ndim dims : MatError) {a b : ArrayType K} (h : a.dims = b.dims) :
    checkDims ndim dims a b = .ok () := by
  have hndim : a.ndim = b.ndim := congrArg List.length h
  unfold checkDims
  rw [if_neg (not_not_intro hndim), if_neg (not_not_intro h)]
  rfl

theorem scalarOp_eq (f : K → K) (a : ArrayType K) :
    scalarOp f a = .ok (tab a.toArrayShape fun _ => f 0) := by
  unfold scalarOp
  rw [initLike_eq, ok_bind]
  exact mapLoop_tab f fun _ => 0

theorem matSubMm_eq {a b : ArrayType K} (h : a.toArrayShape = b.toArrayShape) :
    matSubMm a b = .ok (tab a.toArrayShape fun p => a.cell p - b.cell p) := by
  unfold matSubMm
  rw [checkDims_self _ _ (congrArg (·.dims) h), ok_bind, initLike_eq, ok_bind]
  exact zipLoop_tab _ _ rfl (congrArg (·.nitems) h.symm)

theorem matrixElemMult_eq {a b : ArrayType K} (h : a.toArrayShape = b.toArrayShape)
    (hscalar : a.isScalar = .ok false) :
    matrixElemMult a b = .ok (tab a.toArrayShape fun p => a.cell p * b.cell p) := by
  have hscalar' : b.isScalar = .ok false :=
    (isScalar_congr (congrArg (·.lbound) h)).symm.trans hscalar
  unfold matrixElemMult
  rw [hscalar, ok_bind, if_neg Bool.false_ne_true, hscalar', ok_bind, if_neg Bool.false_ne_true,
    checkDims_self _ _ (congrArg (·.dims) h), ok_bind, initLike_eq, ok_bind]
  exact zipLoop_tab _ _ rfl (congrArg (·.nitems) h.symm)

/-- The array of the shape of `a` that is filled with a number. -/
def filled (a : ArrayType K) (scalar : K) : ArrayType K :=
  tab a.toArrayShape fun _ => scalar

omit [CommRing K] in
theorem filled_shape (a : ArrayType K) (scalar : K) :
    (filled a scalar).toArrayShape = a.toArrayShape := rfl

/-- The routines on an array and a number agree with those on two arrays. -/
def ScalarOpsAgree (a : ArrayType K) (scalar : K) : Prop :=
  matSubMs a scalar = matSubMm a (filled a scalar) ∧
    matSubSm scalar a = matSubMm (filled a scalar) a ∧
      matMulSm scalar a = matrixElemMult (filled a scalar) a

/-- **They agree for arrays of zeros only**, with a dimension: without one `isScalar` reads a lower
bound that is not there. -/
theorem scalarOps_agree_iff {a : ArrayType K} (scalar : K) (hlbound : -1 ∉ a.lbound) :
    ScalarOpsAgree a scalar ↔ a.ndim ≠ 0 ∧ ∀ p, p < a.nitems → a.cell p = 0 := by
  have hms : matSubMs a scalar = matSubMm a (filled a scalar) ↔
      ∀ p, p < a.nitems → a.cell p = 0 := by
    rw [matSubMs, scalarOp_eq, matSubMm_eq (filled_shape a scalar).symm, Except.ok.injEq, tab_inj]
    refine forall₂_congr fun p hp => ?_
    rw [filled, cell_tab hp, sub_left_inj, eq_comm]
  have hsm : matSubSm scalar a = matSubMm (filled a scalar) a ↔
      ∀ p, p < a.nitems → a.cell p = 0 := by
    rw [matSubSm, scalarOp_eq, matSubMm_eq (filled_shape a scalar), filled_shape,
      Except.ok.injEq, tab_inj]
    refine forall₂_congr fun p hp => ?_
    rw [filled, cell_tab hp, sub_right_inj, eq_comm]
  unfold ScalarOpsAgree
  rw [hms, hsm]
  by_cases hndim : a.ndim = 0
  · have houtside : matrixElemMult (filled a scalar) a = .error .outside := by
      have hscalar : (filled a scalar).isScalar = .error .outside := isScalar_error hndim
      unfold matrixElemMult
      rw [hscalar]
      rfl
    rw [houtside, matMulSm, scalarOp_eq]
    exact iff_of_false (fun h => nomatch h.2.2) fun h => h.1 hndim
  · have hdims : a.dims ≠ [] := fun h => hndim (congrArg List.length h)
    constructor
    · exact fun h => ⟨hndim, h.1⟩
    · rintro ⟨-, hzero⟩
      refine ⟨hzero, hzero, ?_⟩
      have hscalar : (filled a scalar).isScalar = .ok false := isScalar_of_not_mem hlbound hdims
      rw [matrixElemMult_eq (filled_shape a scalar) hscalar, matMulSm, scalarOp_eq, filled_shape,
        Except.ok.injEq, tab_inj]
      intro p hp
      rw [filled, cell_tab hp, hzero p hp]

end Scalar

theorem scalarOps_agree_iff_zeros : ScalarOpsAgree (filled (column 2 (by decide)) 0) 5 :=
  (scalarOps_agree_iff 5 (by decide)).mpr ⟨by decide, fun _ hp => cell_tab hp⟩

/-- The vector (1 2) minus 1 is (-1 -1) instead of (0 1). -/
theorem matSubMs_column :
    matSubMs (column 2 (by decide)) 1 = .ok (tab (vectorShape 2 (by decide)) fun _ => -1) ∧
      matSubMm (column 2 (by decide)) (filled (column 2 (by decide)) 1) =
        .ok (tab (vectorShape 2 (by decide)) fun p => p) ∧
      ¬ ScalarOpsAgree (column 2 (by decide)) 1 := by
  have hms : matSubMs (column 2 (by decide)) 1 =
      .ok (tab (vectorShape 2 (by decide)) fun _ => -1) := rfl
  have hmm : matSubMm (column 2 (by decide)) (filled (column 2 (by decide)) 1) =
      .ok (tab (vectorShape 2 (by decide)) fun p => p) := rfl
  refine ⟨hms, hmm, ?_⟩
  rintro ⟨h, -⟩
  rw [hms, hmm, Except.ok.injEq, tab_inj] at h
  exact absurd (h 0 (by decide)) (by decide)

/-! ## Gradient updates -/

section Gradient

variable [Field K] (w g : ArrayType K) (r : K) (b : Int)

/-- The update is a descent step: of each element, or of scalar weights by each element of the
gradient. Other shapes are rejected. -/
structure DescentStep : Prop where
  broadcast : w.isScalar = .ok true →
    matApplyGradient w g r b = .ok (tab g.toArrayShape fun i => w.cell 0 - r * g.cell i / b)
  elements : w.isScalar ≠ .ok true → g.isScalar ≠ .ok true → w.dims = g.dims →
    matApplyGradient w g r b = .ok (tab w.toArrayShape fun i => w.cell i - r * g.cell i / b)
  rejected : w.isScalar ≠ .ok true → w.dims ≠ g.dims → Rejected (matApplyGradient w g r b)

variable {w g}

theorem matApplyGradient_scalar (h : w.isScalar = .ok true) :
    matApplyGradient w g r b = .ok (tab g.toArrayShape fun i => g.cell i * r / b) := by
  unfold matApplyGradient
  rw [h, ok_bind, if_pos rfl]
  have hloop := mapLoop_tab (s := g.toArrayShape) (fun x => x * r / b) g.cell
  rwa [tab_cell] at hloop

theorem matApplyGradient_warning (hw : w.isScalar = .ok false) (hg : g.isScalar = .ok true) :
    matApplyGradient w g r b = .ok w := by
  unfold matApplyGradient
  rw [hw, ok_bind, if_neg Bool.false_ne_true, hg, ok_bind, if_pos rfl]
  rfl

theorem matApplyGradient_elements (hw : w.isScalar = .ok false) (hg : g.isScalar = .ok false)
    (hdims : w.dims = g.dims) :
    matApplyGradient w g r b = .ok (tab w.toArrayShape fun i => w.cell i - r * g.cell i / b) := by
  have hitems : w.nitems = g.nitems :=
    Except.ok.inj (w.nitems_eq.symm.trans (hdims ▸ g.nitems_eq))
  have hloop : fillLoop (fun i data => do return (← data.read i) - r * (← g.read i) / b) w.nitems
      (tab w.toArrayShape w.cell) =
        .ok (tab w.toArrayShape fun i => w.cell i - r * g.cell i / b) := by
    refine fillLoop_tab _ _ fun p hp h hh => ?_
    rw [read_tab hp, read_eq (hitems ▸ hp), hh]
    rfl
  unfold matApplyGradient
  rw [hw, ok_bind, if_neg Bool.false_ne_true, hg, ok_bind, if_neg Bool.false_ne_true,
    checkDims_self _ _ hdims, ok_bind]
  rwa [tab_cell] at hloop

theorem matApplyGradient_rejected (hw : w.isScalar = .ok false) (hg : g.isScalar = .ok false)
    (hdims : w.dims ≠ g.dims) : Rejected (matApplyGradient w g r b) := by
  unfold matApplyGradient checkDims
  rw [hw, ok_bind, if_neg Bool.false_ne_true, hg, ok_bind, if_neg Bool.false_ne_true]
  by_cases hndim : w.ndim = g.ndim
  · rw [if_neg (not_not_intro hndim), if_pos hdims]
    exact ⟨.gradientDims, rfl, nofun⟩
  · rw [if_pos hndim]
    exact ⟨.gradientNdim, rfl, nofun⟩

theorem not_rejected_outside {α : Type} : ¬ Rejected (.error .outside : Except MatError α) := by
  rintro ⟨e, he, hne⟩
  cases he
  exact hne rfl

/-- The update of scalar weights is the descent step if it happens to give the same numbers. -/
theorem descentStep_scalar_iff (hw : w.isScalar = .ok true) (hb : (b : K) ≠ 0) :
    DescentStep w g r b ↔ ∀ i, i < g.nitems → w.cell 0 * b = 2 * r * g.cell i := by
  have hsame : matApplyGradient w g r b =
      .ok (tab g.toArrayShape fun i => w.cell 0 - r * g.cell i / b) ↔
        ∀ i, i < g.nitems → w.cell 0 * b = 2 * r * g.cell i := by
    rw [matApplyGradient_scalar r b hw, Except.ok.injEq, tab_inj]
    refine forall₂_congr fun i _ => ?_
    rw [eq_sub_iff_add_eq, ← add_div, div_eq_iff hb, eq_comm]
    have htwice : g.cell i * r + r * g.cell i = 2 * r * g.cell i := by ring
    rw [htwice]
  rw [← hsame]
  exact ⟨fun h => h.broadcast hw, fun h => ⟨fun _ => h, fun hne => absurd hw hne,
    fun hne => absurd hw hne⟩⟩

theorem not_descentStep_rankless (hw : w.ndim = 0) : ¬ DescentStep w g r b := by
  intro h
  have hscalar : w.isScalar = .error .outside := isScalar_error hw
  have hne : w.isScalar ≠ .ok true := fun he => nomatch hscalar.symm.trans he
  have houtside : matApplyGradient w g r b = .error .outside := by
    unfold matApplyGradient
    rw [hscalar]
    rfl
  by_cases hdims : w.dims = g.dims
  · have hg : g.isScalar ≠ .ok true := by
      rw [isScalar_error (show g.ndim = 0 from (congrArg List.length hdims).symm.trans hw)]
      nofun
    exact nomatch houtside.symm.trans (h.elements hne hg hdims)
  · exact not_rejected_outside (houtside ▸ h.rejected hne hdims)

/-- Weights that are no scalar. -/
theorem descentStep_elements_iff (hw : w.isScalar = .ok false) (hndim : w.ndim ≠ 0) :
    DescentStep w g r b ↔ g.ndim ≠ 0 ∧ (g.isScalar = .ok true → w.dims = g.dims) := by
  have hne : w.isScalar ≠ .ok true := fun he => nomatch hw.symm.trans he
  have hbroadcast : w.isScalar = .ok true → matApplyGradient w g r b =
      .ok (tab g.toArrayShape fun i => w.cell 0 - r * g.cell i / b) := fun he => absurd he hne
  rcases g.isScalar_cases with ⟨hg, hscalar⟩ | ⟨hg, scalar, hscalar⟩
  · -- the lower bound of the gradient is not there
    have houtside : matApplyGradient w g r b = .error .outside := by
      unfold matApplyGradient
      rw [hw, ok_bind, if_neg Bool.false_ne_true, hscalar]
      rfl
    have hdims : w.dims ≠ g.dims := fun h => hndim ((congrArg List.length h).trans hg)
    refine iff_of_false (fun h => ?_) fun h => h.1 hg
    exact not_rejected_outside (houtside ▸ h.rejected hne hdims)
  · cases scalar with
    | true =>
      have hwarning := matApplyGradient_warning r b hw hscalar
      constructor
      · intro h
        refine ⟨hg, fun _ => by_contra fun hdims => ?_⟩
        obtain ⟨e, he, _⟩ := h.rejected hne hdims
        exact nomatch hwarning.symm.trans he
      · intro h
        exact ⟨hbroadcast, fun _ hne' => absurd hscalar hne', fun _ hdims =>
          absurd (h.2 hscalar) hdims⟩
    | false =>
      refine iff_of_true ⟨hbroadcast, fun _ _ => matApplyGradient_elements r b hw hscalar,
        fun _ => matApplyGradient_rejected r b hw hscalar⟩ ⟨hg, fun he => ?_⟩
      exact nomatch hscalar.symm.trans he

/-- **Gradient updates are descent steps** for arrays that are no scalars and have dimensions. A
scalar gradient for other weights is no error, and scalar weights are replaced by the scaled
gradient, which is the descent step only by coincidence. -/
theorem descentStep_iff [CharZero K] (w g : ArrayType K) (r : K) {b : Int} (hb : 0 < b) :
    DescentStep w g r b ↔
      w.isScalar = .ok true ∧ (∀ i, i < g.nitems → w.cell 0 * b = 2 * r * g.cell i) ∨
        w.isScalar ≠ .ok true ∧ w.ndim ≠ 0 ∧ g.ndim ≠ 0 ∧
          (g.isScalar = .ok true → w.dims = g.dims) := by
  rcases w.isScalar_cases with ⟨hndim, hscalar⟩ | ⟨hndim, scalar, hscalar⟩
  · refine iff_of_false (not_descentStep_rankless r b hndim) ?_
    rintro (⟨htrue, -⟩ | ⟨-, hne, -⟩)
    · exact nomatch hscalar.symm.trans htrue
    · exact hne hndim
  · cases scalar with
    | true =>
      have hb' : (b : K) ≠ 0 := Int.cast_ne_zero.mpr (Int.ne_of_gt hb)
      rw [descentStep_scalar_iff r b hscalar hb']
      simp [hscalar]
    | false =>
      rw [descentStep_elements_iff r b hscalar hndim]
      simp [hscalar, hndim]

end Gradient

/-- The array with one element, which is a scalar if its lower bound is -1. -/
def single (lb : Int) (x : ℚ) : ArrayType ℚ :=
  tab (.of [1] [lb] 1 ⟨rfl, rfl, by decide⟩) fun _ => x

/-- The weights (1 2). -/
def pair : ArrayType ℚ :=
  tab (vectorShape 2 (by decide)) fun p => p + 1

theorem descentStep_iff_pair : DescentStep pair pair 3 2 :=
  (descentStep_iff _ _ _ (by decide)).mpr (.inr ⟨nofun, by decide, by decide, nofun⟩)

/-- The weight 5 after a step with gradient 3 is 3, and a scalar gradient leaves a vector as it
is. -/
theorem matApplyGradient_scalars :
    matApplyGradient (single (-1) 5) (single 1 3) 1 1 = .ok (single 1 3) ∧
      ¬ DescentStep (single (-1) 5) (single 1 3) 1 1 ∧
        matApplyGradient pair (single (-1) 3) 1 1 = .ok pair := by
  have hstep : matApplyGradient (single (-1) 5) (single 1 3) 1 1 = .ok (single 1 3) := by
    rw [matApplyGradient_scalar 1 1 rfl]
    refine congrArg _ (tab_congr fun p hp => ?_)
    have hcell : (single 1 3).cell p = 3 := cell_tab hp
    rw [hcell]
    norm_num
  refine ⟨hstep, fun h => ?_, matApplyGradient_warning 1 1 rfl rfl⟩
  have heq := Except.ok.inj (hstep.symm.trans (h.broadcast rfl))
  have hcell := tab_inj.mp heq 0 Nat.one_pos
  have hweight : (single (-1) 5).cell 0 = 5 := cell_tab Nat.one_pos
  have hgradient : (single 1 3).cell 0 = 3 := cell_tab Nat.one_pos
  rw [hweight, hgradient] at hcell
  norm_num at hcell

end HolLambdas.Arrays
