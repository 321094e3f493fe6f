import Mathlib.Order.Lattice
import Mathlib.Data.List.Infix

/-!
# The nearest centroid of a point

The inner loop of `kmeans_v2_worker`. A distance is an ordered number or NaN, which is neither
below nor above anything. The loop takes the first distance as it is and after that only those
that are below the best one so far, with a test that keeps NaN out. The first distance is not
tested: if it is NaN, nothing is ever below it, and the point stays with centroid 0
(`nearest_isNearest_iff`).
-/

namespace HolLambdas.Kmeans

variable {α : Type} [LinearOrder α]

/-- A `float8`; `none` is NaN. -/
abbrev Distance (α : Type) := Option α

def isnan (d : Distance α) : Bool := d.isNone

/-- `x < y` on doubles. -/
def fless : Distance α → Distance α → Bool
  | some x, some y => x < y
  | _, _ => false

/-- The variables of the loop. -/
structure Best (α : Type) where
  best_ci : Nat
  best_d : Distance α
  first : Bool
deriving DecidableEq, Repr

/-- Keep the centroid if it is the first, or nearer. -/
def Best.step (best : Best α) (ci : Nat) (d : Distance α) : Best α :=
  if best.first || (!isnan d && fless d best.best_d) then
    { best_ci := ci, best_d := d, first := false }
  else best

/-- The loop over the centroids, given their distances; `DBL_MAX` is never compared. -/
def scan (DBL_MAX : α) (ds : List (Distance α)) : Best α :=
  ds.zipIdx.foldl (fun best x => best.step x.2 x.1)
    { best_ci := 0, best_d := some DBL_MAX, first := true }

/-- The centroid that the point is assigned to. -/
def nearest (DBL_MAX : α) (ds : List (Distance α)) : Nat :=
  (scan DBL_MAX ds).best_ci

/-- The smallest index of a distance that is minimal among those that are numbers; 0 if there
is none. -/
def IsNearest (ds : List (Distance α)) (i : Nat) : Prop :=
  (∃ x, ds[i]? = some (some x) ∧
      ∀ (j : Nat) y, ds[j]? = some (some y) → x ≤ y ∧ (y = x → i ≤ j)) ∨
    (∀ d ∈ ds, d = none) ∧ i = 0

variable {DBL_MAX : α}

theorem scan_append (ds : List (Distance α)) (d : Distance α) :
    scan DBL_MAX (ds ++ [d]) = (scan DBL_MAX ds).step ds.length d := by
  simp [scan, List.zipIdx_append]

/-- After a NaN in the first place nothing changes any more. -/
theorem scan_of_nan (ds : List (Distance α)) :
    scan DBL_MAX (none :: ds) = { best_ci := 0, best_d := none, first := false } := by
  induction ds using List.reverseRecOn with
  | nil => rfl
  | append_singleton ds d ih =>
    rw [← List.cons_append, scan_append, ih]
    cases d <;> rfl

/-- After a number in the first place the loop keeps the smallest number so far, and the first
index it was found at. -/
theorem scan_of_number (DBL_MAX x₀ : α) (ds : List (Distance α)) :
    ∃ i x, scan DBL_MAX (some x₀ :: ds) = { best_ci := i, best_d := some x, first := false } ∧
      (some x₀ :: ds)[i]? = some (some x) ∧
      ∀ (j : Nat) y, (some x₀ :: ds)[j]? = some (some y) → x ≤ y ∧ (y = x → i ≤ j) := by
  induction ds using List.reverseRecOn with
  | nil =>
    refine ⟨0, x₀, rfl, rfl, ?_⟩
    intro j y hy
    obtain rfl : j = 0 := by
      have := (List.getElem?_eq_some_iff.mp hy).1
      simpa using this
    obtain rfl : x₀ = y := by simpa using hy
    exact ⟨le_refl _, fun _ => le_refl _⟩
  | append_singleton ds d ih =>
    obtain ⟨i, x, hscan, hi, hmin⟩ := ih
    rw [← List.cons_append, scan_append, hscan]
    generalize hall : some x₀ :: ds = all at hi hmin ⊢
    have hlt : i < all.length := (List.getElem?_eq_some_iff.mp hi).1
    -- an index of the longer list is an old one or the new one
    have hcases : ∀ (j : Nat) y, (all ++ [d])[j]? = some (some y) →
        all[j]? = some (some y) ∨ j = all.length ∧ d = some y := by
      intro j y hy
      rcases Nat.lt_or_ge j all.length with hj | hj
      · exact .inl (by rwa [List.getElem?_append_left hj] at hy)
      · rw [List.getElem?_append_right hj] at hy
        obtain ⟨hj', hd⟩ := List.getElem?_eq_some_iff.mp hy
        rw [List.length_singleton, Nat.lt_one_iff] at hj'
        exact .inr ⟨by omega, by simpa [hj'] using hd⟩
    have hkeep : ∀ {z : α}, x ≤ z → ∀ (j : Nat) y, j = all.length ∧ some z = some y →
        x ≤ y ∧ (y = x → i ≤ j) := by
      rintro z hz j y ⟨rfl, hy⟩
      exact ⟨Option.some.inj hy ▸ hz, fun _ => Nat.le_of_lt hlt⟩
    cases d with
    | none =>
      refine ⟨i, x, rfl, by rwa [List.getElem?_append_left hlt], ?_⟩
      intro j y hy
      rcases hcases j y hy with hold | ⟨_, hnew⟩
      · exact hmin j y hold
      · cases hnew
    | some z =>
      by_cases hz : z < x
      · -- the new one is strictly below all others
        refine ⟨all.length, z, ?_, by simp, ?_⟩
        · simp [Best.step, isnan, fless, hz]
        · intro j y hy
          rcases hcases j y hy with hold | ⟨rfl, hnew⟩
          · have hzy : z < y := lt_of_lt_of_le hz (hmin j y hold).1
            exact ⟨le_of_lt hzy, fun h => absurd h (ne_of_gt hzy)⟩
          · obtain rfl := Option.some.inj hnew
            exact ⟨le_refl _, fun _ => le_refl _⟩
      · refine ⟨i, x, ?_, by rwa [List.getElem?_append_left hlt], ?_⟩
        · simp [Best.step, isnan, fless, hz]
        · intro j y hy
          rcases hcases j y hy with hold | hnew
          · exact hmin j y hold
          · exact hkeep (not_lt.mp hz) j y hnew

/-- **The scan finds the nearest centroid exactly if the first distance is a number or all are
NaN.** -/
theorem nearest_isNearest_iff {ds : List (Distance α)} (hds : 1 ≤ ds.length) :
    IsNearest ds (nearest DBL_MAX ds) ↔ ds[0]? ≠ some none ∨ ∀ d ∈ ds, d = none := by
  cases ds with
  | nil => exact absurd hds (Nat.not_succ_le_zero 0)
  | cons d ds =>
    cases d with
    | none =>
      have hzero : nearest DBL_MAX (none :: ds) = 0 := by rw [nearest, scan_of_nan]
      rw [hzero]
      constructor
      · rintro (⟨x, hx, _⟩ | ⟨hnan, _⟩)
        · cases hx
        · exact .inr hnan
      · rintro (hfirst | hnan)
        · exact absurd rfl hfirst
        · exact .inr ⟨hnan, rfl⟩
    | some x₀ =>
      obtain ⟨i, x, hscan, hi, hmin⟩ := scan_of_number DBL_MAX x₀ ds
      refine iff_of_true ?_ (.inl (by simp))
      rw [nearest, hscan]
      exact .inl ⟨x, hi, hmin⟩

theorem nearest_isNearest_third :
    IsNearest [some 3, none, some 1, some 1] (nearest (10 : Nat) [some 3, none, some 1, some 1]) :=
  (nearest_isNearest_iff (by decide)).mpr (.inl (by decide))

/-- A NaN in the first place hides the distances 1 and 2 that follow. -/
theorem nearest_nan_first :
    nearest (10 : Nat) [none, some 1, some 2] = 0 ∧
      ¬ IsNearest [none, some (1 : Nat), some 2] 0 := by
  refine ⟨by decide, ?_⟩
  rintro (⟨x, hx, _⟩ | ⟨hnan, _⟩)
  · cases hx
  · exact absurd (hnan (some 1) (by simp)) (by simp)

/-- Some centroid is taken if there is one. -/
theorem nearest_lt (DBL_MAX : α) {ds : List (Distance α)} (hds : 1 ≤ ds.length) :
    nearest DBL_MAX ds < ds.length := by
  cases ds with
  | nil => exact absurd hds (Nat.not_succ_le_zero 0)
  | cons d ds =>
    cases d with
    | none =>
      rw [nearest, scan_of_nan]
      exact hds
    | some x₀ =>
      obtain ⟨i, x, hscan, hi, _⟩ := scan_of_number DBL_MAX x₀ ds
      rw [nearest, hscan]
      exact (List.getElem?_eq_some_iff.mp hi).1

end HolLambdas.Kmeans
