import Mathlib.Algebra.Group.Int.Even
import Mathlib.Algebra.Order.Floor.Ring
import Mathlib.Tactic.Linarith
import Mathlib.Tactic.Ring

/-!
# Truncation and rounding

Two ways from a number to an integer: towards zero (`trunc`), and to the nearest
integer with ties to even (`rint`). `Nearest` is what the second one is for;
`eq_rint_iff` says that it is met by `rint x` and by nothing else, so whether
truncation gives the same result can be read off the number: the part it drops is
below one half, or is one half and an even integer is left.
-/

namespace HolLambdas

/-! ## The nearest integer -/

section Nearest

variable {R : Type} [Field R] [LinearOrder R]

/-- Nearer to `x` than any other integer, or equally near and even. -/
def Nearest (x : R) (n : Int) : Prop :=
  |x - n| < 1 / 2 ∨ (|x - n| = 1 / 2 ∧ Even n)

theorem Nearest.within_half {x : R} {n : Int} (h : Nearest x n) : |x - n| ≤ 1 / 2 := by
  rcases h with h | ⟨h, _⟩
  · exact h.le
  · exact h.le

theorem Nearest.even {x : R} {n : Int} (h : Nearest x n) (hhalf : |x - n| = 1 / 2) : Even n := by
  rcases h with h | ⟨_, heven⟩
  · exact absurd hhalf h.ne
  · exact heven

variable [IsStrictOrderedRing R]

/-- Between two nearest integers there would be room for one half on either side. -/
theorem Nearest.not_before {x : R} {m n : Int} (hm : Nearest x m) (hn : Nearest x n) : ¬ m < n := by
  intro hlt
  have hcast : (m : R) + 1 ≤ n := by exact_mod_cast hlt
  have hm' := abs_le.mp hm.within_half
  have hn' := abs_le.mp hn.within_half
  have hx : x = m + 1 / 2 := by linarith [hm'.2, hn'.1]
  have hnext : (n : R) = m + 1 := by linarith [hn'.1]
  have hnext' : n = m + 1 := by exact_mod_cast hnext
  have hevenm : Even m := hm.even (by rw [hx, add_sub_cancel_left]; exact abs_of_pos (by norm_num))
  have hevenn : Even n := by
    refine hn.even ?_
    rw [hx, hnext, show (m : R) + 1 / 2 - (m + 1) = -(1 / 2) by ring, abs_neg]
    exact abs_of_pos (by norm_num)
  rw [hnext', Int.even_add_one] at hevenn
  exact hevenn hevenm

theorem Nearest.unique {x : R} {m n : Int} (hm : Nearest x m) (hn : Nearest x n) : m = n :=
  le_antisymm (not_lt.mp (hn.not_before hm)) (not_lt.mp (hm.not_before hn))

end Nearest

/-! ## The two functions -/

section Round

variable {R : Type} [Field R] [LinearOrder R] [FloorRing R]

/-- Towards zero. -/
def trunc (x : R) : Int :=
  if 0 ≤ x then ⌊x⌋ else ⌈x⌉

/-- To the nearest integer, and to the even one of two that are equally near. -/
def rint (x : R) : Int :=
  if x - ⌊x⌋ < 1 / 2 then ⌊x⌋
  else if 1 / 2 < x - ⌊x⌋ then ⌊x⌋ + 1
  else if Even ⌊x⌋ then ⌊x⌋ else ⌊x⌋ + 1

theorem floor_le_rint (x : R) : ⌊x⌋ ≤ rint x := by
  unfold rint
  split_ifs <;> omega

variable [IsStrictOrderedRing R]

theorem nearest_rint (x : R) : Nearest x (rint x) := by
  have hlow := Int.floor_le x
  have hhigh := Int.lt_floor_add_one x
  have hup : |x - ((⌊x⌋ + 1 : Int) : R)| = ⌊x⌋ + 1 - x := by
    rw [abs_sub_comm, abs_of_nonneg] <;> push_cast <;> linarith
  have hdown : |x - ((⌊x⌋ : Int) : R)| = x - ⌊x⌋ := abs_of_nonneg (by linarith)
  unfold rint Nearest
  split_ifs with hlt hgt heven
  · rw [hdown]
    exact .inl hlt
  · rw [hup]
    exact .inl (by linarith)
  · rw [hdown]
    exact .inr ⟨le_antisymm (not_lt.mp hgt) (not_lt.mp hlt), heven⟩
  · rw [hup]
    exact .inr ⟨by linarith [not_lt.mp hgt, not_lt.mp hlt], Int.even_add_one.mpr heven⟩

theorem eq_rint_iff {x : R} {n : Int} : n = rint x ↔ Nearest x n := by
  constructor
  · rintro rfl
    exact nearest_rint x
  · intro h
    exact h.unique (nearest_rint x)

theorem rint_le_ceil (x : R) : rint x ≤ ⌈x⌉ := by
  by_cases hint : (⌊x⌋ : R) = x
  · have hlt : x - ⌊x⌋ < 1 / 2 := by
      rw [hint, sub_self]
      norm_num
    rw [rint, if_pos hlt]
    exact Int.floor_le_ceil x
  · have hlt : (⌊x⌋ : R) < x := lt_of_le_of_ne (Int.floor_le x) hint
    have hsucc : ⌊x⌋ + 1 ≤ ⌈x⌉ := Int.lt_ceil.mpr hlt
    unfold rint
    split_ifs <;> omega

/-- Truncation stays in every range around zero that rounding stays in. -/
theorem trunc_mem_range {x : R} {lo hi : Int} (hlo : lo ≤ 0) (hhi : 0 ≤ hi)
    (hle : lo ≤ rint x) (hge : rint x ≤ hi) : lo ≤ trunc x ∧ trunc x ≤ hi := by
  unfold trunc
  by_cases hx : 0 ≤ x
  · rw [if_pos hx]
    have hnonneg : 0 ≤ ⌊x⌋ := Int.floor_nonneg.mpr hx
    have hrint := floor_le_rint x
    omega
  · rw [if_neg hx]
    have hnonpos : ⌈x⌉ ≤ 0 := Int.ceil_le.mpr (by simpa using (not_le.mp hx).le)
    have hrint := rint_le_ceil x
    omega

end Round

end HolLambdas
