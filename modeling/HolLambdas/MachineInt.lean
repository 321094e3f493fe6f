import Mathlib.Algebra.Order.Ring.Int
import Mathlib.Tactic.Ring

/-!
# Signed 32-bit integers

An `int` of the source is an `Int` here, and every operation that may leave its
range is followed by `wrap32`, which is what the code's compiler flags
(`-fwrapv`) and its conversions from wider types do: the result modulo 2^32,
read as a signed number.
-/

namespace HolLambdas

/-- `PG_INT32_MAX`. -/
def PG_INT32_MAX : Int := 2 ^ 31 - 1

/-- `MaxAllocSize`: `palloc` refuses larger requests. -/
def MaxAllocSize : Nat := 0x3fffffff

/-- The value of an integer after it was stored in 32 bits. -/
def wrap32 (x : Int) : Int :=
  (x + 2 ^ 31) % 2 ^ 32 - 2 ^ 31

/-- The conversion of an `int` to a `Size`. -/
def toSize (x : Int) : Nat := (x % 2 ^ 64).toNat

/-- The values of an `int`. -/
def IsInt32 (x : Int) : Prop :=
  -2 ^ 31 ≤ x ∧ x ≤ PG_INT32_MAX

instance (x : Int) : Decidable (IsInt32 x) :=
  inferInstanceAs (Decidable (_ ∧ _))

theorem wrap32_of_isInt32 {x : Int} (h : IsInt32 x) : wrap32 x = x := by
  unfold IsInt32 PG_INT32_MAX at h
  unfold wrap32
  omega

/-- A count that fits is stored as it is. -/
theorem wrap32_natCast {n : Nat} (h : (n : Int) ≤ PG_INT32_MAX) : wrap32 n = n := by
  apply wrap32_of_isInt32
  unfold IsInt32
  omega

theorem wrap32_zero : wrap32 0 = 0 := rfl

theorem isInt32_wrap32 (x : Int) : IsInt32 (wrap32 x) := by
  unfold IsInt32 PG_INT32_MAX wrap32
  omega

theorem toSize_of_nonneg {x : Int} (hx : IsInt32 x) (h : 0 ≤ x) : toSize x = x.toNat := by
  unfold IsInt32 PG_INT32_MAX at hx
  unfold toSize
  omega

theorem toNat_wrap32_le (n : Nat) : (wrap32 n).toNat ≤ n := by
  unfold wrap32
  omega

/-- A count that does not fit is stored as something smaller. -/
theorem toNat_wrap32_lt {n : Nat} (h : PG_INT32_MAX < n) : (wrap32 n).toNat < n := by
  have hle := (isInt32_wrap32 n).2
  generalize wrap32 n = x at hle ⊢
  unfold PG_INT32_MAX at h hle
  omega

end HolLambdas
