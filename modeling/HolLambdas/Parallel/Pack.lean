import Mathlib.Algebra.BigOperators.Group.Finset.Basic
import Mathlib.Algebra.Order.BigOperators.Group.Finset
import Mathlib.Algebra.BigOperators.Intervals

/-!
# Where the lambdas lie in the pack

The leader of `apply_mt_pw` copies the serialized lambdas one behind the other into a
region of the shared segment, and a worker finds lambda `l` at `offsets[l]`. The offsets,
and the variable that adds up the sizes, are `uint32`s; a copy itself runs on from its
offset. So once the sizes add up to 4 GiB the next copy begins at the front again, over
the lambdas that are there. A lambda is intact if no later copy touches its bytes, and all
of them are exactly if the last one still has an offset below 4 GiB (`packIntact_iff`).
-/

namespace HolLambdas

/-- `cur_off` before lambda `l` is copied. -/
def packOffset (sizes : Nat → Nat) : Nat → Nat
  | 0 => 0
  | l + 1 => (packOffset sizes l + sizes l) % 2 ^ 32

/-- None of the copies up to number `m` touches the bytes of lambda `l` after they were
copied. -/
def PackIntact (sizes : Nat → Nat) (m l : Nat) : Prop :=
  ∀ l', l < l' → l' < m →
    packOffset sizes l' + sizes l' ≤ packOffset sizes l ∨
      packOffset sizes l + sizes l ≤ packOffset sizes l'

instance (sizes : Nat → Nat) (m l : Nat) : Decidable (PackIntact sizes m l) :=
  decidable_of_iff (∀ l', l' < m → l < l' →
      packOffset sizes l' + sizes l' ≤ packOffset sizes l ∨
        packOffset sizes l + sizes l ≤ packOffset sizes l')
    ⟨fun h l' hl hm => h l' hm hl, fun h l' hm hl => h l' hl hm⟩

/-- The sizes of the lambdas before number `l`. -/
def packedSize (sizes : Nat → Nat) (l : Nat) : Nat := ∑ j ∈ Finset.range l, sizes j

theorem packedSize_succ (sizes : Nat → Nat) (l : Nat) :
    packedSize sizes (l + 1) = packedSize sizes l + sizes l :=
  Finset.sum_range_succ sizes l

theorem packedSize_mono (sizes : Nat → Nat) : Monotone (packedSize sizes) := by
  apply monotone_nat_of_le_succ
  intro l
  rw [packedSize_succ]
  exact Nat.le_add_right _ _

theorem packOffset_eq (sizes : Nat → Nat) (l : Nat) :
    packOffset sizes l = packedSize sizes l % 2 ^ 32 := by
  induction l with
  | zero => rfl
  | succ l ih => rw [packOffset, ih, packedSize_succ, Nat.mod_add_mod]

theorem packOffset_of_lt {sizes : Nat → Nat} {l : Nat} (h : packedSize sizes l < 2 ^ 32) :
    packOffset sizes l = packedSize sizes l := by
  rw [packOffset_eq, Nat.mod_eq_of_lt h]

/-- Without a wrap the lambdas lie one behind the other. -/
theorem packIntact_of_lt {sizes : Nat → Nat} {m l : Nat}
    (h : packedSize sizes (m - 1) < 2 ^ 32) : PackIntact sizes m l := by
  intro l' hl hm
  have hl' : packedSize sizes l' < 2 ^ 32 :=
    Nat.lt_of_le_of_lt (packedSize_mono sizes (by omega)) h
  have hnext : packedSize sizes (l + 1) ≤ packedSize sizes l' := packedSize_mono sizes hl
  rw [packedSize_succ] at hnext
  right
  rw [packOffset_of_lt hl', packOffset_of_lt (by omega)]
  exact hnext

/-- Every address below the end belongs to one of the lambdas. -/
theorem exists_at_address {sizes : Nat → Nat} {n a : Nat} (h : a < packedSize sizes n) :
    ∃ l, l < n ∧ packedSize sizes l ≤ a ∧ a < packedSize sizes (l + 1) := by
  induction n with
  | zero => exact absurd h (Nat.not_lt_zero a)
  | succ n ih =>
    by_cases hlt : a < packedSize sizes n
    · obtain ⟨l, hl, hle⟩ := ih hlt
      exact ⟨l, Nat.lt_succ_of_lt hl, hle⟩
    · exact ⟨n, Nat.lt_succ_self n, Nat.le_of_not_lt hlt, h⟩

/-- The first copy after the wrap damages a lambda. -/
theorem exists_damaged {sizes : Nat → Nat} {m : Nat}
    (hsizes : ∀ l, l < m → 0 < sizes l ∧ sizes l < 2 ^ 30)
    (h : 2 ^ 32 ≤ packedSize sizes (m - 1)) : ∃ l, l < m ∧ ¬ PackIntact sizes m l := by
  classical
  have hex : ∃ l, 2 ^ 32 ≤ packedSize sizes l := ⟨m - 1, h⟩
  obtain ⟨first, hfirst, hmin⟩ : ∃ l, 2 ^ 32 ≤ packedSize sizes l ∧
      ∀ j, j < l → packedSize sizes j < 2 ^ 32 :=
    ⟨Nat.find hex, Nat.find_spec hex, fun j hj => Nat.lt_of_not_le (Nat.find_min hex hj)⟩
  have hle : first ≤ m - 1 := by
    by_contra hgt
    exact absurd (hmin (m - 1) (by omega)) (Nat.not_lt.mpr h)
  have hpos : first ≠ 0 := by
    rintro rfl
    rw [packedSize, Finset.range_zero, Finset.sum_empty] at hfirst
    omega
  obtain ⟨prev, rfl⟩ : ∃ prev, first = prev + 1 := ⟨first - 1, by omega⟩
  -- it begins below the size of one lambda, where another one is
  have hprev := hmin prev (Nat.lt_succ_self prev)
  have hsum := packedSize_succ sizes prev
  have hoff : packOffset sizes (prev + 1) = packedSize sizes (prev + 1) - 2 ^ 32 := by
    have hsize := (hsizes prev (by omega)).2
    rw [packOffset_eq]
    omega
  have hbelow : packedSize sizes (prev + 1) - 2 ^ 32 < packedSize sizes (prev + 1) := by omega
  obtain ⟨l, hl, hstart, hend⟩ := exists_at_address hbelow
  refine ⟨l, by omega, fun hintact => ?_⟩
  have hsize := (hsizes (prev + 1) (by omega)).1
  have hoffl := packOffset_of_lt (hmin l hl)
  have hnext := packedSize_succ sizes l
  rcases hintact (prev + 1) hl (by omega) with hbefore | hbehind
  · omega
  · omega

theorem packIntact_iff {sizes : Nat → Nat} {m : Nat}
    (hsizes : ∀ l, l < m → 0 < sizes l ∧ sizes l < 2 ^ 30) :
    (∀ l, l < m → PackIntact sizes m l) ↔ packedSize sizes (m - 1) < 2 ^ 32 := by
  constructor
  · intro h
    by_contra hge
    obtain ⟨l, hl, hdamaged⟩ := exists_damaged hsizes (Nat.le_of_not_lt hge)
    exact hdamaged (h l hl)
  · intro h l _
    exact packIntact_of_lt h

end HolLambdas
