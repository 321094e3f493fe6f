import HolLambdas.Fuel
import Mathlib.Logic.Function.Basic

/-!
# Counting loops over row-major buffers

`loop body n` runs `body 0`, …, `body (n - 1)` one after the other on a state, and stops at an
error. Its rule is `loop_eq`: if each round goes from one known state to the next, so does the
loop.

A matrix with `c` columns stands row by row in a flat buffer, with the element of row `i` and
column `k` in cell `i * c + k`. Two nested loops, over rows and columns or the other way round,
write one cell after the other. How far they have come is `Before`; `update_before` is one more
write.
-/

namespace HolLambdas.RowMajor

variable {ε S K : Type}

/-! ## Loops -/

def loop (body : Nat → S → Except ε S) : Nat → S → Except ε S
  | 0, s => .ok s
  | n + 1, s => do
    let s' ← loop body n s
    body n s'

theorem loop_eq {body : Nat → S → Except ε S} {n : Nat} (f : Nat → S)
    (hround : ∀ i, i < n → body i (f i) = .ok (f (i + 1))) : loop body n (f 0) = .ok (f n) := by
  induction n with
  | zero => rfl
  | succ n ih =>
    rw [loop, ih fun i hi => hround i (Nat.lt_succ_of_lt hi)]
    exact hround n (Nat.lt_succ_self n)

theorem exists_loop {body : Nat → S → Except ε S} {n : Nat}
    (hround : ∀ i, i < n → ∀ s, ∃ s', body i s = .ok s') (s : S) :
    ∃ s', loop body n s = .ok s' := by
  induction n with
  | zero => exact ⟨s, rfl⟩
  | succ n ih =>
    obtain ⟨s', hs'⟩ := ih fun i hi => hround i (Nat.lt_succ_of_lt hi)
    rw [loop, hs']
    exact hround n (Nat.lt_succ_self n) s'

/-! ## Cells -/

theorem cell_lt {i k r c : Nat} (hi : i < r) (hk : k < c) : i * c + k < r * c :=
  calc i * c + k < i * c + c := Nat.add_lt_add_left hk _
    _ = (i + 1) * c := (Nat.succ_mul i c).symm
    _ ≤ r * c := Nat.mul_le_mul_right c hi

theorem cell_div {k c : Nat} (i : Nat) (hk : k < c) : (i * c + k) / c = i := by
  rw [Nat.add_comm, Nat.add_mul_div_right k i (Nat.zero_lt_of_lt hk), Nat.div_eq_of_lt hk,
    Nat.zero_add]

theorem cell_mod {k c : Nat} (i : Nat) (hk : k < c) : (i * c + k) % c = k := by
  rw [Nat.add_comm, Nat.add_mul_mod_self_right, Nat.mod_eq_of_lt hk]

theorem eq_cell_iff {p i k c : Nat} (hk : k < c) : p = i * c + k ↔ p / c = i ∧ p % c = k := by
  constructor
  · rintro rfl
    exact ⟨cell_div i hk, cell_mod i hk⟩
  · rintro ⟨rfl, rfl⟩
    rw [Nat.mul_comm]
    exact (Nat.div_add_mod p c).symm

/-! ## How far two nested loops have come -/

/-- The pair `(u, v)` of loop indices comes before `(i, k)`. -/
def Before (u v i k : Nat) : Prop :=
  u < i ∨ u = i ∧ v < k

instance (u v i k : Nat) : Decidable (Before u v i k) :=
  inferInstanceAs (Decidable (_ ∨ _))

theorem before_zero {u v i : Nat} : Before u v i 0 ↔ u < i := by
  simp [Before]

/-- The inner loop is done with all `v` below its limit. -/
theorem before_last {u v i n : Nat} (hv : v < n) : Before u v i n ↔ u < i + 1 := by
  unfold Before
  omega

theorem before_succ {u v i k : Nat} : Before u v i (k + 1) ↔ Before u v i k ∨ u = i ∧ v = k := by
  unfold Before
  omega

/-- Writing the cell `q` that belongs to the indices `(i, k)`. -/
theorem update_before {u v : Nat → Nat} {q i k : Nat} (hq : ∀ p, p = q ↔ u p = i ∧ v p = k)
    (new old : Nat → K) :
    Function.update (fun p => if Before (u p) (v p) i k then new p else old p) q (new q) =
      fun p => if Before (u p) (v p) i (k + 1) then new p else old p := by
  funext p
  by_cases hp : p = q
  · subst hp
    rw [Function.update_self, if_pos (before_succ.mpr (.inr ((hq p).mp rfl)))]
  · rw [Function.update_of_ne hp]
    refine if_congr ?_ rfl rfl
    rw [before_succ, ← hq p, or_iff_left hp]

end HolLambdas.RowMajor
