import HolLambdas.Scalar.Hoisting

/-!
# Held and filled positions

A partial application splits the mother's positions into held and filled ones.
The held ones are renumbered densely, in order: `newidx` is the position of a
held input among the held ones, and `selectFrom` takes the sublist at the held
positions. The filled arguments of the call are spread over the mother's
positions before the bindings are built, which undoes taking the sublist.
-/

namespace HolLambdas.Scalar

variable {α β F V : Type}

/-! ## Taking the entries at some positions -/

section Select

variable {want : Nat → Bool}

/-- The number of wanted positions among the `i` from `p` on. -/
def countFrom (want : Nat → Bool) (p i : Nat) : Nat :=
  (List.range' p i).countP want

theorem countFrom_zero (p : Nat) : countFrom want p 0 = 0 := rfl

theorem countFrom_succ (p i : Nat) :
    countFrom want p (i + 1) = (if want p then 1 else 0) + countFrom want (p + 1) i := by
  simp only [countFrom, List.range'_succ, List.countP_cons]
  omega

theorem newidx_eq (i : Nat) : newidx want i = countFrom want 0 i := by
  rw [newidx, countFrom, List.range_eq_range']

/-- A wanted entry is found at its new position. -/
theorem selectFrom_getElem? : ∀ {xs : List α} {p i : Nat} {x : α}, xs[i]? = some x →
    want (p + i) = true → (selectFrom want p xs)[countFrom want p i]? = some x
  | [], _, _, _, hx, _ => by simp at hx
  | y :: xs, p, 0, x, hx, hw => by
    cases hx
    have hp : want p = true := hw
    simp [selectFrom, hp, countFrom_zero]
  | y :: xs, p, i + 1, x, hx, hw => by
    have hrest := selectFrom_getElem? (p := p + 1) (i := i) (show xs[i]? = some x by simpa using hx)
      (by rwa [Nat.add_assoc, Nat.add_comm 1 i])
    by_cases hp : want p = true
    · simpa [selectFrom, hp, countFrom_succ, Nat.add_comm 1] using hrest
    · simpa [selectFrom, hp, countFrom_succ] using hrest

/-- Every entry of the selection comes from a wanted position. -/
theorem selectFrom_inv : ∀ {xs : List α} {p j : Nat} {x : α},
    (selectFrom want p xs)[j]? = some x →
    ∃ i, xs[i]? = some x ∧ want (p + i) = true ∧ countFrom want p i = j
  | [], _, _, _, h => by simp [selectFrom] at h
  | y :: xs, p, j, x, h => by
    by_cases hp : want p = true
    · simp only [selectFrom, hp, if_true] at h
      cases j with
      | zero =>
        cases h
        exact ⟨0, rfl, hp, rfl⟩
      | succ j =>
        obtain ⟨i, hi, hw, hj⟩ := selectFrom_inv (by simpa using h)
        refine ⟨i + 1, by simpa using hi, by rwa [Nat.add_comm i 1, ← Nat.add_assoc], ?_⟩
        rw [countFrom_succ, if_pos hp, hj, Nat.add_comm]
    · simp only [selectFrom, hp] at h
      obtain ⟨i, hi, hw, hj⟩ := selectFrom_inv (by simpa using h)
      refine ⟨i + 1, by simpa using hi, by rwa [Nat.add_comm i 1, ← Nat.add_assoc], ?_⟩
      rw [countFrom_succ, if_neg hp, hj, Nat.zero_add]

/-- Two held positions have different numbers among the held ones. -/
theorem newidx_inj {p q : Nat} (hp : want p = true) (hq : want q = true)
    (h : newidx want p = newidx want q) : p = q := by
  -- both are looked up in the selection of the positions themselves
  have hlookup : ∀ i, i ≤ p + q → want i = true →
      (selectFrom want 0 (List.range (p + q + 1)))[newidx want i]? = some i := by
    intro i hi hw
    rw [newidx_eq]
    refine selectFrom_getElem? ?_ (by rwa [Nat.zero_add])
    rw [List.getElem?_range (by omega)]
  have hp' := hlookup p (by omega) hp
  rw [h, hlookup q (by omega) hq] at hp'
  cases hp'
  rfl

theorem selectFrom_forall₂ {R : α → β → Prop} {xs : List α} {ys : List β}
    (h : List.Forall₂ R xs ys) {p : Nat} :
    List.Forall₂ R (selectFrom want p xs) (selectFrom want p ys) := by
  induction h generalizing p with
  | nil => exact .nil
  | cons hr _ ih =>
    simp only [selectFrom]
    split
    · exact .cons hr ih
    · exact ih

theorem selectFrom_length_eq : ∀ {xs : List α} {ys : List β} {p : Nat},
    xs.length = ys.length →
    (selectFrom want p xs).length = (selectFrom want p ys).length
  | [], [], _, _ => rfl
  | x :: xs, y :: ys, p, h => by
    have hrest := selectFrom_length_eq (p := p + 1) (Nat.succ.inj h)
    by_cases hp : want p = true
    · simp [selectFrom, hp, hrest]
    · simp [selectFrom, hp, hrest]

end Select

/-! ## Spreading the filled arguments -/

/-- The arguments with nothing at the held positions. -/
def maskFrom (held : Nat → Bool) (p : Nat) :
    List (Option (Datum F V)) → List (Option (Datum F V))
  | [] => []
  | v :: vs => (if held p then none else v) :: maskFrom held (p + 1) vs

theorem maskFrom_getElem? {held : Nat → Bool} : ∀ {args : List (Option (Datum F V))} {p i : Nat},
    (maskFrom held p args)[i]? = args[i]?.map fun v => if held (p + i) then none else v
  | [], _, _ => rfl
  | _ :: _, _, 0 => rfl
  | v :: vs, p, i + 1 => by
    have hrest : (maskFrom held (p + 1) vs)[i]? = _ := maskFrom_getElem?
    rw [Nat.add_assoc, Nat.add_comm 1 i] at hrest
    simpa [maskFrom] using hrest

end HolLambdas.Scalar
