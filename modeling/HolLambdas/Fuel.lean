import Mathlib.Order.Filter.AtTopBot.Basic

/-!
# Computations that can fail, and computations on fuel

Reasoning about `Except` programs one step at a time: what a successful
sequence or loop must have done, and the converse.

A recursive procedure with no structural measure is embedded as a function of
a fuel counter that reports an error when the counter runs out. What such a
procedure *computes* is the value it returns at every sufficiently large
counter: `Settles f a`. The statement contains termination — a procedure that
runs out of fuel at every counter settles on nothing — and it needs no
monotonicity lemma, because "from some counter on" composes by itself: two
facts that hold eventually hold together eventually.

The rules below follow the shape of the programs they are used on: `pure`,
`bind`, and the unrolling step `f (n + 1)`.
-/

namespace HolLambdas

open Filter (atTop Eventually)

variable {ε α β : Type}

/-! ## Sequences -/

theorem ok_bind (a : α) (f : α → Except ε β) : (Except.ok a >>= f) = f a := rfl

variable {x : Except ε α} {b : β} {g : α × Nat → Except ε β} {xs : List α} {p : Nat} {e : ε}
  {f : Nat → Except ε α} {a : α}

/-- A sequence of two computations succeeds when both do. -/
theorem bind_eq_ok {f : α → Except ε β} : x >>= f = .ok b ↔ ∃ a, x = .ok a ∧ f a = .ok b := by
  cases x with
  | error e =>
    constructor
    · intro h
      cases h
    · rintro ⟨_, h, _⟩
      cases h
  | ok a =>
    constructor
    · intro h
      exact ⟨a, rfl, h⟩
    · rintro ⟨_, ha, h⟩
      cases ha
      exact h

theorem map_eq_ok {g : α → β} : g <$> x = .ok b ↔ ∃ a, x = .ok a ∧ b = g a := by
  cases x with
  | error e =>
    constructor
    · intro h
      cases h
    · rintro ⟨a, ha, _⟩
      cases ha
  | ok a =>
    constructor
    · intro h
      cases h
      exact ⟨a, rfl, rfl⟩
    · rintro ⟨a', ha, rfl⟩
      cases ha
      rfl

/-! ## Loops -/

/-- A loop over a list and its positions succeeds when every round does. -/
theorem zipIdx_mapM_eq_ok {ys : List β} :
    (xs.zipIdx p).mapM g = .ok ys ↔
      ys.length = xs.length ∧
        ∀ i x, xs[i]? = some x → ∃ y, ys[i]? = some y ∧ g (x, p + i) = .ok y := by
  induction xs generalizing ys p with
  | nil =>
    simp only [List.zipIdx_nil, List.mapM_nil, List.length_nil, List.length_eq_zero_iff]
    constructor
    · intro h
      cases h
      exact ⟨rfl, fun i x hx => by simp at hx⟩
    · rintro ⟨rfl, _⟩
      rfl
  | cons x xs ih =>
    simp only [List.zipIdx_cons, List.mapM_cons]
    constructor
    · intro h
      obtain ⟨y, hy, h⟩ := bind_eq_ok.mp h
      obtain ⟨ys', hys, h⟩ := bind_eq_ok.mp h
      cases h
      obtain ⟨hlen, hget⟩ := ih.mp hys
      refine ⟨by simp [hlen], fun i z hz => ?_⟩
      cases i with
      | zero =>
        cases hz
        exact ⟨y, rfl, hy⟩
      | succ i =>
        obtain ⟨w, hw, hg⟩ := hget i z (by simpa using hz)
        exact ⟨w, by simpa using hw, by rw [← hg, Nat.add_assoc, Nat.add_comm 1 i]⟩
    · rintro ⟨hlen, hget⟩
      cases ys with
      | nil => simp at hlen
      | cons y ys =>
        obtain ⟨w, hw, hg⟩ := hget 0 x rfl
        cases hw
        have hrest : (xs.zipIdx (p + 1)).mapM g = .ok ys := by
          refine ih.mpr ⟨by simpa using hlen, fun i z hz => ?_⟩
          obtain ⟨w, hw, hg⟩ := hget (i + 1) z (by simpa using hz)
          exact ⟨w, by simpa using hw, by rw [← hg, Nat.add_assoc, Nat.add_comm 1 i]⟩
        exact bind_eq_ok.mpr ⟨y, hg, bind_eq_ok.mpr ⟨ys, hrest, rfl⟩⟩

/-- An entry of the result comes from the entry of the input in its place. -/
theorem zipIdx_mapM_get {ys : List β} {i : Nat} {y : β} (h : (xs.zipIdx p).mapM g = .ok ys)
    (hi : ys[i]? = some y) :
    ∃ x, xs[i]? = some x ∧ g (x, p + i) = .ok y := by
  obtain ⟨hlen, hget⟩ := zipIdx_mapM_eq_ok.mp h
  have hlt := (List.getElem?_eq_some_iff.mp hi).1
  rw [hlen] at hlt
  obtain ⟨y', hy', hg⟩ := hget i _ (List.getElem?_eq_getElem hlt)
  rw [hi] at hy'
  cases hy'
  exact ⟨_, List.getElem?_eq_getElem hlt, hg⟩

theorem exists_zipIdx_mapM (h : ∀ i x, xs[i]? = some x → ∃ y, g (x, p + i) = .ok y) :
    ∃ ys, (xs.zipIdx p).mapM g = .ok ys := by
  induction xs generalizing p with
  | nil => exact ⟨[], rfl⟩
  | cons x xs ih =>
    obtain ⟨y, hy⟩ := h 0 x rfl
    obtain ⟨ys, hys⟩ := ih (p := p + 1) fun i z hz => by
      obtain ⟨w, hw⟩ := h (i + 1) z (by simpa using hz)
      exact ⟨w, by rw [← hw, Nat.add_assoc, Nat.add_comm 1 i]⟩
    refine ⟨y :: ys, ?_⟩
    rw [List.zipIdx_cons, List.mapM_cons]
    exact bind_eq_ok.mpr ⟨y, hy, bind_eq_ok.mpr ⟨ys, hys, rfl⟩⟩

/-- Two loops whose rounds agree return the same. -/
theorem zipIdx_mapM_congr {γ : Type} {h : γ × Nat → Except ε β} {ys : List γ}
    (hlen : xs.length = ys.length)
    (hround : ∀ i x y, xs[i]? = some x → ys[i]? = some y → g (x, p + i) = h (y, p + i)) :
    (xs.zipIdx p).mapM g = (ys.zipIdx p).mapM h := by
  induction xs generalizing ys p with
  | nil =>
    cases ys with
    | nil => rfl
    | cons y ys => simp at hlen
  | cons x xs ih =>
    cases ys with
    | nil => simp at hlen
    | cons y ys =>
      have hrest : (xs.zipIdx (p + 1)).mapM g = (ys.zipIdx (p + 1)).mapM h := by
        refine ih (by simpa using hlen) fun i z w hz hw => ?_
        have := hround (i + 1) z w (by simpa using hz) (by simpa using hw)
        rwa [Nat.add_comm i 1, ← Nat.add_assoc] at this
      rw [List.zipIdx_cons, List.zipIdx_cons, List.mapM_cons, List.mapM_cons, hrest,
        show g (x, p) = h (y, p) from hround 0 x y rfl rfl]

/-- From some fuel on, `f` returns `a`. -/
def Settles (f : Nat → Except ε α) (a : α) : Prop :=
  ∀ᶠ n in atTop, f n = .ok a

/-- From some fuel on, `f` fails with `e`. -/
def Fails (f : Nat → Except ε α) (e : ε) : Prop :=
  ∀ᶠ n in atTop, f n = .error e

theorem settles_const (h : x = .ok a) : Settles (fun _ => x) a :=
  Filter.Eventually.of_forall fun _ => h

/-- A fuelled computation settles on at most one value. -/
theorem Settles.unique {b : α} (ha : Settles f a) (hb : Settles f b) : a = b := by
  obtain ⟨n, han, hbn⟩ := (ha.and hb).exists
  rw [han] at hbn
  exact Except.ok.inj hbn

/-- Sequencing: the second computation runs on what the first settled on. -/
theorem Settles.bind {g : Nat → α → Except ε β} (hf : Settles f a)
    (hg : Settles (fun n => g n a) b) : Settles (fun n => f n >>= g n) b := by
  filter_upwards [hf, hg] with n hfn hgn
  rw [hfn]
  exact hgn

/-- Replacing a fuelled computation by one that agrees with it whenever it
succeeds. -/
theorem Settles.mono {ε' : Type} {g : Nat → Except ε' β} (hf : Settles f a)
    (h : ∀ n, f n = .ok a → g n = .ok b) : Settles g b :=
  Filter.Eventually.mono hf h

/-- Unrolling: what holds from some point on of the successors holds from some point on. -/
theorem eventually_of_succ {q : Nat → Prop} (h : ∀ᶠ n in atTop, q (n + 1)) :
    ∀ᶠ n in atTop, q n := by
  obtain ⟨N, hN⟩ := Filter.eventually_atTop.mp h
  refine Filter.eventually_atTop.mpr ⟨N + 1, fun n hn => ?_⟩
  cases n with
  | zero => omega
  | succ n => exact hN n (by omega)

theorem Settles.of_succ (h : Settles (fun n => f (n + 1)) a) : Settles f a :=
  eventually_of_succ h

/-- A sequence fails with its first part. -/
theorem Fails.bind {g : Nat → α → Except ε β} (hf : Fails f e) :
    Fails (fun n => f n >>= g n) e := by
  filter_upwards [hf] with n hfn
  rw [hfn]
  rfl

/-- …or with its second. -/
theorem Settles.bind_fails {g : Nat → α → Except ε β} (hf : Settles f a)
    (hg : Fails (fun n => g n a) e) : Fails (fun n => f n >>= g n) e := by
  filter_upwards [hf, hg] with n hfn hgn
  rw [hfn]
  exact hgn

theorem Fails.of_succ (h : Fails (fun n => f (n + 1)) e) : Fails f e :=
  eventually_of_succ h

theorem fails_of_succ (h : ∀ n, f (n + 1) = .error e) : Fails f e :=
  Fails.of_succ (Filter.Eventually.of_forall h)

end HolLambdas
