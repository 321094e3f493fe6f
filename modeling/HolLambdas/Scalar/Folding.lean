import HolLambdas.Fuel
import HolLambdas.Scalar.Parametric

/-!
# Constant folding keeps the meaning

`eval_const_expressions` can raise: a call on constants that raises is raised by
the folding itself. Reasoning about it goes through a companion that cannot.
`foldTotal` leaves a call alone when evaluating it would raise; whenever the
real folding returns, it returns what `foldTotal` does.

`FoldLaws` lists what an algebra must satisfy, up to a relation on its carrier,
for the rewritings of the folder to be invisible in it: dropping the arguments
of a strict call next to a NULL constant, evaluating a call on constants,
deciding a `CASE` or a `COALESCE`. Then `foldTotal e` and `e` have related
meanings (`HasType.fold_rel`). The folder also rewrites the bodies of embedded
lambdas, so functions are compared as in `Parametric`, by what they do.
-/

namespace HolLambdas.Scalar

variable {F V D : Type}

/-! ## Folding that cannot raise -/

section Total

variable (cat : ProcCatalog F) (isTrue : V → Bool)
variable (fn : F → List (Option V) → Except LambdaError (Option V))

/-- Evaluate a call on constants, or leave it alone if that would raise. -/
def evalIfOk (f : F) (vs : List (Option V)) : Id (Option (Option V)) :=
  match fn f vs with
  | .ok v => some v
  | .error _ => none

/-- The folder where a call that raises is left in place. -/
def foldTotal (e : Expr F V) : Expr F V :=
  evalConstExpressionsWith (m := Id) cat isTrue (evalIfOk fn) e

def foldTotalArgs (es : List (Expr F V)) : List (Expr F V) :=
  evalConstExpressionsArgs (m := Id) cat isTrue (evalIfOk fn) es

/-- A call on folded arguments. -/
def foldedCall (f : F) (args : List (Expr F V)) : Expr F V :=
  evaluateFunction (m := Id) cat (evalIfOk fn) f args

end Total

section Equations

variable {cat : ProcCatalog F} {isTrue : V → Bool}
variable {fn : F → List (Option V) → Except LambdaError (Option V)}

theorem foldTotal_func (f : F) (args : List (Expr F V)) :
    foldTotal cat isTrue fn (.func f args) =
      foldedCall cat fn f (foldTotalArgs cat isTrue fn args) := rfl

theorem foldTotal_caseWhen (t : Oid) (c r d : Expr F V) :
    foldTotal cat isTrue fn (.caseWhen t c r d) =
      match (foldTotal cat isTrue fn c).constValue? with
      | some v =>
        if condHolds isTrue v then foldTotal cat isTrue fn r else foldTotal cat isTrue fn d
      | none => .caseWhen t (foldTotal cat isTrue fn c) (foldTotal cat isTrue fn r)
          (foldTotal cat isTrue fn d) := rfl

theorem foldTotal_coalesce (t : Oid) (a b : Expr F V) :
    foldTotal cat isTrue fn (.coalesce t a b) =
      match (foldTotal cat isTrue fn a).constValue? with
      | some none => foldTotal cat isTrue fn b
      | some (some _) => foldTotal cat isTrue fn a
      | none => .coalesce t (foldTotal cat isTrue fn a) (foldTotal cat isTrue fn b) := rfl

theorem foldTotal_lfa (name : List String) (t : Oid) (k : Nat) (args : List (Expr F V)) :
    foldTotal cat isTrue fn (.lfa name t k args) =
      .lfa name t k (foldTotalArgs cat isTrue fn args) := rfl

theorem foldTotal_lambda (h : LambdaHeader) (e : Expr F V) :
    foldTotal cat isTrue fn (.lambda h e) = .lambda h (foldTotal cat isTrue fn e) := rfl

theorem foldTotalArgs_cons (e : Expr F V) (es : List (Expr F V)) :
    foldTotalArgs cat isTrue fn (e :: es) =
      foldTotal cat isTrue fn e :: foldTotalArgs cat isTrue fn es := rfl

theorem foldTotalArgs_eq_map (es : List (Expr F V)) :
    foldTotalArgs cat isTrue fn es = es.map (foldTotal cat isTrue fn) := by
  induction es with
  | nil => rfl
  | cons e es ih => rw [foldTotalArgs_cons, ih, List.map_cons]

theorem foldTotalArgs_length (es : List (Expr F V)) :
    (foldTotalArgs cat isTrue fn es).length = es.length := by
  rw [foldTotalArgs_eq_map, List.length_map]

/-- What a folded call is: NULL next to a NULL constant if strict, the value if
it can be computed, and otherwise a call. -/
theorem foldedCall_cases (f : F) (args : List (Expr F V)) :
    (cat.proisstrict f = true ∧ args.any Expr.isNullConst = true ∧
      foldedCall cat fn f args = .const (cat.prorettype f) none) ∨
    (¬ (cat.proisstrict f = true ∧ args.any Expr.isNullConst = true) ∧
      ((∃ vs v, Expr.constValues? args = some vs ∧ cat.provolatile f = .immutable ∧
          fn f vs = .ok v ∧ foldedCall cat fn f args = .const (cat.prorettype f) v) ∨
        foldedCall cat fn f args = .func f args)) := by
  by_cases hnull : (cat.proisstrict f && args.any Expr.isNullConst) = true
  · rw [Bool.and_eq_true] at hnull
    exact .inl ⟨hnull.1, hnull.2, by simp [foldedCall, evaluateFunction, hnull]; rfl⟩
  · have hnull' : ¬ (cat.proisstrict f = true ∧ args.any Expr.isNullConst = true) := by
      rwa [Bool.and_eq_true] at hnull
    refine .inr ⟨hnull', ?_⟩
    by_cases himm : cat.provolatile f = .immutable
    · cases hvs : Expr.constValues? args with
      | none =>
        right
        simp only [foldedCall, evaluateFunction, hnull, himm, if_true, hvs]
        rfl
      | some vs =>
        cases hv : fn f vs with
        | ok v =>
          refine .inl ⟨vs, v, rfl, himm, hv, ?_⟩
          simp only [foldedCall, evaluateFunction, hnull, himm, if_true, hvs, evalIfOk, hv]
          rfl
        | error err =>
          right
          simp only [foldedCall, evaluateFunction, hnull, himm, if_true, hvs, evalIfOk, hv]
          rfl
    · right
      simp only [foldedCall, evaluateFunction, hnull, if_false, himm]
      rfl

mutual

/-- Folding again changes nothing. -/
theorem foldTotal_foldTotal : ∀ e : Expr F V,
    foldTotal cat isTrue fn (foldTotal cat isTrue fn e) = foldTotal cat isTrue fn e
  | .const _ _ => rfl
  | .param _ _ => rfl
  | .func f args => by
    rw [foldTotal_func]
    rcases foldedCall_cases f (foldTotalArgs cat isTrue fn args) with
      ⟨_, _, heq⟩ | ⟨_, ⟨_, _, _, _, _, heq⟩ | heq⟩
    · rw [heq]
      rfl
    · rw [heq]
      rfl
    · rw [heq, foldTotal_func, foldTotalArgs_foldTotalArgs args, heq]
  | .caseWhen t c r d => by
    rw [foldTotal_caseWhen]
    cases hc : (foldTotal cat isTrue fn c).constValue? with
    | some v =>
      show foldTotal cat isTrue fn (if condHolds isTrue v then _ else _) =
        if condHolds isTrue v then _ else _
      split
      · exact foldTotal_foldTotal r
      · exact foldTotal_foldTotal d
    | none =>
      rw [foldTotal_caseWhen, foldTotal_foldTotal c, foldTotal_foldTotal r, foldTotal_foldTotal d,
        hc]
  | .coalesce t a b => by
    rw [foldTotal_coalesce]
    cases ha : (foldTotal cat isTrue fn a).constValue? with
    | some v =>
      cases v with
      | none => exact foldTotal_foldTotal b
      | some w => exact foldTotal_foldTotal a
    | none => rw [foldTotal_coalesce, foldTotal_foldTotal a, foldTotal_foldTotal b, ha]
  | .lfa name t k args => by
    rw [foldTotal_lfa, foldTotal_lfa, foldTotalArgs_foldTotalArgs args]
  | .lambda h e => by rw [foldTotal_lambda, foldTotal_lambda, foldTotal_foldTotal e]

theorem foldTotalArgs_foldTotalArgs : ∀ es : List (Expr F V),
    foldTotalArgs cat isTrue fn (foldTotalArgs cat isTrue fn es) = foldTotalArgs cat isTrue fn es
  | [] => rfl
  | e :: es => by
    rw [foldTotalArgs_cons, foldTotalArgs_cons, foldTotal_foldTotal e,
      foldTotalArgs_foldTotalArgs es]

end

end Equations

/-! ## The folding of the source -/

section Source

variable {cat : ProcCatalog F} {isTrue : V → Bool}
variable {fn : F → List (Option V) → Except LambdaError (Option V)}

theorem evaluateFunction_ok {f : F} {args : List (Expr F V)} {e : Expr F V}
    (h : evaluateFunction cat (fun f vs => some <$> fn f vs) f args = .ok e) :
    foldedCall cat fn f args = e := by
  unfold evaluateFunction at h
  unfold foldedCall evaluateFunction
  split at h
  next hnull =>
    cases h
    rw [if_pos hnull]
    rfl
  next hnull =>
    rw [if_neg hnull]
    split at h
    next himm =>
      rw [if_pos himm]
      split at h
      next vs hvs =>
        obtain ⟨w, hw, h⟩ := bind_eq_ok.mp h
        cases hv : fn f vs with
        | error err =>
          simp only [hv] at hw
          cases hw
        | ok v =>
          simp only [hv] at hw
          cases hw
          cases h
          simp only [evalIfOk, hv]
          rfl
      next hvs =>
        cases h
        rfl
    next himm =>
      cases h
      rw [if_neg himm]
      rfl

mutual

/-- A fold that returns is the total one. -/
theorem evalConstExpressionsWith_ok : ∀ {e e' : Expr F V},
    evalConstExpressionsWith cat isTrue (fun f vs => some <$> fn f vs) e = .ok e' →
    foldTotal cat isTrue fn e = e'
  | .const t v, e', h => by
    cases h
    rfl
  | .param k t, e', h => by
    cases h
    rfl
  | .func f args, e', h => by
    obtain ⟨args', hargs, h⟩ := bind_eq_ok.mp h
    rw [foldTotal_func, evalConstExpressionsArgs_ok hargs]
    exact evaluateFunction_ok h
  | .caseWhen t c r d, e', h => by
    obtain ⟨c', hc, h⟩ := bind_eq_ok.mp h
    rw [foldTotal_caseWhen, evalConstExpressionsWith_ok hc]
    cases hv : c'.constValue? with
    | some v =>
      simp only [hv] at h ⊢
      split at h
      next hcond =>
        rw [if_pos hcond]
        exact evalConstExpressionsWith_ok h
      next hcond =>
        rw [if_neg hcond]
        exact evalConstExpressionsWith_ok h
    | none =>
      simp only [hv] at h ⊢
      obtain ⟨r', hr, h⟩ := bind_eq_ok.mp h
      obtain ⟨d', hd, h⟩ := bind_eq_ok.mp h
      cases h
      rw [evalConstExpressionsWith_ok hr, evalConstExpressionsWith_ok hd]
  | .coalesce t a b, e', h => by
    obtain ⟨a', ha, h⟩ := bind_eq_ok.mp h
    rw [foldTotal_coalesce, evalConstExpressionsWith_ok ha]
    match hv : a'.constValue? with
    | some none =>
      simp only [hv] at h ⊢
      exact evalConstExpressionsWith_ok h
    | some (some v) =>
      simp only [hv] at h ⊢
      cases h
      rfl
    | none =>
      simp only [hv] at h ⊢
      obtain ⟨b', hb, h⟩ := bind_eq_ok.mp h
      cases h
      rw [evalConstExpressionsWith_ok hb]
  | .lfa name t k args, e', h => by
    obtain ⟨args', hargs, h⟩ := bind_eq_ok.mp h
    cases h
    rw [foldTotal_lfa, evalConstExpressionsArgs_ok hargs]
  | .lambda hd e, e', h => by
    obtain ⟨e'', he, h⟩ := bind_eq_ok.mp h
    cases h
    rw [foldTotal_lambda, evalConstExpressionsWith_ok he]

theorem evalConstExpressionsArgs_ok : ∀ {es es' : List (Expr F V)},
    evalConstExpressionsArgs cat isTrue (fun f vs => some <$> fn f vs) es = .ok es' →
    foldTotalArgs cat isTrue fn es = es'
  | [], es', h => by
    cases h
    rfl
  | e :: es, es', h => by
    obtain ⟨e', he, h⟩ := bind_eq_ok.mp h
    obtain ⟨es'', hes, h⟩ := bind_eq_ok.mp h
    cases h
    rw [foldTotalArgs_cons, evalConstExpressionsWith_ok he, evalConstExpressionsArgs_ok hes]

end

/-- When constant folding returns, it returns what the total folding does. -/
theorem foldTotal_of_evalConstExpressions {e e' : Expr F V}
    (h : evalConstExpressions cat (raisingRuntime fn isTrue) e = .ok e') :
    foldTotal cat isTrue fn e = e' :=
  evalConstExpressionsWith_ok h

theorem exists_evaluateFunction (hfn : ∀ f vs, ∃ v, fn f vs = .ok v) (f : F)
    (args : List (Expr F V)) :
    ∃ e, evaluateFunction cat (fun f vs => some <$> fn f vs) f args = .ok e := by
  unfold evaluateFunction
  split
  · exact ⟨_, rfl⟩
  · split
    · split
      next vs _ =>
        obtain ⟨v, hv⟩ := hfn f vs
        refine ⟨.const (cat.prorettype f) v, ?_⟩
        simp only [hv]
        rfl
      next => exact ⟨_, rfl⟩
    · exact ⟨_, rfl⟩

mutual

/-- Where no function raises, folding returns. -/
theorem exists_evalConstExpressionsWith (hfn : ∀ f vs, ∃ v, fn f vs = .ok v) :
    ∀ e : Expr F V, ∃ e', evalConstExpressionsWith cat isTrue (fun f vs => some <$> fn f vs) e =
      .ok e'
  | .const t v => ⟨_, rfl⟩
  | .param k t => ⟨_, rfl⟩
  | .func f args => by
    obtain ⟨args', hargs⟩ := exists_evalConstExpressionsArgs hfn args
    obtain ⟨e', he⟩ := exists_evaluateFunction hfn f args'
    exact ⟨e', bind_eq_ok.mpr ⟨args', hargs, he⟩⟩
  | .caseWhen t c r d => by
    obtain ⟨c', hc⟩ := exists_evalConstExpressionsWith hfn c
    obtain ⟨r', hr⟩ := exists_evalConstExpressionsWith hfn r
    obtain ⟨d', hd⟩ := exists_evalConstExpressionsWith hfn d
    cases hv : c'.constValue? with
    | some v =>
      by_cases hcond : condHolds isTrue v = true
      · exact ⟨r', bind_eq_ok.mpr ⟨c', hc, by simp only [hv, hcond, if_true, hr]⟩⟩
      · exact ⟨d', bind_eq_ok.mpr ⟨c', hc, by simp only [hv, hcond, hd]; rfl⟩⟩
    | none =>
      refine ⟨.caseWhen t c' r' d', bind_eq_ok.mpr ⟨c', hc, ?_⟩⟩
      simp only [hv, hr, hd]
      rfl
  | .coalesce t a b => by
    obtain ⟨a', ha⟩ := exists_evalConstExpressionsWith hfn a
    obtain ⟨b', hb⟩ := exists_evalConstExpressionsWith hfn b
    match hv : a'.constValue? with
    | some none => exact ⟨b', bind_eq_ok.mpr ⟨a', ha, by simp only [hv, hb]⟩⟩
    | some (some _) => exact ⟨a', bind_eq_ok.mpr ⟨a', ha, by simp only [hv]; rfl⟩⟩
    | none => exact ⟨_, bind_eq_ok.mpr ⟨a', ha, by simp only [hv, hb]; rfl⟩⟩
  | .lfa name t k args => by
    obtain ⟨args', hargs⟩ := exists_evalConstExpressionsArgs hfn args
    exact ⟨_, bind_eq_ok.mpr ⟨args', hargs, rfl⟩⟩
  | .lambda hd e => by
    obtain ⟨e', he⟩ := exists_evalConstExpressionsWith hfn e
    exact ⟨_, bind_eq_ok.mpr ⟨e', he, rfl⟩⟩

theorem exists_evalConstExpressionsArgs (hfn : ∀ f vs, ∃ v, fn f vs = .ok v) :
    ∀ es : List (Expr F V),
      ∃ es', evalConstExpressionsArgs cat isTrue (fun f vs => some <$> fn f vs) es = .ok es'
  | [] => ⟨_, rfl⟩
  | e :: es => by
    obtain ⟨e', he⟩ := exists_evalConstExpressionsWith hfn e
    obtain ⟨es', hes⟩ := exists_evalConstExpressionsArgs hfn es
    exact ⟨_, bind_eq_ok.mpr ⟨e', he, bind_eq_ok.mpr ⟨es', hes, rfl⟩⟩⟩

end

end Source

/-! ## Folding keeps types -/

theorem Expr.constValue?_eq_some {e : Expr F V} {v : Option V} (h : e.constValue? = some v) :
    ∃ t, e = .const t v := by
  cases e with
  | const t w =>
    cases h
    exact ⟨t, rfl⟩
  | _ => cases h

section Types

variable {cat : ProcCatalog F} {isTrue : V → Bool}
variable {fn : F → List (Option V) → Except LambdaError (Option V)}

mutual

/-- Folding keeps the type. -/
theorem HasType.foldTotal : ∀ {e : Expr F V} {Γ : List LambdaSigType} {τ : LambdaSigType},
    HasType cat Γ e τ → HasType cat Γ (foldTotal cat isTrue fn e) τ
  | .const t v, Γ, τ, h => h
  | .param k t, Γ, τ, h => h
  | .func f args, Γ, τ, h => by
    rw [foldTotal_func]
    rcases foldedCall_cases f (foldTotalArgs cat isTrue fn args) with
      ⟨_, _, heq⟩ | ⟨_, ⟨vs, v, _, _, _, heq⟩ | heq⟩
    · rw [heq]
      exact h.1
    · rw [heq]
      exact h.1
    · rw [heq]
      exact ⟨h.1, h.2.foldTotalArgs⟩
  | .caseWhen t c r d, Γ, τ, h => by
    obtain ⟨hτ, ⟨b, hc⟩, hr, hd⟩ := h
    rw [foldTotal_caseWhen]
    split
    next v _ =>
      split
      · exact hr.foldTotal
      · exact hd.foldTotal
    next =>
      exact ⟨hτ, ⟨b, hc.foldTotal⟩, hr.foldTotal, hd.foldTotal⟩
  | .coalesce t a b, Γ, τ, h => by
    obtain ⟨hτ, ha, hb⟩ := h
    rw [foldTotal_coalesce]
    split
    next => exact hb.foldTotal
    next => exact ha.foldTotal
    next =>
      exact ⟨hτ, ha.foldTotal, hb.foldTotal⟩
  | .lfa name t k args, Γ, τ, h => by
    obtain ⟨hτ, σs, hk, hargs⟩ := h
    rw [foldTotal_lfa]
    exact ⟨hτ, σs, hk, hargs.foldTotalArgs⟩
  | .lambda hd e, Γ, τ, h => by
    obtain ⟨σs, ρ, hτ, hn, he⟩ := h
    rw [foldTotal_lambda]
    exact ⟨σs, ρ, hτ, hn, he.foldTotal⟩

theorem HasTypes.foldTotalArgs : ∀ {es : List (Expr F V)} {Γ σs : List LambdaSigType},
    HasTypes cat Γ es σs → HasTypes cat Γ (foldTotalArgs cat isTrue fn es) σs
  | [], Γ, σs, h => h
  | e :: es, Γ, σs, h => by
    obtain ⟨σ, σs', hσ, he, hes⟩ := h
    rw [foldTotalArgs_cons]
    exact ⟨σ, σs', hσ, he.foldTotal, hes.foldTotalArgs⟩

end

end Types

/-! ## Folding keeps the meaning -/

/-- Up to `P`, the algebra does not see what constant folding does. The left side
of `P` is the folded one. -/
structure FoldLaws (cat : ProcCatalog F) (isTrue : V → Bool)
    (fn : F → List (Option V) → Except LambdaError (Option V)) (A : ScalarAlgebra F V D)
    (P : D → D → Prop) : Prop where
  rel : AlgebraRel A A P
  strictNull : ∀ f {ds ds' t}, cat.proisstrict f = true → List.Forall₂ P ds ds' →
    A.const t none ∈ ds → P (A.const (cat.prorettype f) none) (A.func f ds')
  evaluated : ∀ f {vs v ds'}, cat.provolatile f = .immutable → fn f vs = .ok v →
    ¬ (cat.proisstrict f = true ∧ none ∈ vs) →
    List.Forall₂ (fun v d => ∃ t, P (A.const t v) d) vs ds' →
    P (A.const (cat.prorettype f) v) (A.func f ds')
  caseTrue : ∀ t {s v c x r} d, P (A.const s v) c → condHolds isTrue v = true → P x r →
    P x (A.caseWhen t c r d)
  caseFalse : ∀ t {s v c x d} r, P (A.const s v) c → condHolds isTrue v = false → P x d →
    P x (A.caseWhen t c r d)
  coalesceNull : ∀ t {s a x b}, P (A.const s none) a → P x b → P x (A.coalesce t a b)
  coalesceConst : ∀ t {s v a} b, P (A.const s (some v)) a →
    P (A.const s (some v)) (A.coalesce t a b)

section Meaning

variable {A : ScalarAlgebra F V D} {env : List (Entry F V D)}

/-- A NULL constant among the arguments of a call. -/
theorem exists_null_mem : ∀ {es : List (Expr F V)} {ds : List D},
    MeansArgs A env es (ds.map .val) → es.any Expr.isNullConst = true →
    ∃ t, A.const t none ∈ ds
  | [], ds, _, hnull => by simp at hnull
  | e :: es, ds, h, hnull => by
    obtain ⟨d, ds', rfl, he, hes⟩ := h.cons_val_inv
    simp only [List.any_cons, Bool.or_eq_true] at hnull
    rcases hnull with hnull | hnull
    · match e, hnull with
      | .const t none, _ => exact ⟨t, by rw [he.const_inv]; exact .head _⟩
    · obtain ⟨t, ht⟩ := exists_null_mem hes hnull
      exact ⟨t, .tail _ ht⟩

/-- The arguments of a call are constants. -/
theorem constValues?_means : ∀ {es : List (Expr F V)} {ds : List D} {vs : List (Option V)},
    MeansArgs A env es (ds.map .val) → Expr.constValues? es = some vs →
    List.Forall₂ (fun v d => ∃ t, d = A.const t v) vs ds
  | [], ds, vs, h, hvs => by
    cases hvs
    rw [h.nil_val_inv]
    exact .nil
  | e :: es, ds, vs, h, hvs => by
    obtain ⟨d, ds', rfl, he, hes⟩ := h.cons_val_inv
    simp only [Expr.constValues?] at hvs
    split at hvs
    next v vs' hv hvs' =>
      cases hvs
      obtain ⟨t, rfl⟩ := Expr.constValue?_eq_some hv
      exact .cons ⟨t, he.const_inv⟩ (constValues?_means hes hvs')
    next => cases hvs

theorem isNullConst_of_constValues? : ∀ {es : List (Expr F V)} {vs : List (Option V)},
    Expr.constValues? es = some vs → none ∈ vs → es.any Expr.isNullConst = true
  | [], vs, h, hmem => by
    cases h
    cases hmem
  | e :: es, vs, h, hmem => by
    simp only [Expr.constValues?] at h
    split at h
    next v vs' hv hvs' =>
      cases h
      obtain ⟨t, rfl⟩ := Expr.constValue?_eq_some hv
      simp only [List.any_cons, Bool.or_eq_true]
      cases hmem with
      | head => exact .inl rfl
      | tail _ hmem => exact .inr (isNullConst_of_constValues? hvs' hmem)
    next => cases h

variable {cat : ProcCatalog F} {isTrue : V → Bool}
variable {fn : F → List (Option V) → Except LambdaError (Option V)} {P : D → D → Prop}

variable {env' : List (Entry F V D)}

/-- A call on folded arguments, against the call on the arguments. -/
theorem foldedCall_rel (hP : FoldLaws cat isTrue fn A P) {f : F} {es es' : List (Expr F V)}
    {ds ds' : List D} (hes : MeansArgs A env es (ds.map .val))
    (hes' : MeansArgs A env' es' (ds'.map .val)) (hds : List.Forall₂ P ds ds') :
    ∃ x x', Means A env (foldedCall cat fn f es) (.val x) ∧
      Means A env' (.func f es') (.val x') ∧ P x x' := by
  rcases foldedCall_cases f es with
    ⟨hstrict, hnull, heq⟩ | ⟨hnull, ⟨vs, v, hvs, himm, hv, heq⟩ | heq⟩
  · obtain ⟨t, hmem⟩ := exists_null_mem hes hnull
    rw [heq]
    exact ⟨_, _, Means.const, Means.func hes', hP.strictNull f hstrict hds hmem⟩
  · have hconsts : List.Forall₂ (fun v d => ∃ t, P (A.const t v) d) vs ds' := by
      refine forall₂_comp ?_ (constValues?_means hes hvs) hds
      rintro w d d' ⟨t, rfl⟩ hd
      exact ⟨t, hd⟩
    have hnot : ¬ (cat.proisstrict f = true ∧ none ∈ vs) := fun h =>
      hnull ⟨h.1, isNullConst_of_constValues? hvs h.2⟩
    rw [heq]
    exact ⟨_, _, Means.const, Means.func hes', hP.evaluated f himm hv hnot hconsts⟩
  · rw [heq]
    exact ⟨_, _, Means.func hes, Means.func hes', hP.rel.func f hds⟩

/-- A folded operand that is a constant means that constant. -/
theorem const_rel_of_constValue? {e : Expr F V} {v : Option V} {x x' : D}
    (hv : e.constValue? = some v) (h : Means A env e (.val x)) (hx : P x x') :
    ∃ t, e = .const t v ∧ P (A.const t v) x' := by
  obtain ⟨t, rfl⟩ := Expr.constValue?_eq_some hv
  rw [h.const_inv] at hx
  exact ⟨t, rfl, hx⟩

theorem foldTotal_caseWhen_rel (hP : FoldLaws cat isTrue fn A P) {t : Oid} {c r d : Expr F V}
    {xc xc' xr xr' xd xd' : D} (mc : Means A env (foldTotal cat isTrue fn c) (.val xc))
    (mr : Means A env (foldTotal cat isTrue fn r) (.val xr))
    (md : Means A env (foldTotal cat isTrue fn d) (.val xd)) (pc : P xc xc') (pr : P xr xr')
    (pd : P xd xd') :
    ∃ x, Means A env (foldTotal cat isTrue fn (.caseWhen t c r d)) (.val x) ∧
      P x (A.caseWhen t xc' xr' xd') := by
  rw [foldTotal_caseWhen]
  split
  next v hv =>
    obtain ⟨s, _, hs⟩ := const_rel_of_constValue? hv mc pc
    split
    next hcond => exact ⟨_, mr, hP.caseTrue t _ hs hcond pr⟩
    next hcond => exact ⟨_, md, hP.caseFalse t _ hs (by simpa using hcond) pd⟩
  next => exact ⟨_, Means.caseWhen mc mr md, hP.rel.caseWhen t pc pr pd⟩

theorem foldTotal_coalesce_rel (hP : FoldLaws cat isTrue fn A P) {t : Oid} {a b : Expr F V}
    {xa xa' xb xb' : D} (ma : Means A env (foldTotal cat isTrue fn a) (.val xa))
    (mb : Means A env (foldTotal cat isTrue fn b) (.val xb)) (pa : P xa xa') (pb : P xb xb') :
    ∃ x, Means A env (foldTotal cat isTrue fn (.coalesce t a b)) (.val x) ∧
      P x (A.coalesce t xa' xb') := by
  rw [foldTotal_coalesce]
  split
  next hv =>
    obtain ⟨s, _, hs⟩ := const_rel_of_constValue? hv ma pa
    exact ⟨_, mb, hP.coalesceNull t hs pb⟩
  next v hv =>
    obtain ⟨s, heq, hs⟩ := const_rel_of_constValue? hv ma pa
    rw [heq]
    exact ⟨_, Means.const, hP.coalesceConst t _ hs⟩
  next => exact ⟨_, Means.coalesce ma mb, hP.rel.coalesce t pa pb⟩

mutual

/-- **Folding keeps the meaning.** In related environments the folded body and
the body have related meanings. -/
theorem HasType.fold_rel (hP : FoldLaws cat isTrue fn A P) : ∀ {e : Expr F V}
    {Γ : List LambdaSigType} {τ : LambdaSigType} {env env' : List (Entry F V D)},
    HasType cat Γ e τ → Rels A A P Γ env env' →
      ∃ E E', Means A env (foldTotal cat isTrue fn e) E ∧ Means A env' e E' ∧ Rel A A P τ E E'
  | .const t v, Γ, τ, env, env', ht, henv => ht.rel hP.rel henv
  | .param k t, Γ, τ, env, env', ht, henv => ht.rel hP.rel henv
  | .func f args, Γ, τ, env, env', ht, henv => by
    obtain ⟨rfl, hargs⟩ := ht
    obtain ⟨Es, Es', hEs, hEs', hrs⟩ := HasTypes.fold_rels hP hargs henv
    obtain ⟨ds, ds', rfl, rfl, hds⟩ := hrs.scalars
    obtain ⟨x, x', hx, hx', hrel⟩ := foldedCall_rel hP hEs hEs' hds
    exact ⟨_, _, hx, hx', by simpa only [Rel] using hrel⟩
  | .caseWhen t c r d, Γ, τ, env, env', ht, henv => by
    obtain ⟨rfl, ⟨b, hc⟩, hr, hd⟩ := ht
    obtain ⟨_, _, mc, mc', rc⟩ := HasType.fold_rel hP hc henv
    obtain ⟨_, _, mr, mr', rr⟩ := HasType.fold_rel hP hr henv
    obtain ⟨_, _, md, md', rd⟩ := HasType.fold_rel hP hd henv
    obtain ⟨_, _, rfl, rfl, pc⟩ := rc.scalar_inv
    obtain ⟨_, _, rfl, rfl, pr⟩ := rr.scalar_inv
    obtain ⟨_, _, rfl, rfl, pd⟩ := rd.scalar_inv
    obtain ⟨x, hx, hrel⟩ := foldTotal_caseWhen_rel hP mc mr md pc pr pd
    exact ⟨_, _, hx, Means.caseWhen mc' mr' md', by simpa only [Rel] using hrel⟩
  | .coalesce t a b, Γ, τ, env, env', ht, henv => by
    obtain ⟨rfl, ha, hb⟩ := ht
    obtain ⟨_, _, ma, ma', ra⟩ := HasType.fold_rel hP ha henv
    obtain ⟨_, _, mb, mb', rb⟩ := HasType.fold_rel hP hb henv
    obtain ⟨_, _, rfl, rfl, pa⟩ := ra.scalar_inv
    obtain ⟨_, _, rfl, rfl, pb⟩ := rb.scalar_inv
    obtain ⟨x, hx, hrel⟩ := foldTotal_coalesce_rel hP ma mb pa pb
    exact ⟨_, _, hx, Means.coalesce ma' mb', by simpa only [Rel] using hrel⟩
  | .lfa name t k args, Γ, τ, env, env', ht, henv => by
    obtain ⟨rfl, σs, hk, hargs⟩ := ht
    obtain ⟨Es, Es', hEs, hEs', hrs⟩ := HasTypes.fold_rels hP hargs henv
    have hlen := hargs.length_eq
    have hlen' : (foldTotalArgs cat isTrue fn args).length = σs.length := by
      rw [foldTotalArgs_length, hlen]
    rw [foldTotal_lfa]
    obtain ⟨C, C', hC, hC', hrel⟩ := henv.lookup hk
    rcases hrel.func_inv with ⟨h, e, h', e', rfl, rfl, hn, hn', happ⟩ | ⟨rfl, rfl⟩
    · obtain ⟨E, E', hE, hE', hr⟩ := happ Es Es' hrs
      obtain ⟨d, d', rfl, rfl, hd⟩ := hr.scalar_inv
      exact ⟨_, _, Means.lfa hC (hlen'.trans hn.symm) hEs hE,
        Means.lfa hC' (hlen.trans hn'.symm) hEs' hE', hr⟩
    · exact ⟨_, _, Means.lfaNul hC hEs, Means.lfaNul hC' hEs',
        by simpa only [Rel] using hP.rel.const t none⟩
  | .lambda h e, Γ, τ, env, env', ht, _ => by
    obtain ⟨σs, ρ, rfl, hn, he⟩ := ht
    rw [foldTotal_lambda]
    refine ⟨_, _, Means.lambda, Means.lambda, ?_⟩
    exact ⟨hn, hn, fun _ _ hEs => HasType.fold_rel hP he hEs⟩

theorem HasTypes.fold_rels (hP : FoldLaws cat isTrue fn A P) : ∀ {es : List (Expr F V)}
    {Γ σs : List LambdaSigType} {env env' : List (Entry F V D)},
    HasTypes cat Γ es σs → Rels A A P Γ env env' →
      ∃ Es Es', MeansArgs A env (foldTotalArgs cat isTrue fn es) Es ∧ MeansArgs A env' es Es' ∧
        Rels A A P σs Es Es'
  | [], Γ, σs, env, env', ht, henv => ht.rels hP.rel henv
  | e :: es, Γ, σs, env, env', ht, henv => by
    obtain ⟨σ, σs', rfl, he, hes⟩ := ht
    obtain ⟨E, E', m, m', hr⟩ := HasType.fold_rel hP he henv
    obtain ⟨Es, Es', ms, ms', hrs⟩ := HasTypes.fold_rels hP hes henv
    exact ⟨E :: Es, E' :: Es', MeansArgs.cons m ms, MeansArgs.cons m' ms',
      by simp only [Rels]; exact ⟨hr, hrs⟩⟩

end

end Meaning

end HolLambdas.Scalar
