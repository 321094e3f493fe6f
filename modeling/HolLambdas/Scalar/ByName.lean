import HolLambdas.Scalar.Flatten

/-!
# Flattening is evaluation by name

The inliner substitutes argument *expressions*. With functions that raise or
have effects this is not the evaluation strategy of the nested interpreter,
which evaluates every argument of a call once, before the callee runs: a callee
that drops an input drops the evaluation of the argument, and one that uses it
twice evaluates it twice.

What the flattened body does is evaluation by name: each use of an input runs
the argument's computation. This is the meaning of the body in the algebra of
computations (`nameAlgebra`), in any monad.

The two strategies are still related in one direction. If functions can only
raise, and the nested evaluation returns a value, then so does the flattened
body, and it returns the same one: flattening can lose an error, not introduce
one.
-/

namespace HolLambdas.Scalar

variable {F V : Type} {m : Type → Type} [Monad m]

/-! ## Computations as meanings -/

/-- Run computations from left to right. -/
def runAll : List (m (Option V)) → m (List (Option V))
  | [] => pure []
  | c :: cs => do
    let v ← c
    let vs ← runAll cs
    pure (v :: vs)

/-- Computations: an operation runs its operands when it needs them. -/
def nameAlgebra (cat : ProcCatalog F) (rt : Runtime F V m) :
    ScalarAlgebra F V (m (Option V)) where
  const _ v := pure v
  func f cs := do
    let vs ← runAll cs
    callFunction cat rt f vs
  caseWhen _ c r d := do
    let v ← c
    if condHolds rt.isTrue v then r else d
  coalesce _ a b := do
    let v ← a
    if v.isSome then pure v else b

section FirstOrder

variable [LawfulMonad m] [MonadExceptOf LambdaError m]
variable {cat : ProcCatalog F} {rt : Runtime F V m}
variable {env : List (Entry F V (m (Option V)))} {frame : List (Option (Datum F V))}
variable {step : CallLambdaExprState F V → m (Option (Datum F V))}

/-- The frame holds the values of the atomic inputs. -/
def HoldsAtoms (env : List (Entry F V (m (Option V)))) (frame : List (Option (Datum F V))) :
    Prop :=
  ∀ (k : Nat) (c : m (Option V)), env[k]? = some (.val c) →
    ∃ v : Option V, frame[k]? = some (v.map .atom) ∧ c = pure v

mutual

/-- Executing a first-order body runs the computation it means. -/
theorem Means.execExprWith_eq {n : Nat} (hframe : HoldsAtoms env frame) :
    ∀ {e : Expr F V} {c : m (Option V)}, Means (nameAlgebra cat rt) env e (.val c) →
      e.firstOrder n = true → execExprWith cat rt step frame e = Option.map .atom <$> c
  | _, _, .const, _ => by simp [execExprWith, nameAlgebra]
  | _, _, .param h, _ => by
    obtain ⟨v, hv, rfl⟩ := hframe _ _ h
    simp [execExprWith, readParam, hv]
  | _, _, .func h, hfo => by
    simp [execExprWith, h.execArgsWith_eq hframe hfo, nameAlgebra, atoms?_map]
  | _, _, .caseWhen hc hr hd, hfo => by
    simp only [Expr.firstOrder, Bool.and_eq_true] at hfo
    simp only [execExprWith, hc.execExprWith_eq hframe hfo.1.1, hr.execExprWith_eq hframe hfo.1.2,
      hd.execExprWith_eq hframe hfo.2, nameAlgebra, bind_map_left, map_bind, datumHolds_atom]
    congr 1
    funext v
    split <;> rfl
  | _, _, .coalesce ha hb, hfo => by
    simp only [Expr.firstOrder, Bool.and_eq_true] at hfo
    simp only [execExprWith, ha.execExprWith_eq hframe hfo.1, hb.execExprWith_eq hframe hfo.2,
      nameAlgebra, bind_map_left, map_bind, Option.isSome_map]
    congr 1
    funext v
    split <;> simp
  | _, _, .lfa _ _ _ _, hfo => by simp [Expr.firstOrder] at hfo
  | _, _, .lfaNul _ _, hfo => by simp [Expr.firstOrder] at hfo

theorem MeansArgs.execArgsWith_eq {n : Nat} (hframe : HoldsAtoms env frame) :
    ∀ {es : List (Expr F V)} {cs : List (m (Option V))},
      MeansArgs (nameAlgebra cat rt) env es (cs.map .val) → Expr.firstOrderArgs n es = true →
      execArgsWith cat rt step frame es = (List.map (Option.map .atom)) <$> runAll cs
  | [], _, h, _ => by
    rw [h.nil_val_inv]
    simp [execArgsWith, runAll]
  | _ :: _, _, h, hfo => by
    obtain ⟨c, cs, rfl, he, hes⟩ := h.cons_val_inv
    simp only [Expr.firstOrderArgs, Bool.and_eq_true] at hfo
    simp [execArgsWith, he.execExprWith_eq hframe hfo.1, hes.execArgsWith_eq hframe hfo.2, runAll]

end

end FirstOrder

section ByValue

variable {cat : ProcCatalog F} {rt : Runtime F V (Except LambdaError)}

/-- A value in the frame of the nested interpreter is what the entry's
computation returns. -/
def Returned : Entry F V (Except LambdaError (Option V)) → Option (Datum F V) → Prop
  | .val c, o => ∃ v : Option V, c = .ok v ∧ o = v.map .atom
  | .lam h e, o => ∃ repr, o = some (.lambda repr { toLambdaHeader := h, expr := e })
  | .nul, o => o = none

theorem returned_vals {cs : List (Except LambdaError (Option V))}
    {os : List (Option (Datum F V))} (h : List.Forall₂ Returned (cs.map .val) os) :
    ∃ vs : List (Option V), runAll cs = .ok vs ∧ os = vs.map fun v => v.map .atom := by
  induction cs generalizing os with
  | nil =>
    cases h
    exact ⟨[], rfl, rfl⟩
  | cons c cs ih =>
    cases h with
    | cons hv hvs =>
      obtain ⟨v, rfl, rfl⟩ := hv
      obtain ⟨vs, hrun, rfl⟩ := ih hvs
      exact ⟨v :: vs, by simp only [runAll, hrun]; rfl, rfl⟩

theorem readParam_ok {frame : List (Option (Datum F V))} {k : Nat} {v o : Option (Datum F V)}
    (hv : frame[k]? = some v) (h : (readParam frame k : Except LambdaError _) = .ok o) :
    o = v := by
  simp only [readParam, hv] at h
  cases h
  rfl

/-- A nested call that returned has run the stored body. -/
theorem nestedCall_ok {n : Nat} {repr : LambdaRepr} {le : LambdaExpr F V} {argTypes : List Oid}
    {vs : List (Option (Datum F V))} {o : Option (Datum F V)}
    (h : execEvalCallLambdaExpr cat rt false n ⟨some (.lambda repr le), argTypes, vs⟩ = .ok o) :
    ∃ n', execExpr cat rt false n' vs le.expr = .ok o := by
  cases n with
  | zero => cases h
  | succ n =>
    obtain ⟨_, _, h⟩ := bind_eq_ok.mp h
    obtain ⟨body, hbody, h⟩ := bind_eq_ok.mp h
    simp only [lambdaCacheBuild, Bool.false_and, Bool.false_eq_true, if_false] at hbody
    split at hbody
    · cases hbody
    · cases hbody
      exact ⟨n, h⟩

mutual

/-- If the nested evaluation returns, the by-name computation returns the same. -/
theorem Means.returned : ∀ {env : List (Entry F V (Except LambdaError (Option V)))} {e : Expr F V}
    {E : Entry F V (Except LambdaError (Option V))}, Means (nameAlgebra cat rt) env e E →
      ∀ {frame : List (Option (Datum F V))} {o : Option (Datum F V)} {n : Nat},
        List.Forall₂ Returned env frame → execExpr cat rt false n frame e = .ok o → Returned E o
  | _, _, _, .const (v := v), _, _, _, _, ho => by
    cases ho
    exact ⟨v, rfl, rfl⟩
  | _, _, _, .param h, _, _, _, hframe, ho => by
    obtain ⟨v, hv, hr⟩ := forall₂_lookup hframe h
    rw [readParam_ok hv ho]
    exact hr
  | _, _, _, .func h, _, _, _, hframe, ho => by
    obtain ⟨os, hos, ho⟩ := bind_eq_ok.mp ho
    obtain ⟨vs, hvs, rfl⟩ := returned_vals (h.returnedArgs hframe hos)
    simp only [atoms?_map] at ho
    obtain ⟨v, hv, ho⟩ := bind_eq_ok.mp ho
    cases ho
    exact ⟨v, bind_eq_ok.mpr ⟨vs, hvs, hv⟩, rfl⟩
  | _, _, _, .caseWhen hc hr hd, _, _, _, hframe, ho => by
    obtain ⟨oc, hoc, ho⟩ := bind_eq_ok.mp ho
    obtain ⟨v, rfl, rfl⟩ := hc.returned hframe hoc
    rw [datumHolds_atom] at ho
    split at ho
    next hcond =>
      obtain ⟨w, rfl, rfl⟩ := hr.returned hframe ho
      refine ⟨w, bind_eq_ok.mpr ⟨v, rfl, ?_⟩, rfl⟩
      simp only [hcond, if_true]
    next hcond =>
      obtain ⟨w, rfl, rfl⟩ := hd.returned hframe ho
      refine ⟨w, bind_eq_ok.mpr ⟨v, rfl, ?_⟩, rfl⟩
      rw [if_neg hcond]
  | _, _, _, .coalesce ha hb, _, _, _, hframe, ho => by
    obtain ⟨oa, hoa, ho⟩ := bind_eq_ok.mp ho
    obtain ⟨v, rfl, rfl⟩ := ha.returned hframe hoa
    cases v with
    | some x =>
      cases ho
      exact ⟨some x, rfl, rfl⟩
    | none =>
      obtain ⟨w, rfl, rfl⟩ := hb.returned hframe ho
      exact ⟨w, rfl, rfl⟩
  | _, _, _, .lfa hk _ hargs hbody, _, _, _, hframe, ho => by
    obtain ⟨l, hl, ho⟩ := bind_eq_ok.mp ho
    obtain ⟨os, hos, ho⟩ := bind_eq_ok.mp ho
    obtain ⟨v, hv, repr, rfl⟩ := forall₂_lookup hframe hk
    rw [readParam_ok hv hl] at ho
    obtain ⟨_, ho⟩ := nestedCall_ok ho
    -- the arguments were computed before the call, so they have returned
    exact hbody.returned (hargs.returnedArgs hframe hos) ho
  | _, _, _, .lfaNul hk _, _, _, n, hframe, ho => by
    obtain ⟨l, hl, ho⟩ := bind_eq_ok.mp ho
    obtain ⟨os, _, ho⟩ := bind_eq_ok.mp ho
    obtain ⟨v, hv, rfl⟩ := forall₂_lookup hframe hk
    rw [readParam_ok hv hl] at ho
    cases n with
    | zero => cases ho
    | succ n =>
      cases ho
      exact ⟨none, rfl, rfl⟩
  | _, _, _, .lambda, _, _, _, _, ho => by
    cases ho
    exact ⟨.node, rfl⟩

theorem MeansArgs.returnedArgs : ∀ {env : List (Entry F V (Except LambdaError (Option V)))}
    {es : List (Expr F V)} {Es : List (Entry F V (Except LambdaError (Option V)))},
    MeansArgs (nameAlgebra cat rt) env es Es →
      ∀ {frame os : List (Option (Datum F V))} {n : Nat}, List.Forall₂ Returned env frame →
        execArgsWith cat rt (execEvalCallLambdaExpr cat rt false n) frame es = .ok os →
          List.Forall₂ Returned Es os
  | _, _, _, .nil, _, _, _, _, ho => by
    cases ho
    exact .nil
  | _, _, _, .cons h hs, _, _, _, hframe, ho => by
    obtain ⟨o, ho', ho⟩ := bind_eq_ok.mp ho
    obtain ⟨os, hos, ho⟩ := bind_eq_ok.mp ho
    cases ho
    exact .cons (h.returned hframe ho') (hs.returnedArgs hframe hos)

end

end ByValue

/-! ## What the flattened body does -/

section Flattened

variable {cat : ProcCatalog F} {S : LambdaSignature} {mother : LambdaExpr F V}
variable {args : List (Option (Datum F V))}

end Flattened

end HolLambdas.Scalar
