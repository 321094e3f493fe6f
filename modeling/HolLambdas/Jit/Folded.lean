import HolLambdas.Jit.Gate

/-!
# Row bodies on the fast path

Between a lambda over rows and the fast compiler stand the injector and the folder. Over
columns that are no functions the injector changes nothing (`lambdaInjector_atomic`), and the
folder keeps the value of a body (`exprValue_fold`). The compiler then gets past a body only if
all its calls are in the switch and nothing is conditional; if such a body has a value other
than NULL, it is made of constants, fields and strict calls, and so in the terms of
`Jit.Body` (`exists_toBody`).
-/

namespace HolLambdas.Jit

open Scalar Row

variable {R : Type}

/-! ## Values -/

/-- `eval_const_expressions` in row context. -/
abbrev fold (rt : FoldRuntime R) (e : Expr (RowFunc FnOid) (Value R)) :
    Except SqlError (Expr (RowFunc FnOid) (Value R)) :=
  evalConstExpressions (foldCatalog rt.cat) rt.toRuntime e

section Values

variable (rt : FoldRuntime R) (rows : List (List (Value R)))

mutual

/-- The value of a body on rows, NULL included; nothing if there is an error. -/
def exprValue : Expr (RowFunc FnOid) (Value R) → Option (Option (Value R))
  | .const _ v => some v
  | .func (.op f) args => do
    let vs ← exprValues args
    if rt.cat.proisstrict f && vs.any Option.isNone then some none else (rt.call f vs).toOption
  | .func (.field p k _) _ => ((nth1 rows p).bind fun row => nth1 row k).map some
  | .caseWhen _ c r d => do
    let v ← exprValue c
    if condHolds rt.isTrue v then exprValue r else exprValue d
  | .coalesce _ a b => do
    let v ← exprValue a
    if v.isSome then some v else exprValue b
  | _ => none

def exprValues : List (Expr (RowFunc FnOid) (Value R)) → Option (List (Option (Value R)))
  | [] => some []
  | e :: es => do
    let v ← exprValue e
    let vs ← exprValues es
    return v :: vs

end

end Values

/-- What `pg_proc` has about the functions of the switch, and that the runtime calls them. -/
structure Implements [Field R] [LinearOrder R] [FloorRing R] (rt : FoldRuntime R)
    (sql : SqlFunctions R) : Prop where
  pronargs : ∀ f n, Jit.pronargs f = some n → (rt.cat.proargtypes f).length = n
  strict : ∀ f, (emitter f).isSome = true → rt.cat.proisstrict f = true
  call : ∀ f vs, (emitter f).isSome = true →
    rt.call f (vs.map some) = ((builtin sql f).call vs).map some

/-! ## The injector changes nothing -/

/-- No column is a function. -/
def AllAtomic (argtypes : List (List LambdaSigType)) : Prop :=
  ∀ row ∈ argtypes, ∀ σ ∈ row, σ.isFunction = false

theorem AllAtomic.column {argtypes : List (List LambdaSigType)} (h : AllAtomic argtypes)
    {p k : Nat} {σ : LambdaSigType} (hσ : column argtypes p k = some σ) :
    σ.isFunction = false := by
  obtain ⟨i, j, row, rfl, rfl, hrow, hcol⟩ := column_inv hσ
  exact h row (List.mem_of_getElem? hrow) σ (List.mem_of_getElem? hcol)

section Inject

variable {F V : Type} {cat : ProcCatalog F} {argtypes : List (List LambdaSigType)}

mutual

theorem motherMutator_atomic (hatomic : AllAtomic argtypes) (fuel : Nat) (args : MotherArgs F V) :
    ∀ {e : RowBody F V} {t : Oid}, RowHasType cat argtypes e t →
      motherMutator fuel args e = .ok e.node
  | .const _ _, _, _ => rfl
  | .field _ _ _, _, _ => rfl
  | .func f es, t, h => by
    rw [motherMutator, motherMutatorArgs_atomic hatomic fuel args h.2, RowBody.node]
    rfl
  | .caseWhen _ c r d, t, h => by
    obtain ⟨_, ⟨b, hc⟩, hr, hd⟩ := h
    rw [motherMutator, motherMutator_atomic hatomic fuel args hc,
      motherMutator_atomic hatomic fuel args hr, motherMutator_atomic hatomic fuel args hd,
      RowBody.node]
    rfl
  | .coalesce _ a b, t, h => by
    rw [motherMutator, motherMutator_atomic hatomic fuel args h.2.1,
      motherMutator_atomic hatomic fuel args h.2.2, RowBody.node]
    rfl
  | .lfa _ _ _ _ _, t, h => by
    obtain ⟨_, _, σs, hσ, _⟩ := h
    cases hatomic.column hσ

theorem motherMutatorArgs_atomic (hatomic : AllAtomic argtypes) (fuel : Nat)
    (args : MotherArgs F V) :
    ∀ {es : List (RowBody F V)} {σs : List LambdaSigType}, RowHasTypes cat argtypes es σs →
      motherMutatorArgs fuel args es = .ok (RowBody.nodes es)
  | [], _, _ => rfl
  | e :: es, _, h => by
    obtain ⟨σ, σs, rfl, harg, hes⟩ := h
    rcases harg with ⟨t, _, he⟩ | ⟨p, k, σs₁, ρ, _, rfl, hσ⟩
    · rw [motherMutatorArgs, motherMutator_atomic hatomic fuel args he,
        motherMutatorArgs_atomic hatomic fuel args hes, RowBody.nodes]
      rfl
    · cases hatomic.column hσ

end

/-- Over atomic columns nothing is injected, whatever the tuples are. -/
theorem lambdaInjector_atomic (hatomic : AllAtomic argtypes) (fuel : Nat) {e : RowBody F V}
    {t : Oid} (he : RowHasType cat argtypes e t) (inner : List (List (Option (Scalar.Datum F V)))) :
    lambdaInjector fuel argtypes e inner = .ok e.node := by
  have hentry : ∀ row ∈ argtypes, ∀ i, ∃ entries, injectorRow inner i row = .ok entries := by
    intro row hrow i
    refine exists_zipIdx_mapM fun j σ hσ => ⟨none, ?_⟩
    rw [injectorEntry, hatomic row hrow σ (List.mem_of_getElem? hσ)]
    rfl
  obtain ⟨args, hargs⟩ : ∃ args, injectorArgs inner argtypes = .ok args :=
    exists_zipIdx_mapM fun i row hrow => hentry row (List.mem_of_getElem? hrow) _
  rw [lambdaInjector, hargs]
  exact motherMutator_atomic hatomic fuel args he

end Inject

/-! ## Bodies without calls of inputs -/

mutual

/-- Constants, fields, calls with fitting arguments, and the two conditional forms. -/
def PlainExpr : Expr (RowFunc FnOid) (Value R) → Prop
  | .const _ _ => True
  | .func (.op f) args => callFits f args.length = true ∧ PlainExprs args
  | .func (.field _ _ _) args => args = []
  | .caseWhen _ c r d => PlainExpr c ∧ PlainExpr r ∧ PlainExpr d
  | .coalesce _ a b => PlainExpr a ∧ PlainExpr b
  | _ => False

def PlainExprs : List (Expr (RowFunc FnOid) (Value R)) → Prop
  | [] => True
  | e :: es => PlainExpr e ∧ PlainExprs es

end

/-- A call is one of a function or a field. -/
theorem PlainExpr.func_cases {f : RowFunc FnOid} {args : List (Expr (RowFunc FnOid) (Value R))}
    (h : PlainExpr (.func f args)) :
    (∃ g, f = .op g ∧ callFits g args.length = true ∧ PlainExprs args) ∨
      ∃ p k t, f = .field p k t ∧ args = [] := by
  cases f with
  | op g => exact .inl ⟨g, rfl, h⟩
  | field p k t => exact .inr ⟨p, k, t, rfl, h⟩
  | lfa name t p k => cases h

section Typed

variable {cat : ProcCatalog FnOid} {argtypes : List (List LambdaSigType)}

mutual

theorem plain_node (hcat : ∀ f n, pronargs f = some n → (cat.proargtypes f).length = n)
    (hatomic : AllAtomic argtypes) : ∀ {e : RowBody FnOid (Value R)} {t : Oid},
      RowHasType cat argtypes e t → PlainExpr e.node
  | .const _ _, _, _ => trivial
  | .field _ _ _, _, _ => rfl
  | .func f es, t, h => by
    refine ⟨?_, plain_nodes hcat hatomic h.2⟩
    have hlen := h.2.length_eq
    rw [List.length_map] at hlen
    rw [length_nodes, hlen, callFits]
    cases hn : pronargs f with
    | none => rfl
    | some n => simp [hcat f n hn]
  | .caseWhen _ c r d, t, h => by
    obtain ⟨_, ⟨b, hc⟩, hr, hd⟩ := h
    exact ⟨plain_node hcat hatomic hc, plain_node hcat hatomic hr, plain_node hcat hatomic hd⟩
  | .coalesce _ a b, t, h => ⟨plain_node hcat hatomic h.2.1, plain_node hcat hatomic h.2.2⟩
  | .lfa _ _ _ _ _, t, h => by
    obtain ⟨_, _, σs, hσ, _⟩ := h
    cases hatomic.column hσ

theorem plain_nodes (hcat : ∀ f n, pronargs f = some n → (cat.proargtypes f).length = n)
    (hatomic : AllAtomic argtypes) : ∀ {es : List (RowBody FnOid (Value R))}
      {σs : List LambdaSigType}, RowHasTypes cat argtypes es σs → PlainExprs (RowBody.nodes es)
  | [], _, _ => trivial
  | e :: es, _, h => by
    obtain ⟨σ, σs, rfl, harg, hes⟩ := h
    rcases harg with ⟨t, _, he⟩ | ⟨p, k, σs₁, ρ, _, rfl, hσ⟩
    · exact ⟨plain_node hcat hatomic he, plain_nodes hcat hatomic hes⟩
    · cases hatomic.column hσ

end

end Typed

/-! ## Folding -/

section Fold

variable {rt : FoldRuntime R} {rows : List (List (Value R))}

abbrev foldArgs (rt : FoldRuntime R) (es : List (Expr (RowFunc FnOid) (Value R))) :
    Except SqlError (List (Expr (RowFunc FnOid) (Value R))) :=
  evalConstExpressionsArgs (foldCatalog rt.cat) rt.toRuntime.isTrue
    (fun f vs => some <$> rt.toRuntime.call f vs) es

/-- A list of constants has the values that stand in it. -/
theorem exprValues_of_constValues (rt : FoldRuntime R) (rows : List (List (Value R)))
    {es : List (Expr (RowFunc FnOid) (Value R))}
    {vs : List (Option (Value R))} (h : Expr.constValues? es = some vs) :
    exprValues rt rows es = some vs ∧ es.any Expr.isNullConst = vs.any Option.isNone := by
  induction es generalizing vs with
  | nil =>
    cases h
    exact ⟨rfl, rfl⟩
  | cons e es ih =>
    cases e with
    | const t v =>
      simp only [Expr.constValues?, Expr.constValue?] at h
      cases hes : Expr.constValues? es with
      | none =>
        rw [hes] at h
        cases h
      | some ws =>
        rw [hes] at h
        cases h
        obtain ⟨hvalues, hany⟩ := ih hes
        refine ⟨?_, ?_⟩
        · simp only [exprValues, exprValue, hvalues]
          rfl
        · rw [List.any_cons, List.any_cons, hany]
          cases v <;> rfl
    | _ => cases h

/-- A NULL constant among the arguments is a NULL among their values. -/
theorem any_isNone_of_isNullConst {es : List (Expr (RowFunc FnOid) (Value R))}
    {vs : List (Option (Value R))} (h : exprValues rt rows es = some vs)
    (hnull : es.any Expr.isNullConst = true) : vs.any Option.isNone = true := by
  induction es generalizing vs with
  | nil => cases hnull
  | cons e es ih =>
    obtain ⟨v, hv, h⟩ := Option.bind_eq_some_iff.mp h
    obtain ⟨ws, hws, h⟩ := Option.bind_eq_some_iff.mp h
    cases h
    rw [List.any_cons, Bool.or_eq_true] at hnull ⊢
    rcases hnull with hnull | hnull
    · cases e with
      | const t c =>
        cases c with
        | none =>
          cases hv
          exact .inl rfl
        | some c => cases hnull
      | _ => cases hnull
    · exact .inr (ih hws hnull)

/-- What the folder makes of a call: it stays, or its value takes its place. -/
theorem evaluateFunction_op (rows : List (List (Value R))) {g : FnOid}
    {args : List (Expr (RowFunc FnOid) (Value R))} {e' : Expr (RowFunc FnOid) (Value R)}
    (h : evaluateFunction (foldCatalog rt.cat) (fun f vs => some <$> rt.toRuntime.call f vs)
      (.op g) args = .ok e') :
    e' = .func (.op g) args ∨
      ∃ t v, e' = .const t v ∧
        ∀ w, exprValue rt rows (.func (.op g) args) = some w → w = v := by
  unfold evaluateFunction at h
  split at h
  · next hnull =>
    obtain ⟨hstrict, hany⟩ := Bool.and_eq_true_iff.mp hnull
    cases h
    refine .inr ⟨_, none, rfl, fun w hw => ?_⟩
    obtain ⟨vs, hvs, hw⟩ := Option.bind_eq_some_iff.mp hw
    have hstrict' : rt.cat.proisstrict g = true := hstrict
    rw [hstrict', any_isNone_of_isNullConst hvs hany] at hw
    cases hw
    rfl
  · next hnull =>
    split at h
    · split at h
      · next vs hvs =>
        obtain ⟨r, hr, h⟩ := bind_eq_ok.mp h
        obtain ⟨v, hv, rfl⟩ := map_eq_ok.mp hr
        cases h
        refine .inr ⟨_, v, rfl, fun w hw => ?_⟩
        obtain ⟨ws, hws, hw⟩ := Option.bind_eq_some_iff.mp hw
        obtain ⟨hvalues, hany⟩ := exprValues_of_constValues rt rows hvs
        obtain rfl : vs = ws := Option.some.inj (hvalues.symm.trans hws)
        have hcall : rt.call g vs = .ok v := hv
        have hnull' : ¬ (rt.cat.proisstrict g && vs.any Option.isNone) = true := hany ▸ hnull
        rw [if_neg hnull', hcall] at hw
        cases hw
        rfl
      · cases h
        exact .inl rfl
    · cases h
      exact .inl rfl

theorem length_foldArgs {es es' : List (Expr (RowFunc FnOid) (Value R))}
    (h : foldArgs rt es = .ok es') : es'.length = es.length := by
  induction es generalizing es' with
  | nil =>
    cases h
    rfl
  | cons e es ih =>
    obtain ⟨d, _, h⟩ := bind_eq_ok.mp h
    obtain ⟨ds, hds, h⟩ := bind_eq_ok.mp h
    cases h
    rw [List.length_cons, List.length_cons, ih hds]

mutual

/-- Folding keeps plain expressions plain. -/
theorem PlainExpr.fold : ∀ {e e' : Expr (RowFunc FnOid) (Value R)}, PlainExpr e →
    fold rt e = .ok e' →
    PlainExpr e'
  | .const _ _, _, _, h => by
    cases h
    trivial
  | .func f args, e', hplain, h => by
    obtain ⟨args', hargs, h⟩ := bind_eq_ok.mp h
    rcases hplain.func_cases with ⟨g, rfl, hfit, hplain⟩ | ⟨p, k, t, rfl, rfl⟩
    · rcases evaluateFunction_op [] h with rfl | ⟨t, v, rfl, _⟩
      · exact ⟨by rwa [length_foldArgs hargs], PlainExprs.fold hplain hargs⟩
      · trivial
    · cases hargs
      cases h
      rfl
  | .caseWhen t c r d, e', hplain, h => by
    obtain ⟨hc, hr, hd⟩ := hplain
    obtain ⟨c', hc', h⟩ := bind_eq_ok.mp h
    split at h
    · split at h
      · exact PlainExpr.fold hr h
      · exact PlainExpr.fold hd h
    · obtain ⟨r', hr', h⟩ := bind_eq_ok.mp h
      obtain ⟨d', hd', h⟩ := bind_eq_ok.mp h
      cases h
      exact ⟨PlainExpr.fold hc hc', PlainExpr.fold hr hr', PlainExpr.fold hd hd'⟩
  | .coalesce t a b, e', hplain, h => by
    obtain ⟨ha, hb⟩ := hplain
    obtain ⟨a', ha', h⟩ := bind_eq_ok.mp h
    split at h
    · exact PlainExpr.fold hb h
    · cases h
      exact PlainExpr.fold ha ha'
    · obtain ⟨b', hb', h⟩ := bind_eq_ok.mp h
      cases h
      exact ⟨PlainExpr.fold ha ha', PlainExpr.fold hb hb'⟩

theorem PlainExprs.fold : ∀ {es es' : List (Expr (RowFunc FnOid) (Value R))}, PlainExprs es →
    foldArgs rt es = .ok es' → PlainExprs es'
  | [], _, _, h => by
    cases h
    trivial
  | e :: es, _, hplain, h => by
    obtain ⟨d, hd, h⟩ := bind_eq_ok.mp h
    obtain ⟨ds, hds, h⟩ := bind_eq_ok.mp h
    cases h
    exact ⟨PlainExpr.fold hplain.1 hd, PlainExprs.fold hplain.2 hds⟩

end

theorem exprValue_of_constValue {e : Expr (RowFunc FnOid) (Value R)} {v : Option (Value R)}
    (h : e.constValue? = some v) : exprValue rt rows e = some v := by
  cases e with
  | const t w => exact h
  | _ => cases h

mutual

/-- Where a body has a value, the folded body has the same. -/
theorem exprValue_fold : ∀ {e e' : Expr (RowFunc FnOid) (Value R)} {v : Option (Value R)},
    PlainExpr e → fold rt e = .ok e' → exprValue rt rows e = some v → exprValue rt rows e' = some v
  | .const _ _, _, _, _, h, hv => by
    cases h
    exact hv
  | .func f args, e', v, hplain, h, hv => by
    obtain ⟨args', hargs, h⟩ := bind_eq_ok.mp h
    rcases hplain.func_cases with ⟨g, rfl, hfit, hplain⟩ | ⟨p, k, t, rfl, rfl⟩
    · obtain ⟨vs, hvs, hv⟩ := Option.bind_eq_some_iff.mp hv
      have hvalue : exprValue rt rows (.func (.op g) args') = some v :=
        Option.bind_eq_some_iff.mpr ⟨vs, exprValues_fold hplain hargs hvs, hv⟩
      rcases evaluateFunction_op rows h with rfl | ⟨t, w, rfl, hw⟩
      · exact hvalue
      · exact congrArg some (hw v hvalue).symm
    · cases hargs
      cases h
      exact hv
  | .caseWhen t c r d, e', v, hplain, h, hv => by
    obtain ⟨hc, hr, hd⟩ := hplain
    obtain ⟨c', hc', h⟩ := bind_eq_ok.mp h
    obtain ⟨w, hw, hv⟩ := Option.bind_eq_some_iff.mp hv
    have hw' := exprValue_fold hc hc' hw
    split at h
    -- a constant condition: one branch is left
    · next u hu =>
      obtain rfl : u = w := Option.some.inj ((exprValue_of_constValue hu).symm.trans hw')
      split at h
      · next hcond =>
        change condHolds rt.isTrue u = true at hcond
        rw [if_pos hcond] at hv
        exact exprValue_fold hr h hv
      · next hcond =>
        change ¬ condHolds rt.isTrue u = true at hcond
        rw [if_neg hcond] at hv
        exact exprValue_fold hd h hv
    · obtain ⟨r', hr', h⟩ := bind_eq_ok.mp h
      obtain ⟨d', hd', h⟩ := bind_eq_ok.mp h
      cases h
      refine Option.bind_eq_some_iff.mpr ⟨w, hw', ?_⟩
      split at hv
      · next hcond =>
        rw [if_pos hcond]
        exact exprValue_fold hr hr' hv
      · next hcond =>
        rw [if_neg hcond]
        exact exprValue_fold hd hd' hv
  | .coalesce t a b, e', v, hplain, h, hv => by
    obtain ⟨ha, hb⟩ := hplain
    obtain ⟨a', ha', h⟩ := bind_eq_ok.mp h
    obtain ⟨w, hw, hv⟩ := Option.bind_eq_some_iff.mp hv
    have hw' := exprValue_fold ha ha' hw
    split at h
    · next hu =>
      obtain rfl : none = w := Option.some.inj ((exprValue_of_constValue hu).symm.trans hw')
      exact exprValue_fold hb h hv
    · next u hu =>
      obtain rfl : some u = w := Option.some.inj ((exprValue_of_constValue hu).symm.trans hw')
      cases h
      cases hv
      exact hw'
    · obtain ⟨b', hb', h⟩ := bind_eq_ok.mp h
      cases h
      refine Option.bind_eq_some_iff.mpr ⟨w, hw', ?_⟩
      split at hv
      · next hsome =>
        rw [if_pos hsome]
        exact hv
      · next hsome =>
        rw [if_neg hsome]
        exact exprValue_fold hb hb' hv

theorem exprValues_fold : ∀ {es es' : List (Expr (RowFunc FnOid) (Value R))}
    {vs : List (Option (Value R))}, PlainExprs es → foldArgs rt es = .ok es' →
      exprValues rt rows es = some vs → exprValues rt rows es' = some vs
  | [], _, _, _, h, hvs => by
    cases h
    exact hvs
  | e :: es, _, _, hplain, h, hvs => by
    obtain ⟨d, hd, h⟩ := bind_eq_ok.mp h
    obtain ⟨ds, hds, h⟩ := bind_eq_ok.mp h
    cases h
    obtain ⟨v, hv, hvs⟩ := Option.bind_eq_some_iff.mp hvs
    obtain ⟨ws, hws, hvs⟩ := Option.bind_eq_some_iff.mp hvs
    cases hvs
    exact Option.bind_eq_some_iff.mpr ⟨v, exprValue_fold hplain.1 hd hv,
      Option.bind_eq_some_iff.mpr ⟨ws, exprValues_fold hplain.2 hds hws, rfl⟩⟩

end

end Fold

/-! ## What compiles -/

mutual

/-- The body in the terms of the fast compiler, if it has no other nodes. -/
def toBody : Expr (RowFunc FnOid) (Value R) → Option (Body R)
  | .const _ (some v) => some (.const v)
  | .func (.op f) args => (toBodies args).map (.func f)
  | .func (.field p k _) _ => some (.field p k)
  | _ => none

def toBodies : List (Expr (RowFunc FnOid) (Value R)) → Option (List (Body R))
  | [] => some []
  | e :: es => do
    let b ← toBody e
    let bs ← toBodies es
    return b :: bs

end

mutual

/-- Every call is of a function in the switch, and there is no conditional. -/
def Switched : Expr (RowFunc FnOid) (Value R) → Prop
  | .func (.op f) args => (emitter f).isSome = true ∧ SwitchedArgs args
  | .caseWhen _ _ _ _ => False
  | .coalesce _ _ _ => False
  | _ => True

def SwitchedArgs : List (Expr (RowFunc FnOid) (Value R)) → Prop
  | [] => True
  | e :: es => Switched e ∧ SwitchedArgs es

end

section Compile

variable {address : LambdaHeader → Expr (RowFunc FnOid) (Value R) → BitVec 64} {fn : LValue R}

theorem push_ok {v : LValue R} {registers : List (LValue R)}
    {k : List (LValue R) → Except JitError (LValue R)}
    (h : (pushRegister v registers >>= k) = .ok fn) : k (v :: registers) = .ok fn := by
  rw [push_bind] at h
  split at h
  · exact h
  · cases h

mutual

/-- The compiler gets past the steps of such bodies only. -/
theorem switched_of_compile : ∀ {e : Expr (RowFunc FnOid) (Value R)} {rest : List (Step R)}
    {registers : List (LValue R)}, PlainExpr e →
      compileSimpleExpr (execSteps address e ++ rest) registers = .ok fn →
        Switched e ∧ ∃ registers', compileSimpleExpr rest registers' = .ok fn
  | .const _ _, rest, registers, _, h => ⟨trivial, _, push_ok h⟩
  | .func f args, rest, registers, hplain, h => by
    rcases hplain.func_cases with ⟨g, rfl, _, hplain⟩ | ⟨p, k, t, rfl, rfl⟩
    · simp only [execSteps, calleeSteps, funcSteps, List.nil_append, List.append_assoc,
        List.singleton_append] at h
      obtain ⟨hargs, registers', h⟩ := switchedArgs_of_compile hplain h
      rw [compileSimpleExpr] at h
      split at h
      · cases h
      · next em hem =>
        obtain ⟨registers'', _, h⟩ := bind_eq_ok.mp h
        exact ⟨⟨by rw [hem]; rfl, hargs⟩, registers'', h⟩
    · simp only [execSteps, execStepsArgs, calleeSteps, funcSteps, List.nil_append,
        List.cons_append, compileSimpleExpr] at h
      have hfield := push_ok h
      exact ⟨trivial, _, hfield⟩
  | .caseWhen _ c r d, rest, registers, hplain, h => by
    simp only [execSteps, List.append_assoc, List.cons_append] at h
    obtain ⟨_, registers', h⟩ := switched_of_compile hplain.1 h
    cases h
  | .coalesce _ a b, rest, registers, hplain, h => by
    simp only [execSteps, List.append_assoc, List.cons_append] at h
    obtain ⟨_, registers', h⟩ := switched_of_compile hplain.1 h
    cases h

theorem switchedArgs_of_compile : ∀ {es : List (Expr (RowFunc FnOid) (Value R))}
    {rest : List (Step R)} {registers : List (LValue R)}, PlainExprs es →
      compileSimpleExpr (execStepsArgs address es ++ rest) registers = .ok fn →
        SwitchedArgs es ∧ ∃ registers', compileSimpleExpr rest registers' = .ok fn
  | [], rest, registers, _, h => ⟨trivial, registers, h⟩
  | e :: es, rest, registers, hplain, h => by
    rw [execStepsArgs, List.append_assoc] at h
    obtain ⟨he, registers', h⟩ := switched_of_compile hplain.1 h
    obtain ⟨hes, registers'', h⟩ := switchedArgs_of_compile hplain.2 h
    exact ⟨⟨he, hes⟩, registers'', h⟩

end

mutual

theorem execSteps_toBody : ∀ {e : Expr (RowFunc FnOid) (Value R)} {b : Body R}, PlainExpr e →
    toBody e = some b → execSteps address e = steps b
  | .const _ none, _, _, h => by cases h
  | .const _ (some v), _, _, h => by
    cases h
    rfl
  | .func f args, _, hplain, h => by
    rcases hplain.func_cases with ⟨g, rfl, _, hplain⟩ | ⟨p, k, t, rfl, rfl⟩
    · obtain ⟨bs, hbs, rfl⟩ := Option.map_eq_some_iff.mp h
      rw [execSteps, execStepsArgs_toBodies hplain hbs, steps]
      rfl
    · cases h
      rfl
  | .caseWhen _ _ _ _, _, _, h => by cases h
  | .coalesce _ _ _, _, _, h => by cases h

theorem execStepsArgs_toBodies : ∀ {es : List (Expr (RowFunc FnOid) (Value R))}
    {bs : List (Body R)}, PlainExprs es → toBodies es = some bs →
      execStepsArgs address es = stepsArgs bs
  | [], _, _, h => by
    cases h
    rfl
  | e :: es, _, hplain, h => by
    obtain ⟨b, hb, h⟩ := Option.bind_eq_some_iff.mp h
    obtain ⟨bs, hbs, h⟩ := Option.bind_eq_some_iff.mp h
    cases h
    rw [execStepsArgs, execSteps_toBody hplain.1 hb, execStepsArgs_toBodies hplain.2 hbs, stepsArgs]

end

end Compile

section Bodies

variable [Field R] [LinearOrder R] [FloorRing R] {sql : SqlFunctions R} {rt : FoldRuntime R}
  {rows : List (List (Value R))}

theorem map_some_of_not_any_isNone {α : Type} {vs : List (Option α)}
    (h : ¬ vs.any Option.isNone = true) : ∃ ws : List α, vs = ws.map some := by
  induction vs with
  | nil => exact ⟨[], rfl⟩
  | cons v vs ih =>
    rw [List.any_cons, Bool.or_eq_true, not_or] at h
    obtain ⟨ws, rfl⟩ := ih h.2
    cases v with
    | none => exact absurd rfl h.1
    | some w => exact ⟨w :: ws, rfl⟩

mutual

/-- A body that compiles and has a value other than NULL is in the terms of the fast
compiler, and has its SQL value. -/
theorem exists_toBody (himpl : Implements rt sql) : ∀ {e : Expr (RowFunc FnOid) (Value R)}
    {v : Value R}, PlainExpr e → Switched e → exprValue rt rows e = some (some v) →
      ∃ b, toBody e = some b ∧ b.accepted = true ∧ sqlEval sql rows b = .ok v
  | .const _ _, v, _, _, hv => by
    cases hv
    exact ⟨.const v, rfl, rfl, rfl⟩
  | .func f args, v, hplain, hswitch, hv => by
    rcases hplain.func_cases with ⟨g, rfl, hfit, hplain⟩ | ⟨p, k, t, rfl, rfl⟩
    · obtain ⟨hem, hswitch⟩ := hswitch
      obtain ⟨vs, hvs, hv⟩ := Option.bind_eq_some_iff.mp hv
      rw [himpl.strict g hem, Bool.true_and] at hv
      split at hv
      · cases hv
      · next hnull =>
        obtain ⟨ws, rfl⟩ := map_some_of_not_any_isNone hnull
        obtain ⟨bs, hbs, hlen, hacc, hsql⟩ := exists_toBodies himpl hplain hswitch hvs
        refine ⟨.func g bs, Option.map_eq_some_iff.mpr ⟨bs, hbs, rfl⟩, ?_, ?_⟩
        · obtain ⟨em, hem⟩ := Option.isSome_iff_exists.mp hem
          have hnum := length_of_callFits hem hfit
          simp [Body.accepted, hem, hacc, hlen, hnum]
        · rw [himpl.call g ws hem] at hv
          rw [sqlEval, hsql, ok_bind]
          cases hcall : (builtin sql g).call ws with
          | error err =>
            rw [hcall] at hv
            cases hv
          | ok w =>
            rw [hcall] at hv
            cases hv
            rfl
    · obtain ⟨w, hw, hv⟩ := Option.map_eq_some_iff.mp hv
      cases hv
      refine ⟨.field p k, rfl, rfl, ?_⟩
      rw [sqlEval, hw]
  | .caseWhen _ _ _ _, _, _, hswitch, _ => hswitch.elim
  | .coalesce _ _ _, _, _, hswitch, _ => hswitch.elim

theorem exists_toBodies (himpl : Implements rt sql) :
    ∀ {es : List (Expr (RowFunc FnOid) (Value R))} {vs : List (Value R)}, PlainExprs es →
      SwitchedArgs es → exprValues rt rows es = some (vs.map some) →
        ∃ bs, toBodies es = some bs ∧ bs.length = es.length ∧ Body.acceptedArgs bs = true ∧
          sqlEvalArgs sql rows bs = .ok vs
  | [], [], _, _, _ => ⟨[], rfl, rfl, rfl, rfl⟩
  | [], _ :: _, _, _, h => by cases h
  | e :: es, vs, hplain, hswitch, h => by
    obtain ⟨v, hv, h⟩ := Option.bind_eq_some_iff.mp h
    obtain ⟨ws, hws, h⟩ := Option.bind_eq_some_iff.mp h
    cases vs with
    | nil => cases h
    | cons w us =>
      cases h
      obtain ⟨b, hb, hacc, hsql⟩ := exists_toBody himpl hplain.1 hswitch.1 hv
      obtain ⟨bs, hbs, hlen, haccs, hsqls⟩ := exists_toBodies himpl hplain.2 hswitch.2 hws
      refine ⟨b :: bs, ?_, by rw [List.length_cons, List.length_cons, hlen], ?_, ?_⟩
      · rw [toBodies, hb, hbs]
        rfl
      · rw [Body.acceptedArgs, hacc, haccs]
        rfl
      · rw [sqlEvalArgs, hsql, hsqls]
        rfl

end

end Bodies

end HolLambdas.Jit
