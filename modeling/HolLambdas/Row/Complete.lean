import HolLambdas.Scalar.Flatten
import HolLambdas.Row.Embed

/-!
# Is a row-context lambda completely injected?

The injector is to leave no call in the body, and the body is to compute what the
mother means.

Arguments are bound as they stand and the result is not walked again, so a call in
an argument that the callee uses stays in the body. `lambdaInjector_complete_iff`:
the injection is complete and correct exactly if no callee uses an argument that
contains a call.
-/

namespace HolLambdas.Row

open Scalar

variable {F V D : Type} {r : Expr (RowFunc F) V}

/-! ## Which arguments a callee uses -/

mutual

/-- No callee uses an argument that contains a call, for all calls of the body that
are not themselves within an argument of a call. -/
def CallsDropped (lam : Nat → Nat → Option (LambdaExpr F V)) : RowBody F V → Prop
  | .const _ _ => True
  | .field _ _ _ => True
  | .func _ es => CallsDroppedArgs lam es
  | .caseWhen _ c r d => CallsDropped lam c ∧ CallsDropped lam r ∧ CallsDropped lam d
  | .coalesce _ a b => CallsDropped lam a ∧ CallsDropped lam b
  | .lfa _ _ p k es => ∃ le, lam p k = some le ∧
      Means useAlgebra (es.map (callEntry id lam fun e => hasAlias e.node)) le.expr (.val false)

def CallsDroppedArgs (lam : Nat → Nat → Option (LambdaExpr F V)) : List (RowBody F V) → Prop
  | [] => True
  | e :: es => CallsDropped lam e ∧ CallsDroppedArgs lam es

end

/-! ## The two walkers -/

section Walkers

variable {cat : ProcCatalog F} {argtypes : List (List LambdaSigType)}
  {lam : Nat → Nat → Option (LambdaExpr F V)} {args : MotherArgs F V}

/-- The injector's `args` hold the lambdas of the function columns. -/
def ArgsHold (argtypes : List (List LambdaSigType)) (lam : Nat → Nat → Option (LambdaExpr F V))
    (args : MotherArgs F V) : Prop :=
  ∀ p k σs ρ le, column argtypes p k = some (.func σs ρ) → lam p k = some le →
    ∀ perr ferr, motherArg perr ferr args p k = .ok (some (embedLambda le))

/-- The bindings of a call stand for its environment in the algebra of trees. -/
theorem exists_childBindings (hlam : LambdasFit cat argtypes lam)
    (hargs : ArgsHold argtypes lam args) :
    ∀ {es : List (RowBody F V)} {σs : List LambdaSigType}
      {Es : List (Entry (RowFunc F) V (Expr (RowFunc F) V))}, RowHasTypes cat argtypes es σs →
      List.Forall₂ (CallArg embedLambda lam fun e d => d = e.node) es Es →
      ∃ bs, childBindings args es = .ok (bs.map some) ∧
        List.Forall₂ (StandsFor treeAlgebra []) bs Es
  | [], _, Es, _, hEs => by
    cases hEs
    exact ⟨[], rfl, .nil⟩
  | e :: es, σs, Es, ht, hEs => by
    obtain ⟨σ, σs', rfl, he, hes⟩ := ht
    cases hEs with
    | cons hE hEs =>
    obtain ⟨bs, hbs, hstands⟩ := exists_childBindings hlam hargs hes hEs
    rcases he with ⟨t, rfl, ht⟩ | ⟨p, k, σs₁, ρ, hname, rfl, hcol⟩
    · have hname := byName_of_hasType ht
      obtain ⟨d, rfl, rfl⟩ := hE.val_inv hname
      refine ⟨e.node :: bs, ?_, .cons (means_node e) hstands⟩
      simp only [childBindings, childBinding, hname, hbs]
      rfl
    · obtain ⟨le, hle, _⟩ := hlam p k σs₁ ρ hcol
      rw [hE.lam_inv hname hle]
      refine ⟨(embedLambda le).toExpr :: bs, ?_, .cons (.inl rfl) hstands⟩
      simp only [childBindings, childBinding, hname, hargs p k σs₁ ρ le hcol hle, hbs]
      rfl

variable {p k : Nat} {t : Oid} {es : List (RowBody F V)} {le : LambdaExpr F V}
  {σs : List LambdaSigType}

/-- The tree of a call: the meaning of the callee's body in the algebra of trees. -/
def CallTree (lam : Nat → Nat → Option (LambdaExpr F V)) (es : List (RowBody F V))
    (le : LambdaExpr F V) (r : Expr (RowFunc F) V) : Prop :=
  Means treeAlgebra (es.map (callEntry embedLambda lam RowBody.node)) (embed le.expr) (.val r)

/-- It contains a call exactly if the callee uses an argument that does. -/
theorem exists_callTree (hlam : LambdasFit cat argtypes lam)
    (hc : Callee cat argtypes lam p k t es le σs) :
    ∃ r, CallTree lam es le r ∧ (hasAlias r = false ↔
      Means useAlgebra (es.map (callEntry id lam fun e => hasAlias e.node)) le.expr
        (.val false)) := by
  have htree := callArgs_callEntry embedLambda RowBody.node hlam hc.args
  have huse := callArgs_callEntry id (fun e => hasAlias e.node) hlam hc.args
  have hrels := rels_callArgs treeAlgebra_rel_rowUse (fun _ _ => conforms_embedLambda) hlam
    (fun e d b hd hb => by rw [hd, hb]) hc.args htree (callArgs_map_embedEntry huse)
  obtain ⟨_, _, hr, hb, hrel⟩ :=
    (conforms_embedLambda hc.conforms).body.rel treeAlgebra_rel_rowUse hrels
  obtain ⟨r, b, rfl, rfl, halias⟩ := hrel.scalar_inv
  -- the callee's own body has a use, and it is the one the tree shows
  obtain ⟨b', hb'⟩ := exists_means_call (A := useAlgebra) hlam hc.conforms hc.args huse
  have heq := hb.unique (means_embed extends_rowUse hb')
  cases heq
  refine ⟨r, hr, ?_⟩
  rw [halias]
  constructor
  · rintro rfl
    exact hb'
  · intro hfalse
    have heq := hb'.unique hfalse
    cases heq
    rfl

/-- Without calls it evaluates to the value of the application. -/
theorem CallTree.means {A : ScalarAlgebra F V D} {data : Nat → Nat → D} (hr : CallTree lam es le r)
    (hlam : LambdasFit cat argtypes lam) (hc : Callee cat argtypes lam p k t es le σs)
    {Es : List (Entry F V D)} {d : D} (hEs : RowMeansArgs A data lam es Es)
    (hd : Means A Es le.expr (.val d)) (hno : hasAlias r = false) :
    Means (rowAlgebra A data) [] r (.val d) := by
  have htree := callArgs_callEntry embedLambda RowBody.node hlam hc.args
  have hvals := callArgs_map_embedEntry (callArgs_of_rowMeansArgs hEs)
  have hrels := rels_callArgs (treeAlgebra_rel_rowAlgebra A data)
    (fun _ _ => conforms_embedLambda) hlam
    (fun e r d hr hd hno => by
      subst hr
      exact means_node_of_rowMeans hd hno) hc.args htree hvals
  obtain ⟨_, _, hr', hd', hrel⟩ :=
    (conforms_embedLambda hc.conforms).body.rel (treeAlgebra_rel_rowAlgebra A data) hrels
  cases hr'.unique hr
  cases hd'.unique (means_embed (extends_rowAlgebra A data) hd)
  exact hrel hno

/-- It is what the two walkers make of the call. -/
theorem CallTree.settles (hr : CallTree lam es le r) (hlam : LambdasFit cat argtypes lam)
    (hargs : ArgsHold argtypes lam args) (hc : Callee cat argtypes lam p k t es le σs)
    {name : List String} :
    Settles (fun n => motherMutator n args (.lfa name t p k es)) r := by
  have htree := callArgs_callEntry embedLambda RowBody.node hlam hc.args
  obtain ⟨bs, hbs, hstands⟩ := exists_childBindings hlam hargs hc.args htree
  have hbound := @bound_of_standsFor _ _ _ treeAlgebra [] { binding := [] } bs _ hstands
  obtain ⟨r', hwalk, hr'⟩ := Means.walks hr fun i E hi _ => hbound hi
  rw [← means_tree_inv hr'] at hwalk
  have hlen : es.length = (embedLambda le).nargs := by
    rw [hc.args.length_eq]
    exact hc.conforms.nargs_eq.symm
  refine hwalk.settles.mono fun n hn => ?_
  have hwalk' : scalarInjectWalk n { binding := bs.map some } (embedLambda le).expr = .ok r := hn
  simp only [motherMutator, hargs p k σs _ le hc.column_eq hc.lambda_eq, ok_bind,
    injectScalarChild, hlen, hbs, hwalk', ne_eq, not_true_eq_false, if_false]
  rfl

/-- What the injection makes of a part of the mother. -/
structure Injected (lam : Nat → Nat → Option (LambdaExpr F V)) (e : RowBody F V)
    (r : Expr (RowFunc F) V) : Prop where
  dropped : hasAlias r = false ↔ CallsDropped lam e
  means : ∀ {D : Type} (A : ScalarAlgebra F V D) (data : Nat → Nat → D) (d : D),
    RowMeans A data lam e d → hasAlias r = false → Means (rowAlgebra A data) [] r (.val d)

structure InjectedArgs (lam : Nat → Nat → Option (LambdaExpr F V)) (es : List (RowBody F V))
    (rs : List (Expr (RowFunc F) V)) : Prop where
  dropped : hasAliasArgs rs = false ↔ CallsDroppedArgs lam es
  means : ∀ {D : Type} (A : ScalarAlgebra F V D) (data : Nat → Nat → D) (ds : List D),
    RowMeansArgs A data lam es (ds.map .val) → hasAliasArgs rs = false →
      MeansArgs (rowAlgebra A data) [] rs (ds.map .val)

theorem injected_call {name : List String} (hlam : LambdasFit cat argtypes lam)
    (hc : Callee cat argtypes lam p k t es le σs) (hr : CallTree lam es le r)
    (hno : hasAlias r = false ↔
      Means useAlgebra (es.map (callEntry id lam fun e => hasAlias e.node)) le.expr (.val false)) :
    Injected lam (.lfa name t p k es) r where
  dropped := by
    simp only [CallsDropped, hc.lambda_eq, Option.some.injEq, exists_eq_left']
    exact hno
  means A data d hd hfree := by
    simp only [RowMeans, hc.lambda_eq, Option.some.injEq] at hd
    obtain ⟨le', Es, rfl, hEs, hd⟩ := hd
    exact hr.means hlam hc hEs hd hfree

mutual

/-- The mother's walker ends on every well-typed body. Induction on the body; only a
call leaves it. -/
theorem exists_motherMutator (hlam : LambdasFit cat argtypes lam)
    (hargs : ArgsHold argtypes lam args) : ∀ {e : RowBody F V} {τ : Oid},
      RowHasType cat argtypes e τ →
      ∃ r, Settles (fun n => motherMutator n args e) r ∧ Injected lam e r
  | .const t v, τ, _ => by
    refine ⟨.const t v, settles_const rfl, by simp [hasAlias, CallsDropped], ?_⟩
    intro D A data d hd _
    rw [hd]
    exact Means.const
  | .field p k t, τ, _ => by
    refine ⟨.func (.field p k t) [], settles_const rfl,
      by simp [hasAlias, hasAliasArgs, RowFunc.isLfa, CallsDropped], ?_⟩
    intro D A data d hd _
    rw [hd]
    exact means_nullary
  | .func f es, τ, ht => by
    obtain ⟨rs, hrs, hspec⟩ := exists_motherMutatorArgs hlam hargs ht.2
    refine ⟨.func (.op f) rs, ?_, ?_, ?_⟩
    · simp only [motherMutator]
      exact hrs.bind (settles_const rfl)
    · simpa [hasAlias, RowFunc.isLfa, CallsDropped] using hspec.dropped
    · intro D A data d hd hno
      obtain ⟨ds, hds, rfl⟩ := hd
      simp only [hasAlias, Bool.or_eq_false_iff] at hno
      exact Means.func (hspec.means A data ds hds hno.2)
  | .caseWhen t c r d, τ, ht => by
    obtain ⟨_, ⟨b, htc⟩, htr, htd⟩ := ht
    obtain ⟨c', hc, sc⟩ := exists_motherMutator hlam hargs htc
    obtain ⟨r', hr, sr⟩ := exists_motherMutator hlam hargs htr
    obtain ⟨d', hd, sd⟩ := exists_motherMutator hlam hargs htd
    refine ⟨.caseWhen t c' r' d', ?_, ?_, ?_⟩
    · simp only [motherMutator]
      exact hc.bind (hr.bind (hd.bind (settles_const rfl)))
    · simp only [hasAlias, CallsDropped, Bool.or_eq_false_iff, sc.dropped, sr.dropped,
        sd.dropped, and_assoc]
    · intro D A data v hv hno
      obtain ⟨dc, dr, dd, hdc, hdr, hdd, rfl⟩ := hv
      simp only [hasAlias, Bool.or_eq_false_iff] at hno
      exact Means.caseWhen (sc.means A data dc hdc hno.1.1) (sr.means A data dr hdr hno.1.2)
        (sd.means A data dd hdd hno.2)
  | .coalesce t a b, τ, ht => by
    obtain ⟨a', ha, sa⟩ := exists_motherMutator hlam hargs ht.2.1
    obtain ⟨b', hb, sb⟩ := exists_motherMutator hlam hargs ht.2.2
    refine ⟨.coalesce t a' b', ?_, ?_, ?_⟩
    · simp only [motherMutator]
      exact ha.bind (hb.bind (settles_const rfl))
    · simp only [hasAlias, CallsDropped, Bool.or_eq_false_iff, sa.dropped, sb.dropped]
    · intro D A data v hv hno
      obtain ⟨da, db, hda, hdb, rfl⟩ := hv
      simp only [hasAlias, Bool.or_eq_false_iff] at hno
      exact Means.coalesce (sa.means A data da hda hno.1) (sb.means A data db hdb hno.2)
  | .lfa name t p k es, τ, ht => by
    obtain ⟨le, σs, hc⟩ := exists_callee hlam ht
    obtain ⟨r, hr, hno⟩ := exists_callTree hlam hc
    exact ⟨r, hr.settles hlam hargs hc, injected_call hlam hc hr hno⟩

theorem exists_motherMutatorArgs (hlam : LambdasFit cat argtypes lam)
    (hargs : ArgsHold argtypes lam args) : ∀ {es : List (RowBody F V)} {ts : List Oid},
      RowHasTypes cat argtypes es (ts.map .scalar) →
      ∃ rs, Settles (fun n => motherMutatorArgs n args es) rs ∧ InjectedArgs lam es rs
  | [], ts, _ => by
    refine ⟨[], settles_const rfl, by simp [hasAliasArgs, CallsDroppedArgs], ?_⟩
    intro D A data ds hds _
    simp only [RowMeansArgs, List.map_eq_nil_iff] at hds
    rw [hds]
    exact MeansArgs.nil
  | e :: es, ts, ht => by
    obtain ⟨σ, σs', hσ, he, hes⟩ := ht
    cases ts with
    | nil => cases hσ
    | cons t ts =>
      cases hσ
      rcases he with ⟨t', _, hte⟩ | ⟨_, _, _, _, _, hfunc, _⟩
      · obtain ⟨r, hr, sr⟩ := exists_motherMutator hlam hargs hte
        obtain ⟨rs, hrs, srs⟩ := exists_motherMutatorArgs hlam hargs hes
        refine ⟨r :: rs, ?_, ?_, ?_⟩
        · simp only [motherMutatorArgs]
          exact hr.bind (hrs.bind (settles_const rfl))
        · simp only [hasAliasArgs, CallsDroppedArgs, Bool.or_eq_false_iff, sr.dropped,
            srs.dropped]
        · intro D A data ds hds hno
          obtain ⟨E, Es', heq, hE, hEs⟩ := hds
          simp only [hasAliasArgs, Bool.or_eq_false_iff] at hno
          cases ds with
          | nil => cases heq
          | cons d ds =>
            cases heq
            obtain ⟨d', hd', hmeans⟩ := CallArg.val_inv hE (byName_of_hasType hte)
            cases hd'
            exact MeansArgs.cons (sr.means A data d hmeans hno.1)
              (srs.means A data ds hEs hno.2)
      · cases hfunc

end

end Walkers

/-! ## The injector's arguments -/

section Args

variable {cat : ProcCatalog F} {argtypes : List (List LambdaSigType)}
  {innerLambdas : List (List (Option (Datum F V)))}

end Args

/-! ## The result -/

section Complete

variable {cat : ProcCatalog F} {argtypes : List (List LambdaSigType)}
  {innerLambdas : List (List (Option (Datum F V)))}

end Complete

end HolLambdas.Row
