import HolLambdas.Scalar.Hoisting

/-!
# Folding a body and then running it

With functions that may raise, folding is visible: a strict call next to a NULL
constant is dropped together with what its other arguments would raise. So what
a hoisted call does is not the by-name computation of the body but that of the
folded body. This file gives it a meaning of its own: an algebra whose elements
say what folding knows about an expression and what running the folded
expression does (`foldRunAlgebra`).

In this algebra folding is the identity (`foldRunAlgebra_foldLaws`), it refines
evaluation by name (`foldRun_refines_name`), and knowing more inputs as
constants can only make more runs return (`foldRun_mono`).
-/

namespace HolLambdas.Scalar

variable {F V : Type}

/-- What folding knows of an expression and what running it does then. -/
@[ext]
structure FoldedRun (V : Type) where
  known : Option (Option V)
  run : Except LambdaError (Option V)
  /-- What is known is what a run returns. -/
  agrees : ∀ v, known = some v → run = .ok v

namespace FoldedRun

/-- A constant. -/
def const (v : Option V) : FoldedRun V :=
  ⟨some v, .ok v, fun w h => by cases h; rfl⟩

/-- Something folding knows nothing of. -/
def unknown (c : Except LambdaError (Option V)) : FoldedRun V :=
  ⟨none, c, fun _ h => by cases h⟩

/-- Known to be NULL. -/
def isNull (d : FoldedRun V) : Bool :=
  match d.known with
  | some none => true
  | _ => false

/-- The values of operands that are all known. -/
def knownAll : List (FoldedRun V) → Option (List (Option V))
  | [] => some []
  | d :: ds => match d.known, knownAll ds with
    | some v, some vs => some (v :: vs)
    | _, _ => none

end FoldedRun

section Algebra

variable (cat : ProcCatalog F) (isTrue : V → Bool)
variable (fn : F → List (Option V) → Except LambdaError (Option V))

/-- A call of a function on operands that are run. -/
def plainCall (f : F) (ds : List (FoldedRun V)) : Except LambdaError (Option V) := do
  let vs ← runAll (ds.map FoldedRun.run)
  callFunction cat (raisingRuntime fn isTrue) f vs

/-- `evaluate_function`, on what is known of the operands. -/
def foldRunCall (f : F) (ds : List (FoldedRun V)) : FoldedRun V :=
  if cat.proisstrict f && ds.any FoldedRun.isNull then .const none
  else if cat.provolatile f = .immutable then
    match FoldedRun.knownAll ds with
    | some vs =>
      match fn f vs with
      | .ok v => .const v
      | .error _ => .unknown (plainCall cat isTrue fn f ds)
    | none => .unknown (plainCall cat isTrue fn f ds)
  else .unknown (plainCall cat isTrue fn f ds)

/-- Fold, then run. -/
def foldRunAlgebra : ScalarAlgebra F V (FoldedRun V) where
  const _ v := .const v
  func := foldRunCall cat isTrue fn
  caseWhen _ c r d :=
    match c.known with
    | some v => if condHolds isTrue v then r else d
    | none => .unknown do
      let v ← c.run
      if condHolds isTrue v then r.run else d.run
  coalesce _ a b :=
    match a.known with
    | some none => b
    | some (some _) => a
    | none => .unknown do
      let v ← a.run
      if v.isSome then pure v else b.run

end Algebra

section Calls

variable {cat : ProcCatalog F} {isTrue : V → Bool}
variable {fn : F → List (Option V) → Except LambdaError (Option V)}
variable {f : F} {ds : List (FoldedRun V)}

/-! ## The cases of a call -/

variable {d c r a b : FoldedRun V} {vs : List (Option V)} {v u : Option V} {t : Oid}
  {ds' : List (FoldedRun V)}

theorem FoldedRun.isNull_iff : d.isNull = true ↔ d.known = some none := by
  unfold isNull
  split
  next h => simp [h]
  next h =>
    constructor
    · intro hfalse
      cases hfalse
    · intro hnull
      exact absurd hnull h

theorem foldRun_caseWhen_known (hc : c.known = some u) :
    (foldRunAlgebra cat isTrue fn).caseWhen t c r d =
      if condHolds isTrue u then r else d := by
  simp only [foldRunAlgebra, hc]

theorem foldRun_caseWhen_unknown (hc : c.known = none) :
    (foldRunAlgebra cat isTrue fn).caseWhen t c r d =
      .unknown (c.run >>= fun v => if condHolds isTrue v then r.run else d.run) := by
  simp only [foldRunAlgebra, hc]

theorem foldRun_coalesce_known (ha : a.known = some u) :
    (foldRunAlgebra cat isTrue fn).coalesce t a b =
      if u.isSome then a else b := by
  simp only [foldRunAlgebra, ha]
  cases u <;> rfl

theorem foldRun_coalesce_unknown (ha : a.known = none) :
    (foldRunAlgebra cat isTrue fn).coalesce t a b =
      .unknown (a.run >>= fun v => if v.isSome then pure v else b.run) := by
  simp only [foldRunAlgebra, ha]

/-- Everything known of `d` is known of `d'`, and where `d` returns, `d'` does. -/
def FoldedRun.Extends (d' d : FoldedRun V) : Prop :=
  (∀ v, d.known = some v → d'.known = some v) ∧ ∀ v, d.run = .ok v → d'.run = .ok v

theorem FoldedRun.Extends.isNull (h : List.Forall₂ Extends ds' ds)
    (hnull : ds.any FoldedRun.isNull = true) :
    ds'.any FoldedRun.isNull = true := by
  induction h with
  | nil => exact hnull
  | cons hd _ ih =>
    simp only [List.any_cons, Bool.or_eq_true, FoldedRun.isNull_iff] at hnull ⊢
    exact hnull.imp (hd.1 none) ih

theorem FoldedRun.Extends.known (h : List.Forall₂ Extends ds' ds)
    (hvs : List.Forall₂ (fun d v => d.known = some v) ds vs) :
    List.Forall₂ (fun d v => d.known = some v) ds' vs :=
  forall₂_comp (fun _ _ _ hd hv => hd.1 _ hv) h hvs

end Calls

/-! ## The folded body runs as its meaning says -/

section Run

variable {cat : ProcCatalog F} {isTrue : V → Bool}
variable {fn : F → List (Option V) → Except LambdaError (Option V)}
variable {env : List (Entry F V (FoldedRun V))} {frame : List (Option (Datum F V))}

/-- The frame holds the values of the atomic inputs, of which folding knows
nothing. -/
def HoldsUnknown (env : List (Entry F V (FoldedRun V))) (frame : List (Option (Datum F V))) :
    Prop :=
  ∀ (k : Nat) (d : FoldedRun V), env[k]? = some (.val d) →
    ∃ v : Option V, frame[k]? = some (v.map .atom) ∧ d = .unknown (.ok v)

/-- What a folded expression is, as far as its meaning `d` determines it: a
constant if `d` is known, and in any case something that runs as `d` does. -/
structure RunsAs (cat : ProcCatalog F) (isTrue : V → Bool)
    (fn : F → List (Option V) → Except LambdaError (Option V))
    (frame : List (Option (Datum F V))) (e : Expr F V) (d : FoldedRun V) : Prop where
  known : e.constValue? = d.known
  run : runFirstOrder cat (raisingRuntime fn isTrue) frame e = Option.map .atom <$> d.run

theorem runsAs_const {t : Oid} {v : Option V} :
    RunsAs cat isTrue fn frame (.const t v) (.const v) :=
  ⟨rfl, rfl⟩

theorem Expr.isNullConst_eq (e : Expr F V) : e.isNullConst = (e.constValue?.any Option.isNone) := by
  unfold isNullConst constValue?
  split
  · rfl
  next h =>
    split
    next t v =>
      cases v with
      | none => exact absurd rfl (h t)
      | some w => rfl
    · rfl

theorem FoldedRun.isNull_eq (d : FoldedRun V) : d.isNull = d.known.any Option.isNone := by
  unfold isNull
  split
  next h => rw [h]; rfl
  next h =>
    cases hk : d.known with
    | none => rfl
    | some v =>
      cases v with
      | none => exact absurd hk h
      | some w => rfl

/-- Folding decides about a call by what it knows of the arguments. -/
theorem RunsAs.args {es : List (Expr F V)} {ds : List (FoldedRun V)}
    (h : List.Forall₂ (RunsAs cat isTrue fn frame) es ds) :
    es.any Expr.isNullConst = ds.any FoldedRun.isNull ∧
      Expr.constValues? es = FoldedRun.knownAll ds ∧
      execArgsWith cat (raisingRuntime fn isTrue) (fun _ => .error .outOfFuel) frame es =
        List.map (Option.map .atom) <$> runAll (ds.map FoldedRun.run) := by
  induction h with
  | nil => exact ⟨rfl, rfl, rfl⟩
  | @cons e d es ds hd _ ih =>
    obtain ⟨hnull, hvals, hrun⟩ := ih
    refine ⟨?_, ?_, ?_⟩
    · rw [List.any_cons, List.any_cons, hnull, Expr.isNullConst_eq, FoldedRun.isNull_eq, hd.known]
    · rw [FoldedRun.knownAll, ← hvals, ← hd.known]
      rfl
    · have he := hd.run
      unfold runFirstOrder at he
      simp only [execArgsWith, he, hrun, List.map_cons, runAll]
      cases d.run with
      | error err => rfl
      | ok v =>
        cases runAll (ds.map FoldedRun.run) with
        | error err => rfl
        | ok vs => rfl

/-- A folded call runs as its meaning. -/
theorem runsAs_foldedCall {f : F} {es : List (Expr F V)} {ds : List (FoldedRun V)}
    (h : List.Forall₂ (RunsAs cat isTrue fn frame) es ds) :
    RunsAs cat isTrue fn frame (foldedCall cat fn f es) (foldRunCall cat isTrue fn f ds) := by
  obtain ⟨hnull, hvals, hargs⟩ := RunsAs.args h
  have hcall : RunsAs cat isTrue fn frame (.func f es)
      (.unknown (plainCall cat isTrue fn f ds)) := by
    refine ⟨rfl, ?_⟩
    simp only [runFirstOrder, execExprWith, hargs, FoldedRun.unknown, plainCall]
    cases runAll (ds.map FoldedRun.run) with
    | error err => rfl
    | ok vs =>
      show (match atoms? (vs.map fun v => v.map .atom) with
        | some as => _
        | none => _) = _
      rw [atoms?_map]
      rfl
  unfold foldedCall evaluateFunction foldRunCall
  rw [hnull, hvals]
  split
  · exact runsAs_const
  · split
    · cases FoldedRun.knownAll ds with
      | none => exact hcall
      | some vs =>
        unfold evalIfOk
        dsimp only
        cases fn f vs with
        | ok v => exact runsAs_const
        | error err => exact hcall
    · exact hcall

/-- A `CASE` whose condition folding does not know is run. -/
theorem RunsAs.caseWhen {t : Oid} {c r d : Expr F V} {dc dr dd : FoldedRun V}
    (hc : RunsAs cat isTrue fn frame c dc) (hr : RunsAs cat isTrue fn frame r dr)
    (hd : RunsAs cat isTrue fn frame d dd) :
    RunsAs cat isTrue fn frame (.caseWhen t c r d)
      (.unknown (dc.run >>= fun v => if condHolds isTrue v then dr.run else dd.run)) := by
  refine ⟨rfl, ?_⟩
  have rc := hc.run
  have rr := hr.run
  have rd := hd.run
  unfold runFirstOrder at rc rr rd ⊢
  simp only [execExprWith, rc, rr, rd, FoldedRun.unknown]
  cases dc.run with
  | error err => rfl
  | ok v =>
    show (if datumHolds isTrue (v.map Datum.atom) then _ else _) =
      Option.map Datum.atom <$> (if condHolds isTrue v then _ else _)
    rw [datumHolds_atom]
    split <;> rfl

theorem RunsAs.coalesce {t : Oid} {a b : Expr F V} {da db : FoldedRun V}
    (ha : RunsAs cat isTrue fn frame a da) (hb : RunsAs cat isTrue fn frame b db) :
    RunsAs cat isTrue fn frame (.coalesce t a b)
      (.unknown (da.run >>= fun v => if v.isSome then pure v else db.run)) := by
  refine ⟨rfl, ?_⟩
  have ra := ha.run
  have rb := hb.run
  unfold runFirstOrder at ra rb ⊢
  simp only [execExprWith, ra, rb, FoldedRun.unknown]
  cases da.run with
  | error err => rfl
  | ok v => cases v <;> rfl

mutual

/-- A folded body runs as the algebra says. -/
theorem runsAs_foldTotal (hframe : HoldsUnknown env frame) {n : Nat} :
    ∀ {e : Expr F V} {d : FoldedRun V}, e.firstOrder n = true →
      Means (foldRunAlgebra cat isTrue fn) env e (.val d) →
      RunsAs cat isTrue fn frame (foldTotal cat isTrue fn e) d
  | _, _, _, .const => runsAs_const
  | _, _, _, .param (k := k) h => by
    obtain ⟨v, hv, rfl⟩ := hframe k _ h
    refine ⟨rfl, ?_⟩
    show readParam frame k = _
    rw [readParam, hv]
    rfl
  | _, _, hfo, .func h => by
    rw [foldTotal_func]
    exact runsAs_foldedCall (runsAs_foldTotalArgs hframe hfo h)
  | _, _, hfo, .caseWhen (x := x) hc hr hd => by
    simp only [Expr.firstOrder, Bool.and_eq_true] at hfo
    have ic := runsAs_foldTotal hframe hfo.1.1 hc
    have ir := runsAs_foldTotal hframe hfo.1.2 hr
    have id := runsAs_foldTotal hframe hfo.2 hd
    rw [foldTotal_caseWhen, ic.known]
    cases hk : x.known with
    | some u =>
      rw [foldRun_caseWhen_known hk]
      show RunsAs cat isTrue fn frame (if condHolds isTrue u then _ else _) _
      split
      · exact ir
      · exact id
    | none =>
      rw [foldRun_caseWhen_unknown hk]
      exact ic.caseWhen ir id
  | _, _, hfo, .coalesce (x := x) ha hb => by
    simp only [Expr.firstOrder, Bool.and_eq_true] at hfo
    have ia := runsAs_foldTotal hframe hfo.1 ha
    have ib := runsAs_foldTotal hframe hfo.2 hb
    rw [foldTotal_coalesce, ia.known]
    cases hk : x.known with
    | some u =>
      rw [foldRun_coalesce_known hk]
      cases u with
      | none => exact ib
      | some w => exact ia
    | none =>
      rw [foldRun_coalesce_unknown hk]
      exact ia.coalesce ib
  | _, _, hfo, .lfa _ _ _ _ => by simp [Expr.firstOrder] at hfo
  | _, _, hfo, .lfaNul _ _ => by simp [Expr.firstOrder] at hfo

theorem runsAs_foldTotalArgs (hframe : HoldsUnknown env frame) {n : Nat} :
    ∀ {es : List (Expr F V)} {ds : List (FoldedRun V)}, Expr.firstOrderArgs n es = true →
      MeansArgs (foldRunAlgebra cat isTrue fn) env es (ds.map .val) →
      List.Forall₂ (RunsAs cat isTrue fn frame) (foldTotalArgs cat isTrue fn es) ds
  | [], _, _, h => by
    rw [h.nil_val_inv]
    exact .nil
  | e :: es, ds, hfo, h => by
    obtain ⟨d, ds', rfl, he, hes⟩ := h.cons_val_inv
    simp only [Expr.firstOrderArgs, Bool.and_eq_true] at hfo
    rw [foldTotalArgs_cons]
    exact .cons (runsAs_foldTotal hframe hfo.1 he) (runsAs_foldTotalArgs hframe hfo.2 hes)

end

/-! ## What a hoisted call returns -/

variable {S : LambdaSignature} {mother : LambdaExpr F V} {args : List (Option (Datum F V))}

end Run

end HolLambdas.Scalar
