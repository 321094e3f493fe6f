import HolLambdas.Scalar.Residual

/-!
# Baking and renumbering

`lambda_partial_apply` does two things in one walk: it puts the filled arguments into the
mother's body, and it renumbers what is left, the held inputs, to a dense range. Here the
two are taken apart. `bakedBody` is the walk with every held position bound to itself, so
that its result still speaks of the mother's positions. What is built is the baked body
with each position replaced by its slot (`lambdaPartialApply_eq`), and the constant folder
does not mind (`evalConst_renumber`).

That works because a lambda speaks of its own inputs only. `Over P` is said of a body whose
references are to inputs in `P` and whose embedded lambdas are closed; the walk takes it
from the bindings of a scope to the result, at any depth of inlined calls.
-/

namespace HolLambdas.Scalar

variable {F V : Type} {P Q : Nat → Prop} {ctx ctx' : ScalarBind F V}

/-- The input that a reference is to. -/
def Reference.index : Reference → Nat
  | read k _ => k
  | call k => k

/-! ## Bodies over some inputs -/

namespace Expr

mutual

/-- The body with its references renumbered. Embedded lambdas have inputs of their own. -/
def renumber (σ : Nat → Nat) : Expr F V → Expr F V
  | const t v => const t v
  | param k t => param (σ k) t
  | func f args => func f (renumberArgs σ args)
  | caseWhen t c r d => caseWhen t (renumber σ c) (renumber σ r) (renumber σ d)
  | coalesce t a b => coalesce t (renumber σ a) (renumber σ b)
  | lfa name t k args => lfa name t (σ k) (renumberArgs σ args)
  | lambda h e => lambda h e

def renumberArgs (σ : Nat → Nat) : List (Expr F V) → List (Expr F V)
  | [] => []
  | e :: es => renumber σ e :: renumberArgs σ es

end

mutual

/-- The body refers to inputs in `P` only, and every embedded lambda to its own. -/
def Over : (P : Nat → Prop) → Expr F V → Prop
  | _, const _ _ => True
  | P, param k _ => P k
  | P, func _ args => OverArgs P args
  | P, caseWhen _ c r d => Over P c ∧ Over P r ∧ Over P d
  | P, coalesce _ a b => Over P a ∧ Over P b
  | P, lfa _ _ k args => P k ∧ OverArgs P args
  | _, lambda h e => Over (· < h.nargs) e

def OverArgs : (P : Nat → Prop) → List (Expr F V) → Prop
  | _, [] => True
  | P, e :: es => Over P e ∧ OverArgs P es

end

theorem renumberArgs_eq_map (σ : Nat → Nat) (es : List (Expr F V)) :
    renumberArgs σ es = es.map (renumber σ) := by
  induction es with
  | nil => rfl
  | cons e es ih => rw [renumberArgs, ih, List.map_cons]

theorem OverArgs.lookup : ∀ {es : List (Expr F V)} {k : Nat} {e : Expr F V},
    OverArgs P es → es[k]? = some e → Over P e
  | _ :: _, 0, _, h, hk => by
    cases hk
    exact h.1
  | _ :: es, k + 1, _, h, hk => h.2.lookup (by simpa using hk)

mutual

theorem Over.mono (hPQ : ∀ k, P k → Q k) : ∀ {e : Expr F V},
    Over P e → Over Q e
  | const _ _, _ => trivial
  | param k _, h => hPQ k h
  | func _ _, h => OverArgs.mono hPQ h
  | caseWhen _ _ _ _, h => ⟨Over.mono hPQ h.1, Over.mono hPQ h.2.1, Over.mono hPQ h.2.2⟩
  | coalesce _ _ _, h => ⟨Over.mono hPQ h.1, Over.mono hPQ h.2⟩
  | lfa _ _ k _, h => ⟨hPQ k h.1, OverArgs.mono hPQ h.2⟩
  | lambda _ _, h => h

theorem OverArgs.mono (hPQ : ∀ k, P k → Q k) : ∀ {es : List (Expr F V)},
    OverArgs P es → OverArgs Q es
  | [], _ => trivial
  | _ :: _, h => ⟨Over.mono hPQ h.1, OverArgs.mono hPQ h.2⟩

end

mutual

/-- Only the inputs that the body mentions matter. -/
theorem Over.of_mentions : ∀ {e : Expr F V}, Over P e →
    (∀ k, P k → e.mentions k = true → Q k) → Over Q e
  | const _ _, _, _ => trivial
  | param k _, h, hQ => hQ k h (by simp [mentions])
  | func _ args, h, hQ => OverArgs.of_mentions h hQ
  | caseWhen _ c r d, h, hQ =>
    ⟨Over.of_mentions (e := c) h.1 fun k hk hm => hQ k hk (by simp [mentions, hm]),
      Over.of_mentions (e := r) h.2.1 fun k hk hm => hQ k hk (by simp [mentions, hm]),
      Over.of_mentions (e := d) h.2.2 fun k hk hm => hQ k hk (by simp [mentions, hm])⟩
  | coalesce _ a b, h, hQ =>
    ⟨Over.of_mentions (e := a) h.1 fun k hk hm => hQ k hk (by simp [mentions, hm]),
      Over.of_mentions (e := b) h.2 fun k hk hm => hQ k hk (by simp [mentions, hm])⟩
  | lfa _ _ i args, h, hQ =>
    ⟨hQ i h.1 (by simp [mentions]),
      OverArgs.of_mentions h.2 fun k hk hm => hQ k hk (by simp [mentions, hm])⟩
  | lambda _ _, h, _ => h

theorem OverArgs.of_mentions : ∀ {es : List (Expr F V)}, OverArgs P es →
    (∀ k, P k → mentionsArgs k es = true → Q k) → OverArgs Q es
  | [], _, _ => trivial
  | e :: es, h, hQ =>
    ⟨Over.of_mentions (e := e) h.1 fun k hk hm => hQ k hk (by simp [mentionsArgs, hm]),
      OverArgs.of_mentions h.2 fun k hk hm => hQ k hk (by simp [mentionsArgs, hm])⟩

end

mutual

theorem Over.renumber {σ : Nat → Nat} (hPQ : ∀ p, P p → Q (σ p)) :
    ∀ {e : Expr F V}, Over P e → Over Q (e.renumber σ)
  | const _ _, _ => trivial
  | param k _, h => hPQ k h
  | func _ _, h => OverArgs.renumber hPQ h
  | caseWhen _ _ _ _, h =>
    ⟨Over.renumber hPQ h.1, Over.renumber hPQ h.2.1, Over.renumber hPQ h.2.2⟩
  | coalesce _ _ _, h => ⟨Over.renumber hPQ h.1, Over.renumber hPQ h.2⟩
  | lfa _ _ k _, h => ⟨hPQ k h.1, OverArgs.renumber hPQ h.2⟩
  | lambda _ _, h => h

theorem OverArgs.renumber {σ : Nat → Nat} (hPQ : ∀ p, P p → Q (σ p)) :
    ∀ {es : List (Expr F V)}, OverArgs P es → OverArgs Q (renumberArgs σ es)
  | [], _ => trivial
  | _ :: _, h => ⟨Over.renumber hPQ h.1, OverArgs.renumber hPQ h.2⟩

end

mutual

theorem Over.references : ∀ {e : Expr F V}, Over P e →
    ∀ ref ∈ e.references, P ref.index
  | const _ _, _, ref, hmem => by cases hmem
  | param k t, h, ref, hmem => by
    obtain rfl : ref = .read k t := List.mem_singleton.mp hmem
    exact h
  | func _ args, h, ref, hmem => OverArgs.references h ref hmem
  | caseWhen _ c r d, h, ref, hmem => by
    rcases List.mem_append.mp hmem with hmem | hmem
    · exact Over.references (e := c) h.1 ref hmem
    · rcases List.mem_append.mp hmem with hmem | hmem
      · exact Over.references (e := r) h.2.1 ref hmem
      · exact Over.references (e := d) h.2.2 ref hmem
  | coalesce _ a b, h, ref, hmem => by
    rcases List.mem_append.mp hmem with hmem | hmem
    · exact Over.references (e := a) h.1 ref hmem
    · exact Over.references (e := b) h.2 ref hmem
  | lfa _ _ k args, h, ref, hmem => by
    rcases List.mem_cons.mp hmem with rfl | hmem
    · exact h.1
    · exact OverArgs.references h.2 ref hmem
  | lambda _ _, _, ref, hmem => by cases hmem

theorem OverArgs.references : ∀ {es : List (Expr F V)}, OverArgs P es →
    ∀ ref ∈ referencesArgs es, P ref.index
  | [], _, ref, hmem => by cases hmem
  | e :: es, h, ref, hmem => by
    rcases List.mem_append.mp hmem with hmem | hmem
    · exact Over.references (e := e) h.1 ref hmem
    · exact OverArgs.references h.2 ref hmem

end

end Expr

open HolLambdas.Scalar.Expr

/-- A lambda whose body refers to its own inputs only. -/
def LambdaExpr.Closed (le : LambdaExpr F V) : Prop :=
  le.expr.Over (· < le.nargs)

/-! ## The walk -/

/-- Input `k` of the scope is bound, to something over `P`. -/
def ScalarBind.Binds (P : Nat → Prop) (ctx : ScalarBind F V) (k : Nat) : Prop :=
  ∃ b, ctx.binding[k]? = some (some b) ∧ b.Over P

/-- The scope of an inlined callee. -/
theorem binds_of_overArgs {ctx : ScalarBind F V} {es : List (Expr F V)} (h : OverArgs P es)
    {k : Nat} (hk : k < es.length) :
    ScalarBind.Binds P { ctx with binding := es.map some } k := by
  refine ⟨es[k], ?_, h.lookup (List.getElem?_eq_getElem hk)⟩
  simp [hk]

mutual

/-- A walk takes `Over` from the bindings to the result. -/
theorem over_walks : ∀ {ctx : ScalarBind F V} {e r : Expr F V}, Walks ctx e r →
    e.Over (ctx.Binds P) → r.Over P
  | _, _, _, .const, _ => trivial
  | _, _, _, .param, ⟨b, hb, hP⟩ => by simpa only [ScalarBind.resolve, hb] using hP
  | _, _, _, .func h, hover => overArgs_walks h hover
  | _, _, _, .caseWhen hc hr hd, hover =>
    ⟨over_walks hc hover.1, over_walks hr hover.2.1, over_walks hd hover.2.2⟩
  | _, _, _, .coalesce ha hb, hover => ⟨over_walks ha hover.1, over_walks hb hover.2⟩
  | _, _, _, .inline (h := hd) hk hlen hargs hbody, ⟨⟨b, hb, hP⟩, hover⟩ => by
    -- the arguments are bound to the inputs of the callee, which has no others
    obtain rfl : b = .lambda hd _ := Option.some.inj (Option.some.inj (hb.symm.trans hk))
    have hclosed : Over (· < hd.nargs) _ := hP
    refine over_walks hbody (hclosed.mono fun i hi => ?_)
    exact binds_of_overArgs (overArgs_walks hargs hover) (by rwa [hargs.length_eq, hlen])
  | _, _, _, .retarget hk hargs, ⟨⟨b, hb, hP⟩, hover⟩ => by
    obtain rfl : b = .param _ _ := Option.some.inj (Option.some.inj (hb.symm.trans hk))
    exact ⟨hP, overArgs_walks hargs hover⟩
  | _, _, _, .lambda, hover => hover

theorem overArgs_walks : ∀ {ctx : ScalarBind F V} {es rs : List (Expr F V)},
    WalksArgs ctx es rs → OverArgs (ctx.Binds P) es → OverArgs P rs
  | _, _, _, .nil, _ => trivial
  | _, _, _, .cons h hs, hover => ⟨over_walks h hover.1, overArgs_walks hs hover.2⟩

end

section Walk

/-- Two scopes of which the second is the first renumbered. -/
structure Renumbers (P : Nat → Prop) (σ : Nat → Nat) (ctx ctx' : ScalarBind F V) : Prop where
  binding : ctx'.binding = ctx.binding.map (Option.map (renumber σ))
  slotname : ∀ id, P id → ∀ name, ctx'.slotname (σ id) name = ctx.slotname id name

theorem Renumbers.callee {σ : Nat → Nat} (h : Renumbers P σ ctx ctx') (es : List (Expr F V)) :
    Renumbers P σ { ctx with binding := es.map some }
      { ctx' with binding := (renumberArgs σ es).map some } where
  binding := by simp [renumberArgs_eq_map, Function.comp_def]
  slotname := h.slotname

variable {σ : Nat → Nat} {n : Nat}

mutual

/-- A walk is the same up to the numbers; `hinl` is the statement for callees. -/
theorem walkWith_renumber
    (hinl : ∀ (ctx ctx' : ScalarBind F V) e, Renumbers P σ ctx ctx' → e.Over (ctx.Binds P) →
      scalarInjectCallee n ctx' e = renumber σ <$> scalarInjectCallee n ctx e)
    (hctx : Renumbers P σ ctx ctx') :
    ∀ {e : Expr F V}, e.Over (ctx.Binds P) →
      scalarInjectWalk n ctx' e = renumber σ <$> scalarInjectWalk n ctx e
  | .const _ _, _ => rfl
  | .param k t, ⟨b, hb, _⟩ => by
    have hb' : ctx'.binding[k]? = some (some (b.renumber σ)) := by simp [hctx.binding, hb]
    simp only [scalarInjectWalk, scalarInjectWalkWith, ScalarBind.resolve, hb, hb']
    rfl
  | .func f args, h => by
    have hargs := walkArgs_renumber hinl hctx h
    simp only [scalarInjectWalk, scalarInjectWalkWith, hargs, bind_map_left, map_bind]
    rfl
  | .caseWhen _ c r d, h => by
    have hc := walkWith_renumber hinl hctx (e := c) h.1
    have hr := walkWith_renumber hinl hctx (e := r) h.2.1
    have hd := walkWith_renumber hinl hctx (e := d) h.2.2
    simp only [scalarInjectWalk] at hc hr hd
    simp only [scalarInjectWalk, scalarInjectWalkWith, hc, hr, hd, bind_map_left, map_bind]
    rfl
  | .coalesce _ a b, h => by
    have ha := walkWith_renumber hinl hctx (e := a) h.1
    have hb := walkWith_renumber hinl hctx (e := b) h.2
    simp only [scalarInjectWalk] at ha hb
    simp only [scalarInjectWalk, scalarInjectWalkWith, ha, hb, bind_map_left, map_bind]
    rfl
  | .lfa name t k args, ⟨⟨b, hb, hP⟩, hargs⟩ => by
    have hb' : ctx'.binding[k]? = some (some (b.renumber σ)) := by simp [hctx.binding, hb]
    have hwalk := walkArgs_renumber hinl hctx hargs
    cases b with
    | lambda hd body =>
      simp only [scalarInjectWalk, scalarInjectWalkWith, hb, hb', renumber]
      split
      · rfl
      · next hlen =>
        rw [hwalk, bind_map_left, map_bind]
        cases has : scalarInjectWalkArgs (scalarInjectCallee n) ctx args with
        | error err => rfl
        | ok as =>
          -- the callee's scopes are renumbered in the same way
          have hw := walksArgs_of_walkArgs walks_of_callee has
          have hbody : body.Over (· < hd.nargs) := hP
          refine hinl _ _ body (hctx.callee as) (hbody.mono fun i hi => ?_)
          exact binds_of_overArgs (overArgs_walks hw hargs)
            (by rwa [hw.length_eq, not_ne_iff.mp hlen])
    | param id s =>
      simp only [scalarInjectWalk, scalarInjectWalkWith, hb, hb', renumber, hwalk, bind_map_left,
        map_bind, hctx.slotname id hP]
      rfl
    | _ =>
      simp only [scalarInjectWalk, scalarInjectWalkWith, hb, hb', renumber]
      rfl
  | .lambda _ _, _ => rfl

theorem walkArgs_renumber
    (hinl : ∀ (ctx ctx' : ScalarBind F V) e, Renumbers P σ ctx ctx' → e.Over (ctx.Binds P) →
      scalarInjectCallee n ctx' e = renumber σ <$> scalarInjectCallee n ctx e)
    (hctx : Renumbers P σ ctx ctx') :
    ∀ {es : List (Expr F V)}, OverArgs (ctx.Binds P) es →
      scalarInjectWalkArgs (scalarInjectCallee n) ctx' es =
        renumberArgs σ <$> scalarInjectWalkArgs (scalarInjectCallee n) ctx es
  | [], _ => rfl
  | e :: es, h => by
    have he := walkWith_renumber hinl hctx (e := e) h.1
    simp only [scalarInjectWalk] at he
    simp only [scalarInjectWalkArgs, he, walkArgs_renumber hinl hctx h.2, bind_map_left, map_bind]
    rfl

end

theorem callee_renumber : ∀ (n : Nat) (ctx ctx' : ScalarBind F V) (e : Expr F V),
    Renumbers P σ ctx ctx' → e.Over (ctx.Binds P) →
      scalarInjectCallee n ctx' e = renumber σ <$> scalarInjectCallee n ctx e
  | 0, _, _, _, _, _ => rfl
  | n + 1, _, _, _, hctx, hover => walkWith_renumber (callee_renumber n) hctx hover

end Walk

/-! ## The folder -/

section Fold

variable {σ : Nat → Nat}

@[simp]
theorem constValue?_renumber (e : Expr F V) : (e.renumber σ).constValue? = e.constValue? := by
  cases e <;> rfl

@[simp]
theorem isNullConst_renumber (e : Expr F V) : (e.renumber σ).isNullConst = e.isNullConst := by
  cases e <;> rfl

theorem constValues?_renumber (es : List (Expr F V)) :
    constValues? (renumberArgs σ es) = constValues? es := by
  induction es with
  | nil => rfl
  | cons e es ih => simp only [renumberArgs, constValues?, constValue?_renumber, ih]

theorem any_isNullConst_renumber (es : List (Expr F V)) :
    (renumberArgs σ es).any isNullConst = es.any isNullConst := by
  simp [renumberArgs_eq_map, List.any_map, Function.comp_def]

variable {m : Type → Type} [Monad m] [LawfulMonad m] {cat : ProcCatalog F} {isTrue : V → Bool}
variable {eval : F → List (Option V) → m (Option (Option V))}

theorem evaluateFunction_renumber (f : F) (args : List (Expr F V)) :
    evaluateFunction cat eval f (renumberArgs σ args) =
      renumber σ <$> evaluateFunction cat eval f args := by
  unfold evaluateFunction
  rw [any_isNullConst_renumber, constValues?_renumber]
  split
  · simp [renumber]
  · split
    · split
      · rw [map_bind]
        congr 1
        funext v
        cases v <;> simp [renumber]
      · simp [renumber]
    · simp [renumber]

mutual

/-- The folder looks at constants, not at inputs. -/
theorem evalConst_renumber : ∀ e : Expr F V,
    evalConstExpressionsWith cat isTrue eval (e.renumber σ) =
      renumber σ <$> evalConstExpressionsWith cat isTrue eval e
  | .const _ _ => by simp [evalConstExpressionsWith, renumber]
  | .param _ _ => by simp [evalConstExpressionsWith, renumber]
  | .func f args => by
    simp only [evalConstExpressionsWith, renumber, evalConstArgs_renumber args, bind_map_left,
      map_bind, evaluateFunction_renumber]
  | .caseWhen t c r d => by
    simp only [evalConstExpressionsWith, renumber, evalConst_renumber c, bind_map_left, map_bind,
      constValue?_renumber]
    congr 1
    funext c'
    cases c'.constValue? with
    | some v =>
      dsimp only
      split
      · exact evalConst_renumber r
      · exact evalConst_renumber d
    | none =>
      simp only [evalConst_renumber r, evalConst_renumber d, bind_map_left, map_bind, map_pure,
        renumber]
  | .coalesce t a b => by
    simp only [evalConstExpressionsWith, renumber, evalConst_renumber a, bind_map_left, map_bind,
      constValue?_renumber]
    congr 1
    funext a'
    rcases a'.constValue? with _ | _ | v
    · simp only [evalConst_renumber b, bind_map_left, map_bind, map_pure, renumber]
    · exact evalConst_renumber b
    · simp only [map_pure]
  | .lfa name t k args => by
    simp only [evalConstExpressionsWith, renumber, evalConstArgs_renumber args, bind_map_left,
      map_bind, map_pure]
  | .lambda h e => by simp [evalConstExpressionsWith, renumber]

theorem evalConstArgs_renumber : ∀ es : List (Expr F V),
    evalConstExpressionsArgs cat isTrue eval (renumberArgs σ es) =
      renumberArgs σ <$> evalConstExpressionsArgs cat isTrue eval es
  | [] => by simp [evalConstExpressionsArgs, renumberArgs]
  | e :: es => by
    simp only [evalConstExpressionsArgs, renumberArgs, evalConst_renumber e,
      evalConstArgs_renumber es, bind_map_left, map_bind, map_pure]

end

end Fold

section FoldOver

variable {cat : ProcCatalog F} {isTrue : V → Bool}
variable {eval : F → List (Option V) → Except LambdaError (Option (Option V))}

theorem over_evaluateFunction {f : F} {args : List (Expr F V)} {r : Expr F V}
    (h : evaluateFunction cat eval f args = .ok r) (hover : OverArgs P args) : r.Over P := by
  unfold evaluateFunction at h
  split at h
  · cases h
    trivial
  · split at h
    · split at h
      · obtain ⟨v, _, h⟩ := bind_eq_ok.mp h
        cases v with
        | some v =>
          cases h
          trivial
        | none =>
          cases h
          exact hover
      · cases h
        exact hover
    · cases h
      exact hover

mutual

/-- Folding removes references, it adds none. -/
theorem over_evalConst : ∀ {P : Nat → Prop} {e r : Expr F V},
    evalConstExpressionsWith cat isTrue eval e = .ok r → e.Over P → r.Over P
  | _, .const _ _, _, h, _ => by
    cases h
    trivial
  | _, .param _ _, _, h, hover => by
    cases h
    exact hover
  | _, .func f args, _, h, hover => by
    obtain ⟨as, has, h⟩ := bind_eq_ok.mp h
    exact over_evaluateFunction h (over_evalConstArgs has hover)
  | _, .caseWhen _ c r d, _, h, hover => by
    obtain ⟨c', hc, h⟩ := bind_eq_ok.mp h
    split at h
    · split at h
      · exact over_evalConst h hover.2.1
      · exact over_evalConst h hover.2.2
    · obtain ⟨r', hr, h⟩ := bind_eq_ok.mp h
      obtain ⟨d', hd, h⟩ := bind_eq_ok.mp h
      cases h
      exact ⟨over_evalConst hc hover.1, over_evalConst hr hover.2.1, over_evalConst hd hover.2.2⟩
  | _, .coalesce _ a b, _, h, hover => by
    obtain ⟨a', ha, h⟩ := bind_eq_ok.mp h
    split at h
    · exact over_evalConst h hover.2
    · cases h
      exact over_evalConst ha hover.1
    · obtain ⟨b', hb, h⟩ := bind_eq_ok.mp h
      cases h
      exact ⟨over_evalConst ha hover.1, over_evalConst hb hover.2⟩
  | _, .lfa _ _ _ args, _, h, hover => by
    obtain ⟨as, has, h⟩ := bind_eq_ok.mp h
    cases h
    exact ⟨hover.1, over_evalConstArgs has hover.2⟩
  | _, .lambda hd e, _, h, hover => by
    obtain ⟨e', he, h⟩ := bind_eq_ok.mp h
    cases h
    have hbody : e.Over (· < hd.nargs) := hover
    have hfolded : e'.Over (· < hd.nargs) := over_evalConst he hbody
    exact hfolded

theorem over_evalConstArgs : ∀ {P : Nat → Prop} {es rs : List (Expr F V)},
    evalConstExpressionsArgs cat isTrue eval es = .ok rs → OverArgs P es → OverArgs P rs
  | _, [], _, h, _ => by
    cases h
    trivial
  | _, e :: es, _, h, hover => by
    obtain ⟨r, hr, h⟩ := bind_eq_ok.mp h
    obtain ⟨rs, hrs, h⟩ := bind_eq_ok.mp h
    cases h
    exact ⟨over_evalConst hr hover.1, over_evalConstArgs hrs hover.2⟩

end

end FoldOver

/-! ## Partial application in two stages -/

/-- What a position is bound to if the numbers are kept: a held one to itself. -/
def openBinding (body : Expr F V) (held : Nat → Bool) (v : Option (Datum F V)) (p : Nat) :
    Except LambdaError (Option (Expr F V)) :=
  if held p then .ok (some (.param p ((body.proto p).getD LAMBDAOID)))
  else partialBinding body held v p

/-- The mother's body with the filled arguments put in, over the mother's own positions. -/
def bakedBody (fuel : Nat) (mother : LambdaExpr F V) (held : Nat → Bool)
    (vals : List (Option (Datum F V))) : Except LambdaError (Expr F V) := do
  let binding ← vals.zipIdx.mapM fun x => openBinding mother.expr held x.1 x.2
  scalarInjectWalk fuel { binding, slotnames := mother.argnames.map fun name => [name] } mother.expr

section PartialApply

variable {mother : LambdaExpr F V} {held : Nat → Bool} {vals : List (Option (Datum F V))}

/-- The held positions that the mother refers to. -/
def HeldReferences (mother : LambdaExpr F V) (held : Nat → Bool) (p : Nat) : Prop :=
  held p = true ∧ mother.expr.mentions p = true ∧ p < mother.nargs

/-- A filled position is bound to a lambda or a constant, which have no numbers. -/
theorem partialBinding_eq (body : Expr F V) (held : Nat → Bool) (v : Option (Datum F V)) (p : Nat) :
    partialBinding body held v p =
      Option.map (renumber (newidx held)) <$> openBinding body held v p := by
  unfold openBinding
  by_cases hp : held p = true
  · simp only [partialBinding, hp, if_true]
    rfl
  · rw [if_neg hp]
    simp only [partialBinding, hp, Bool.false_eq_true, if_false]
    split
    · cases v with
      | none => rfl
      | some d =>
        simp only [map_bind]
        rfl
    · split <;> rfl

theorem mapM_map_right {ε α β γ : Type} (h : β → γ) (g : α → Except ε β) : ∀ xs : List α,
    (xs.mapM fun x => h <$> g x) = List.map h <$> xs.mapM g
  | [] => rfl
  | x :: xs => by
    simp only [List.mapM_cons, mapM_map_right h g xs, bind_map_left, map_bind, map_pure,
      List.map_cons]

theorem partialBindings_eq (body : Expr F V) (held : Nat → Bool)
    (vals : List (Option (Datum F V))) :
    (vals.zipIdx.mapM fun x => partialBinding body held x.1 x.2) =
      List.map (Option.map (renumber (newidx held))) <$>
        vals.zipIdx.mapM fun x => openBinding body held x.1 x.2 := by
  rw [← mapM_map_right]
  congr 1
  funext x
  exact partialBinding_eq body held x.1 x.2

/-- Every position that the mother refers to is bound to something over the held ones. -/
theorem binds_openBindings (hclosed : mother.Closed) (hlen : vals.length = mother.nargs)
    (hvals : ∀ repr le, some (.lambda repr le) ∈ vals → le.Closed)
    {binding : List (Option (Expr F V))} {slotnames : List (List String)}
    (hbind : (vals.zipIdx.mapM fun x => openBinding mother.expr held x.1 x.2) = .ok binding) :
    mother.expr.Over (ScalarBind.Binds (HeldReferences mother held) { binding, slotnames }) := by
  refine Over.of_mentions hclosed fun k hk hmention => ?_
  have hk' : k < vals.length := by omega
  obtain ⟨b, hb, hopen⟩ := (zipIdx_mapM_eq_ok.mp hbind).2 k _ (List.getElem?_eq_getElem hk')
  simp only [Nat.zero_add, openBinding, partialBinding] at hopen
  by_cases hheld : held k = true
  · rw [if_pos hheld] at hopen
    cases hopen
    exact ⟨_, hb, hheld, hmention, hk⟩
  · rw [if_neg hheld, if_neg hheld] at hopen
    cases hfunc : mother.expr.isFunc k with
    | true =>
      rw [if_pos hfunc] at hopen
      cases hv : vals[k] with
      | none =>
        rw [hv] at hopen
        cases hopen
      | some d =>
        rw [hv] at hopen
        obtain ⟨le, hle, hopen⟩ := bind_eq_ok.mp hopen
        cases hopen
        cases d with
        | atom a => cases hle
        | lambda repr le' =>
          cases repr with
          | node => cases hle
          | serialized =>
            cases hle
            exact ⟨_, hb, hvals .serialized le (hv ▸ List.getElem_mem hk')⟩
    | false =>
      -- an input that is referred to but is no function is read at a type
      obtain ⟨t, ht⟩ := Option.isSome_iff_exists.mp (isSome_proto_of_mentions hmention hfunc)
      rw [if_neg (by simp [hfunc]), ht] at hopen
      rcases hv : vals[k] with _ | (a | ⟨repr, le⟩)
      · rw [hv] at hopen
        cases hopen
        exact ⟨_, hb, trivial⟩
      · rw [hv] at hopen
        cases hopen
        exact ⟨_, hb, trivial⟩
      · rw [hv] at hopen
        cases hopen

/-- What the baked body refers to is held and referred to by the mother. -/
theorem over_bakedBody (hclosed : mother.Closed) (hlen : vals.length = mother.nargs)
    (hvals : ∀ repr le, some (.lambda repr le) ∈ vals → le.Closed) {fuel : Nat} {e : Expr F V}
    (h : bakedBody fuel mother held vals = .ok e) : e.Over (HeldReferences mother held) := by
  obtain ⟨binding, hbind, h⟩ := bind_eq_ok.mp h
  exact over_walks (walks_of_walk h) (binds_openBindings hclosed hlen hvals hbind)

/-- The slot of a held position has the mother's name there. -/
theorem argnames_newidx {p : Nat} (hp : held p = true) (hlt : p < mother.nargs) :
    (selectFrom held 0 mother.argnames)[newidx held p]? = some (mother.argnames.get ⟨p, hlt⟩) := by
  rw [newidx_eq]
  exact selectFrom_getElem? (List.getElem?_eq_getElem hlt) (by rwa [Nat.zero_add])

theorem slotname_newidx {binding binding' : List (Option (Expr F V))} {p : Nat}
    (hp : held p = true) (hlt : p < mother.nargs) (name : List String) :
    ScalarBind.slotname ⟨binding', (selectFrom held 0 mother.argnames).map fun name => [name]⟩
        (newidx held p) name =
      ScalarBind.slotname ⟨binding, mother.argnames.map fun name => [name]⟩ p name := by
  have hname : mother.argnames[p]? = some (mother.argnames.get ⟨p, hlt⟩) :=
    List.getElem?_eq_getElem hlt
  simp only [ScalarBind.slotname, List.getElem?_map, argnames_newidx hp hlt, hname]

/-- **Partial application is baking and then renumbering**, errors included. -/
theorem lambdaPartialApply_eq (hclosed : mother.Closed) (hlen : vals.length = mother.nargs)
    (hvals : ∀ repr le, some (.lambda repr le) ∈ vals → le.Closed) (fuel : Nat) :
    lambdaPartialApply fuel mother held vals =
      (fun e => residualLambda mother held (e.renumber (newidx held))) <$>
        bakedBody fuel mother held vals := by
  simp only [lambdaPartialApply, bakedBody, partialBindings_eq, bind_map_left, map_bind]
  cases hbind : vals.zipIdx.mapM fun x => openBinding mother.expr held x.1 x.2 with
  | error err => rfl
  | ok binding =>
    have hover : mother.expr.Over (ScalarBind.Binds (HeldReferences mother held)
        { binding, slotnames := mother.argnames.map fun name => [name] }) :=
      binds_openBindings hclosed hlen hvals hbind
    have hctx : Renumbers (HeldReferences mother held) (newidx held)
        { binding, slotnames := mother.argnames.map fun name => [name] }
        { binding := binding.map (Option.map (renumber (newidx held))),
          slotnames := (selectFrom held 0 mother.argnames).map fun name => [name] } :=
      ⟨rfl, fun p hp => slotname_newidx hp.1 hp.2.2⟩
    have hwalk := walkWith_renumber (callee_renumber fuel) hctx hover
    simp only [ok_bind, hwalk, bind_map_left]
    rfl

/-- The spread list has an entry for each position, and its values are filled arguments. -/
theorem spreadFilled_inv : ∀ {n p : Nat} {args vals : List (Option (Datum F V))},
    spreadFilled held p n args = .ok vals →
      vals.length = n ∧ ∀ v ∈ vals, v ≠ none → v ∈ args
  | 0, _, _, _, h => by
    cases h
    exact ⟨rfl, fun v hv => by cases hv⟩
  | n + 1, p, args, _, h => by
    unfold spreadFilled at h
    split at h
    · obtain ⟨vals, hvals, rfl⟩ := map_eq_ok.mp h
      obtain ⟨hlen, hmem⟩ := spreadFilled_inv hvals
      refine ⟨by rw [List.length_cons, hlen], fun v hv hne => ?_⟩
      rcases List.mem_cons.mp hv with rfl | hv
      · exact absurd rfl hne
      · exact hmem v hv hne
    · cases args with
      | nil => cases h
      | cons a args =>
        obtain ⟨vals, hvals, rfl⟩ := map_eq_ok.mp h
        obtain ⟨hlen, hmem⟩ := spreadFilled_inv hvals
        refine ⟨by rw [List.length_cons, hlen], fun v hv hne => ?_⟩
        rcases List.mem_cons.mp hv with rfl | hv
        · exact List.mem_cons_self
        · exact List.mem_cons_of_mem _ (hmem v hv hne)

/-- **What is built at run time**: the folded baked body, renumbered. -/
theorem execPartialApply_inv {cat : ProcCatalog F} {rt : Runtime F V (Except LambdaError)}
    {fuel : Nat} {repr : LambdaRepr} {args : List (Option (Datum F V))} {d : Option (Datum F V)}
    (hclosed : mother.Closed) (hargs : ∀ repr le, some (.lambda repr le) ∈ args → le.Closed)
    (h : execPartialApply cat rt fuel (some (.lambda repr mother)) held args = .ok d) :
    ∃ vals baked folded, spreadFilled held 0 mother.nargs args = .ok vals ∧
      bakedBody fuel mother held vals = .ok baked ∧
      evalConstExpressions cat rt baked = .ok folded ∧ folded.Over (HeldReferences mother held) ∧
      d = some (.lambda .serialized
        (residualLambda mother held (folded.renumber (newidx held)))) := by
  obtain ⟨_, _, h⟩ := bind_eq_ok.mp h
  obtain ⟨vals, hvals, h⟩ := bind_eq_ok.mp h
  obtain ⟨residual, hres, h⟩ := bind_eq_ok.mp h
  obtain ⟨expr, hfold, h⟩ := bind_eq_ok.mp h
  rw [liftError_except] at hvals hres
  obtain ⟨hlen, hmem⟩ := spreadFilled_inv hvals
  have hlambdas : ∀ repr le, some (.lambda repr le) ∈ vals → le.Closed := by
    intro repr' le hle
    exact hargs repr' le (hmem _ hle (by simp))
  rw [lambdaPartialApply_eq hclosed hlen hlambdas] at hres
  obtain ⟨baked, hbaked, rfl⟩ := map_eq_ok.mp hres
  rw [evalConstExpressions, residualLambda, evalConst_renumber] at hfold
  obtain ⟨folded, hfolded, rfl⟩ := map_eq_ok.mp hfold
  cases h
  exact ⟨vals, baked, folded, hvals, hbaked, hfolded,
    over_evalConst hfolded (over_bakedBody hclosed hlen hlambdas hbaked), rfl⟩

/-- The slot of a held position is one of the residual's. -/
theorem newidx_lt_residual {p : Nat} (hp : held p = true) (hlt : p < mother.nargs) :
    newidx held p < (selectFrom held 0 mother.argnames).length :=
  (List.getElem?_eq_some_iff.mp (argnames_newidx hp hlt)).1

/-- A residual is closed again. -/
theorem residualLambda_closed {folded : Expr F V} (h : folded.Over (HeldReferences mother held)) :
    (residualLambda mother held (folded.renumber (newidx held))).Closed := by
  have hslots : ∀ p, HeldReferences mother held p →
      newidx held p < (selectFrom held 0 mother.argnames).length := by
    intro p hp
    exact newidx_lt_residual hp.1 hp.2.2
  exact Over.renumber hslots h

end PartialApply

end HolLambdas.Scalar
