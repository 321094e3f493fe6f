import HolLambdas.Scalar.Folding
import HolLambdas.Scalar.Substitution

/-!
# Folding before inlining

A residual is folded before it is stored, and inlined into later. Does it matter that it was
folded first? A body and its folded form are walked to trees that fold to the same
(`HasType.foldsAlike`): a constant survives the walk, so what the folder has decided
with it is decided the same way afterwards.

Callees are compared by a relation that follows the types, since inlining goes on to their
bodies: lambdas fold alike if arguments that fold alike make the walks of their bodies fold
alike (`FoldsAlike`).
-/

namespace HolLambdas.Scalar

variable {F V : Type}

variable (cat : ProcCatalog F) (isTrue : V → Bool)
variable (fn : F → List (Option V) → Except LambdaError (Option V))

mutual

/-- Bodies of a type that fold to the same, below their headers at a function type. -/
def FoldsAlike : LambdaSigType → Expr F V → Expr F V → Prop
  | .scalar _, b, b' => foldTotal cat isTrue fn b = foldTotal cat isTrue fn b'
  | .func σs _, b, b' =>
    (∃ id t, b = .param id t ∧ b' = .param id t) ∨
    ∃ h body body', b = .lambda h body ∧ b' = .lambda h body' ∧ h.nargs = σs.length ∧
      foldTotal cat isTrue fn body = foldTotal cat isTrue fn body' ∧
      ∀ slotnames bs bs', FoldsAlikeArgs σs bs bs' →
        ∃ r r', Walks { binding := bs.map some, slotnames } body r ∧
          Walks { binding := bs'.map some, slotnames } body' r' ∧
          foldTotal cat isTrue fn r = foldTotal cat isTrue fn r'

def FoldsAlikeArgs : List LambdaSigType → List (Expr F V) → List (Expr F V) → Prop
  | [], bs, bs' => bs = [] ∧ bs' = []
  | σ :: σs, bs, bs' => ∃ b b' ds ds', bs = b :: ds ∧ bs' = b' :: ds' ∧
      FoldsAlike σ b b' ∧ FoldsAlikeArgs σs ds ds'

end

/-- Two scopes whose bindings fold alike. -/
structure AlikeScopes (ctx ctx' : ScalarBind F V) (Γ : List LambdaSigType) : Prop where
  slotnames : ctx.slotnames = ctx'.slotnames
  binding : ∀ (k : Nat) σ, Γ[k]? = some σ → ∃ b b', ctx.binding[k]? = some (some b) ∧
    ctx'.binding[k]? = some (some b') ∧ FoldsAlike cat isTrue fn σ b b'

variable {cat isTrue fn}

theorem FoldsAlike.fold_eq : ∀ {σ : LambdaSigType} {b b' : Expr F V},
    FoldsAlike cat isTrue fn σ b b' → foldTotal cat isTrue fn b = foldTotal cat isTrue fn b'
  | .scalar _, b, b', h => h
  | .func _ _, b, b', h => by
    rcases h with ⟨id, t, rfl, rfl⟩ | ⟨h, body, body', rfl, rfl, _, heq, _⟩
    · rfl
    · rw [foldTotal_lambda, foldTotal_lambda, heq]

theorem FoldsAlikeArgs.fold_eq : ∀ {σs : List LambdaSigType} {bs bs' : List (Expr F V)},
    FoldsAlikeArgs cat isTrue fn σs bs bs' →
    foldTotalArgs cat isTrue fn bs = foldTotalArgs cat isTrue fn bs'
  | [], bs, bs', h => by
    rw [h.1, h.2]
  | σ :: σs, bs, bs', h => by
    obtain ⟨b, b', ds, ds', rfl, rfl, hb, hds⟩ := h
    rw [foldTotalArgs_cons, foldTotalArgs_cons, hb.fold_eq, hds.fold_eq]

theorem FoldsAlikeArgs.lookup : ∀ {σs : List LambdaSigType} {bs bs' : List (Expr F V)} {k : Nat}
    {σ : LambdaSigType}, FoldsAlikeArgs cat isTrue fn σs bs bs' → σs[k]? = some σ →
    ∃ b b', bs[k]? = some b ∧ bs'[k]? = some b' ∧ FoldsAlike cat isTrue fn σ b b'
  | [], _, _, _, _, _, hk => by simp at hk
  | σ' :: σs, bs, bs', k, σ, h, hk => by
    obtain ⟨b, b', ds, ds', rfl, rfl, hb, hds⟩ := h
    cases k with
    | zero =>
      cases hk
      exact ⟨b, b', rfl, rfl, hb⟩
    | succ k => exact hds.lookup hk

theorem FoldsAlikeArgs.scopes {σs : List LambdaSigType} {bs bs' : List (Expr F V)}
    (h : FoldsAlikeArgs cat isTrue fn σs bs bs') (slotnames : List (List String)) :
    AlikeScopes cat isTrue fn { binding := bs.map some, slotnames }
      { binding := bs'.map some, slotnames } σs where
  slotnames := rfl
  binding := by
    intro k σ hk
    obtain ⟨b, b', hb, hb', ha⟩ := h.lookup hk
    exact ⟨b, b', by simp [hb], by simp [hb'], ha⟩

/-! ### Constants survive a walk -/

/-- A constant is walked to itself. -/
theorem Walks.of_constValue? {ctx : ScalarBind F V} {e r : Expr F V} {v : Option V}
    (h : Walks ctx e r) (hv : e.constValue? = some v) : r = e := by
  obtain ⟨t, rfl⟩ := Expr.constValue?_eq_some hv
  cases h
  rfl

theorem WalksArgs.of_constValues? {ctx : ScalarBind F V} : ∀ {es rs : List (Expr F V)}
    {vs : List (Option V)}, WalksArgs ctx es rs → Expr.constValues? es = some vs → rs = es := by
  intro es
  induction es with
  | nil =>
    intro rs vs h _
    cases h
    rfl
  | cons e es ih =>
    intro rs vs h hvs
    cases h with
    | cons hr hrs =>
      simp only [Expr.constValues?] at hvs
      split at hvs
      · next v vs' hv hvs' => rw [hr.of_constValue? hv, ih hrs hvs']
      · cases hvs

theorem WalksArgs.any_isNullConst {ctx : ScalarBind F V} : ∀ {es rs : List (Expr F V)},
    WalksArgs ctx es rs → es.any Expr.isNullConst = true →
    (foldTotalArgs cat isTrue fn rs).any Expr.isNullConst = true
  | _, _, .nil, hnull => by simp at hnull
  | e :: _, _, .cons hr hrs, hnull => by
    rw [List.any_cons, Bool.or_eq_true] at hnull
    rw [foldTotalArgs_cons, List.any_cons, Bool.or_eq_true]
    refine hnull.imp (fun he => ?_) hrs.any_isNullConst
    cases e with
    | const t v =>
      cases hr
      exact he
    | param | func | caseWhen | coalesce | lfa | lambda => cases he

/-! ### Bodies and folded bodies -/

/-- `e'` is `e`, or `e` folded. -/
def MaybeFolded (cat : ProcCatalog F) (isTrue : V → Bool)
    (fn : F → List (Option V) → Except LambdaError (Option V)) (e e' : Expr F V) : Prop :=
  e' = e ∨ e' = foldTotal cat isTrue fn e

/-- All folded, or none. -/
def MaybeFoldedArgs (cat : ProcCatalog F) (isTrue : V → Bool)
    (fn : F → List (Option V) → Except LambdaError (Option V)) (es es' : List (Expr F V)) : Prop :=
  es' = es ∨ es' = foldTotalArgs cat isTrue fn es

/-! What the folder may have made of a node: the same node with parts that may be folded, or
what was decided. -/

section MaybeFolded

variable {e' : Expr F V} {ctx : ScalarBind F V}

/-- A call that folds to a constant is next to a `NULL`, or on constants. After a walk it
folds to the same: the `NULL` is still there, and constants are left alone. -/
theorem foldTotal_func_walked {f : F} {args rs rs' : List (Expr F V)} {t : Oid} {v : Option V}
    (h : foldTotal cat isTrue fn (.func f args) = .const t v)
    (hrs' : WalksArgs ctx (foldTotalArgs cat isTrue fn args) rs')
    (hfold : foldTotalArgs cat isTrue fn rs = foldTotalArgs cat isTrue fn rs') :
    foldTotal cat isTrue fn (.func f rs) = .const t v := by
  rw [foldTotal_func] at h
  rw [foldTotal_func, hfold, ← h]
  rcases foldedCall_cases f (foldTotalArgs cat isTrue fn args) with
    ⟨hstrict, hnull, heq⟩ | ⟨_, ⟨vs, v, hvs, _⟩ | heq⟩
  · have hnull' : (foldTotalArgs cat isTrue fn rs').any Expr.isNullConst = true :=
      hrs'.any_isNullConst hnull
    rcases foldedCall_cases f (foldTotalArgs cat isTrue fn rs') with ⟨_, _, h⟩ | ⟨h, _⟩
    · rw [h, heq]
    · exact absurd ⟨hstrict, hnull'⟩ h
  · rw [hrs'.of_constValues? hvs, foldTotalArgs_foldTotalArgs]
  · cases heq.symm.trans h

theorem MaybeFolded.func {f : F} {args : List (Expr F V)}
    (h : MaybeFolded cat isTrue fn (.func f args) e') :
    ∃ args', MaybeFoldedArgs cat isTrue fn args args' ∧
      (e' = .func f args' ∨ args' = foldTotalArgs cat isTrue fn args ∧
        ∃ t v, foldTotal cat isTrue fn (.func f args) = .const t v ∧ e' = .const t v) := by
  rcases h with rfl | rfl
  · exact ⟨args, .inl rfl, .inl rfl⟩
  · refine ⟨_, .inr rfl, ?_⟩
    rw [foldTotal_func]
    rcases foldedCall_cases f (foldTotalArgs cat isTrue fn args) with
      ⟨_, _, heq⟩ | ⟨_, ⟨vs, v, _, _, _, heq⟩ | heq⟩
    · exact .inr ⟨rfl, _, _, heq, heq⟩
    · exact .inr ⟨rfl, _, _, heq, heq⟩
    · exact .inl heq

theorem MaybeFolded.caseWhen {t : Oid} {c r d : Expr F V}
    (h : MaybeFolded cat isTrue fn (.caseWhen t c r d) e') :
    ∃ c' r' d', MaybeFolded cat isTrue fn c c' ∧ MaybeFolded cat isTrue fn r r' ∧
      MaybeFolded cat isTrue fn d d' ∧ (e' = .caseWhen t c' r' d' ∨
        ∃ v, c'.constValue? = some v ∧ e' = if condHolds isTrue v then r' else d') := by
  rcases h with rfl | rfl
  · exact ⟨c, r, d, .inl rfl, .inl rfl, .inl rfl, .inl rfl⟩
  · refine ⟨_, _, _, .inr rfl, .inr rfl, .inr rfl, ?_⟩
    rw [foldTotal_caseWhen]
    cases hv : (foldTotal cat isTrue fn c).constValue? with
    | none => exact .inl rfl
    | some v => exact .inr ⟨v, rfl, rfl⟩

theorem MaybeFolded.coalesce {t : Oid} {a b : Expr F V}
    (h : MaybeFolded cat isTrue fn (.coalesce t a b) e') :
    ∃ a' b', MaybeFolded cat isTrue fn a a' ∧ MaybeFolded cat isTrue fn b b' ∧
      (e' = .coalesce t a' b' ∨ a'.constValue? = some none ∧ e' = b' ∨
        ∃ v, a'.constValue? = some (some v) ∧ e' = a') := by
  rcases h with rfl | rfl
  · exact ⟨a, b, .inl rfl, .inl rfl, .inl rfl⟩
  · refine ⟨_, _, .inr rfl, .inr rfl, ?_⟩
    rw [foldTotal_coalesce]
    cases hv : (foldTotal cat isTrue fn a).constValue? with
    | none => exact .inl rfl
    | some v =>
      cases v with
      | none => exact .inr (.inl ⟨rfl, rfl⟩)
      | some w => exact .inr (.inr ⟨w, rfl, rfl⟩)

/-- What is decided by a constant is decided the same way after the walk. -/
theorem Walks.constValue?_fold {e r r' : Expr F V} {v : Option V} (h : Walks ctx e r')
    (hv : e.constValue? = some v) (hfold : foldTotal cat isTrue fn r = foldTotal cat isTrue fn r') :
    (foldTotal cat isTrue fn r).constValue? = some v := by
  rw [hfold, h.of_constValue? hv]
  obtain ⟨t, rfl⟩ := Expr.constValue?_eq_some hv
  rfl

end MaybeFolded

mutual

/-- **Folding first does not show.** In scopes that fold alike, a well-typed body and its
folded form are walked to trees that fold alike. -/
theorem HasType.foldsAlike : ∀ {e e' : Expr F V} {τ : LambdaSigType} {Γ : List LambdaSigType}
    {ctx ctx' : ScalarBind F V}, HasType cat Γ e τ → MaybeFolded cat isTrue fn e e' →
    AlikeScopes cat isTrue fn ctx ctx' Γ →
    ∃ r r', Walks ctx e r ∧ Walks ctx' e' r' ∧ FoldsAlike cat isTrue fn τ r r'
  | .const t v, e', τ, Γ, ctx, ctx', ht, he, _ => by
    simp only [HasType] at ht
    obtain rfl : e' = .const t v := he.elim id id
    rw [ht]
    refine ⟨_, _, Walks.const, Walks.const, ?_⟩
    simp only [FoldsAlike]
  | .param k t, e', τ, Γ, ctx, ctx', ht, he, hs => by
    obtain rfl : e' = .param k t := he.elim id id
    obtain ⟨b, b', hb, hb', ha⟩ := hs.binding k τ ht.1
    exact ⟨b, b', Walks.bound hb, Walks.bound hb', ha⟩
  | .func f args, e', τ, Γ, ctx, ctx', ht, he, hs => by
    rw [ht.1]
    simp only [FoldsAlike]
    obtain ⟨args', hargs', he⟩ := he.func
    obtain ⟨rs, rs', hrs, hrs', ha⟩ := ht.2.foldsAlike hargs' hs
    rcases he with rfl | ⟨rfl, t, v, hv, rfl⟩
    · refine ⟨_, _, Walks.func hrs, Walks.func hrs', ?_⟩
      rw [foldTotal_func, foldTotal_func, ha.fold_eq]
    -- the folder has made the call a constant
    · exact ⟨_, _, Walks.func hrs, Walks.const, foldTotal_func_walked hv hrs' ha.fold_eq⟩
  | .caseWhen t c r d, e', τ, Γ, ctx, ctx', ht, he, hs => by
    obtain ⟨rfl, ⟨b, tc⟩, tr, td⟩ := ht
    obtain ⟨c', r', d', hc', hr', hd', he⟩ := he.caseWhen
    obtain ⟨c₁, c₂, hc₁, hc₂, ac⟩ := tc.foldsAlike hc' hs
    obtain ⟨r₁, r₂, hr₁, hr₂, ar⟩ := tr.foldsAlike hr' hs
    obtain ⟨d₁, d₂, hd₁, hd₂, ad⟩ := td.foldsAlike hd' hs
    simp only [FoldsAlike]
    rcases he with rfl | ⟨v, hv, rfl⟩
    · refine ⟨_, _, Walks.caseWhen hc₁ hr₁ hd₁, Walks.caseWhen hc₂ hr₂ hd₂, ?_⟩
      rw [foldTotal_caseWhen, foldTotal_caseWhen, ac.fold_eq, ar.fold_eq, ad.fold_eq]
    · have hcond := hc₂.constValue?_fold hv ac.fold_eq
      refine ⟨_, if condHolds isTrue v then r₂ else d₂, Walks.caseWhen hc₁ hr₁ hd₁, ?_, ?_⟩
      · split
        · exact hr₂
        · exact hd₂
      · simp only [foldTotal_caseWhen, hcond]
        split
        · exact ar.fold_eq
        · exact ad.fold_eq
  | .coalesce t a b, e', τ, Γ, ctx, ctx', ht, he, hs => by
    obtain ⟨rfl, ta, tb⟩ := ht
    obtain ⟨a', b', ha', hb', he⟩ := he.coalesce
    obtain ⟨a₁, a₂, ha₁, ha₂, aa⟩ := ta.foldsAlike ha' hs
    obtain ⟨b₁, b₂, hb₁, hb₂, ab⟩ := tb.foldsAlike hb' hs
    simp only [FoldsAlike]
    rcases he with rfl | ⟨hv, rfl⟩ | ⟨v, hv, rfl⟩
    · refine ⟨_, _, Walks.coalesce ha₁ hb₁, Walks.coalesce ha₂ hb₂, ?_⟩
      rw [foldTotal_coalesce, foldTotal_coalesce, aa.fold_eq, ab.fold_eq]
    · refine ⟨_, b₂, Walks.coalesce ha₁ hb₁, hb₂, ?_⟩
      simp only [foldTotal_coalesce, ha₂.constValue?_fold hv aa.fold_eq]
      exact ab.fold_eq
    · refine ⟨_, a₂, Walks.coalesce ha₁ hb₁, ha₂, ?_⟩
      simp only [foldTotal_coalesce, ha₂.constValue?_fold hv aa.fold_eq]
      exact aa.fold_eq
  | .lfa name t k args, e', τ, Γ, ctx, ctx', ht, he, hs => by
    obtain ⟨rfl, σs, hk, targs⟩ := ht
    obtain ⟨args', hargs', rfl⟩ : ∃ args', MaybeFoldedArgs cat isTrue fn args args' ∧
        e' = .lfa name t k args' := by
      rcases he with rfl | rfl
      · exact ⟨args, .inl rfl, rfl⟩
      · exact ⟨_, .inr rfl, foldTotal_lfa name t k args⟩
    obtain ⟨rs, rs', hrs, hrs', ha⟩ := targs.foldsAlike hargs' hs
    have hlen : args'.length = args.length := by
      rcases hargs' with rfl | rfl
      · rfl
      · exact foldTotalArgs_length args
    obtain ⟨b, b', hb, hb', hab⟩ := hs.binding k _ hk
    simp only [FoldsAlike] at hab ⊢
    -- an alias stays a call, a lambda is inlined
    rcases hab with ⟨id, t', rfl, rfl⟩ | ⟨h, body, body', rfl, rfl, hn, _, hbody⟩
    · refine ⟨_, _, Walks.retarget hb hrs, Walks.retarget hb' hrs', ?_⟩
      rw [foldTotal_lfa, foldTotal_lfa, ha.fold_eq, ScalarBind.slotname, ScalarBind.slotname,
        hs.slotnames]
    · obtain ⟨r, r', hr, hr', heq⟩ := hbody ctx.slotnames rs rs' ha
      rw [hs.slotnames] at hr'
      have hnargs : args.length = h.nargs := targs.length_eq.trans hn.symm
      exact ⟨r, r', Walks.inline hb hnargs hrs hr,
        Walks.inline hb' (hlen.trans hnargs) hrs' hr', heq⟩
  | .lambda h e, e', τ, Γ, ctx, ctx', ht, he, _ => by
    obtain ⟨σs, ρ, rfl, hn, hbody⟩ := ht
    obtain ⟨body', hfolded, rfl⟩ : ∃ body', MaybeFolded cat isTrue fn e body' ∧
        e' = .lambda h body' := by
      rcases he with rfl | rfl
      · exact ⟨e, .inl rfl, rfl⟩
      · exact ⟨_, .inr rfl, foldTotal_lambda h e⟩
    have heq : foldTotal cat isTrue fn e = foldTotal cat isTrue fn body' := by
      rcases hfolded with rfl | rfl
      · rfl
      · exact (foldTotal_foldTotal e).symm
    refine ⟨_, _, Walks.lambda, Walks.lambda, ?_⟩
    refine .inr ⟨h, e, body', rfl, rfl, hn, heq, fun slotnames bs bs' hbs => ?_⟩
    obtain ⟨r, r', hr, hr', ha⟩ := hbody.foldsAlike hfolded (hbs.scopes slotnames)
    exact ⟨r, r', hr, hr', ha.fold_eq⟩

theorem HasTypes.foldsAlike : ∀ {es es' : List (Expr F V)} {σs Γ : List LambdaSigType}
    {ctx ctx' : ScalarBind F V}, HasTypes cat Γ es σs → MaybeFoldedArgs cat isTrue fn es es' →
    AlikeScopes cat isTrue fn ctx ctx' Γ →
    ∃ rs rs', WalksArgs ctx es rs ∧ WalksArgs ctx' es' rs' ∧ FoldsAlikeArgs cat isTrue fn σs rs rs'
  | [], es', σs, Γ, ctx, ctx', ht, he, _ => by
    obtain rfl : es' = [] := he.elim id id
    rw [ht]
    refine ⟨[], [], WalksArgs.nil, WalksArgs.nil, ?_⟩
    simp only [FoldsAlikeArgs, and_self]
  | e :: es, es', σs, Γ, ctx, ctx', ht, he, hs => by
    obtain ⟨σ, σs', rfl, te, tes⟩ := ht
    obtain ⟨d, ds, hd, hds, rfl⟩ : ∃ d ds, MaybeFolded cat isTrue fn e d ∧
        MaybeFoldedArgs cat isTrue fn es ds ∧ es' = d :: ds := by
      rcases he with rfl | rfl
      · exact ⟨e, es, .inl rfl, .inl rfl, rfl⟩
      · exact ⟨_, _, .inr rfl, .inr rfl, foldTotalArgs_cons e es⟩
    obtain ⟨r, r', hr, hr', ha⟩ := te.foldsAlike hd hs
    obtain ⟨rs, rs', hrs, hrs', has⟩ := tes.foldsAlike hds hs
    refine ⟨_, _, WalksArgs.cons hr hrs, WalksArgs.cons hr' hrs', ?_⟩
    exact ⟨r, r', rs, rs', rfl, rfl, ha, has⟩

end

end HolLambdas.Scalar
