import HolLambdas.Scalar.FoldedWalk
import HolLambdas.Scalar.Residual

/-!
# Partial application composes

Filling some positions of a mother and then, in the residual, the slots of others gives the
tree that filling all of them at once gives. Three walks are compared: of the mother under
the bindings of the first stage, of the result under those of the second, and of the mother
under the joint bindings.

A lambda supplied in the first stage is walked with arguments that the second stage will
still substitute into, and one supplied in the second stage meets lambdas that the first
has embedded; an argument that a callee ignores is walked in the joint application and is
no longer there in the second stage. So the comparison is not by induction on the trees,
which inlining replaces, but by a relation on bindings that follows the types
(`Composes`): related arguments make the walks of a callee's body compose. Bodies that are
well typed by a signature keep the relation (`HasType.composes`).

The tables that a partial application makes of a body, which of its inputs are functions
and of what type, are different for the mother and for the residual. Both agree with the
signature where they are used (`declaredBindings`).

Main result: `partialApply_composes`. Between the stages the residual may be folded, as it is
before it is stored.
-/

namespace HolLambdas.Scalar

variable {F V : Type} {cat : ProcCatalog F} {σs : List LambdaSigType}

/-! ## Walks that compose -/

mutual

/-- The binding `b₁` of the first stage becomes `b` in the second, and calls of the two
lead to walks that compose. -/
def Composes (ctx₂ : ScalarBind F V) : LambdaSigType → Expr F V → Expr F V → Prop
  | .scalar _, b₁, b => Walks ctx₂ b₁ b
  | .func σs _, b₁, b =>
    (∃ j t id t', b₁ = .param j t ∧ ctx₂.binding[j]? = some (some b) ∧ b = .param id t' ∧
      id < ctx₂.slotnames.length) ∨
    ∃ h body, b = .lambda h body ∧ h.nargs = σs.length ∧
      (b₁ = .lambda h body ∨ ∃ j t, b₁ = .param j t ∧ ctx₂.binding[j]? = some (some b)) ∧
      ∀ slotnames bs₁ bs, ComposesArgs ctx₂ σs bs₁ bs →
        ∃ r₁ r, Walks { binding := bs₁.map some, slotnames } body r₁ ∧
          Walks { ctx₂ with binding := bs.map some } body r ∧ Walks ctx₂ r₁ r

def ComposesArgs (ctx₂ : ScalarBind F V) :
    List LambdaSigType → List (Expr F V) → List (Expr F V) → Prop
  | [], bs₁, bs => bs₁ = [] ∧ bs = []
  | σ :: σs, bs₁, bs => ∃ b₁ b bs₁' bs', bs₁ = b₁ :: bs₁' ∧ bs = b :: bs' ∧
      Composes ctx₂ σ b₁ b ∧ ComposesArgs ctx₂ σs bs₁' bs'

end

variable {ctx₂ : ScalarBind F V}

theorem Composes.walks : ∀ {σ : LambdaSigType} {b₁ b : Expr F V}, Composes ctx₂ σ b₁ b →
    Walks ctx₂ b₁ b
  | .scalar _, b₁, b, h => h
  | .func σs _, b₁, b, h => by
    rcases h with ⟨j, t, id, t', rfl, hj, _⟩ | ⟨h, body, rfl, _, rfl | ⟨j, t, rfl, hj⟩, _⟩
    · exact Walks.bound hj
    · exact Walks.lambda
    · exact Walks.bound hj

theorem ComposesArgs.walksArgs : ∀ {σs : List LambdaSigType} {bs₁ bs : List (Expr F V)},
    ComposesArgs ctx₂ σs bs₁ bs → WalksArgs ctx₂ bs₁ bs
  | [], bs₁, bs, h => by
    rw [h.1, h.2]
    exact WalksArgs.nil
  | σ :: σs, bs₁, bs, h => by
    obtain ⟨b₁, b, bs₁', bs', rfl, rfl, hb, hbs⟩ := h
    exact WalksArgs.cons hb.walks hbs.walksArgs

theorem ComposesArgs.length_eq : ∀ {σs : List LambdaSigType} {bs₁ bs : List (Expr F V)},
    ComposesArgs ctx₂ σs bs₁ bs → bs₁.length = σs.length
  | [], bs₁, bs, h => by
    rw [h.1]
    rfl
  | σ :: σs, bs₁, bs, h => by
    obtain ⟨b₁, b, bs₁', bs', rfl, rfl, _, hbs⟩ := h
    simp [hbs.length_eq]

theorem ComposesArgs.lookup : ∀ {σs : List LambdaSigType} {bs₁ bs : List (Expr F V)} {k : Nat}
    {σ : LambdaSigType}, ComposesArgs ctx₂ σs bs₁ bs → σs[k]? = some σ →
    ∃ b₁ b, bs₁[k]? = some b₁ ∧ bs[k]? = some b ∧ Composes ctx₂ σ b₁ b
  | [], _, _, _, _, _, hk => by simp at hk
  | σ' :: σs, bs₁, bs, k, σ, h, hk => by
    obtain ⟨b₁, b, bs₁', bs', rfl, rfl, hb, hbs⟩ := h
    cases k with
    | zero =>
      cases hk
      exact ⟨b₁, b, rfl, rfl, hb⟩
    | succ k => exact hbs.lookup hk

/-- The scopes of the first stage and of the joint application, input by input. -/
structure ComposedScopes (ctx₂ ctx₁ ctx : ScalarBind F V) (Γ : List LambdaSigType) : Prop where
  slotnames : ctx.slotnames = ctx₂.slotnames
  binding : ∀ (k : Nat) σ, Γ[k]? = some σ → ∃ b₁ b, ctx₁.binding[k]? = some (some b₁) ∧
    ctx.binding[k]? = some (some b) ∧ Composes ctx₂ σ b₁ b

theorem ComposesArgs.scopes {bs₁ bs : List (Expr F V)} (h : ComposesArgs ctx₂ σs bs₁ bs)
    (slotnames : List (List String)) :
    ComposedScopes ctx₂ { binding := bs₁.map some, slotnames }
      { ctx₂ with binding := bs.map some } σs where
  slotnames := rfl
  binding := by
    intro k σ hk
    obtain ⟨b₁, b, hb₁, hb, hc⟩ := h.lookup hk
    exact ⟨b₁, b, by simp [hb₁], by simp [hb], hc⟩

theorem slotname_eq {ctx : ScalarBind F V} (hslots : ctx.slotnames = ctx₂.slotnames) {id : Nat}
    (h : id < ctx₂.slotnames.length) (name name' : List String) :
    ctx.slotname id name = ctx₂.slotname id name' := by
  simp only [ScalarBind.slotname, hslots, List.getElem?_eq_getElem h, Option.getD_some]

/-- A call, given its walked arguments. -/
theorem Composes.call {ctx₁ ctx : ScalarBind F V} {τ : LambdaSigType} {name : List String} {t : Oid}
    {k : Nat} {args args₁ args' : List (Expr F V)} {b₁ b : Expr F V}
    (hslots : ctx.slotnames = ctx₂.slotnames) (hb₁ : ctx₁.binding[k]? = some (some b₁))
    (hb : ctx.binding[k]? = some (some b)) (hc : Composes ctx₂ (.func σs τ) b₁ b)
    (hlen : args.length = σs.length) (hargs₁ : WalksArgs ctx₁ args args₁)
    (hargs : WalksArgs ctx args args') (hcs : ComposesArgs ctx₂ σs args₁ args') :
    ∃ r₁ r, Walks ctx₁ (.lfa name t k args) r₁ ∧ Walks ctx (.lfa name t k args) r ∧
      Walks ctx₂ r₁ r := by
  have hscope : ({ ctx with binding := args'.map some } : ScalarBind F V) =
      { ctx₂ with binding := args'.map some } := by
    rw [hslots]
  rcases hc with ⟨j, tj, id, t', rfl, hj, rfl, hid⟩ | ⟨h, body, rfl, hn, hb₁', hbody⟩
  · -- the slot stays open in the second stage: the call is retargeted twice
    refine ⟨_, _, Walks.retarget hb₁ hargs₁, Walks.retarget hb hargs, ?_⟩
    rw [slotname_eq hslots hid name (ctx₁.slotname j name)]
    exact Walks.retarget hj hcs.walksArgs
  · obtain ⟨r₁, r, hr₁, hr, hw⟩ := hbody ctx₁.slotnames args₁ args' hcs
    rw [← hscope] at hr
    have hinline : Walks ctx (.lfa name t k args) r :=
      Walks.inline hb (hlen.trans hn.symm) hargs hr
    rcases hb₁' with rfl | ⟨j, tj, rfl, hj⟩
    · exact ⟨r₁, r, Walks.inline hb₁ (hlen.trans hn.symm) hargs₁ hr₁, hinline, hw⟩
    · -- the callee becomes concrete in the second stage only
      refine ⟨_, r, Walks.retarget hb₁ hargs₁, hinline, ?_⟩
      rw [hscope] at hr
      exact Walks.inline hj (hcs.length_eq.trans hn.symm) hcs.walksArgs hr

mutual

/-- **Composition.** In scopes that compose, the walks of a well-typed body compose. -/
theorem HasType.composes :
    ∀ {e : Expr F V} {τ : LambdaSigType} {Γ : List LambdaSigType} {ctx₁ ctx : ScalarBind F V},
      HasType cat Γ e τ → ComposedScopes ctx₂ ctx₁ ctx Γ →
      ∃ r₁ r, Walks ctx₁ e r₁ ∧ Walks ctx e r ∧ Composes ctx₂ τ r₁ r
  | .const t v, τ, Γ, ctx₁, ctx, ht, _ => by
    rw [ht]
    refine ⟨_, _, Walks.const, Walks.const, ?_⟩
    exact Walks.const
  | .param k t, τ, Γ, ctx₁, ctx, ht, hs => by
    obtain ⟨b₁, b, hb₁, hb, hc⟩ := hs.binding k τ ht.1
    exact ⟨b₁, b, Walks.bound hb₁, Walks.bound hb, hc⟩
  | .func f args, τ, Γ, ctx₁, ctx, ht, hs => by
    obtain ⟨rs₁, rs, hrs₁, hrs, hc⟩ := ht.2.composes hs
    rw [ht.1]
    refine ⟨_, _, Walks.func hrs₁, Walks.func hrs, ?_⟩
    exact Walks.func hc.walksArgs
  | .caseWhen t c r d, τ, Γ, ctx₁, ctx, ht, hs => by
    obtain ⟨hτ, ⟨b, tc⟩, tr, td⟩ := ht
    obtain ⟨c₁, c', hc₁, hc', hcc⟩ := tc.composes hs
    obtain ⟨r₁, r', hr₁, hr', hcr⟩ := tr.composes hs
    obtain ⟨d₁, d', hd₁, hd', hcd⟩ := td.composes hs
    rw [hτ]
    refine ⟨_, _, Walks.caseWhen hc₁ hr₁ hd₁, Walks.caseWhen hc' hr' hd', ?_⟩
    exact Walks.caseWhen hcc.walks hcr.walks hcd.walks
  | .coalesce t a b, τ, Γ, ctx₁, ctx, ht, hs => by
    obtain ⟨hτ, ta, tb⟩ := ht
    obtain ⟨a₁, a', ha₁, ha', hca⟩ := ta.composes hs
    obtain ⟨b₁, b', hb₁, hb', hcb⟩ := tb.composes hs
    rw [hτ]
    refine ⟨_, _, Walks.coalesce ha₁ hb₁, Walks.coalesce ha' hb', ?_⟩
    exact Walks.coalesce hca.walks hcb.walks
  | .lfa name t k args, τ, Γ, ctx₁, ctx, ht, hs => by
    obtain ⟨hτ, σs, hk, targs⟩ := ht
    obtain ⟨b₁, b, hb₁, hb, hc⟩ := hs.binding k _ hk
    obtain ⟨rs₁, rs, hrs₁, hrs, hcs⟩ := targs.composes hs
    rw [hτ]
    exact hc.call hs.slotnames hb₁ hb targs.length_eq hrs₁ hrs hcs
  | .lambda h e, τ, Γ, ctx₁, ctx, ht, _ => by
    obtain ⟨σs, ρ, rfl, hlen, hbody⟩ := ht
    refine ⟨_, _, Walks.lambda, Walks.lambda, ?_⟩
    refine .inr ⟨h, e, rfl, hlen, .inl rfl, fun slotnames bs₁ bs hbs => ?_⟩
    obtain ⟨r₁, r, hr₁, hr, hc⟩ := hbody.composes (hbs.scopes slotnames)
    exact ⟨r₁, r, hr₁, hr, hc.walks⟩

theorem HasTypes.composes :
    ∀ {es : List (Expr F V)} {σs Γ : List LambdaSigType} {ctx₁ ctx : ScalarBind F V},
      HasTypes cat Γ es σs → ComposedScopes ctx₂ ctx₁ ctx Γ →
      ∃ rs₁ rs, WalksArgs ctx₁ es rs₁ ∧ WalksArgs ctx es rs ∧ ComposesArgs ctx₂ σs rs₁ rs
  | [], σs, Γ, ctx₁, ctx, ht, _ => by
    rw [ht]
    refine ⟨[], [], WalksArgs.nil, WalksArgs.nil, ?_⟩
    simp only [ComposesArgs, and_self]
  | e :: es, σs, Γ, ctx₁, ctx, ht, hs => by
    obtain ⟨σ, σs', rfl, he, hes⟩ := ht
    obtain ⟨r₁, r, hr₁, hr, hc⟩ := he.composes hs
    obtain ⟨rs₁, rs, hrs₁, hrs, hcs⟩ := hes.composes hs
    refine ⟨_, _, WalksArgs.cons hr₁ hrs₁, WalksArgs.cons hr hrs, ?_⟩
    exact ⟨r₁, r, rs₁, rs, rfl, rfl, hc, hcs⟩

end

/-- A lambda of the right type composes with itself. -/
theorem LambdaExpr.Conforms.composes {le : LambdaExpr F V} {ρ : LambdaSigType}
    (h : le.Conforms cat ⟨σs, ρ⟩) {b₁ : Expr F V}
    (hb₁ : b₁ = le.toExpr ∨ ∃ j t, b₁ = .param j t ∧ ctx₂.binding[j]? = some (some le.toExpr)) :
    Composes ctx₂ (.func σs ρ) b₁ le.toExpr := by
  refine .inr ⟨le.toLambdaHeader, le.expr, rfl, h.nargs_eq, hb₁, fun slotnames bs₁ bs hbs => ?_⟩
  obtain ⟨r₁, r, hr₁, hr, hc⟩ := h.body.composes (hbs.scopes slotnames)
  exact ⟨r₁, r, hr₁, hr, hc.walks⟩

/-! ## The bindings, read off the signature -/

mutual

/-- A walk looks at the bindings of the inputs the body mentions. -/
theorem Walks.congr : ∀ {ctx ctx' : ScalarBind F V} {e r : Expr F V}, Walks ctx e r →
    ctx.slotnames = ctx'.slotnames →
      (∀ k, e.mentions k = true → ctx.binding[k]? = ctx'.binding[k]?) → Walks ctx' e r
  | _, _, _, _, .const, _, _ => .const
  | ctx, ctx', _, _, .param (k := k) (t := t), _, hb => by
    have hresolve : ctx.resolve k (.param k t) = ctx'.resolve k (.param k t) := by
      simp only [ScalarBind.resolve, hb k (by simp [Expr.mentions])]
    rw [hresolve]
    exact .param
  | _, _, _, _, .func h, hslots, hb => .func (h.congr hslots hb)
  | _, _, _, _, .caseWhen hc hr hd, hslots, hb =>
    .caseWhen (hc.congr hslots fun k hk => hb k (by simp [Expr.mentions, hk]))
      (hr.congr hslots fun k hk => hb k (by simp [Expr.mentions, hk]))
      (hd.congr hslots fun k hk => hb k (by simp [Expr.mentions, hk]))
  | _, _, _, _, .coalesce ha hb', hslots, hb =>
    .coalesce (ha.congr hslots fun k hk => hb k (by simp [Expr.mentions, hk]))
      (hb'.congr hslots fun k hk => hb k (by simp [Expr.mentions, hk]))
  | _, _, _, _, .inline hk hlen hargs hbody, hslots, hb =>
    .inline ((hb _ (by simp [Expr.mentions])).symm.trans hk) hlen
      (hargs.congr hslots fun k hk => hb k (by simp [Expr.mentions, hk]))
      (hbody.congr hslots fun _ _ => rfl)
  | ctx, ctx', _, _, .retarget hk hargs, hslots, hb => by
    have hslot : ctx.slotname = ctx'.slotname := by
      funext id name
      simp only [ScalarBind.slotname, hslots]
    rw [hslot]
    exact .retarget ((hb _ (by simp [Expr.mentions])).symm.trans hk)
      (hargs.congr hslots fun k hk => hb k (by simp [Expr.mentions, hk]))
  | _, _, _, _, .lambda, _, _ => .lambda

theorem WalksArgs.congr : ∀ {ctx ctx' : ScalarBind F V} {es rs : List (Expr F V)},
    WalksArgs ctx es rs → ctx.slotnames = ctx'.slotnames →
      (∀ k, Expr.mentionsArgs k es = true → ctx.binding[k]? = ctx'.binding[k]?) →
        WalksArgs ctx' es rs
  | _, _, _, _, .nil, _, _ => .nil
  | _, _, _, _, .cons h hs, hslots, hb =>
    .cons (h.congr hslots fun k hk => hb k (by simp [Expr.mentionsArgs, hk]))
      (hs.congr hslots fun k hk => hb k (by simp [Expr.mentionsArgs, hk]))

end

/-- The binding of a position of type `σ`. -/
def declaredBinding (held : Nat → Bool) (p : Nat) (σ : LambdaSigType) (v : Option (Datum F V)) :
    Option (Expr F V) :=
  if held p then some (.param (newidx held p) σ.oid)
  else match σ, v with
    | .scalar t, v => some (.const t (atomValue v))
    | .func _ _, some (.lambda _ le) => some le.toExpr
    | .func _ _, _ => none

def declaredBindings (held : Nat → Bool) :
    Nat → List LambdaSigType → List (Option (Datum F V)) → List (Option (Expr F V))
  | p, σ :: σs, v :: vs => declaredBinding held p σ v :: declaredBindings held (p + 1) σs vs
  | _, _, _ => []

theorem declaredBindings_getElem? (held : Nat → Bool) :
    ∀ {σs : List LambdaSigType} {vs : List (Option (Datum F V))} {p i : Nat} {σ : LambdaSigType}
      {v : Option (Datum F V)}, σs[i]? = some σ → vs[i]? = some v →
      (declaredBindings held p σs vs)[i]? = some (declaredBinding held (p + i) σ v)
  | [], _, _, _, _, _, hσ, _ => by simp at hσ
  | _ :: _, [], _, _, _, _, _, hv => by simp at hv
  | σ' :: σs, v' :: vs, p, 0, σ, v, hσ, hv => by
    cases hσ
    cases hv
    rfl
  | σ' :: σs, v' :: vs, p, i + 1, σ, v, hσ, hv => by
    have hrest := declaredBindings_getElem? held (p := p + 1)
      (show σs[i]? = some σ by simpa using hσ) (show vs[i]? = some v by simpa using hv)
    rw [Nat.add_assoc, Nat.add_comm 1 i] at hrest
    simpa [declaredBindings] using hrest

section Partial

variable {cat : ProcCatalog F} {S : LambdaSignature} {mother : LambdaExpr F V}
variable {held : Nat → Bool} {args : List (Option (Datum F V))}

/-- The values of held positions are not read. -/
theorem partialBindings_mask (body : Expr F V) (held : Nat → Bool)
    (args : List (Option (Datum F V))) :
    (args.zipIdx.mapM fun x => partialBinding body held x.1 x.2) =
      (maskFrom held 0 args).zipIdx.mapM fun x => partialBinding body held x.1 x.2 := by
  have hlen : args.length = (maskFrom held 0 args).length := by
    suffices h : ∀ p, (maskFrom held p args).length = args.length from (h 0).symm
    induction args with
    | nil => exact fun _ => rfl
    | cons v vs ih => exact fun p => congrArg Nat.succ (ih (p + 1))
  refine zipIdx_mapM_congr hlen fun i v w hv hw => ?_
  rw [Nat.zero_add]
  obtain ⟨w', hw', rfl⟩ := mask_inv hw
  rw [hv] at hw'
  cases hw'
  by_cases hp : held i = true
  · simp only [partialBinding, hp, if_true]
  · simp only [if_neg hp]

/-- A partial application is the walk under the declared bindings. -/
theorem settles_partialApply (hm : mother.Conforms cat S) (hargs : ArgsFit cat S.argtypes args)
    (hfilled : FilledInputsGiven held mother.expr args) {r : Expr F V}
    (hr : Walks { binding := declaredBindings held 0 S.argtypes args
                  slotnames := (selectFrom held 0 mother.argnames).map fun name => [name] }
      mother.expr r) :
    Settles (fun n => lambdaPartialApply n mother held args) (residualLambda mother held r) := by
  obtain ⟨bs, hbs⟩ := exists_partialBindings hm hargs hfilled
  have hwalk : Walks { binding := bs
                       slotnames := (selectFrom held 0 mother.argnames).map fun name => [name] }
      mother.expr r := by
    refine hr.congr rfl fun p hmention => ?_
    obtain ⟨σ, v, hσ, hv⟩ : ∃ σ v, S.argtypes[p]? = some σ ∧ args[p]? = some v := by
      rcases Expr.mentions_iff.mp hmention with ⟨t, hread⟩ | hcall
      · obtain ⟨σ, hσ, _⟩ := hm.body.references hread
        obtain ⟨v, hv, _⟩ := forall₂_lookup hargs hσ
        exact ⟨σ, v, hσ, hv⟩
      · obtain ⟨σs, ρ, hσ⟩ := hm.body.references hcall
        obtain ⟨v, hv, _⟩ := forall₂_lookup hargs hσ
        exact ⟨_, v, hσ, hv⟩
    rw [declaredBindings_getElem? held hσ hv, Nat.zero_add]
    rcases partialBindings_cases hm hargs hfilled hbs hσ hv hmention with
      ⟨hp, hb⟩ | ⟨hp, t, rfl, hb⟩ | ⟨hp, σs, ρ, le, rfl, rfl, _, hb⟩
    · simp only [hb, declaredBinding, hp, if_true]
    · simp only [hb, declaredBinding, hp, Bool.false_eq_true, if_false]
    · simp only [hb, declaredBinding, hp, Bool.false_eq_true, if_false]
  refine hwalk.settles.mono fun n hn => ?_
  have hbs' : (args.zipIdx.mapM fun x => partialBinding mother.expr held x.1 x.2) = .ok bs := by
    rw [partialBindings_mask]
    exact hbs
  exact bind_eq_ok.mpr ⟨bs, hbs', bind_eq_ok.mpr ⟨r, hn, rfl⟩⟩

end Partial

/-! ## Two stages -/

/-- The positions held by each of two stages, and by both: `held₂` is about the slots of the
first residual. -/
structure Stages (held₁ held₂ held : Nat → Bool) (n : Nat) : Prop where
  second : ∀ p, p < n → held₁ p = true → held₂ (newidx held₁ p) = held p
  first : ∀ p, held₁ p = false → held p = false

theorem newidx_succ (held : Nat → Bool) (p : Nat) :
    newidx held (p + 1) = newidx held p + if held p then 1 else 0 := by
  simp only [newidx, List.range_succ, List.countP_append, List.countP_singleton]

section Stages

variable {α : Type} {held₁ held₂ held : Nat → Bool} {n : Nat}

/-- Renumbering twice is renumbering once. -/
theorem Stages.newidx_newidx (h : Stages held₁ held₂ held n) {p : Nat} (hp : p ≤ n) :
    newidx held₂ (newidx held₁ p) = newidx held p := by
  induction p with
  | zero => rfl
  | succ p ih =>
    rw [newidx_succ held₁, newidx_succ held, ← ih (by omega)]
    cases hheld : held₁ p with
    | true => rw [if_pos rfl, newidx_succ, h.second p (by omega) hheld]
    | false => rw [h.first p hheld, if_neg Bool.false_ne_true, Nat.add_zero, Nat.add_zero]

theorem Stages.selectFrom_selectFrom (h : Stages held₁ held₂ held n) :
    ∀ (xs : List α) (q : Nat), q + xs.length ≤ n →
      selectFrom held₂ (newidx held₁ q) (selectFrom held₁ q xs) = selectFrom held q xs
  | [], _, _ => rfl
  | x :: xs, q, hle => by
    rw [List.length_cons] at hle
    have hrest := h.selectFrom_selectFrom xs (q + 1) (by omega)
    rw [newidx_succ] at hrest
    cases hheld : held₁ q with
    | true =>
      rw [hheld, if_pos rfl] at hrest
      simp only [selectFrom, hheld, if_true, h.second q (by omega) hheld, hrest]
    | false =>
      rw [hheld, if_neg Bool.false_ne_true, Nat.add_zero] at hrest
      simp only [selectFrom, hheld, h.first q hheld, Bool.false_eq_true, if_false, hrest]

theorem Stages.declaredBinding_eq (h : Stages held₁ held₂ held n) {p : Nat} (hp : p < n)
    (hheld : held₁ p = true) (σ : LambdaSigType) (v : Option (Datum F V)) :
    declaredBinding held₂ (newidx held₁ p) σ v = declaredBinding held p σ v := by
  simp only [declaredBinding, h.second p hp hheld, h.newidx_newidx (Nat.le_of_lt hp)]

variable {cat : ProcCatalog F} {S : LambdaSignature} {mother : LambdaExpr F V}
variable {args : List (Option (Datum F V))}

/-- The function values of filled positions are there. -/
def FilledFunctionsGiven (held : Nat → Bool) (Γ : List LambdaSigType)
    (args : List (Option (Datum F V))) : Prop :=
  ∀ p σs ρ, held p = false → Γ[p]? = some (.func σs ρ) → args[p]? ≠ some none

theorem FilledFunctionsGiven.inputs (h : FilledFunctionsGiven held S.argtypes args)
    (hm : mother.Conforms cat S) : FilledInputsGiven held mother.expr args := by
  intro p hk hp
  obtain ⟨σs, ρ, hσ⟩ := hm.body.isFunc_inv hk
  exact h p σs ρ hp hσ

/-- What the slots of the residual are filled with is there as well. -/
theorem Stages.given_second (h : Stages held₁ held₂ held S.argtypes.length)
    (hgiven : FilledFunctionsGiven held S.argtypes args) :
    FilledFunctionsGiven held₂ (residualSignature held₁ S).argtypes (selectFrom held₁ 0 args) := by
  intro j σs ρ hj hσ hnull
  obtain ⟨p, hp, hheld, rfl⟩ := selectFrom_inv hσ
  obtain ⟨q, hq, hheldq, heq⟩ := selectFrom_inv hnull
  rw [Nat.zero_add] at hheld hheldq
  rw [← newidx_eq, ← newidx_eq] at heq
  rw [← newidx_eq] at hj
  obtain rfl := newidx_inj hheldq hheld heq
  have hlt := (List.getElem?_eq_some_iff.mp hp).1
  rw [h.second q hlt hheld] at hj
  exact hgiven q σs ρ hj hp hq

/-- The bindings of the two stages compose to the joint ones. -/
theorem Stages.scopes (h : Stages held₁ held₂ held S.argtypes.length)
    (hargs : ArgsFit cat S.argtypes args)
    (hgiven : FilledFunctionsGiven held S.argtypes args) {names : List String}
    (hnames : names.length = S.argtypes.length) (slotnames : List (List String)) :
    ComposedScopes
      { binding := declaredBindings held₂ 0 (residualSignature held₁ S).argtypes
          (selectFrom held₁ 0 args)
        slotnames := (selectFrom held 0 names).map fun name => [name] }
      { binding := declaredBindings held₁ 0 S.argtypes args, slotnames }
      { binding := declaredBindings held 0 S.argtypes args
        slotnames := (selectFrom held 0 names).map fun name => [name] } S.argtypes where
  slotnames := rfl
  binding := by
    intro p σ hσ
    obtain ⟨v, hv, hfit⟩ := forall₂_lookup hargs hσ
    have hlt := (List.getElem?_eq_some_iff.mp hσ).1
    have hget₁ := declaredBindings_getElem? held₁ (p := 0) hσ hv
    have hget := declaredBindings_getElem? held (p := 0) hσ hv
    rw [Nat.zero_add] at hget₁ hget
    -- filled in the first stage, left open by both, or filled in the second
    cases hheld₁ : held₁ p with
    | false =>
      have hheld := h.first p hheld₁
      simp only [declaredBinding, hheld₁, hheld, Bool.false_eq_true, if_false] at hget₁ hget
      cases σ with
      | scalar t =>
        refine ⟨_, _, hget₁, hget, ?_⟩
        exact Walks.const
      | func σs ρ =>
        obtain rfl | ⟨le, rfl, hle⟩ := hfit.func_inv
        · exact absurd hv (hgiven p σs ρ hheld hσ)
        · exact ⟨_, _, hget₁, hget, hle.composes (.inl rfl)⟩
    | true =>
      have hp0 : held₁ (0 + p) = true := by rwa [Nat.zero_add]
      have hget₂ := declaredBindings_getElem? held₂ (p := 0)
        (selectFrom_getElem? hσ hp0) (selectFrom_getElem? hv hp0)
      rw [Nat.zero_add, ← newidx_eq, h.declaredBinding_eq hlt hheld₁] at hget₂
      simp only [declaredBinding, hheld₁, if_true] at hget₁
      cases hheld : held p with
      | true =>
        simp only [declaredBinding, hheld, if_true] at hget hget₂
        refine ⟨_, _, hget₁, hget, ?_⟩
        cases σ with
        | scalar t =>
          exact Walks.bound hget₂
        | func σs ρ =>
          have hname := List.getElem?_eq_getElem (hnames ▸ hlt)
          have hslot : (selectFrom held 0 names)[countFrom held 0 p]? = some _ :=
            selectFrom_getElem? hname (by rwa [Nat.zero_add])
          rw [← newidx_eq] at hslot
          refine .inl ⟨_, _, _, _, rfl, hget₂, rfl, ?_⟩
          rw [List.length_map]
          exact (List.getElem?_eq_some_iff.mp hslot).1
      | false =>
        simp only [declaredBinding, hheld, Bool.false_eq_true, if_false] at hget hget₂
        cases σ with
        | scalar t =>
          refine ⟨_, _, hget₁, hget, ?_⟩
          exact Walks.bound hget₂
        | func σs ρ =>
          obtain rfl | ⟨le, rfl, hle⟩ := hfit.func_inv
          · exact absurd hv (hgiven p σs ρ hheld hσ)
          · exact ⟨_, _, hget₁, hget, hle.composes (.inr ⟨_, _, rfl, hget₂⟩)⟩

end Stages

/-! ## The residual of a residual -/

/-- The flags of the mother's `n` positions, at the slots of the residual. -/
def slotFlags (held : Nat → Bool) (n : Nat) (flag : Nat → Bool) (j : Nat) : Bool :=
  ((selectFrom held 0 ((List.range n).map flag))[j]?).getD false

theorem slotFlags_newidx {held flag : Nat → Bool} {n p : Nat} (hp : held p = true) (hlt : p < n) :
    slotFlags held n flag (newidx held p) = flag p := by
  have hget : ((List.range n).map flag)[p]? = some (flag p) := by
    rw [List.getElem?_map, List.getElem?_range hlt]
    rfl
  have hslot : (selectFrom held 0 ((List.range n).map flag))[countFrom held 0 p]? = _ :=
    selectFrom_getElem? hget (by rwa [Nat.zero_add])
  rw [slotFlags, newidx_eq, hslot, Option.getD_some]

theorem stages_of_flags (first second : Nat → Bool) (n : Nat) :
    Stages (fun p => !first p) (fun j => !slotFlags (fun p => !first p) n second j)
      (fun p => !(first p || second p)) n where
  second := by
    intro p hlt hp
    rw [slotFlags_newidx hp hlt]
    rw [Bool.not_eq_true'] at hp
    rw [hp, Bool.false_or]
  first := by
    intro p hp
    rw [Bool.not_eq_false'] at hp
    rw [hp, Bool.true_or, Bool.not_true]

section Residual

variable {cat : ProcCatalog F} {S : LambdaSignature} {mother : LambdaExpr F V}
variable {args : List (Option (Datum F V))} {held₁ held₂ held : Nat → Bool}

theorem Stages.residualLambda_eq (h : Stages held₁ held₂ held S.argtypes.length)
    (hm : mother.Conforms cat S) (r₁ r : Expr F V) :
    residualLambda (residualLambda mother held₁ r₁) held₂ r = residualLambda mother held r := by
  have hlen : mother.argnames.length = S.argtypes.length := hm.nargs_eq
  have hnames := h.selectFrom_selectFrom mother.argnames 0 (by omega)
  have hnames' : selectFrom held₂ 0 (selectFrom held₁ 0 mother.argnames) =
      selectFrom held 0 mother.argnames := hnames
  simp only [residualLambda, hnames']

/-- Bindings that are all declared fold alike with themselves. -/
theorem alikeScopes_declared {isTrue : V → Bool}
    {fn : F → List (Option V) → Except LambdaError (Option V)} {Γ : List LambdaSigType}
    (hargs : ArgsFit cat Γ args) (hgiven : FilledFunctionsGiven held Γ args)
    (slotnames : List (List String)) :
    AlikeScopes cat isTrue fn { binding := declaredBindings held 0 Γ args, slotnames }
      { binding := declaredBindings held 0 Γ args, slotnames } Γ where
  slotnames := rfl
  binding := by
    intro p σ hσ
    obtain ⟨v, hv, hfit⟩ := forall₂_lookup hargs hσ
    have hget := declaredBindings_getElem? held (p := 0) hσ hv
    rw [Nat.zero_add] at hget
    cases hheld : held p with
    | true =>
      simp only [declaredBinding, hheld, if_true] at hget
      refine ⟨_, _, hget, hget, ?_⟩
      cases σ with
      | scalar t => simp only [FoldsAlike]
      | func σs ρ =>
        exact .inl ⟨_, _, rfl, rfl⟩
    | false =>
      simp only [declaredBinding, hheld, Bool.false_eq_true, if_false] at hget
      cases σ with
      | scalar t =>
        refine ⟨_, _, hget, hget, ?_⟩
        simp only [FoldsAlike]
      | func σs ρ =>
        obtain rfl | ⟨le, rfl, hle⟩ := hfit.func_inv
        · exact absurd hv (hgiven p σs ρ hheld hσ)
        · refine ⟨_, _, hget, hget, ?_⟩
          refine .inr ⟨_, _, _, rfl, rfl, hle.nargs_eq, rfl, fun slotnames bs bs' hbs => ?_⟩
          obtain ⟨r, r', hr, hr', ha⟩ := hle.body.foldsAlike (.inl rfl) (hbs.scopes slotnames)
          exact ⟨r, r', hr, hr', ha.fold_eq⟩

/-- The residual's body is well typed over the residual's inputs. -/
theorem residual_hasType (hm : mother.Conforms cat S) (hargs : ArgsFit cat S.argtypes args)
    (hfilled : FilledInputsGiven held mother.expr args) {r : Expr F V}
    (hr : Settles (fun n => lambdaPartialApply n mother held args) (residualLambda mother held r))
    (Δ : List LambdaSigType) (hΔ : TypesHeld held S mother.expr Δ) :
    HasType cat Δ r S.rettype := by
  obtain ⟨r', hr', htyped, _⟩ := lambdaPartialApply_spec hm hargs hfilled
  have hmask : Settles (fun n => lambdaPartialApply n mother held args)
      (residualLambda mother held r') := by
    refine hr'.mono fun n hn => ?_
    rw [← hn]
    exact congrArg (· >>= _) (partialBindings_mask mother.expr held args)
  have heq := congrArg LambdaExpr.expr (hr.unique hmask)
  simp only [residualLambda] at heq
  rw [heq]
  exact htyped Δ hΔ

/-- **Two stages are one**, also with folding between them. -/
theorem Stages.composes (h : Stages held₁ held₂ held S.argtypes.length) (hm : mother.Conforms cat S)
    (hargs : ArgsFit cat S.argtypes args) (hgiven : FilledFunctionsGiven held S.argtypes args) :
    ∃ r₁ r, Settles (fun n => lambdaPartialApply n mother held₁ args)
        (residualLambda mother held₁ r₁) ∧
      Settles (fun n => lambdaPartialApply n (residualLambda mother held₁ r₁) held₂
        (selectFrom held₁ 0 args)) (residualLambda mother held r) ∧
      Settles (fun n => lambdaPartialApply n mother held args) (residualLambda mother held r) ∧
      ∀ isTrue fn, ∃ r', Settles (fun n => lambdaPartialApply n
          (residualLambda mother held₁ (foldTotal cat isTrue fn r₁)) held₂
          (selectFrom held₁ 0 args)) (residualLambda mother held r') ∧
        foldTotal cat isTrue fn r' = foldTotal cat isTrue fn r := by
  have hgiven₁ : FilledFunctionsGiven held₁ S.argtypes args :=
    fun p σs ρ hp hσ => hgiven p σs ρ (h.first p hp) hσ
  have hgiven₂ := h.given_second hgiven
  have hargs₂ : ArgsFit cat (residualSignature held₁ S).argtypes (selectFrom held₁ 0 args) :=
    selectFrom_forall₂ hargs
  obtain ⟨r₁, r, hr₁, hr, hc⟩ := hm.body.composes (h.scopes hargs hgiven hm.nargs_eq
    ((selectFrom held₁ 0 mother.argnames).map fun name => [name]))
  have hbuilt₁ := settles_partialApply hm hargs (hgiven₁.inputs hm) hr₁
  have htyped := residual_hasType hm hargs (hgiven₁.inputs hm) hbuilt₁
  have hnames := h.selectFrom_selectFrom mother.argnames 0 (by
    rw [Nat.zero_add]
    exact Nat.le_of_eq hm.nargs_eq)
  have hsecond : ∀ {e x : Expr F V}, (∀ Δ, TypesHeld held₁ S mother.expr Δ →
      HasType cat Δ e S.rettype) →
      Walks { binding := declaredBindings held₂ 0 (residualSignature held₁ S).argtypes
                (selectFrom held₁ 0 args)
              slotnames := (selectFrom held 0 mother.argnames).map fun name => [name] } e x →
      Settles (fun n => lambdaPartialApply n (residualLambda mother held₁ e) held₂
        (selectFrom held₁ 0 args)) (residualLambda mother held x) := by
    intro e x he hx
    have hconf : (residualLambda mother held₁ e).Conforms cat (residualSignature held₁ S) :=
      residualLambda_conforms hm he
    rw [← hnames] at hx
    rw [← h.residualLambda_eq hm e x]
    exact settles_partialApply hconf hargs₂ (hgiven₂.inputs hconf) hx
  refine ⟨r₁, r, hbuilt₁, hsecond htyped hc.walks,
    settles_partialApply hm hargs (hgiven.inputs hm) hr, fun isTrue fn => ?_⟩
  have hfolded : MaybeFolded cat isTrue fn r₁ (foldTotal cat isTrue fn r₁) := .inr rfl
  obtain ⟨x, x', hx, hx', ha⟩ := (htyped _ typesHeld_residualSignature).foldsAlike hfolded
    (alikeScopes_declared hargs₂ hgiven₂ _)
  refine ⟨x', hsecond (fun Δ hΔ => (htyped Δ hΔ).foldTotal) hx', ?_⟩
  rw [hc.walks.unique hx]
  exact ha.fold_eq.symm

end Residual

/-- **Partial application composes.** For a well-typed mother, filling the positions `first`
and then, in the residual, the slots of the positions `second` yields the lambda that
filling both in one application yields. If the first residual is folded in between, the
results fold to the same. -/
theorem partialApply_composes {cat : ProcCatalog F} {S : LambdaSignature} {mother : LambdaExpr F V}
    {args : List (Option (Datum F V))} (hm : mother.Conforms cat S)
    (hargs : ArgsFit cat S.argtypes args) (first second : Nat → Bool)
    (hgiven : ∀ p σs ρ, (first p || second p) = true → S.argtypes[p]? = some (.func σs ρ) →
      args[p]? ≠ some none) :
    ∃ residual result, Settles (fun n => lambdaPartialApply n mother (fun p => !first p) args)
        residual ∧
      Settles (fun n => lambdaPartialApply n residual
        (fun j => !slotFlags (fun p => !first p) S.argtypes.length second j)
        (selectFrom (fun p => !first p) 0 args)) result ∧
      Settles (fun n => lambdaPartialApply n mother (fun p => !(first p || second p)) args) result ∧
      ∀ isTrue fn e, evalConstExpressions cat (raisingRuntime fn isTrue) residual.expr = .ok e →
        ∃ result', Settles (fun n => lambdaPartialApply n { residual with expr := e }
            (fun j => !slotFlags (fun p => !first p) S.argtypes.length second j)
            (selectFrom (fun p => !first p) 0 args)) result' ∧
          result'.toLambdaHeader = result.toLambdaHeader ∧
          foldTotal cat isTrue fn result'.expr = foldTotal cat isTrue fn result.expr := by
  have hfilled : FilledFunctionsGiven (fun p => !(first p || second p)) S.argtypes args := by
    intro p σs ρ hp hσ
    rw [Bool.not_eq_false'] at hp
    exact hgiven p σs ρ hp hσ
  obtain ⟨r₁, r, hr₁, hr₂, hr, hfold⟩ :=
    (stages_of_flags first second S.argtypes.length).composes hm hargs hfilled
  refine ⟨_, _, hr₁, hr₂, hr, fun isTrue fn e he => ?_⟩
  obtain ⟨r', hr', heq⟩ := hfold isTrue fn
  obtain rfl := foldTotal_of_evalConstExpressions he
  exact ⟨_, hr', rfl, heq⟩

/-! ### A function for a function, in two stages

`λ(f, h, x) h(f) + x`, with `λ(y) y + 1` filled in for `f` first and `λ(g) g(3)` for `h`
then: the first stage embeds the one, the second inlines the other and with it the first. -/

def relayLambda : LambdaExpr ArithFunc Int :=
  scalarLambda ["f", "h", "x"] INT4OID
    (.func .plus [.lfa ["h"] INT4OID 1 [.param 0 LAMBDAOID], .param 2 INT4OID])

def relaySignature : LambdaSignature :=
  ⟨passSignature.argtypes ++ [.scalar INT4OID], .scalar INT4OID⟩

def relayArgs : List (Option (Datum ArithFunc Int)) := passArgs ++ [none]

theorem relayLambda_conforms : relayLambda.Conforms arithCatalog relaySignature :=
  ⟨rfl, by
    simp [relayLambda, relaySignature, passSignature, scalarLambda, HasType, HasTypes,
      arithCatalog, INT4OID, LAMBDAOID]⟩

theorem partialApply_composes_relay :
    ∃ residual result, Settles (fun n => lambdaPartialApply n relayLambda (fun p => !(p == 0))
        relayArgs) residual ∧
      Settles (fun n => lambdaPartialApply n residual
        (fun j => !slotFlags (fun p => !(p == 0)) 3 (fun p => p == 1) j)
        (selectFrom (fun p => !(p == 0)) 0 relayArgs)) result ∧
      Settles (fun n => lambdaPartialApply n relayLambda (fun p => !(p == 0 || p == 1)) relayArgs)
        result := by
  have hargs : ArgsFit arithCatalog relaySignature.argtypes relayArgs :=
    .cons succLambda_conforms (.cons atThreeLambda_conforms (.cons trivial .nil))
  obtain ⟨residual, result, h₁, h₂, h, _⟩ := partialApply_composes relayLambda_conforms hargs
    (fun p => p == 0) (fun p => p == 1) (by
      intro p σs ρ hp _ hnull
      simp only [Bool.or_eq_true, beq_iff_eq] at hp
      rcases hp with rfl | rfl
      · cases hnull
      · cases hnull)
  exact ⟨residual, result, h₁, h₂, h⟩

/-- The choice between functions with 1 filled in for `x`: folding has chosen. -/
def chosenFirst : LambdaExpr ArithFunc Int :=
  residualLambda chosenLambda (fun p => !(p == 0))
    (.func .plus [.lfa ["h"] INT4OID 2 [.param 0 LAMBDAOID], .param 3 INT4OID])

/-- The functions filled in as well. -/
def chosenBoth : LambdaExpr ArithFunc Int :=
  residualLambda chosenLambda (fun p => p == 4)
    (.func .plus [.const INT4OID (some 4), .param 0 INT4OID])

/-- In two stages the second inlines the function chosen by folding the first. In one
stage the inliner meets the `CASE`. -/
theorem partialApply_choice_in_stages :
    chosenLambda.Accepted arithCatalog chosenSignature ∧
    ArgsFit arithCatalog chosenSignature.argtypes chosenArgs ∧
    Settles (fun n => execPartialApply arithCatalog arithTotalRuntime n
      (some (.lambda .serialized chosenLambda)) (fun p => !(p == 0)) (chosenArgs.take 1))
      (some (.lambda .serialized chosenFirst)) ∧
    Settles (fun n => execPartialApply arithCatalog arithTotalRuntime n
      (some (.lambda .serialized chosenFirst))
      (fun j => !slotFlags (fun p => !(p == 0)) 5 (fun p => p == 1 || p == 2 || p == 3) j)
      ((chosenArgs.drop 1).take 3)) (some (.lambda .serialized chosenBoth)) ∧
    Fails (fun n => execPartialApply arithCatalog arithTotalRuntime n
      (some (.lambda .serialized chosenLambda))
      (fun p => !(p == 0 || (p == 1 || p == 2 || p == 3))) (chosenArgs.take 4))
      (.notAFunction 0) := by
  refine ⟨chosenLambda_accepted, chosenArgs_fit, ?_, ?_, ?_⟩
  · exact Settles.of_succ (settles_const rfl)
  · exact Settles.of_succ (Settles.of_succ (settles_const rfl))
  · exact Fails.of_succ (Fails.of_succ (Filter.Eventually.of_forall fun _ => rfl))

end HolLambdas.Scalar
