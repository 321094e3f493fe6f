import HolLambdas.Scalar.Substitution

/-!
# Inlining keeps types

Inlining takes a well-typed body to one of the same type. The inputs change: the
result is typed over the inputs of the tree that is built. No termination
argument is needed here; the statement is about walks that end.
-/

namespace HolLambdas.Scalar

variable {F V : Type}

/-- Every input of the scope that the body mentions is bound to something of its
type. -/
def BindingsTyped (cat : ProcCatalog F) (Δ : List LambdaSigType) (ctx : ScalarBind F V)
    (Γ : List LambdaSigType) (e : Expr F V) : Prop :=
  ∀ k σ, Γ[k]? = some σ → e.mentions k = true →
    HasType cat Δ (ctx.resolve k (.param k σ.oid)) σ

theorem bindingsTyped_callee {cat : ProcCatalog F} {Δ σs : List LambdaSigType}
    {ctx : ScalarBind F V} {rs : List (Expr F V)} (hrs : HasTypes cat Δ rs σs) {e : Expr F V} :
    BindingsTyped cat Δ { ctx with binding := rs.map some } σs e := by
  intro k σ hk _
  obtain ⟨r, hr, ht⟩ := hrs.lookup hk
  simpa [ScalarBind.resolve, hr] using ht

section Walk

variable {cat : ProcCatalog F} {Δ : List LambdaSigType}

mutual

/-- The walked body has the type of the body. -/
theorem Walks.hasType : ∀ {ctx : ScalarBind F V} {e r : Expr F V}, Walks ctx e r →
    ∀ {Γ : List LambdaSigType} {τ : LambdaSigType}, HasType cat Γ e τ →
      BindingsTyped cat Δ ctx Γ e → HasType cat Δ r τ
  | _, _, _, .const, _, _, ht, _ => by simpa only [HasType] using ht
  | _, _, _, .param, _, τ, ht, hb => by
    rw [ht.2.1]
    exact hb _ τ ht.1 (by simp [Expr.mentions])
  | _, _, _, .func h, _, _, ht, hb => ⟨ht.1, h.hasTypes ht.2 hb⟩
  | _, _, _, .caseWhen hc hr hd, _, _, ht, hb => by
    obtain ⟨hτ, ⟨b, tc⟩, tr, td⟩ := ht
    refine ⟨hτ, ⟨b, ?_⟩, ?_, ?_⟩
    · exact hc.hasType tc fun k σ hk hm => hb k σ hk (by simp [Expr.mentions, hm])
    · exact hr.hasType tr fun k σ hk hm => hb k σ hk (by simp [Expr.mentions, hm])
    · exact hd.hasType td fun k σ hk hm => hb k σ hk (by simp [Expr.mentions, hm])
  | _, _, _, .coalesce ha hb', _, _, ht, hb => by
    obtain ⟨hτ, ta, tb⟩ := ht
    refine ⟨hτ, ?_, ?_⟩
    · exact ha.hasType ta fun k σ hk hm => hb k σ hk (by simp [Expr.mentions, hm])
    · exact hb'.hasType tb fun k σ hk hm => hb k σ hk (by simp [Expr.mentions, hm])
  | _, _, _, .inline hk hlen hargs hbody, _, _, ht, hb => by
    obtain ⟨hτ, σs, hσ, targs⟩ := ht
    have hcallee := hb _ _ hσ (by simp [Expr.mentions])
    simp only [ScalarBind.resolve, hk, HasType] at hcallee
    obtain ⟨σs', ρ, hfun, _, tbody⟩ := hcallee
    cases hfun
    exact hbody.hasType tbody (bindingsTyped_callee
      (hargs.hasTypes targs fun k σ hk hm => hb k σ hk (by simp [Expr.mentions, hm])))
  | _, _, _, .retarget hk hargs, _, _, ht, hb => by
    obtain ⟨hτ, σs, hσ, targs⟩ := ht
    have hcallee := hb _ _ hσ (by simp [Expr.mentions])
    simp only [ScalarBind.resolve, hk, HasType] at hcallee
    exact ⟨hτ, σs, hcallee.1,
      hargs.hasTypes targs fun k σ hk hm => hb k σ hk (by simp [Expr.mentions, hm])⟩
  | _, _, _, .lambda, _, _, ht, _ => by simpa only [HasType] using ht

theorem WalksArgs.hasTypes : ∀ {ctx : ScalarBind F V} {es rs : List (Expr F V)},
    WalksArgs ctx es rs → ∀ {Γ σs : List LambdaSigType}, HasTypes cat Γ es σs →
      (∀ k σ, Γ[k]? = some σ → Expr.mentionsArgs k es = true →
        HasType cat Δ (ctx.resolve k (.param k σ.oid)) σ) → HasTypes cat Δ rs σs
  | _, _, _, .nil, _, _, ht, _ => by simpa only [HasTypes] using ht
  | _, _, _, .cons h hs, _, _, ht, hb => by
    obtain ⟨σ, σs', rfl, te, tes⟩ := ht
    refine ⟨σ, σs', rfl, ?_, ?_⟩
    · exact h.hasType te fun k σ hk hm => hb k σ hk (by simp [Expr.mentionsArgs, hm])
    · exact hs.hasTypes tes fun k σ hk hm => hb k σ hk (by simp [Expr.mentionsArgs, hm])

end

end Walk

end HolLambdas.Scalar
