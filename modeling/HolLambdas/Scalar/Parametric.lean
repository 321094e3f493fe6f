import Mathlib.Data.List.Forall2
import HolLambdas.Scalar.Meaning

/-!
# Well-typed bodies have a meaning, and the meaning is parametric

Two facts about typed bodies, proved as one. Unfolding calls comes to an end
although a call can pass functions on to further calls and no measure on the
trees decreases. And the meaning does not depend on what the carrier is: if two
algebras are related operation by operation, so are the meanings.

A plain induction on the body fails at a call `f(…)`: the callee's body is not
a subterm, and nothing is known about it. As usual for the simply typed
calculus, the cure is to strengthen the statement at function types. `Rel τ`
relates two entries of type `τ`; at a function type it relates two lambdas that,
run on related arguments, both have a meaning, and related ones. The type
decreases where the term does not.

With the same algebra twice and equality on the carrier, the second fact is
trivial and the first is left: `LambdaExpr.Conforms.exists_means`.
-/

namespace HolLambdas.Scalar

variable {F V D D' : Type}

/-! ## Lists related entry by entry -/

theorem forall₂_lookup {α β : Type} {R : α → β → Prop} {as : List α} {bs : List β}
    (h : List.Forall₂ R as bs) {k : Nat} {a : α} (hk : as[k]? = some a) :
    ∃ b, bs[k]? = some b ∧ R a b := by
  induction h generalizing k with
  | nil => simp at hk
  | @cons a' b _ _ hr _ ih =>
    cases k with
    | zero =>
      cases hk
      exact ⟨b, rfl, hr⟩
    | succ k => simpa using ih (by simpa using hk)

/-- Two relations between lists compose entry by entry. -/
theorem forall₂_comp {α β γ : Type} {R : α → β → Prop} {S : β → γ → Prop} {T : α → γ → Prop}
    (hT : ∀ a b c, R a b → S b c → T a c) {as : List α} {bs : List β} {cs : List γ}
    (hR : List.Forall₂ R as bs) (hS : List.Forall₂ S bs cs) : List.Forall₂ T as cs := by
  induction hR generalizing cs with
  | nil =>
    cases hS
    exact .nil
  | cons h _ ih =>
    cases hS with
    | cons h' hs' => exact .cons (hT _ _ _ h h') (ih hs')

/-! ## Related algebras -/

/-- A relation between carriers that the operations of both algebras keep. -/
structure AlgebraRel (A : ScalarAlgebra F V D) (B : ScalarAlgebra F V D')
    (P : D → D' → Prop) : Prop where
  const : ∀ t v, P (A.const t v) (B.const t v)
  func : ∀ f {ds ds'}, List.Forall₂ P ds ds' → P (A.func f ds) (B.func f ds')
  caseWhen : ∀ t {c c' r r' d d'}, P c c' → P r r' → P d d' →
    P (A.caseWhen t c r d) (B.caseWhen t c' r' d')
  coalesce : ∀ t {a a' b b'}, P a a' → P b b' → P (A.coalesce t a b) (B.coalesce t a' b')

section Rel

variable (A : ScalarAlgebra F V D) (B : ScalarAlgebra F V D') (P : D → D' → Prop)

mutual

/-- Related entries of a type. -/
def Rel : LambdaSigType → Entry F V D → Entry F V D' → Prop
  | .scalar _, .val d, .val d' => P d d'
  | .func σs τ, .lam h e, .lam h' e' =>
    h.nargs = σs.length ∧ h'.nargs = σs.length ∧
      ∀ Es Es', Rels σs Es Es' → ∃ E E', Means A Es e E ∧ Means B Es' e' E' ∧ Rel τ E E'
  | .func _ _, .nul, .nul => True
  | _, _, _ => False

/-- Related environments: entry by entry, at the types of the inputs. -/
def Rels : List LambdaSigType → List (Entry F V D) → List (Entry F V D') → Prop
  | [], [], [] => True
  | σ :: σs, E :: Es, E' :: Es' => Rel σ E E' ∧ Rels σs Es Es'
  | _, _, _ => False

end

end Rel

section Fundamental

variable {A : ScalarAlgebra F V D} {B : ScalarAlgebra F V D'} {P : D → D' → Prop}

/-- Entries related at an atomic type are elements of the carriers. -/
theorem Rel.scalar_inv {t : Oid} : ∀ {E : Entry F V D} {E' : Entry F V D'},
    Rel A B P (.scalar t) E E' → ∃ d d', E = .val d ∧ E' = .val d' ∧ P d d'
  | .val d, .val d', h => ⟨d, d', rfl, rfl, by simpa only [Rel] using h⟩
  | .val _, .lam _ _, h => by simp only [Rel] at h
  | .val _, .nul, h => by simp only [Rel] at h
  | .lam _ _, _, h => by simp only [Rel] at h
  | .nul, _, h => by simp only [Rel] at h

/-- Entries related at a function type are two lambdas, or two NULLs. -/
theorem Rel.func_inv {σs : List LambdaSigType} {τ : LambdaSigType} :
    ∀ {E : Entry F V D} {E' : Entry F V D'}, Rel A B P (.func σs τ) E E' →
      (∃ h e h' e', E = .lam h e ∧ E' = .lam h' e' ∧
        h.nargs = σs.length ∧ h'.nargs = σs.length ∧
        ∀ Es Es', Rels A B P σs Es Es' →
          ∃ E E', Means A Es e E ∧ Means B Es' e' E' ∧ Rel A B P τ E E') ∨
      (E = .nul ∧ E' = .nul)
  | .lam h e, .lam h' e', hr => .inl ⟨h, e, h', e', rfl, rfl, hr⟩
  | .nul, .nul, _ => .inr ⟨rfl, rfl⟩
  | .val _, _, hr => by simp only [Rel] at hr
  | .lam _ _, .val _, hr => by simp only [Rel] at hr
  | .lam _ _, .nul, hr => by simp only [Rel] at hr
  | .nul, .val _, hr => by simp only [Rel] at hr
  | .nul, .lam _ _, hr => by simp only [Rel] at hr

/-- Looking up an input of related environments. -/
theorem Rels.lookup : ∀ {Γ : List LambdaSigType} {env : List (Entry F V D)}
    {env' : List (Entry F V D')}, Rels A B P Γ env env' →
    ∀ {k : Nat} {τ : LambdaSigType}, Γ[k]? = some τ →
      ∃ E E', env[k]? = some E ∧ env'[k]? = some E' ∧ Rel A B P τ E E'
  | [], _, _, _, k, τ, hk => by simp at hk
  | σ :: σs, E :: Es, E' :: Es', h, 0, τ, hk => by
    simp only [List.getElem?_cons_zero, Option.some.injEq] at hk
    subst hk
    exact ⟨E, E', rfl, rfl, h.1⟩
  | σ :: σs, E :: Es, E' :: Es', h, k + 1, τ, hk => h.2.lookup (by simpa using hk)
  | _ :: _, [], _, h, _, _, _ => by simp only [Rels] at h
  | _ :: _, _ :: _, [], h, _, _, _ => by simp only [Rels] at h

/-- Environments related at atomic types only. -/
theorem Rels.scalars : ∀ {ts : List Oid} {Es : List (Entry F V D)} {Es' : List (Entry F V D')},
    Rels A B P (ts.map .scalar) Es Es' →
      ∃ ds ds', Es = ds.map .val ∧ Es' = ds'.map .val ∧ List.Forall₂ P ds ds'
  | [], [], [], _ => ⟨[], [], rfl, rfl, .nil⟩
  | t :: ts, E :: Es, E' :: Es', h => by
    obtain ⟨d, d', rfl, rfl, hd⟩ := h.1.scalar_inv
    obtain ⟨ds, ds', rfl, rfl, hds⟩ := h.2.scalars
    exact ⟨d :: ds, d' :: ds', rfl, rfl, .cons hd hds⟩
  | [], _ :: _, _, h => by simp only [List.map_nil, Rels] at h
  | [], [], _ :: _, h => by simp only [List.map_nil, Rels] at h
  | _ :: _, [], _, h => by simp only [List.map_cons, Rels] at h
  | _ :: _, _ :: _, [], h => by simp only [List.map_cons, Rels] at h

variable {cat : ProcCatalog F}

mutual

/-- **Parametricity.** In related environments a well-typed body has a meaning
in both algebras, and the two are related. -/
theorem HasType.rel (hP : AlgebraRel A B P) : ∀ {e : Expr F V} {Γ : List LambdaSigType}
    {τ : LambdaSigType} {env : List (Entry F V D)} {env' : List (Entry F V D')},
    HasType cat Γ e τ → Rels A B P Γ env env' →
      ∃ E E', Means A env e E ∧ Means B env' e E' ∧ Rel A B P τ E E'
  | .const t v, Γ, τ, env, env', ht, _ => by
    subst ht
    exact ⟨_, _, Means.const, Means.const, by simpa only [Rel] using hP.const t v⟩
  | .param k t, Γ, τ, env, env', ht, henv => by
    obtain ⟨E, E', hE, hE', hr⟩ := henv.lookup ht.1
    exact ⟨E, E', Means.param hE, Means.param hE', hr⟩
  | .func f args, Γ, τ, env, env', ht, henv => by
    obtain ⟨rfl, hargs⟩ := ht
    obtain ⟨Es, Es', hEs, hEs', hrs⟩ := HasTypes.rels hP hargs henv
    obtain ⟨ds, ds', rfl, rfl, hds⟩ := hrs.scalars
    exact ⟨_, _, Means.func hEs, Means.func hEs', by simpa only [Rel] using hP.func f hds⟩
  | .caseWhen t c r d, Γ, τ, env, env', ht, henv => by
    obtain ⟨rfl, ⟨b, hc⟩, hr, hd⟩ := ht
    obtain ⟨_, _, mc, mc', rc⟩ := HasType.rel hP hc henv
    obtain ⟨_, _, mr, mr', rr⟩ := HasType.rel hP hr henv
    obtain ⟨_, _, md, md', rd⟩ := HasType.rel hP hd henv
    obtain ⟨_, _, rfl, rfl, pc⟩ := rc.scalar_inv
    obtain ⟨_, _, rfl, rfl, pr⟩ := rr.scalar_inv
    obtain ⟨_, _, rfl, rfl, pd⟩ := rd.scalar_inv
    exact ⟨_, _, Means.caseWhen mc mr md, Means.caseWhen mc' mr' md',
      by simpa only [Rel] using hP.caseWhen t pc pr pd⟩
  | .coalesce t a b, Γ, τ, env, env', ht, henv => by
    obtain ⟨rfl, ha, hb⟩ := ht
    obtain ⟨_, _, ma, ma', ra⟩ := HasType.rel hP ha henv
    obtain ⟨_, _, mb, mb', rb⟩ := HasType.rel hP hb henv
    obtain ⟨_, _, rfl, rfl, pa⟩ := ra.scalar_inv
    obtain ⟨_, _, rfl, rfl, pb⟩ := rb.scalar_inv
    exact ⟨_, _, Means.coalesce ma mb, Means.coalesce ma' mb',
      by simpa only [Rel] using hP.coalesce t pa pb⟩
  | .lfa name t k args, Γ, τ, env, env', ht, henv => by
    obtain ⟨rfl, σs, hk, hargs⟩ := ht
    obtain ⟨Es, Es', hEs, hEs', hrs⟩ := HasTypes.rels hP hargs henv
    have hlen := hargs.length_eq
    obtain ⟨C, C', hC, hC', hrel⟩ := henv.lookup hk
    rcases hrel.func_inv with ⟨h, e, h', e', rfl, rfl, hn, hn', happ⟩ | ⟨rfl, rfl⟩
    · -- the callee is no subterm; its membership in the relation is what is used
      obtain ⟨E, E', hE, hE', hr⟩ := happ Es Es' hrs
      obtain ⟨d, d', rfl, rfl, hd⟩ := hr.scalar_inv
      exact ⟨_, _, Means.lfa hC (hlen.trans hn.symm) hEs hE,
        Means.lfa hC' (hlen.trans hn'.symm) hEs' hE', hr⟩
    · exact ⟨_, _, Means.lfaNul hC hEs, Means.lfaNul hC' hEs',
        by simpa only [Rel] using hP.const t none⟩
  | .lambda h e, Γ, τ, env, env', ht, _ => by
    obtain ⟨σs, ρ, rfl, hn, he⟩ := ht
    refine ⟨_, _, Means.lambda, Means.lambda, ?_⟩
    exact ⟨hn, hn, fun _ _ hEs => HasType.rel hP he hEs⟩

theorem HasTypes.rels (hP : AlgebraRel A B P) : ∀ {es : List (Expr F V)}
    {Γ σs : List LambdaSigType} {env : List (Entry F V D)} {env' : List (Entry F V D')},
    HasTypes cat Γ es σs → Rels A B P Γ env env' →
      ∃ Es Es', MeansArgs A env es Es ∧ MeansArgs B env' es Es' ∧ Rels A B P σs Es Es'
  | [], Γ, σs, env, env', ht, _ => by
    subst ht
    exact ⟨[], [], MeansArgs.nil, MeansArgs.nil, by simp only [Rels]⟩
  | e :: es, Γ, σs, env, env', ht, henv => by
    obtain ⟨σ, σs', rfl, he, hes⟩ := ht
    obtain ⟨E, E', m, m', hr⟩ := HasType.rel hP he henv
    obtain ⟨Es, Es', ms, ms', hrs⟩ := HasTypes.rels hP hes henv
    exact ⟨E :: Es, E' :: Es', MeansArgs.cons m ms, MeansArgs.cons m' ms',
      by simp only [Rels]; exact ⟨hr, hrs⟩⟩

end

end Fundamental

end HolLambdas.Scalar
