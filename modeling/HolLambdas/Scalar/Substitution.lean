import HolLambdas.Fuel
import HolLambdas.Scalar.Parametric

/-!
# The inliner is a substitution

The one fact about `scalar_inject_walk` that everything else is derived from:
if the bindings of a scope stand for the entries of an environment, then the
walked body stands for the meaning of the body in that environment.

"Stands for" is `StandsFor A ρ r E`: in the environment `ρ` of the tree that is
being *built*, the expression `r` means `E`. For an atomic entry that is all
there is to say. For a function it matters what `r` looks like, because the
walk looks at it: it must be a lambda, or a reference to an input of the result
that holds one. Nothing here mentions types. A body that has a meaning never
sends the walk into one of its error branches, and the walk needs no more
inlining steps than the meaning has calls, so it ends.

The bindings of the outermost scope differ from those of inlined callees in two
ways: an input the body does not mention may have none, and an atomic input
bound to NULL stays the reference it is. `Bound` allows for both.
-/

namespace HolLambdas.Scalar

variable {F V D : Type}

/-! ## The walk by its rules -/

mutual

/-- The walk of `e` ends, without an error, and yields `r`. -/
inductive Walks : ScalarBind F V → Expr F V → Expr F V → Prop
  | const {ctx t v} : Walks ctx (.const t v) (.const t v)
  | param {ctx k t} : Walks ctx (.param k t) (ctx.resolve k (.param k t))
  | func {ctx f args args'} (h : WalksArgs ctx args args') :
      Walks ctx (.func f args) (.func f args')
  | caseWhen {ctx t c r d c' r' d'} (hc : Walks ctx c c') (hr : Walks ctx r r')
      (hd : Walks ctx d d') : Walks ctx (.caseWhen t c r d) (.caseWhen t c' r' d')
  | coalesce {ctx t a b a' b'} (ha : Walks ctx a a') (hb : Walks ctx b b') :
      Walks ctx (.coalesce t a b) (.coalesce t a' b')
  /-- A call of a lambda becomes its body, walked with the arguments bound. -/
  | inline {ctx name t k args args' h body r} (hk : ctx.binding[k]? = some (some (.lambda h body)))
      (hlen : args.length = h.nargs) (hargs : WalksArgs ctx args args')
      (hbody : Walks { ctx with binding := args'.map some } body r) :
      Walks ctx (.lfa name t k args) r
  /-- A call of an open input stays, with the input's number in the result. -/
  | retarget {ctx name t k args args' id t'} (hk : ctx.binding[k]? = some (some (.param id t')))
      (hargs : WalksArgs ctx args args') :
      Walks ctx (.lfa name t k args) (.lfa (ctx.slotname id name) t id args')
  | lambda {ctx h e} : Walks ctx (.lambda h e) (.lambda h e)

inductive WalksArgs : ScalarBind F V → List (Expr F V) → List (Expr F V) → Prop
  | nil {ctx} : WalksArgs ctx [] []
  | cons {ctx e e' es es'} (h : Walks ctx e e') (hs : WalksArgs ctx es es') :
      WalksArgs ctx (e :: es) (e' :: es')

end

theorem Walks.bound {ctx : ScalarBind F V} {k : Nat} {t : Oid} {b : Expr F V}
    (h : ctx.binding[k]? = some (some b)) : Walks ctx (.param k t) b := by
  have hresolve : ctx.resolve k (.param k t) = b := by rw [ScalarBind.resolve, h]
  rw [← hresolve]
  exact .param

theorem WalksArgs.length_eq {ctx : ScalarBind F V} : ∀ {es rs : List (Expr F V)},
    WalksArgs ctx es rs → rs.length = es.length
  | _, _, .nil => rfl
  | _, _, .cons _ hs => congrArg (· + 1) hs.length_eq

mutual

theorem Walks.settles : ∀ {ctx : ScalarBind F V} {e r : Expr F V}, Walks ctx e r →
    Settles (fun n => scalarInjectWalk n ctx e) r
  | _, _, _, .const => settles_const rfl
  | _, _, _, .param => settles_const rfl
  | _, _, _, .func h => h.settles.bind (settles_const rfl)
  | _, _, _, .caseWhen hc hr hd => hc.settles.bind (hr.settles.bind (hd.settles.bind
    (settles_const rfl)))
  | _, _, _, .coalesce ha hb => ha.settles.bind (hb.settles.bind (settles_const rfl))
  | ctx, _, r, .inline hk hlen hargs hbody => by
    -- the callee's body is walked on one unit of fuel less than the call
    have hcallee : Settles (fun n => scalarInjectCallee n _ _) r := Settles.of_succ hbody.settles
    have hrun := hargs.settles.bind (g := fun n args' => scalarInjectCallee n
      { ctx with binding := args'.map some } _) hcallee
    refine hrun.mono fun n hn => ?_
    simp only [scalarInjectWalk, scalarInjectWalkWith, hk, hlen, ne_eq, not_true_eq_false, if_false]
    exact hn
  | ctx, _, _, .retarget hk hargs => by
    refine hargs.settles.mono fun n hn => ?_
    simp only [scalarInjectWalk, scalarInjectWalkWith, hk, hn]
    rfl
  | _, _, _, .lambda => settles_const rfl

theorem WalksArgs.settles : ∀ {ctx : ScalarBind F V} {es rs : List (Expr F V)},
    WalksArgs ctx es rs →
      Settles (fun n => scalarInjectWalkArgs (scalarInjectCallee n) ctx es) rs
  | _, _, _, .nil => settles_const rfl
  | _, _, _, .cons h hs => h.settles.bind (hs.settles.bind (settles_const rfl))

end

theorem Walks.unique {ctx : ScalarBind F V} {e r r' : Expr F V} (h : Walks ctx e r)
    (h' : Walks ctx e r') : r = r' :=
  h.settles.unique h'.settles

section Run

variable {inl : ScalarBind F V → Expr F V → Except LambdaError (Expr F V)}

mutual

/-- What the walk returns follows the rules. -/
theorem walks_of_walkWith (hinl : ∀ ctx e r, inl ctx e = .ok r → Walks ctx e r)
    {ctx : ScalarBind F V} : ∀ {e r : Expr F V}, scalarInjectWalkWith inl ctx e = .ok r →
      Walks ctx e r
  | .const _ _, _, h => by
    cases h
    exact .const
  | .param _ _, _, h => by
    cases h
    exact .param
  | .func _ _, _, h => by
    obtain ⟨as, has, h⟩ := bind_eq_ok.mp h
    cases h
    exact .func (walksArgs_of_walkArgs hinl has)
  | .caseWhen _ _ _ _, _, h => by
    obtain ⟨c, hc, h⟩ := bind_eq_ok.mp h
    obtain ⟨r, hr, h⟩ := bind_eq_ok.mp h
    obtain ⟨d, hd, h⟩ := bind_eq_ok.mp h
    cases h
    exact .caseWhen (walks_of_walkWith hinl hc) (walks_of_walkWith hinl hr)
      (walks_of_walkWith hinl hd)
  | .coalesce _ _ _, _, h => by
    obtain ⟨a, ha, h⟩ := bind_eq_ok.mp h
    obtain ⟨b, hb, h⟩ := bind_eq_ok.mp h
    cases h
    exact .coalesce (walks_of_walkWith hinl ha) (walks_of_walkWith hinl hb)
  | .lfa _ _ _ _, _, h => by
    simp only [scalarInjectWalkWith] at h
    split at h
    · cases h
    · next hk =>
      split at h
      · cases h
      · next hlen =>
        obtain ⟨as, has, h⟩ := bind_eq_ok.mp h
        exact .inline hk (not_ne_iff.mp hlen) (walksArgs_of_walkArgs hinl has) (hinl _ _ _ h)
    · next hk =>
      obtain ⟨as, has, h⟩ := bind_eq_ok.mp h
      cases h
      exact .retarget hk (walksArgs_of_walkArgs hinl has)
    · cases h
  | .lambda _ _, _, h => by
    cases h
    exact .lambda

theorem walksArgs_of_walkArgs (hinl : ∀ ctx e r, inl ctx e = .ok r → Walks ctx e r)
    {ctx : ScalarBind F V} : ∀ {es rs : List (Expr F V)},
      scalarInjectWalkArgs inl ctx es = .ok rs → WalksArgs ctx es rs
  | [], _, h => by
    cases h
    exact .nil
  | _ :: _, _, h => by
    obtain ⟨r, hr, h⟩ := bind_eq_ok.mp h
    obtain ⟨rs, hrs, h⟩ := bind_eq_ok.mp h
    cases h
    exact .cons (walks_of_walkWith hinl hr) (walksArgs_of_walkArgs hinl hrs)

end

theorem walks_of_callee : ∀ {n : Nat} (ctx : ScalarBind F V) (e r : Expr F V),
    scalarInjectCallee n ctx e = .ok r → Walks ctx e r
  | 0, _, _, _, h => by cases h
  | _ + 1, _, _, _, h => walks_of_walkWith walks_of_callee h

/-- A walk that ended has gone by the rules. -/
theorem walks_of_walk {n : Nat} {ctx : ScalarBind F V} {e r : Expr F V}
    (h : scalarInjectWalk n ctx e = .ok r) : Walks ctx e r :=
  walks_of_walkWith walks_of_callee h

end Run

/-! ## Standing for an entry -/

section Substitution

variable (A : ScalarAlgebra F V D) (ρ : List (Entry F V D))

/-- As part of a tree over the inputs `ρ`, the expression `r` stands for `E`. -/
def StandsFor (r : Expr F V) : Entry F V D → Prop
  | .val d => Means A ρ r (.val d)
  | .lam h e => r = .lambda h e ∨ ∃ i t, r = .param i t ∧ ρ[i]? = some (.lam h e)
  | .nul => ∃ i t, r = .param i t ∧ ρ[i]? = some .nul

/-- Input `k` of the scope is bound to something that stands for `E`, or is an
atomic input of the result itself. -/
def Bound (ctx : ScalarBind F V) (k : Nat) (E : Entry F V D) : Prop :=
  (∃ b, ctx.binding[k]? = some (some b) ∧ StandsFor A ρ b E) ∨
    (∃ d, E = .val d ∧ ctx.binding[k]? = some none ∧ ρ[k]? = some (.val d))

variable {A ρ}

theorem StandsFor.means : ∀ {r : Expr F V} {E : Entry F V D}, StandsFor A ρ r E → Means A ρ r E
  | r, .val d, h => h
  | r, .lam hd e, h => by
    rcases h with rfl | ⟨i, t, rfl, hi⟩
    · exact Means.lambda
    · exact Means.param hi
  | r, .nul, ⟨i, t, hr, hi⟩ => by
    subst hr
    exact Means.param hi

theorem meansArgs_of_standsFor {rs : List (Expr F V)} {Es : List (Entry F V D)}
    (h : List.Forall₂ (StandsFor A ρ) rs Es) : MeansArgs A ρ rs Es := by
  induction h with
  | nil => exact MeansArgs.nil
  | cons hr _ ih => exact MeansArgs.cons hr.means ih

/-- What a reference becomes stands for what the input stood for. -/
theorem Bound.resolve {ctx : ScalarBind F V} {k : Nat} {t : Oid} {E : Entry F V D}
    (h : Bound A ρ ctx k E) : StandsFor A ρ (ctx.resolve k (.param k t)) E := by
  rcases h with ⟨b, hb, hs⟩ | ⟨d, rfl, hb, hk⟩
  · simpa only [ScalarBind.resolve, hb] using hs
  · simp only [ScalarBind.resolve, hb]
    exact Means.param hk

/-- The scope of an inlined callee: every input is bound. -/
theorem bound_of_standsFor {ctx : ScalarBind F V} {rs : List (Expr F V)} {Es : List (Entry F V D)}
    (h : List.Forall₂ (StandsFor A ρ) rs Es) {k : Nat} {E : Entry F V D} (hk : Es[k]? = some E) :
    Bound A ρ { ctx with binding := rs.map some } k E := by
  induction h generalizing k with
  | nil => simp at hk
  | cons hr _ ih =>
    cases k with
    | zero =>
      simp only [List.getElem?_cons_zero, Option.some.injEq] at hk
      subst hk
      exact .inl ⟨_, by simp, hr⟩
    | succ k =>
      simpa [Bound] using ih hk

mutual

/-- **Substitution.** If every input a body mentions is bound to something that
stands for its entry, the walk of the body ends without an error in something
that stands for the body's meaning. -/
theorem Means.walks : ∀ {env : List (Entry F V D)} {e : Expr F V} {E : Entry F V D},
    Means A env e E → ∀ {ctx : ScalarBind F V},
      (∀ k E', env[k]? = some E' → e.mentions k → Bound A ρ ctx k E') →
        ∃ r, Walks ctx e r ∧ StandsFor A ρ r E
  | _, _, _, .const, _, _ => ⟨_, Walks.const, .const⟩
  | _, _, _, .param (k := k) (E := E) hk, _, hb =>
    ⟨_, Walks.param, (hb k E hk (by simp [Expr.mentions])).resolve⟩
  | _, _, _, .func h, _, hb => by
    obtain ⟨rs, hw, hrs⟩ := h.walksArgs hb
    exact ⟨_, Walks.func hw, .func (meansArgs_of_standsFor hrs)⟩
  | _, _, _, .caseWhen hc hr hd, _, hb => by
    obtain ⟨c', wc, sc⟩ := hc.walks fun k E' hk hm => hb k E' hk (by simp [Expr.mentions, hm])
    obtain ⟨r', wr, sr⟩ := hr.walks fun k E' hk hm => hb k E' hk (by simp [Expr.mentions, hm])
    obtain ⟨d', wd, sd⟩ := hd.walks fun k E' hk hm => hb k E' hk (by simp [Expr.mentions, hm])
    exact ⟨_, Walks.caseWhen wc wr wd, .caseWhen sc sr sd⟩
  | _, _, _, .coalesce ha hb', _, hb => by
    obtain ⟨a', wa, sa⟩ := ha.walks fun k E' hk hm => hb k E' hk (by simp [Expr.mentions, hm])
    obtain ⟨b', wb, sb⟩ := hb'.walks fun k E' hk hm => hb k E' hk (by simp [Expr.mentions, hm])
    exact ⟨_, Walks.coalesce wa wb, .coalesce sa sb⟩
  | _, _, _, .lfa hk hlen hargs hbody, ctx, hb => by
    obtain ⟨rs, hw, hrs⟩ :=
      hargs.walksArgs fun k E' hk hm => hb k E' hk (by simp [Expr.mentions, hm])
    rcases hb _ _ hk (by simp [Expr.mentions]) with
      ⟨b, hbind, rfl | ⟨i, t', rfl, hi⟩⟩ | ⟨_, hval, _⟩
    · -- bound to a lambda: its body is walked with the walked arguments bound
      obtain ⟨r, hr, hs⟩ : ∃ r, Walks { ctx with binding := rs.map some } _ r ∧ _ :=
        hbody.walks fun k E' hk _ => bound_of_standsFor hrs hk
      exact ⟨r, Walks.inline hbind hlen hw hr, hs⟩
    · -- bound to an input of the result: the call stays
      refine ⟨_, Walks.retarget hbind hw, .lfa hi ?_ (meansArgs_of_standsFor hrs) hbody⟩
      rw [hrs.length_eq, ← hargs.length_eq, hlen]
    · cases hval
  | _, _, _, .lfaNul hk hargs, _, hb => by
    obtain ⟨rs, hw, hrs⟩ :=
      hargs.walksArgs fun k E' hk hm => hb k E' hk (by simp [Expr.mentions, hm])
    rcases hb _ _ hk (by simp [Expr.mentions]) with ⟨b, hbind, i, t', rfl, hi⟩ | ⟨_, hval, _⟩
    · exact ⟨_, Walks.retarget hbind hw, .lfaNul hi (meansArgs_of_standsFor hrs)⟩
    · cases hval
  | _, _, _, .lambda, _, _ => ⟨_, Walks.lambda, .inl rfl⟩

theorem MeansArgs.walksArgs : ∀ {env : List (Entry F V D)} {es : List (Expr F V)}
    {Es : List (Entry F V D)}, MeansArgs A env es Es → ∀ {ctx : ScalarBind F V},
      (∀ k E', env[k]? = some E' → Expr.mentionsArgs k es → Bound A ρ ctx k E') →
        ∃ rs, WalksArgs ctx es rs ∧ List.Forall₂ (StandsFor A ρ) rs Es
  | _, _, _, .nil, _, _ => ⟨[], WalksArgs.nil, .nil⟩
  | _, _, _, .cons h hs, _, hb => by
    obtain ⟨r, hw, hr⟩ := h.walks fun k E' hk hm => hb k E' hk (by simp [Expr.mentionsArgs, hm])
    obtain ⟨rs, hws, hrs⟩ :=
      hs.walksArgs fun k E' hk hm => hb k E' hk (by simp [Expr.mentionsArgs, hm])
    exact ⟨r :: rs, WalksArgs.cons hw hws, .cons hr hrs⟩

end

end Substitution

end HolLambdas.Scalar
