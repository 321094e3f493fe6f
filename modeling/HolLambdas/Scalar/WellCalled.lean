import HolLambdas.Scalar.Residual

/-!
# What the inliner needs of a body

The inliner looks at a body's references and calls and at nothing else. What it
needs is much less than a well-typed body (`HasType`): every reference is one of
the signature's, and every call of a function input passes as many arguments as
the nested signature has, and for a function-valued one an input — or an embedded
lambda — of exactly that signature. `WellCalled` says so; operators and their
operands do not come into it.

On well-called bodies the inliner ends. The induction is not on the body, which
is replaced by the callee's at every step, but on the signature the callee is
bound at: `Reducible σ b` says of a binding that inlining a call of it ends
whenever the arguments are reducible at the *nested* types, which are smaller.
A lambda passed at a signature that is not the declared one breaks just this.
-/

namespace HolLambdas.Scalar

variable {F V : Type}
variable {cat : ProcCatalog F}

mutual

/-- Over inputs of types `Γ`, references and calls are the signature's. -/
def WellCalled : (Γ : List LambdaSigType) → Expr F V → Prop
  | _, .const _ _ => True
  | Γ, .param k t => ∃ σ, Γ[k]? = some σ ∧ σ.oid = t
  | Γ, .func _ args => WellCalledArgs Γ args
  | Γ, .caseWhen _ c r d => WellCalled Γ c ∧ WellCalled Γ r ∧ WellCalled Γ d
  | Γ, .coalesce _ a b => WellCalled Γ a ∧ WellCalled Γ b
  | Γ, .lfa _ _ k args =>
    WellCalledArgs Γ args ∧ ∃ σs τ, Γ[k]? = some (.func σs τ) ∧ Passed Γ args σs
  | _, .lambda _ _ => True

def WellCalledArgs : (Γ : List LambdaSigType) → List (Expr F V) → Prop
  | _, [] => True
  | Γ, e :: es => WellCalled Γ e ∧ WellCalledArgs Γ es

/-- The arguments of a call, for the argument types of the callee's signature. -/
def Passed : (Γ : List LambdaSigType) → List (Expr F V) → List LambdaSigType → Prop
  | _, [], σs => σs = []
  | Γ, e :: es, σs => ∃ σ σs', σs = σ :: σs' ∧ Passes Γ e σ ∧ Passed Γ es σs'

/-- What is passed for a function-valued parameter of type `σ` has the signature
`σ`. An embedded lambda carries no signature; it has to take the right number of
arguments and be well called itself. -/
def Passes : (Γ : List LambdaSigType) → Expr F V → LambdaSigType → Prop
  | _, _, .scalar _ => True
  | Γ, .param k _, .func σs τ => Γ[k]? = some (.func σs τ)
  | _, .lambda h e, .func σs _ => h.nargs = σs.length ∧ WellCalled σs e
  | _, _, .func _ _ => False

end

/-- A lambda that is well called for a signature. -/
structure LambdaExpr.WellCalled (le : LambdaExpr F V) (S : LambdaSignature) : Prop where
  nargs_eq : le.nargs = S.argtypes.length
  body : Scalar.WellCalled S.argtypes le.expr

theorem Passed.length_eq {Γ : List LambdaSigType} : ∀ {es : List (Expr F V)}
    {σs : List LambdaSigType}, Passed Γ es σs → es.length = σs.length
  | [], σs, h => by
    rw [h]
    rfl
  | e :: es, σs, h => by
    obtain ⟨σ, σs', rfl, _, hes⟩ := h
    simp [hes.length_eq]

/-! ## Well-typed bodies are well called -/

mutual

theorem HasType.wellCalled {Γ : List LambdaSigType} :
    ∀ {e : Expr F V} {τ : LambdaSigType}, HasType cat Γ e τ → WellCalled Γ e
  | .const _ _, _, _ => by simp only [WellCalled]
  | .param k t, τ, h => ⟨τ, h.1, h.2.1.symm⟩
  | .func f args, τ, h => h.2.wellCalledArgs
  | .caseWhen t c r d, τ, h => by
    obtain ⟨_, ⟨b, hc⟩, hr, hd⟩ := h
    exact ⟨hc.wellCalled, hr.wellCalled, hd.wellCalled⟩
  | .coalesce t a b, τ, h => ⟨h.2.1.wellCalled, h.2.2.wellCalled⟩
  | .lfa name t k args, τ, h => by
    obtain ⟨_, σs, hk, hargs⟩ := h
    exact ⟨hargs.wellCalledArgs, σs, τ, hk, hargs.passed⟩
  | .lambda _ _, _, _ => by simp only [WellCalled]

theorem HasTypes.wellCalledArgs {Γ : List LambdaSigType} :
    ∀ {es : List (Expr F V)} {σs : List LambdaSigType}, HasTypes cat Γ es σs →
      WellCalledArgs Γ es
  | [], _, _ => by simp only [WellCalledArgs]
  | e :: es, σs, h => by
    obtain ⟨σ, σs', rfl, he, hes⟩ := h
    exact ⟨he.wellCalled, hes.wellCalledArgs⟩

theorem HasTypes.passed {Γ : List LambdaSigType} :
    ∀ {es : List (Expr F V)} {σs : List LambdaSigType}, HasTypes cat Γ es σs → Passed Γ es σs
  | [], σs, h => h
  | e :: es, σs, h => by
    obtain ⟨σ, σs', rfl, he, hes⟩ := h
    exact ⟨σ, σs', rfl, he.passes, hes.passed⟩

theorem HasType.passes {Γ : List LambdaSigType} :
    ∀ {e : Expr F V} {σ : LambdaSigType}, HasType cat Γ e σ → Passes Γ e σ
  | _, .scalar _, _ => by simp only [Passes]
  | .param k t, .func σs τ, h => h.1
  | .lambda hd e, .func σs τ, h => by
    obtain ⟨σs', ρ, heq, hlen, he⟩ := h
    cases heq
    exact ⟨hlen, he.wellCalled⟩
  | .const _ _, .func σs τ, h => by simp [HasType] at h
  | .func _ _, .func σs τ, h => by simp [HasType] at h
  | .caseWhen _ _ _ _, .func σs τ, h => by simp [HasType] at h
  | .coalesce _ _ _, .func σs τ, h => by simp [HasType] at h
  | .lfa _ _ _ _, .func σs τ, h => by simp [HasType] at h

end

theorem LambdaExpr.Conforms.wellCalled {le : LambdaExpr F V} {S : LambdaSignature}
    (h : le.Conforms cat S) : le.WellCalled S where
  nargs_eq := h.nargs_eq
  body := h.body.wellCalled

/-! ## Reducible bindings -/

mutual

/-- Inlining a call of the binding `b` of type `σ` ends: `b` is an input of the
result, or a lambda whose body can be walked with all reducible arguments. -/
def Reducible : LambdaSigType → Expr F V → Prop
  | .scalar _, _ => True
  | .func σs _, b =>
    (∃ id t, b = .param id t) ∨
    ∃ h body, b = .lambda h body ∧ h.nargs = σs.length ∧
      ∀ slotnames bs, Reducibles σs bs →
        ∃ r, Walks { binding := bs.map some, slotnames } body r

def Reducibles : List LambdaSigType → List (Expr F V) → Prop
  | [], bs => bs = []
  | σ :: σs, bs => ∃ b bs', bs = b :: bs' ∧ Reducible σ b ∧ Reducibles σs bs'

end

theorem Reducibles.lookup : ∀ {σs : List LambdaSigType} {bs : List (Expr F V)} {k : Nat}
    {σ : LambdaSigType}, Reducibles σs bs → σs[k]? = some σ → ∃ b, bs[k]? = some b ∧ Reducible σ b
  | [], _, _, _, _, hk => by simp at hk
  | σ' :: σs, bs, k, σ, h, hk => by
    obtain ⟨b, bs', rfl, hb, hbs⟩ := h
    cases k with
    | zero =>
      cases hk
      exact ⟨b, rfl, hb⟩
    | succ k =>
      obtain ⟨b', hb', hred⟩ := hbs.lookup hk
      exact ⟨b', hb', hred⟩

/-- The function inputs the body refers to have reducible bindings. -/
def Covers (ctx : ScalarBind F V) (Γ : List LambdaSigType) (e : Expr F V) : Prop :=
  ∀ k σs τ, Γ[k]? = some (.func σs τ) → e.isFunc k = true →
    ∃ b, ctx.binding[k]? = some (some b) ∧ Reducible (.func σs τ) b

def CoversArgs (ctx : ScalarBind F V) (Γ : List LambdaSigType) (es : List (Expr F V)) : Prop :=
  ∀ k σs τ, Γ[k]? = some (.func σs τ) → Expr.isFuncArgs k es = true →
    ∃ b, ctx.binding[k]? = some (some b) ∧ Reducible (.func σs τ) b

/-- In the scope of a callee every input has a binding. -/
theorem Reducibles.covers {σs : List LambdaSigType} {bs : List (Expr F V)}
    (h : Reducibles σs bs) {slotnames : List (List String)} {e : Expr F V} :
    Covers { binding := bs.map some, slotnames } σs e := by
  intro k σs' τ hk _
  obtain ⟨b, hb, hred⟩ := h.lookup hk
  refine ⟨b, ?_, hred⟩
  rw [List.getElem?_map, hb]
  rfl

mutual

/-- **The inliner ends on well-called bodies** whose function inputs have
reducible bindings. -/
theorem WellCalled.walks {ctx : ScalarBind F V} {Γ : List LambdaSigType} :
    ∀ {e : Expr F V}, WellCalled Γ e → Covers ctx Γ e → ∃ r, Walks ctx e r
  | .const t v, _, _ => ⟨_, Walks.const⟩
  | .param k t, _, _ => ⟨_, Walks.param⟩
  | .lambda h e, _, _ => ⟨_, Walks.lambda⟩
  | .func f args, h, hc => by
    obtain ⟨rs, hrs⟩ := h.walksArgs fun k σs τ hk hf => hc k σs τ hk hf
    exact ⟨_, Walks.func hrs⟩
  | .caseWhen t c r d, h, hc => by
    obtain ⟨c', hc'⟩ := h.1.walks fun k σs τ hk hf => hc k σs τ hk (by simp [Expr.isFunc, hf])
    obtain ⟨r', hr'⟩ := h.2.1.walks fun k σs τ hk hf => hc k σs τ hk (by simp [Expr.isFunc, hf])
    obtain ⟨d', hd'⟩ := h.2.2.walks fun k σs τ hk hf => hc k σs τ hk (by simp [Expr.isFunc, hf])
    exact ⟨_, Walks.caseWhen hc' hr' hd'⟩
  | .coalesce t a b, h, hc => by
    obtain ⟨a', ha'⟩ := h.1.walks fun k σs τ hk hf => hc k σs τ hk (by simp [Expr.isFunc, hf])
    obtain ⟨b', hb'⟩ := h.2.walks fun k σs τ hk hf => hc k σs τ hk (by simp [Expr.isFunc, hf])
    exact ⟨_, Walks.coalesce ha' hb'⟩
  | .lfa name t k args, h, hc => by
    obtain ⟨hargs, σs, τ, hk, hpassed⟩ := h
    have hcargs : CoversArgs ctx Γ args := fun k' σs' τ' hk' hf =>
      hc k' σs' τ' hk' (by simp [Expr.isFunc, hf])
    obtain ⟨rs, hrs⟩ := hargs.walksArgs hcargs
    obtain ⟨b, hb, hred⟩ := hc k σs τ hk (by simp [Expr.isFunc])
    obtain ⟨id, t', rfl⟩ | ⟨hd, body, rfl, hlen, hbody⟩ := hred
    · exact ⟨_, Walks.retarget hb hrs⟩
    · -- the arguments are reducible at the nested types, so the callee's body can be walked
      have hreds := hpassed.reducibles hargs hcargs hrs
      obtain ⟨r, hr⟩ := hbody ctx.slotnames rs hreds
      exact ⟨r, Walks.inline hb (hpassed.length_eq.trans hlen.symm) hrs hr⟩

theorem WellCalledArgs.walksArgs {ctx : ScalarBind F V} {Γ : List LambdaSigType} :
    ∀ {es : List (Expr F V)}, WellCalledArgs Γ es → CoversArgs ctx Γ es → ∃ rs, WalksArgs ctx es rs
  | [], _, _ => ⟨[], WalksArgs.nil⟩
  | e :: es, h, hc => by
    obtain ⟨r, hr⟩ := h.1.walks fun k σs τ hk hf => hc k σs τ hk (by simp [Expr.isFuncArgs, hf])
    obtain ⟨rs, hrs⟩ := h.2.walksArgs fun k σs τ hk hf =>
      hc k σs τ hk (by simp [Expr.isFuncArgs, hf])
    exact ⟨_, WalksArgs.cons hr hrs⟩

/-- What is passed for a parameter is walked into something reducible. -/
theorem Passed.reducibles {ctx : ScalarBind F V} {Γ : List LambdaSigType} :
    ∀ {es rs : List (Expr F V)} {σs : List LambdaSigType}, Passed Γ es σs → WellCalledArgs Γ es →
      CoversArgs ctx Γ es → WalksArgs ctx es rs → Reducibles σs rs
  | [], _, _, h, _, _, .nil => by
    subst h
    rfl
  | e :: es, _, _, h, hw, hc, .cons hr hrs => by
    obtain ⟨σ, σs', rfl, he, hes⟩ := h
    have hce : Covers ctx Γ e := fun k σs τ hk hf =>
      hc k σs τ hk (by simp [Expr.isFuncArgs, hf])
    have hces : CoversArgs ctx Γ es := fun k σs τ hk hf =>
      hc k σs τ hk (by simp [Expr.isFuncArgs, hf])
    exact ⟨_, _, rfl, he.reducible hw.1 hce hr, hes.reducibles hw.2 hces hrs⟩

theorem Passes.reducible {ctx : ScalarBind F V} {Γ : List LambdaSigType} :
    ∀ {e r : Expr F V} {σ : LambdaSigType}, Passes Γ e σ → WellCalled Γ e → Covers ctx Γ e →
      Walks ctx e r → Reducible σ r
  | _, _, .scalar _, _, _, _, _ => by simp only [Reducible]
  | .param k t, r, .func σs τ, h, hw, hc, hr => by
    simp only [Passes] at h
    simp only [WellCalled, h, Option.some.injEq] at hw
    obtain ⟨σ, rfl, ht⟩ := hw
    obtain ⟨b, hb, hred⟩ := hc k σs τ h (by simp [Expr.isFunc, ← ht])
    have hrb : r = ctx.resolve k (.param k t) := hr.unique Walks.param
    rw [hrb, ScalarBind.resolve, hb]
    exact hred
  | .lambda hd e, r, .func σs τ, h, _, _, hr => by
    obtain rfl := hr.unique Walks.lambda
    exact .inr ⟨hd, e, rfl, h.1, fun slotnames bs hbs => h.2.walks hbs.covers⟩
  | .const _ _, _, .func _ _, h, _, _, _ => by simp [Passes] at h
  | .func _ _, _, .func _ _, h, _, _, _ => by simp [Passes] at h
  | .caseWhen _ _ _ _, _, .func _ _, h, _, _, _ => by simp [Passes] at h
  | .coalesce _ _ _, _, .func _ _, h, _, _, _ => by simp [Passes] at h
  | .lfa _ _ _ _, _, .func _ _, h, _, _, _ => by simp [Passes] at h

end

/-- A well-called lambda is a reducible binding. -/
theorem LambdaExpr.WellCalled.reducible {le : LambdaExpr F V} {σs : List LambdaSigType}
    {τ : LambdaSigType} (h : le.WellCalled ⟨σs, τ⟩) : Reducible (.func σs τ) le.toExpr := by
  exact .inr ⟨le.toLambdaHeader, le.expr, rfl, h.nargs_eq, fun slotnames bs hbs =>
    h.body.walks hbs.covers⟩

/-! ## The prescan on a well-called body -/

/-- A reference to an input that the signature declares: it is read at its SQL
type, and called only if it is a function. Unlike `Reference.Typed` this lets an
atomic input be of type `lambda`. -/
def Reference.Declared (Γ : List LambdaSigType) : Reference → Prop
  | .read k t => ∃ σ, Γ[k]? = some σ ∧ σ.oid = t
  | .call k => ∃ σs τ, Γ[k]? = some (.func σs τ)

mutual

/-- References are to declared inputs, functions called as functions. -/
theorem WellCalled.references {Γ : List LambdaSigType} {ref : Reference} :
    ∀ {e : Expr F V}, WellCalled Γ e → ref ∈ e.references → ref.Declared Γ
  | .const _ _, _, hmem => by simp [Expr.references] at hmem
  | .param k t, h, hmem => by
    simp only [WellCalled] at h
    simp only [Expr.references, List.mem_singleton] at hmem
    rw [hmem]
    exact h
  | .func _ args, h, hmem => by
    simp only [WellCalled] at h
    exact h.references hmem
  | .caseWhen _ c r d, h, hmem => by
    simp only [Expr.references, List.mem_append] at hmem
    rcases hmem with hmem | hmem | hmem
    · exact h.1.references hmem
    · exact h.2.1.references hmem
    · exact h.2.2.references hmem
  | .coalesce _ a b, h, hmem => by
    simp only [Expr.references, List.mem_append] at hmem
    rcases hmem with hmem | hmem
    · exact h.1.references hmem
    · exact h.2.references hmem
  | .lfa _ _ k args, h, hmem => by
    obtain ⟨hargs, σs, τ, hk, _⟩ := h
    simp only [Expr.references, List.mem_cons] at hmem
    rcases hmem with rfl | hmem
    · exact ⟨σs, τ, hk⟩
    · exact hargs.references hmem
  | .lambda _ _, _, hmem => by simp [Expr.references] at hmem

theorem WellCalledArgs.references {Γ : List LambdaSigType} {ref : Reference} :
    ∀ {es : List (Expr F V)}, WellCalledArgs Γ es → ref ∈ Expr.referencesArgs es →
      ref.Declared Γ
  | [], _, hmem => by simp [Expr.referencesArgs] at hmem
  | e :: es, h, hmem => by
    simp only [Expr.referencesArgs, List.mem_append] at hmem
    rcases hmem with hmem | hmem
    · exact h.1.references hmem
    · exact h.2.references hmem

end

/-- What the prescan takes for a function input has the SQL type `lambda`. -/
theorem WellCalled.isFunc_inv {Γ : List LambdaSigType} {e : Expr F V} {k : Nat}
    (h : WellCalled Γ e) (hk : e.isFunc k = true) : ∃ σ, Γ[k]? = some σ ∧ σ.oid = LAMBDAOID := by
  rcases Expr.isFunc_iff.mp hk with hread | hcall
  · exact h.references hread
  · obtain ⟨σs, τ, hσ⟩ := h.references hcall
    exact ⟨_, hσ, rfl⟩

/-- The type the prescan records is the signature's. -/
theorem WellCalled.proto_inv {Γ : List LambdaSigType} {e : Expr F V} {k : Nat} {t : Oid}
    (h : WellCalled Γ e) (hk : e.proto k = some t) : ∃ σ, Γ[k]? = some σ ∧ σ.oid = t :=
  h.references (Expr.read_mem_of_proto hk)

/-! ## Calls of stored lambdas -/

/-- A value of a call argument of type `σ`: for a function type a stored lambda
that is well called for it; for the type `lambda`, which a signature may name as
an atomic type, any stored lambda; otherwise an atomic value or NULL. -/
def StoredValue : LambdaSigType → Option (Datum F V) → Prop
  | .func σs τ, some (.lambda .serialized le) => le.WellCalled ⟨σs, τ⟩
  | .scalar t, some (.lambda .serialized _) => t = LAMBDAOID
  | .scalar t, some (.atom _) => t ≠ LAMBDAOID
  | .scalar t, none => t ≠ LAMBDAOID
  | _, _ => False

/-- Where `lambda` is the declared type, the value is a stored lambda. -/
theorem StoredValue.lambda_inv : ∀ {σ : LambdaSigType} {v : Option (Datum F V)},
    StoredValue σ v → σ.oid = LAMBDAOID → ∃ le, v = some (.lambda .serialized le)
  | .func _ _, some (.lambda .serialized le), _, _ => ⟨le, rfl⟩
  | .scalar _, some (.lambda .serialized le), _, _ => ⟨le, rfl⟩
  | .scalar _, some (.atom _), h, ht => absurd ht h
  | .scalar _, none, h, ht => absurd ht h

theorem StoredValue.atom_inv : ∀ {σ : LambdaSigType} {v : Option (Datum F V)},
    StoredValue σ v → σ.oid ≠ LAMBDAOID → v = none ∨ ∃ a, v = some (.atom a)
  | .func _ _, _, _, ht => absurd rfl ht
  | .scalar _, some (.lambda .serialized _), h, ht => absurd h ht
  | .scalar _, some (.atom a), _, _ => .inr ⟨a, rfl⟩
  | .scalar _, none, _, _ => .inl rfl

section Calls

variable {Γ : List LambdaSigType} {mother : LambdaExpr F V} {vals : List (Option (Datum F V))}
variable {held : Nat → Bool}

/-- The values at the positions that are not held, one position for each input. -/
structure StoredArgs (held : Nat → Bool) (Γ : List LambdaSigType)
    (vals : List (Option (Datum F V))) : Prop where
  length_eq : vals.length = Γ.length
  value : ∀ p σ v, Γ[p]? = some σ → vals[p]? = some v → held p = false → StoredValue σ v

theorem StoredArgs.lookup (h : StoredArgs held Γ vals) {p : Nat} {σ : LambdaSigType}
    (hσ : Γ[p]? = some σ) : ∃ v, vals[p]? = some v := by
  obtain ⟨hp, _⟩ := List.getElem?_eq_some_iff.mp hσ
  exact ⟨_, List.getElem?_eq_getElem (h.length_eq ▸ hp)⟩

/-- Where the body refers to a function input that is not held, a stored lambda is
given. -/
theorem StoredArgs.given (hargs : StoredArgs held Γ vals) (hm : WellCalled Γ mother.expr) {k : Nat}
    {v : Option (Datum F V)} (hk : mother.expr.isFunc k = true) (hv : vals[k]? = some v)
    (hheld : held k = false) : ∃ le, v = some (.lambda .serialized le) := by
  obtain ⟨σ, hσ, ht⟩ := hm.isFunc_inv hk
  exact (hargs.value k σ v hσ hv hheld).lambda_inv ht

/-- **A call of a well-called lambda is inlined**: given stored lambdas that are
well called for the signatures they are passed at, `lambda_injector_scalar` ends
without an error. -/
theorem WellCalled.injector_settles (hm : WellCalled Γ mother.expr)
    (hargs : StoredArgs (fun _ => false) Γ vals) :
    ∃ r, Settles (fun n => lambdaInjectorScalar n mother vals) { mother with expr := r } := by
  obtain ⟨bs, hbs⟩ : ∃ bs, (vals.zipIdx.mapM fun x => injectorBinding mother.expr x.1 x.2) =
      .ok bs := by
    refine exists_zipIdx_mapM fun i v hv => ?_
    simp only [Nat.zero_add, injectorBinding]
    split
    next hk =>
      obtain ⟨le, rfl⟩ := hargs.given hm hk hv rfl
      exact ⟨_, rfl⟩
    next => exact ⟨none, rfl⟩
  have hcovers : Covers { binding := bs } Γ mother.expr := by
    intro k σs τ hσ hk
    obtain ⟨v, hv⟩ := hargs.lookup hσ
    obtain ⟨le, rfl⟩ := hargs.given hm hk hv rfl
    have hle : le.WellCalled ⟨σs, τ⟩ := hargs.value k _ _ hσ hv rfl
    obtain ⟨b, hb, hbind⟩ := (zipIdx_mapM_eq_ok.mp hbs).2 k _ hv
    simp only [Nat.zero_add, injectorBinding, hk, if_true] at hbind
    cases hbind
    exact ⟨_, hb, hle.reducible⟩
  obtain ⟨r, hr⟩ := hm.walks hcovers
  refine ⟨r, hr.settles.mono fun n hn => ?_⟩
  exact bind_eq_ok.mpr ⟨bs, hbs, bind_eq_ok.mpr ⟨r, hn, rfl⟩⟩

/-- A position that is neither held nor a function input: it gets a constant, or
nothing if the body does not read it. -/
theorem exists_partialBinding_atom (hm : WellCalled Γ mother.expr)
    (hargs : StoredArgs held Γ vals) {p : Nat} {v : Option (Datum F V)} (hv : vals[p]? = some v)
    (hheld : held p = false) (hp : ¬ mother.expr.isFunc p = true) :
    ∃ b, partialBinding mother.expr held v p = .ok b := by
  unfold partialBinding
  rw [if_neg (by simp [hheld]), if_neg hp]
  cases hproto : mother.expr.proto p with
  | none => exact ⟨none, rfl⟩
  | some t =>
    obtain ⟨σ, hσ, ht⟩ := hm.proto_inv hproto
    have hne : σ.oid ≠ LAMBDAOID := by
      intro heq
      rw [← ht, heq] at hproto
      exact hp (Expr.isFunc_of_proto hproto)
    obtain rfl | ⟨a, rfl⟩ := (hargs.value p σ v hσ hv hheld).atom_inv hne
    · exact ⟨_, rfl⟩
    · exact ⟨_, rfl⟩

/-- The same for a partial application: `lambda_partial_apply` ends without an
error. -/
theorem WellCalled.partialApply_settles (hm : WellCalled Γ mother.expr)
    (hargs : StoredArgs held Γ vals) :
    ∃ r, Settles (fun n => lambdaPartialApply n mother held vals)
      (residualLambda mother held r) := by
  obtain ⟨bs, hbs⟩ : ∃ bs, (vals.zipIdx.mapM fun x => partialBinding mother.expr held x.1 x.2) =
      .ok bs := by
    refine exists_zipIdx_mapM fun p v hv => ?_
    simp only [Nat.zero_add]
    cases hheld : held p with
    | true =>
      simp only [partialBinding, hheld, if_true]
      exact ⟨_, rfl⟩
    | false =>
      by_cases hp : mother.expr.isFunc p = true
      · obtain ⟨le, rfl⟩ := hargs.given hm hp hv hheld
        simp only [partialBinding, hheld, hp, if_true]
        exact ⟨_, rfl⟩
      · exact exists_partialBinding_atom hm hargs hv hheld hp
  let ctx : ScalarBind F V :=
    { binding := bs, slotnames := (selectFrom held 0 mother.argnames).map fun name => [name] }
  have hcovers : Covers ctx Γ mother.expr := by
    intro k σs τ hσ hk
    obtain ⟨v, hv⟩ := hargs.lookup hσ
    obtain ⟨b, hb, hbind⟩ := (zipIdx_mapM_eq_ok.mp hbs).2 k _ hv
    simp only [Nat.zero_add] at hbind
    cases hheld : held k with
    | true =>
      -- a held input stays an input, and a call of it a call
      simp only [partialBinding, hheld, if_true] at hbind
      cases hbind
      refine ⟨_, hb, ?_⟩
      exact .inl ⟨_, _, rfl⟩
    | false =>
      obtain ⟨le, rfl⟩ := hargs.given hm hk hv hheld
      have hle : le.WellCalled ⟨σs, τ⟩ := hargs.value k _ _ hσ hv hheld
      simp only [partialBinding, hheld, hk, if_true] at hbind
      cases hbind
      exact ⟨_, hb, hle.reducible⟩
  obtain ⟨r, hr⟩ := hm.walks hcovers
  refine ⟨r, hr.settles.mono fun n hn => ?_⟩
  exact bind_eq_ok.mpr ⟨bs, hbs, bind_eq_ok.mpr ⟨r, hn, rfl⟩⟩

end Calls

end HolLambdas.Scalar
