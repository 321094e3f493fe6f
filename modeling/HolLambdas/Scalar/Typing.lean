import HolLambdas.Scalar.Exec
import HolLambdas.Scalar.References

/-!
# Simply typed lambda bodies

When is a body well typed by a signature? The source never says so in one
place: the parser resolves names and coerces arguments against signatures, and
every later stage assumes the result. `HasType` is that assumption written
down. It is the simply typed discipline of the source's own node types:

* functions and operators take and return atomic values, as `pg_proc` declares;
* `CASE` and `COALESCE` choose between atomic values;
* a function input is called with exactly the arguments its nested signature
  declares, and returns an atomic value (the comment on `LambdaInputParam`:
  functions as inputs are only allowed to return an atomic value);
* what can be passed for a function-valued parameter is a function input of the
  enclosing lambda, or an embedded lambda.

An embedded lambda is typed by its own signature alone: its body sees none of
the inputs around it.

`lambda` is an ordinary base type, so a signature could name it as an atomic
type. A reference of that type would be a function input for the prescan and an
atomic one for the signature; the rule for references excludes it.

The parser takes more than that for a function: to it `lambda` is a type that a
`CASE`, a `COALESCE` or a NULL can have. The inliner follows names and embedded
lambdas only and raises on the others. `Accepts` is the wider judgement, and on
bodies without these forms it is `HasType` (`Accepts.hasType`).
-/

namespace HolLambdas.Scalar

variable {F V : Type}
variable {cat : ProcCatalog F}

mutual

/-- `HasType cat Γ e τ`: over inputs of types `Γ`, the body `e` has type `τ`. -/
def HasType (cat : ProcCatalog F) :
    (Γ : List LambdaSigType) → Expr F V → LambdaSigType → Prop
  | _, .const t _, τ => τ = .scalar t
  | Γ, .param k t, τ => Γ[k]? = some τ ∧ t = τ.oid ∧ (t = LAMBDAOID → τ.isFunction)
  | Γ, .func f args, τ =>
    τ = .scalar (cat.prorettype f) ∧ HasTypes cat Γ args ((cat.proargtypes f).map .scalar)
  | Γ, .caseWhen t c r d, τ =>
    τ = .scalar t ∧ (∃ b, HasType cat Γ c (.scalar b)) ∧ HasType cat Γ r τ ∧ HasType cat Γ d τ
  | Γ, .coalesce t a b, τ => τ = .scalar t ∧ HasType cat Γ a τ ∧ HasType cat Γ b τ
  | Γ, .lfa _ t k args, τ =>
    τ = .scalar t ∧ ∃ σs, Γ[k]? = some (.func σs τ) ∧ HasTypes cat Γ args σs
  | _, .lambda h e, τ => ∃ σs ρ, τ = .func σs ρ ∧ h.nargs = σs.length ∧ HasType cat σs e ρ

def HasTypes (cat : ProcCatalog F) :
    (Γ : List LambdaSigType) → List (Expr F V) → List LambdaSigType → Prop
  | _, [], σs => σs = []
  | Γ, e :: es, σs => ∃ σ σs', σs = σ :: σs' ∧ HasType cat Γ e σ ∧ HasTypes cat Γ es σs'

end

/-- A lambda conforms to a signature: the number of inputs and the type of the
body are the signature's. -/
structure LambdaExpr.Conforms (le : LambdaExpr F V) (cat : ProcCatalog F)
    (S : LambdaSignature) : Prop where
  nargs_eq : le.nargs = S.argtypes.length
  body : HasType cat S.argtypes le.expr S.rettype

mutual

/-- `Accepts cat Γ e τ`: the rules of `HasType`, with a NULL, a `CASE` and a
`COALESCE` also where a function is due. -/
def Accepts (cat : ProcCatalog F) :
    (Γ : List LambdaSigType) → Expr F V → LambdaSigType → Prop
  | _, .const t v, τ => t = τ.oid ∧ (τ.isFunction → v = none)
  | Γ, .param k t, τ => Γ[k]? = some τ ∧ t = τ.oid ∧ (t = LAMBDAOID → τ.isFunction)
  | Γ, .func f args, τ =>
    τ = .scalar (cat.prorettype f) ∧ AcceptsArgs cat Γ args ((cat.proargtypes f).map .scalar)
  | Γ, .caseWhen t c r d, τ =>
    t = τ.oid ∧ (∃ b, Accepts cat Γ c (.scalar b)) ∧ Accepts cat Γ r τ ∧ Accepts cat Γ d τ
  | Γ, .coalesce t a b, τ => t = τ.oid ∧ Accepts cat Γ a τ ∧ Accepts cat Γ b τ
  | Γ, .lfa _ t k args, τ =>
    τ = .scalar t ∧ ∃ σs, Γ[k]? = some (.func σs τ) ∧ AcceptsArgs cat Γ args σs
  | _, .lambda h e, τ => ∃ σs ρ, τ = .func σs ρ ∧ h.nargs = σs.length ∧ Accepts cat σs e ρ

def AcceptsArgs (cat : ProcCatalog F) :
    (Γ : List LambdaSigType) → List (Expr F V) → List LambdaSigType → Prop
  | _, [], σs => σs = []
  | Γ, e :: es, σs => ∃ σ σs', σs = σ :: σs' ∧ Accepts cat Γ e σ ∧ AcceptsArgs cat Γ es σs'

end

mutual

/-- No constant, `CASE` or `COALESCE` of type `lambda`: functions go by name. -/
def Expr.namesOnly : Expr F V → Bool
  | .const t _ => t != LAMBDAOID
  | .param _ _ => true
  | .func _ args => namesOnlyArgs args
  | .caseWhen t c r d => t != LAMBDAOID && namesOnly c && namesOnly r && namesOnly d
  | .coalesce t a b => t != LAMBDAOID && namesOnly a && namesOnly b
  | .lfa _ _ _ args => namesOnlyArgs args
  | .lambda _ e => namesOnly e

def Expr.namesOnlyArgs : List (Expr F V) → Bool
  | [] => true
  | e :: es => namesOnly e && namesOnlyArgs es

end

theorem eq_scalar_of_oid {t : Oid} {τ : LambdaSigType} (h : t = τ.oid)
    (ht : (t != LAMBDAOID) = true) : τ = .scalar t := by
  cases τ with
  | scalar s => rw [h, LambdaSigType.oid_scalar]
  | func σs ρ => simp [h] at ht

mutual

/-- Where functions go by name, what the parser takes is simply typed. -/
theorem Accepts.hasType {Γ : List LambdaSigType} :
    ∀ {e : Expr F V} {τ : LambdaSigType}, Accepts cat Γ e τ → e.namesOnly = true →
      HasType cat Γ e τ
  | .const t v, τ, h, hn => eq_scalar_of_oid h.1 hn
  | .param k t, τ, h, _ => h
  | .func f args, τ, h, hn => ⟨h.1, h.2.hasTypes hn⟩
  | .caseWhen t c r d, τ, ⟨ht, ⟨b, hc⟩, hr, hd⟩, hn => by
    simp only [Expr.namesOnly, Bool.and_eq_true] at hn
    obtain ⟨⟨⟨hne, hnc⟩, hnr⟩, hnd⟩ := hn
    exact ⟨eq_scalar_of_oid ht hne, ⟨b, hc.hasType hnc⟩, hr.hasType hnr, hd.hasType hnd⟩
  | .coalesce t a b, τ, ⟨ht, ha, hb⟩, hn => by
    simp only [Expr.namesOnly, Bool.and_eq_true] at hn
    exact ⟨eq_scalar_of_oid ht hn.1.1, ha.hasType hn.1.2, hb.hasType hn.2⟩
  | .lfa _ t k args, τ, ⟨ht, σs, hk, hargs⟩, hn => ⟨ht, σs, hk, hargs.hasTypes hn⟩
  | .lambda hd e, τ, ⟨σs, ρ, hτ, hlen, he⟩, hn => ⟨σs, ρ, hτ, hlen, he.hasType hn⟩

theorem AcceptsArgs.hasTypes {Γ : List LambdaSigType} :
    ∀ {es : List (Expr F V)} {σs : List LambdaSigType}, AcceptsArgs cat Γ es σs →
      Expr.namesOnlyArgs es = true → HasTypes cat Γ es σs
  | [], σs, h, _ => h
  | e :: es, σs, ⟨σ, σs', hσ, he, hes⟩, hn => by
    simp only [Expr.namesOnlyArgs, Bool.and_eq_true] at hn
    exact ⟨σ, σs', hσ, he.hasType hn.1, hes.hasTypes hn.2⟩

end

/-- A lambda the parser takes for the signature. -/
structure LambdaExpr.Accepted (le : LambdaExpr F V) (cat : ProcCatalog F)
    (S : LambdaSignature) : Prop where
  nargs_eq : le.nargs = S.argtypes.length
  body : Accepts cat S.argtypes le.expr S.rettype

theorem LambdaExpr.Accepted.conforms {le : LambdaExpr F V} {S : LambdaSignature}
    (h : le.Accepted cat S) (hn : le.expr.namesOnly = true) :
    le.Conforms cat S :=
  ⟨h.nargs_eq, h.body.hasType hn⟩

/-- A value fits a signature type: an atomic value or NULL for an atomic type,
a serialized conforming lambda or NULL for a function type. -/
def Datum.Fits (cat : ProcCatalog F) : LambdaSigType → Option (Datum F V) → Prop
  | _, none => True
  | .scalar _, some (.atom _) => True
  | .func σs ρ, some (.lambda .serialized le) => le.Conforms cat ⟨σs, ρ⟩
  | _, _ => False

theorem Datum.Fits.scalar_inv {t : Oid} {v : Option (Datum F V)}
    (h : Datum.Fits cat (.scalar t) v) : ∃ a : Option V, v = a.map .atom := by
  rcases v with _ | (a | ⟨_, le⟩)
  · exact ⟨none, rfl⟩
  · exact ⟨some a, rfl⟩
  · simp [Datum.Fits] at h

/-- What fits a function input is NULL or a serialized lambda; in particular the
node form, which only exists during planning, never does. -/
theorem Datum.Fits.func_inv {σs : List LambdaSigType} {ρ : LambdaSigType} {v : Option (Datum F V)}
    (h : Datum.Fits cat (.func σs ρ) v) :
    v = none ∨ ∃ le, v = some (.lambda .serialized le) ∧ le.Conforms cat ⟨σs, ρ⟩ := by
  rcases v with _ | (a | ⟨repr, le⟩)
  · exact .inl rfl
  · simp [Datum.Fits] at h
  · cases repr with
    | node => simp [Datum.Fits] at h
    | serialized => exact .inr ⟨le, rfl, h⟩

theorem HasTypes.length_eq {Γ : List LambdaSigType} :
    ∀ {es : List (Expr F V)} {σs : List LambdaSigType}, HasTypes cat Γ es σs →
      es.length = σs.length
  | [], σs, h => by
    rw [h]
    rfl
  | e :: es, σs, h => by
    obtain ⟨σ, σs', rfl, _, hes⟩ := h
    simp [hes.length_eq]

/-- The argument for a position of the callee's signature. -/
theorem HasTypes.lookup {Γ : List LambdaSigType} :
    ∀ {es : List (Expr F V)} {σs : List LambdaSigType} {k : Nat} {σ : LambdaSigType},
      HasTypes cat Γ es σs → σs[k]? = some σ → ∃ e, es[k]? = some e ∧ HasType cat Γ e σ
  | [], σs, k, σ, h, hk => by
    simp only [HasTypes] at h
    simp [h] at hk
  | e :: es, σs, k, σ, h, hk => by
    obtain ⟨σ', σs', rfl, he, hes⟩ := h
    cases k with
    | zero =>
      cases hk
      exact ⟨e, rfl, he⟩
    | succ k => simpa using hes.lookup (by simpa using hk)

/-! ## Which inputs a typed body refers to -/

/-- A reference to an input is as the signature declares the input: it is read at
its SQL type, which is `lambda` for a function only, and called only if it is a
function. -/
def Reference.Typed (Γ : List LambdaSigType) : Reference → Prop
  | .read k t => ∃ σ, Γ[k]? = some σ ∧ t = σ.oid ∧ (t = LAMBDAOID → σ.isFunction)
  | .call k => ∃ σs ρ, Γ[k]? = some (.func σs ρ)

mutual

theorem HasType.references {Γ : List LambdaSigType} {ref : Reference} :
    ∀ {e : Expr F V} {τ : LambdaSigType}, HasType cat Γ e τ → ref ∈ e.references → ref.Typed Γ
  | .const t v, τ, _, hmem => by simp [Expr.references] at hmem
  | .param k t, τ, h, hmem => by
    simp only [Expr.references, List.mem_singleton] at hmem
    rw [hmem]
    exact ⟨τ, h⟩
  | .func f args, τ, h, hmem => h.2.references hmem
  | .caseWhen t c r d, τ, h, hmem => by
    obtain ⟨_, ⟨b, hc⟩, hr, hd⟩ := h
    simp only [Expr.references, List.mem_append] at hmem
    rcases hmem with hmem | hmem | hmem
    · exact hc.references hmem
    · exact hr.references hmem
    · exact hd.references hmem
  | .coalesce t a b, τ, h, hmem => by
    simp only [Expr.references, List.mem_append] at hmem
    rcases hmem with hmem | hmem
    · exact h.2.1.references hmem
    · exact h.2.2.references hmem
  | .lfa name t k args, τ, h, hmem => by
    obtain ⟨_, σs, hk, hargs⟩ := h
    simp only [Expr.references, List.mem_cons] at hmem
    rcases hmem with rfl | hmem
    · exact ⟨σs, τ, hk⟩
    · exact hargs.references hmem
  | .lambda hd e, τ, _, hmem => by simp [Expr.references] at hmem

theorem HasTypes.references {Γ : List LambdaSigType} {ref : Reference} :
    ∀ {es : List (Expr F V)} {σs : List LambdaSigType}, HasTypes cat Γ es σs →
      ref ∈ Expr.referencesArgs es → ref.Typed Γ
  | [], _, _, hmem => by simp [Expr.referencesArgs] at hmem
  | e :: es, σs, h, hmem => by
    obtain ⟨σ, σs', _, he, hes⟩ := h
    simp only [Expr.referencesArgs, List.mem_append] at hmem
    rcases hmem with hmem | hmem
    · exact he.references hmem
    · exact hes.references hmem

end

section Inputs

variable {cat : ProcCatalog F} {Γ : List LambdaSigType} {e : Expr F V} {τ : LambdaSigType}
variable {k : Nat}

/-- The prescan finds function inputs only where the signature has them. -/
theorem HasType.isFunc_inv (h : HasType cat Γ e τ) (hk : e.isFunc k = true) :
    ∃ σs ρ, Γ[k]? = some (.func σs ρ) := by
  rcases Expr.isFunc_iff.mp hk with hread | hcall
  · obtain ⟨σ, hσ, _, hfun⟩ := h.references hread
    cases σ with
    | scalar s => simpa using hfun rfl
    | func σs ρ => exact ⟨σs, ρ, hσ⟩
  · exact h.references hcall

/-- …and it finds all of them that the body mentions. -/
theorem HasType.isFunc_of_mentions {σs : List LambdaSigType} {ρ : LambdaSigType}
    (hΓ : Γ[k]? = some (.func σs ρ)) (h : HasType cat Γ e τ) (hk : e.mentions k = true) :
    e.isFunc k = true := by
  rcases Expr.mentions_iff.mp hk with ⟨t, hread⟩ | hcall
  · obtain ⟨σ, hσ, ht, _⟩ := h.references hread
    rw [hΓ] at hσ
    cases hσ
    rw [ht] at hread
    exact Expr.isFunc_iff.mpr (.inl hread)
  · exact Expr.isFunc_iff.mpr (.inr hcall)

/-- An atomic input that the body mentions is not of type `lambda`. -/
theorem HasType.ne_lambda_of_mentions {s : Oid} (hΓ : Γ[k]? = some (.scalar s))
    (h : HasType cat Γ e τ) (hk : e.mentions k = true) : s ≠ LAMBDAOID := by
  rcases Expr.mentions_iff.mp hk with ⟨t, hread⟩ | hcall
  · obtain ⟨σ, hσ, ht, hfun⟩ := h.references hread
    rw [hΓ] at hσ
    cases hσ
    intro hs
    simpa using hfun (ht.trans hs)
  · obtain ⟨σs, ρ, hσ⟩ := h.references hcall
    rw [hΓ] at hσ
    cases hσ

/-- The recorded type is the one the signature gives the input. -/
theorem HasType.proto_inv {t : Oid} (h : HasType cat Γ e τ) (hk : e.proto k = some t) :
    ∃ σ, Γ[k]? = some σ ∧ t = σ.oid := by
  obtain ⟨σ, hσ, ht, _⟩ := h.references (Expr.read_mem_of_proto hk)
  exact ⟨σ, hσ, ht⟩

/-- The type the residual gives the reference to an input: `lambda` where the
prescan has recorded none, for then the input is only ever called. -/
theorem HasType.proto_getD {σ : LambdaSigType} (hΓ : Γ[k]? = some σ) (h : HasType cat Γ e τ)
    (hk : e.mentions k = true) : (e.proto k).getD LAMBDAOID = σ.oid := by
  cases hp : e.proto k with
  | some s =>
    obtain ⟨σ', hσ', rfl⟩ := h.proto_inv hp
    rw [hΓ] at hσ'
    cases hσ'
    rfl
  | none =>
    cases hf : e.isFunc k with
    | false =>
      have hsome := Expr.isSome_proto_of_mentions hk hf
      rw [hp] at hsome
      cases hsome
    | true =>
      obtain ⟨σs, ρ, hfun⟩ := h.isFunc_inv hf
      rw [hΓ] at hfun
      cases hfun
      rfl

end Inputs

end HolLambdas.Scalar
