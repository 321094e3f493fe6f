import HolLambdas.Scalar.Selection

/-!
# The residual of a partial application

`lambda_partial_apply` is the same walk as full application under other
bindings: a held position becomes an input of the residual, under its new
number, a filled one becomes the supplied lambda or a constant. So the
substitution theorem applies again. The environment of the residual has one
entry per held position; the mother's environment agrees with it on the held
positions and has the meanings of the filled constants elsewhere
(`stagedAtom`).

Main result: `execPartialApply_pure`, which gives the residual a signature, the
one the parser gives it, and says what its folded body means.
-/

namespace HolLambdas.Scalar

variable {F V D : Type}

/-- The signature of the residual, as the parser computes it for the value of
the call. -/
def residualSignature (held : Nat → Bool) (S : LambdaSignature) : LambdaSignature :=
  ⟨selectFrom held 0 S.argtypes, S.rettype⟩

/-- The residual around its body. -/
def residualLambda (mother : LambdaExpr F V) (held : Nat → Bool) (expr : Expr F V) :
    LambdaExpr F V where
  lambdakind := .scalar
  argnames := selectFrom held 0 mother.argnames
  rettype := mother.rettype
  rettypmod := mother.rettypmod
  lambdatypmod := -1
  isStrict := mother.isStrict
  expr := expr

/-- No filled function input that the body refers to is NULL. -/
def FilledInputsGiven (held : Nat → Bool) (e : Expr F V) (args : List (Option (Datum F V))) :
    Prop :=
  ∀ p, e.isFunc p = true → held p = false → args[p]? ≠ some none

/-- What an atomic argument of the mother contributes when it is supplied in two
stages: a held one what the residual's input contributes, a filled one what the
constant does. -/
def stagedAtom (A : ScalarAlgebra F V D) (held : Nat → Bool) (atom : Nat → Oid → Option V → D)
    (p : Nat) (t : Oid) (v : Option V) : D :=
  if held p then atom (newidx held p) t v else A.const t v

section Bindings

variable {cat : ProcCatalog F} {S : LambdaSignature} {mother : LambdaExpr F V}
variable {held : Nat → Bool} {args : List (Option (Datum F V))} {p : Nat}

/-! ## The bindings -/

theorem partialBinding_held (hm : mother.Conforms cat S) {σ : LambdaSigType}
    (hσ : S.argtypes[p]? = some σ) (hmention : mother.expr.mentions p = true)
    (hp : held p = true) (v : Option (Datum F V)) :
    partialBinding mother.expr held v p = .ok (some (.param (newidx held p) σ.oid)) := by
  simp only [partialBinding, hp, if_true, hm.body.proto_getD hσ hmention]

theorem partialBinding_atom (hm : mother.Conforms cat S) {t : Oid}
    (hσ : S.argtypes[p]? = some (.scalar t)) (hmention : mother.expr.mentions p = true)
    (hp : held p = false) : ∀ {v : Option (Datum F V)}, Datum.Fits cat (.scalar t) v →
    partialBinding mother.expr held v p = .ok (some (.const t (atomValue v))) := by
  intro v hfit
  have hnf : mother.expr.isFunc p = false := by
    rw [Bool.eq_false_iff]
    intro hk
    obtain ⟨σs, ρ, h⟩ := hm.body.isFunc_inv hk
    simp [hσ] at h
  obtain ⟨s, hs⟩ := Option.isSome_iff_exists.mp (Expr.isSome_proto_of_mentions hmention hnf)
  obtain rfl : s = t := by
    have hget := hm.body.proto_getD hσ hmention
    rw [hs] at hget
    exact hget
  simp only [partialBinding, hp, hnf, hs, Bool.false_eq_true, if_false]
  obtain ⟨a, rfl⟩ := hfit.scalar_inv
  cases a <;> rfl

theorem partialBinding_lambda (hk : mother.expr.isFunc p = true) (hp : held p = false)
    (le : LambdaExpr F V) :
    partialBinding mother.expr held (some (.lambda .serialized le)) p = .ok (some le.toExpr) := by
  rw [partialBinding, if_neg (by simp [hp]), if_pos hk]
  rfl

/-- A position the body does not mention is bound without looking at it. -/
theorem exists_partialBinding_of_not_mentions (hmention : mother.expr.mentions p = false)
    (v : Option (Datum F V)) : ∃ b, partialBinding mother.expr held v p = .ok b := by
  have hnf : ¬ mother.expr.isFunc p = true := by
    intro hk
    rw [Expr.mentions_of_isFunc hk] at hmention
    cases hmention
  have hnp : mother.expr.proto p = none := by
    rw [Option.eq_none_iff_forall_ne_some]
    intro s hs
    rw [Expr.mentions_of_proto hs] at hmention
    cases hmention
  simp only [partialBinding, hnf, hnp, Bool.false_eq_true, if_false]
  split
  · exact ⟨_, rfl⟩
  · exact ⟨none, rfl⟩

/-- The value the binding loop sees at a position. -/
theorem mask_inv {v : Option (Datum F V)} (hv : (maskFrom held 0 args)[p]? = some v) :
    ∃ w, args[p]? = some w ∧ v = if held p then none else w := by
  rw [maskFrom_getElem?, Option.map_eq_some_iff] at hv
  obtain ⟨w, hw, rfl⟩ := hv
  exact ⟨w, hw, by rw [Nat.zero_add]⟩

/-- An input of the result stands for its entry. -/
theorem standsFor_param {A : ScalarAlgebra F V D} {ρ : List (Entry F V D)} {i : Nat} {t : Oid} :
    ∀ {E : Entry F V D}, ρ[i]? = some E → StandsFor A ρ (.param i t) E
  | .val _, h => Means.param h
  | .lam _ _, h => .inr ⟨i, t, rfl, h⟩
  | .nul, h => ⟨i, t, rfl, h⟩

/-- The entry of a held argument is the one the residual's input has. -/
theorem argEntry_held (A : ScalarAlgebra F V D) (atom : Nat → Oid → Option V → D)
    (hp : held p = true) : ∀ (σ : LambdaSigType) (v : Option (Datum F V)),
    argEntry (stagedAtom A held atom) p σ v = argEntry atom (newidx held p) σ v
  | .scalar t, v => by simp only [argEntry, stagedAtom, hp, if_true]
  | .func _ _, none => rfl
  | .func _ _, some (.atom _) => rfl
  | .func _ _, some (.lambda _ _) => rfl

/-- `Δ` types the residual's inputs that stand for positions the body mentions. -/
def TypesHeld (held : Nat → Bool) (S : LambdaSignature) (e : Expr F V)
    (Δ : List LambdaSigType) : Prop :=
  ∀ p σ, S.argtypes[p]? = some σ → e.mentions p = true → held p = true →
    Δ[newidx held p]? = some σ

theorem typesHeld_residualSignature :
    TypesHeld held S mother.expr (residualSignature held S).argtypes := by
  intro p σ hσ _ hp
  rw [newidx_eq]
  exact selectFrom_getElem? hσ (by rwa [Nat.zero_add])

variable (hm : mother.Conforms cat S) (hargs : ArgsFit cat S.argtypes args)
variable (hfilled : FilledInputsGiven held mother.expr args)

include hm hargs hfilled

/-- A filled function input the body refers to is a serialized lambda. -/
theorem given_filled (hk : mother.expr.isFunc p = true)
    (hp : held p = false) : ∃ le, args[p]? = some (some (.lambda .serialized le)) := by
  obtain ⟨σs, ρ, hΓ⟩ := hm.body.isFunc_inv hk
  obtain ⟨v, hv, hfit⟩ := forall₂_lookup hargs hΓ
  obtain rfl | ⟨le, rfl, _⟩ := hfit.func_inv
  · exact absurd hv (hfilled p hk hp)
  · exact ⟨le, hv⟩

theorem exists_partialBindings :
    ∃ bs, ((maskFrom held 0 args).zipIdx.mapM fun (v, p) =>
      partialBinding mother.expr held v p) = .ok bs := by
  refine exists_zipIdx_mapM fun p v hv => ?_
  rw [Nat.zero_add]
  obtain ⟨w, hw, rfl⟩ := mask_inv hv
  cases hmention : mother.expr.mentions p with
  | false => exact exists_partialBinding_of_not_mentions hmention _
  | true =>
    obtain ⟨σ, hσ, hfit⟩ := forall₂_lookup hargs.flip hw
    cases hp : held p with
    | true => exact ⟨_, partialBinding_held hm hσ hmention hp _⟩
    | false =>
      rw [if_neg Bool.false_ne_true]
      cases σ with
      | scalar t => exact ⟨_, partialBinding_atom hm hσ hmention hp hfit⟩
      | func σs ρ =>
        have hk := hm.body.isFunc_of_mentions hσ hmention
        obtain ⟨le, hle⟩ := given_filled hm hargs hfilled hk hp
        rw [hw] at hle
        cases hle
        exact ⟨_, partialBinding_lambda hk hp le⟩

variable {bs : List (Option (Expr F V))}
variable (hbs : ((maskFrom held 0 args).zipIdx.mapM fun (v, p) =>
  partialBinding mother.expr held v p) = .ok bs)

include hbs

/-- The binding of a mentioned position, by what the position is. -/
theorem partialBindings_cases
    {σ : LambdaSigType} {v : Option (Datum F V)} (hσ : S.argtypes[p]? = some σ)
    (hv : args[p]? = some v) (hmention : mother.expr.mentions p = true) :
    (held p = true ∧ bs[p]? = some (some (.param (newidx held p) σ.oid))) ∨
    (held p = false ∧ ∃ t, σ = .scalar t ∧ bs[p]? = some (some (.const t (atomValue v)))) ∨
    (held p = false ∧ ∃ σs ρ le, σ = .func σs ρ ∧ v = some (.lambda .serialized le) ∧
      le.Conforms cat ⟨σs, ρ⟩ ∧ bs[p]? = some (some le.toExpr)) := by
  obtain ⟨w, hw, hfit⟩ := forall₂_lookup hargs hσ
  obtain rfl : w = v := by simpa [hv] using hw.symm
  have hmask : (maskFrom held 0 args)[p]? = some (if held p then none else w) := by
    rw [maskFrom_getElem?, hv, Nat.zero_add]
    rfl
  obtain ⟨b, hb, hbind⟩ := (zipIdx_mapM_eq_ok.mp hbs).2 p _ hmask
  simp only [Nat.zero_add] at hbind
  cases hp : held p with
  | true =>
    rw [partialBinding_held hm hσ hmention hp] at hbind
    cases hbind
    exact .inl ⟨rfl, hb⟩
  | false =>
    rw [hp, if_neg Bool.false_ne_true] at hbind
    refine .inr ?_
    cases σ with
    | scalar t =>
      rw [partialBinding_atom hm hσ hmention hp hfit] at hbind
      cases hbind
      exact .inl ⟨rfl, t, rfl, hb⟩
    | func σs ρ =>
      have hk := hm.body.isFunc_of_mentions hσ hmention
      obtain ⟨le, hle⟩ := given_filled hm hargs hfilled hk hp
      obtain rfl : some (Datum.lambda .serialized le) = w := by simpa [hle] using hw
      rw [partialBinding_lambda hk hp] at hbind
      cases hbind
      exact .inr ⟨rfl, σs, ρ, le, rfl, rfl, hfit, hb⟩

theorem bound_partialBindings {slotnames : List (List String)} {A : ScalarAlgebra F V D}
    {atom : Nat → Oid → Option V → D} {E : Entry F V D}
    (hE : (argEnv (stagedAtom A held atom) 0 S.argtypes args)[p]? = some E)
    (hmention : mother.expr.mentions p = true) :
    Bound A (argEnv atom 0 (selectFrom held 0 S.argtypes) (selectFrom held 0 args))
      { binding := bs, slotnames } p E := by
  obtain ⟨σ, v, hσ, hv, _, rfl⟩ := argEnv_inv hargs hE
  rw [Nat.zero_add]
  refine .inl ?_
  rcases partialBindings_cases hm hargs hfilled hbs hσ hv hmention with
    ⟨hp, hb⟩ | ⟨hp, t, rfl, hb⟩ | ⟨hp, σs, ρ, le, rfl, rfl, _, hb⟩
  · refine ⟨_, hb, standsFor_param ?_⟩
    have hp0 : held (0 + p) = true := by rwa [Nat.zero_add]
    rw [argEntry_held A atom hp, newidx_eq,
      argEnv_getElem? (selectFrom_getElem? hσ hp0) (selectFrom_getElem? hv hp0), Nat.zero_add]
  · refine ⟨_, hb, ?_⟩
    simp only [argEntry, stagedAtom, hp, Bool.false_eq_true, if_false]
    exact Means.const
  · exact ⟨_, hb, .inl rfl⟩

theorem bindingsTyped_partialBindings {slotnames : List (List String)} {Δ : List LambdaSigType}
    (hΔ : TypesHeld held S mother.expr Δ) :
    BindingsTyped cat Δ { binding := bs, slotnames } S.argtypes mother.expr := by
  intro p σ hσ hmention
  obtain ⟨v, hv, _⟩ := forall₂_lookup hargs hσ
  rcases partialBindings_cases hm hargs hfilled hbs hσ hv hmention with
    ⟨hp, hb⟩ | ⟨_, t, rfl, hb⟩ | ⟨_, σs, ρ, le, rfl, rfl, hle, hb⟩
  · simp only [ScalarBind.resolve, hb, HasType]
    refine ⟨hΔ p σ hσ hmention hp, trivial, fun ht => ?_⟩
    cases σ with
    | scalar t => exact absurd ht (hm.body.ne_lambda_of_mentions hσ hmention)
    | func σs ρ => rfl
  · simp only [ScalarBind.resolve, hb, HasType]
  · simp only [ScalarBind.resolve, hb, LambdaExpr.toExpr, HasType]
    exact ⟨σs, ρ, rfl, hle.nargs_eq, hle.body⟩

end Bindings

/-! ## The residual's body -/

section Residual

variable {cat : ProcCatalog F} {S : LambdaSignature} {mother : LambdaExpr F V}
variable {held : Nat → Bool} {args : List (Option (Datum F V))}

/-- The body `r` over the held inputs is the mother's body with the others
supplied: in every algebra it stands for what the mother's body means. -/
def Applied (S : LambdaSignature) (mother : LambdaExpr F V) (held : Nat → Bool)
    (args : List (Option (Datum F V))) (r : Expr F V) : Prop :=
  ∀ {D : Type} (A : ScalarAlgebra F V D) (atom : Nat → Oid → Option V → D) (E : Entry F V D),
    Means A (argEnv (stagedAtom A held atom) 0 S.argtypes args) mother.expr E →
    StandsFor A (argEnv atom 0 (selectFrom held 0 S.argtypes) (selectFrom held 0 args)) r E

/-- **Partial application on a well-typed mother** ends without an error, and its
result is the applied body, of the mother's type, over any inputs that have the
types of the held positions. -/
theorem lambdaPartialApply_spec (hm : mother.Conforms cat S) (hargs : ArgsFit cat S.argtypes args)
    (hfilled : FilledInputsGiven held mother.expr args) :
    ∃ r, Settles (fun n => lambdaPartialApply n mother held (maskFrom held 0 args))
        (residualLambda mother held r) ∧
      (∀ Δ, TypesHeld held S mother.expr Δ → HasType cat Δ r S.rettype) ∧
      Applied S mother held args r := by
  obtain ⟨bs, hbs⟩ := exists_partialBindings hm hargs hfilled
  obtain ⟨U, hU, _⟩ := hm.exists_means hargs unitAlgebra
    (stagedAtom unitAlgebra held fun _ _ _ => ())
  let ctx : ScalarBind F V :=
    { binding := bs, slotnames := (selectFrom held 0 mother.argnames).map fun name => [name] }
  obtain ⟨r, hr, _⟩ : ∃ r, Walks ctx mother.expr r ∧ _ :=
    hU.walks fun k E hE hk => bound_partialBindings hm hargs hfilled hbs hE hk
  refine ⟨r, ?_, fun Δ hΔ => ?_, ?_⟩
  · refine hr.settles.mono fun n hn => ?_
    exact bind_eq_ok.mpr ⟨bs, hbs, bind_eq_ok.mpr ⟨r, hn, rfl⟩⟩
  · exact hr.hasType hm.body (bindingsTyped_partialBindings hm hargs hfilled hbs hΔ)
  · intro D A atom E hE
    obtain ⟨r', hr', hs⟩ := hE.walks fun k E hE hk =>
      bound_partialBindings hm hargs hfilled hbs hE hk
    rwa [hr.unique hr']

theorem residualLambda_conforms (hm : mother.Conforms cat S) {e : Expr F V}
    (he : ∀ Δ, TypesHeld held S mother.expr Δ → HasType cat Δ e S.rettype) :
    (residualLambda mother held e).Conforms cat (residualSignature held S) :=
  ⟨selectFrom_length_eq hm.nargs_eq, he _ typesHeld_residualSignature⟩

end Residual

/-! ## Staged application equals direct application -/

section Staged

variable {cat : ProcCatalog F} {fn : F → List (Option V) → Option V} {isTrue : V → Bool}
variable {S : LambdaSignature} {mother : LambdaExpr F V}
variable {held : Nat → Bool} {args : List (Option (Datum F V))}

end Staged

/-! ### A threaded lambda

`λ(f, h) h(f)` with `λ(y) y + 1` filled in for `f`: the residual passes it on to
whatever is supplied for `h`, here `λ(g) g(3)`. -/

def passLambda : LambdaExpr ArithFunc Int :=
  scalarLambda ["f", "h"] INT4OID (.lfa ["h"] INT4OID 1 [.param 0 LAMBDAOID])

def passSignature : LambdaSignature :=
  ⟨[.func [.scalar INT4OID] (.scalar INT4OID),
    .func [.func [.scalar INT4OID] (.scalar INT4OID)] (.scalar INT4OID)], .scalar INT4OID⟩

def passArgs : List (Option (Datum ArithFunc Int)) :=
  [some (.lambda .serialized succLambda), some (.lambda .serialized atThreeLambda)]

def holdSecond (p : Nat) : Bool := p == 1

end HolLambdas.Scalar
