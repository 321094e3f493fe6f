import HolLambdas.Scalar.Preservation

/-!
# Applying a mother lambda to arguments

The bridge from a call — a mother lambda, its signature, the argument values —
to the abstract notions: the environment a full application runs the body in,
and the bindings `lambda_injector_scalar` builds for it.

What an atomic argument contributes depends on the algebra, so the environment
`argEnv atom` is given a function from positions, types and values to the
carrier: the value itself for evaluation, the reference to the input for
flattening. Function arguments contribute their lambdas whatever the algebra.

Main result: `lambdaInjectorScalar_spec`, the injector ends without an error and
its result has the meaning of the mother's body, in every algebra.
-/

namespace HolLambdas.Scalar

variable {F V D D' : Type}

/-! ## Environments of a call -/

/-- The value of an atomic argument. -/
def atomValue : Option (Datum F V) → Option V
  | some (.atom a) => some a
  | _ => none

/-- The entry of one argument. -/
def argEntry (atom : Nat → Oid → Option V → D) (p : Nat) :
    LambdaSigType → Option (Datum F V) → Entry F V D
  | .scalar t, v => .val (atom p t (atomValue v))
  | .func _ _, some (.lambda _ le) => .lam le.toLambdaHeader le.expr
  | .func _ _, _ => .nul

/-- The environment of a call; the first argument has position `p`. -/
def argEnv (atom : Nat → Oid → Option V → D) :
    (p : Nat) → List LambdaSigType → List (Option (Datum F V)) → List (Entry F V D)
  | p, σ :: σs, v :: vs => argEntry atom p σ v :: argEnv atom (p + 1) σs vs
  | _, _, _ => []

/-- The arguments of a call fit the signature, position by position. -/
def ArgsFit (cat : ProcCatalog F) (σs : List LambdaSigType) (args : List (Option (Datum F V))) :
    Prop :=
  List.Forall₂ (Datum.Fits cat) σs args

/-- No function input that the body refers to is NULL. -/
def FunctionInputsGiven (e : Expr F V) (args : List (Option (Datum F V))) : Prop :=
  ∀ i, e.isFunc i = true → args[i]? ≠ some none

section Env

variable {cat : ProcCatalog F}

variable {atom : Nat → Oid → Option V → D} {p : Nat}

theorem argEnv_getElem? :
    ∀ {σs : List LambdaSigType} {vs : List (Option (Datum F V))} {p k : Nat} {σ : LambdaSigType}
      {v : Option (Datum F V)}, σs[k]? = some σ → vs[k]? = some v →
      (argEnv atom p σs vs)[k]? = some (argEntry atom (p + k) σ v)
  | [], _, _, _, _, _, hσ, _ => by simp at hσ
  | _ :: _, [], _, _, _, _, _, hv => by simp at hv
  | σ' :: σs, v' :: vs, p, 0, σ, v, hσ, hv => by
    cases hσ
    cases hv
    rfl
  | σ' :: σs, v' :: vs, p, k + 1, σ, v, hσ, hv => by
    simp only [List.getElem?_cons_succ] at hσ hv
    simp only [argEnv, List.getElem?_cons_succ, argEnv_getElem? hσ hv]
    rw [Nat.add_assoc, Nat.add_comm 1 k]

/-- A position of the environment is a position of the signature and of the
argument list. -/
theorem argEnv_inv {σs : List LambdaSigType} {vs : List (Option (Datum F V))}
    (h : ArgsFit cat σs vs) {k : Nat} {E : Entry F V D} (hk : (argEnv atom p σs vs)[k]? = some E) :
    ∃ σ v, σs[k]? = some σ ∧ vs[k]? = some v ∧ Datum.Fits cat σ v ∧
      E = argEntry atom (p + k) σ v := by
  induction h generalizing p k with
  | nil => simp [argEnv] at hk
  | @cons σ v σs vs hfit _ ih =>
    cases k with
    | zero =>
      simp only [argEnv, List.getElem?_cons_zero, Option.some.injEq] at hk
      exact ⟨σ, v, rfl, rfl, hfit, hk.symm⟩
    | succ k =>
      obtain ⟨σ', v', hσ, hv, hfit', rfl⟩ := ih hk
      exact ⟨σ', v', by simpa using hσ, by simpa using hv, hfit',
        by rw [Nat.add_assoc, Nat.add_comm 1 k]⟩

variable {A : ScalarAlgebra F V D} {B : ScalarAlgebra F V D'} {P : D → D' → Prop}

/-- The entries of one argument are related in any two related algebras. -/
theorem rel_argEntry (hP : AlgebraRel A B P) {atom' : Nat → Oid → Option V → D'} :
    ∀ {σ : LambdaSigType}
    {v : Option (Datum F V)}, Datum.Fits cat σ v →
      (∀ t, σ = .scalar t → P (atom p t (atomValue v)) (atom' p t (atomValue v))) →
      Rel A B P σ (argEntry atom p σ v) (argEntry atom' p σ v)
  | .scalar t, v, _, hatom => by simpa only [argEntry, Rel] using hatom t rfl
  | .func σs ρ, v, h, _ => by
    obtain rfl | ⟨le, rfl, hle⟩ := h.func_inv
    · simp only [argEntry, Rel]
    · simp only [argEntry, Rel]
      exact ⟨hle.nargs_eq, hle.nargs_eq, fun _ _ hEs => hle.body.rel hP hEs⟩

theorem rels_argEnv (hP : AlgebraRel A B P) {atom' : Nat → Oid → Option V → D'}
    {σs : List LambdaSigType} {vs : List (Option (Datum F V))} (h : ArgsFit cat σs vs)
    (hatom : ∀ k t v, σs[k]? = some (.scalar t) → vs[k]? = some v →
      P (atom (p + k) t (atomValue v)) (atom' (p + k) t (atomValue v))) :
    Rels A B P σs (argEnv atom p σs vs) (argEnv atom' p σs vs) := by
  induction h generalizing p with
  | nil => simp only [argEnv, Rels]
  | @cons σ v σs vs hfit _ ih =>
    refine ⟨rel_argEntry hP hfit fun t ht => hatom 0 t v (by simp [ht]) rfl, ih ?_⟩
    intro k t w hσ hw
    have h := hatom (k + 1) t w (by simpa using hσ) (by simpa using hw)
    rwa [Nat.add_comm k 1, ← Nat.add_assoc] at h

end Env

/-! ## Full application -/

/-- The environment `ρ` agrees with `env` on the atomic inputs. -/
def SameAtoms (env ρ : List (Entry F V D)) : Prop :=
  ∀ (k : Nat) (d : D), env[k]? = some (.val d) → ρ[k]? = some (.val d)

/-- An algebra is related to itself by equality. -/
theorem AlgebraRel.refl (A : ScalarAlgebra F V D) : AlgebraRel A A Eq where
  const _ _ := rfl
  func f _ _ h := by
    rw [List.forall₂_eq_eq_eq] at h
    rw [h]
  caseWhen _ _ _ _ _ _ _ hc hr hd := by rw [hc, hr, hd]
  coalesce _ _ _ _ _ ha hb := by rw [ha, hb]

section Injector

variable {cat : ProcCatalog F} {S : LambdaSignature} {mother : LambdaExpr F V}
variable {args : List (Option (Datum F V))}

variable (hm : mother.Conforms cat S) (hargs : ArgsFit cat S.argtypes args)

include hm hargs

/-- A conforming body has a meaning under arguments that fit. -/
theorem LambdaExpr.Conforms.exists_means (A : ScalarAlgebra F V D)
    (atom : Nat → Oid → Option V → D) :
    ∃ E, Means A (argEnv atom 0 S.argtypes args) mother.expr E ∧
      ∀ t, S.rettype = .scalar t → ∃ d, E = .val d := by
  have henv : Rels A A Eq S.argtypes (argEnv atom 0 S.argtypes args)
      (argEnv atom 0 S.argtypes args) :=
    rels_argEnv (AlgebraRel.refl A) hargs fun _ _ _ _ _ => rfl
  obtain ⟨E, E', hE, _, hr⟩ := hm.body.rel (AlgebraRel.refl A) henv
  refine ⟨E, hE, fun t ht => ?_⟩
  rw [ht] at hr
  obtain ⟨d, _, rfl, _, _⟩ := hr.scalar_inv
  exact ⟨d, rfl⟩

/-- A function input the body refers to, if it is given at all, is given as a
serialized lambda. -/
theorem given_function (hgiven : FunctionInputsGiven mother.expr args) {k : Nat}
    (hk : mother.expr.isFunc k = true) :
    ∃ le, args[k]? = some (some (.lambda .serialized le)) := by
  obtain ⟨σs, ρ, hΓ⟩ := hm.body.isFunc_inv hk
  obtain ⟨v, hv, hfit⟩ := forall₂_lookup hargs hΓ
  obtain rfl | ⟨le, rfl, _⟩ := hfit.func_inv
  · exact absurd hv (hgiven k hk)
  · exact ⟨le, hv⟩

/-- What `lambda_injector_scalar` binds for a full application. -/
theorem exists_injectorBindings (hgiven : FunctionInputsGiven mother.expr args) :
    ∃ bs, (args.zipIdx.mapM fun (v, i) => injectorBinding mother.expr v i) = .ok bs := by
  refine exists_zipIdx_mapM fun i v hv => ?_
  simp only [Nat.zero_add, injectorBinding]
  split
  next hk =>
    obtain ⟨le, hle⟩ := given_function hm hargs hgiven hk
    obtain rfl : some (Datum.lambda .serialized le) = v := by simpa [hle] using hv
    exact ⟨_, rfl⟩
  next => exact ⟨none, rfl⟩

/-- Those bindings stand for the arguments. `ρ` is any environment for the
flattened body that agrees with the call's on the atomic inputs. -/
theorem bound_injectorBindings (hgiven : FunctionInputsGiven mother.expr args)
    {bs : List (Option (Expr F V))}
    (hbs : (args.zipIdx.mapM fun (v, i) => injectorBinding mother.expr v i) = .ok bs)
    {A : ScalarAlgebra F V D} {atom : Nat → Oid → Option V → D} {ρ : List (Entry F V D)}
    (hρ : SameAtoms (argEnv atom 0 S.argtypes args) ρ) {k : Nat} {E : Entry F V D}
    (hE : (argEnv atom 0 S.argtypes args)[k]? = some E) (hmention : mother.expr.mentions k = true) :
    Bound A ρ { binding := bs } k E := by
  obtain ⟨σ, v, hσ, hv, _, rfl⟩ := argEnv_inv hargs hE
  obtain ⟨b, hb, hbind⟩ := (zipIdx_mapM_eq_ok.mp hbs).2 k v hv
  simp only [Nat.zero_add, injectorBinding] at hbind
  cases σ with
  | scalar t =>
    have hnf : ¬ mother.expr.isFunc k = true := by
      intro hk
      obtain ⟨σs, ρ', h⟩ := hm.body.isFunc_inv hk
      simp [hσ] at h
    rw [if_neg hnf] at hbind
    cases hbind
    exact .inr ⟨_, rfl, hb, hρ k _ hE⟩
  | func σs ρ' =>
    have hk := hm.body.isFunc_of_mentions hσ hmention
    obtain ⟨le, hle⟩ := given_function hm hargs hgiven hk
    obtain rfl : some (Datum.lambda .serialized le) = v := by simpa [hle] using hv
    rw [if_pos hk] at hbind
    cases hbind
    exact .inl ⟨_, hb, .inl rfl⟩

/-- …and they are of the types of the arguments. -/
theorem bindingsTyped_injectorBindings {bs : List (Option (Expr F V))}
    (hbs : (args.zipIdx.mapM fun (v, i) => injectorBinding mother.expr v i) = .ok bs) :
    BindingsTyped cat S.argtypes { binding := bs } S.argtypes mother.expr := by
  intro k σ hσ hmention
  obtain ⟨v, hv, hfit⟩ := forall₂_lookup hargs hσ
  obtain ⟨b, hb, hbind⟩ := (zipIdx_mapM_eq_ok.mp hbs).2 k v hv
  simp only [Nat.zero_add, injectorBinding] at hbind
  cases σ with
  | scalar t =>
    have hnf : ¬ mother.expr.isFunc k = true := by
      intro hk
      obtain ⟨σs, ρ', h⟩ := hm.body.isFunc_inv hk
      simp [hσ] at h
    rw [if_neg hnf] at hbind
    cases hbind
    simp only [ScalarBind.resolve, hb, HasType]
    exact ⟨hσ, trivial, fun ht => absurd ht (hm.body.ne_lambda_of_mentions hσ hmention)⟩
  | func σs ρ' =>
    rw [if_pos (hm.body.isFunc_of_mentions hσ hmention)] at hbind
    obtain rfl | ⟨le, rfl, hle⟩ := hfit.func_inv
    · cases hbind
    · cases hbind
      simp only [ScalarBind.resolve, hb, LambdaExpr.toExpr, HasType]
      exact ⟨σs, ρ', rfl, hle.nargs_eq, hle.body⟩

/-- The algebra with one element, for bodies that are only to be unfolded. -/
def unitAlgebra : ScalarAlgebra F V Unit where
  const _ _ := ()
  func _ _ := ()
  caseWhen _ _ _ _ := ()
  coalesce _ _ _ := ()

/-- The body `r` is the mother's body with its function inputs inlined: in every
algebra it stands for what the mother's body means under the arguments. -/
def Flattened (S : LambdaSignature) (mother : LambdaExpr F V)
    (args : List (Option (Datum F V))) (r : Expr F V) : Prop :=
  ∀ {D : Type} (A : ScalarAlgebra F V D) (atom : Nat → Oid → Option V → D)
    (ρ : List (Entry F V D)) (E : Entry F V D),
    SameAtoms (argEnv atom 0 S.argtypes args) ρ →
    Means A (argEnv atom 0 S.argtypes args) mother.expr E → StandsFor A ρ r E

/-- **The injector on a well-typed call** ends without an error, and its result
is the flattened body, of the mother's type. -/
theorem lambdaInjectorScalar_spec (hgiven : FunctionInputsGiven mother.expr args) :
    ∃ r, Settles (fun n => lambdaInjectorScalar n mother args) { mother with expr := r } ∧
      HasType cat S.argtypes r S.rettype ∧ Flattened S mother args r := by
  obtain ⟨bs, hbs⟩ := exists_injectorBindings hm hargs hgiven
  obtain ⟨U, hU, _⟩ := hm.exists_means hargs unitAlgebra fun _ _ _ => ()
  obtain ⟨r, hr, _⟩ := hU.walks fun k E hE hk =>
    bound_injectorBindings hm hargs hgiven hbs (fun _ _ h => h) hE hk
  refine ⟨r, ?_, hr.hasType hm.body (bindingsTyped_injectorBindings hm hargs hbs), ?_⟩
  · refine hr.settles.mono fun n hn => ?_
    exact bind_eq_ok.mpr ⟨bs, hbs, bind_eq_ok.mpr ⟨r, hn, rfl⟩⟩
  · intro D A atom ρ E hρ hE
    -- the walk does not know the algebra, so it is the same walk
    obtain ⟨r', hr', hs⟩ := hE.walks fun k E hE hk =>
      bound_injectorBindings hm hargs hgiven hbs hρ hE hk
    rwa [hr.unique hr']

end Injector

end HolLambdas.Scalar
