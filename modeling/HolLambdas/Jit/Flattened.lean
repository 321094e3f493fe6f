import HolLambdas.Scalar.Flatten
import HolLambdas.Jit.Injected

/-!
# Flattening and the whitelist

The analysis of `lambda_helpers.c` does not look at callees: "its a runtime value, so we
only know its safety once its bound". So a mother and the lambdas passed for its function
inputs are each analysed on their own, and the question is what the analysis says about the
body that `lambda_injector_scalar` makes of them.

The trees the injector walks are no help for an induction: what an input is bound to is
partly walked already, and may be a lambda that a later call walks again. But flattening
keeps the meaning in every algebra (`Flattened`), and the analysis is itself an algebra, of
flags. Calling a lambda with safe arguments gives a safe value; a body that is safe in an
environment without functions has been analysed node by node.

Only a body that returns a function is left. It is a reference to a function input, and
flattening puts the lambda there, which the analysis does not know.
-/

namespace HolLambdas.Jit

open Scalar

variable {V : Type}

/-! ## The analysis as an algebra -/

/-- `lambda_l3_unsafe_walker` from the bottom up: is the node, over operands with these
flags, one that the walker goes through? -/
def l3Algebra : ScalarAlgebra FnOid V Bool where
  const _ _ := true
  func f ds := lambdaOpHasL3Impl f && ds.all id
  caseWhen _ _ _ _ := false
  coalesce _ _ _ := false

/-- A safe value, or a lambda with a safe body. -/
def L3Entry : Entry FnOid V Bool → Prop
  | .val d => d = true
  | .lam _ e => lambdaL3Unsafe e = false
  | .nul => True

def L3Env (env : List (Entry FnOid V Bool)) : Prop :=
  ∀ E ∈ env, L3Entry E

section Analysis

variable {env : List (Entry FnOid V Bool)}
mutual

/-- A safe body over safe inputs has a safe value, at any depth of calls. -/
theorem l3Entry_of_means : ∀ {env : List (Entry FnOid V Bool)} {e : Expr FnOid V}
    {E : Entry FnOid V Bool}, L3Env env → Means l3Algebra env e E → lambdaL3Unsafe e = false →
      L3Entry E
  | _, _, _, _, .const, _ => rfl
  | _, _, _, henv, .param h, _ => henv _ (List.mem_of_getElem? h)
  | _, _, _, henv, .func h, he => by
    simp only [lambdaL3Unsafe, Bool.or_eq_false_iff, Bool.not_eq_false'] at he
    have hsafe := l3Env_of_meansArgs henv h he.2
    simp only [L3Entry, l3Algebra, he.1, Bool.true_and, List.all_eq_true, id_eq]
    exact fun d hd => hsafe (.val d) (List.mem_map_of_mem hd)
  | _, _, _, henv, .lfa hk _ hargs hbody, he =>
    l3Entry_of_means (l3Env_of_meansArgs henv hargs he) hbody (henv _ (List.mem_of_getElem? hk))
  | _, _, _, _, .lfaNul _ _, _ => rfl

theorem l3Env_of_meansArgs : ∀ {env : List (Entry FnOid V Bool)} {es : List (Expr FnOid V)}
    {Es : List (Entry FnOid V Bool)}, L3Env env → MeansArgs l3Algebra env es Es →
      lambdaL3UnsafeArgs es = false → L3Env Es
  | _, _, _, _, .nil, _ => nofun
  | _, _, _, henv, .cons h hs, he => by
    simp only [lambdaL3UnsafeArgs, Bool.or_eq_false_iff] at he
    exact List.forall_mem_cons.mpr
      ⟨l3Entry_of_means henv h he.1, l3Env_of_meansArgs henv hs he.2⟩

end

mutual

/-- In an environment without functions the flag of a body is that of the walker: there is
nothing to call. -/
theorem l3Safe_of_means (hvals : AtomicEnv env) : ∀ {e : Expr FnOid V} {d : Bool},
    Means l3Algebra env e (.val d) → d = true → lambdaL3Unsafe e = false
  | _, _, .const, _ => rfl
  | _, _, .param _, _ => rfl
  | _, _, .func h, hd => by
    obtain ⟨hf, hall⟩ := Bool.and_eq_true_iff.mp hd
    simp only [lambdaL3Unsafe, hf, Bool.not_true, Bool.false_or]
    exact l3SafeArgs_of_meansArgs hvals h hall
  | _, _, .lfa hk _ _ _, _ => nomatch hvals _ _ hk
  | _, _, .lfaNul hk _, _ => nomatch hvals _ _ hk

theorem l3SafeArgs_of_meansArgs (hvals : AtomicEnv env) : ∀ {es : List (Expr FnOid V)}
    {ds : List Bool}, MeansArgs l3Algebra env es (ds.map .val) → ds.all id = true →
      lambdaL3UnsafeArgs es = false
  | [], _, _, _ => rfl
  | _ :: _, _, h, hall => by
    obtain ⟨d, ds, rfl, he, hes⟩ := h.cons_val_inv
    simp only [List.all_cons, id_eq, Bool.and_eq_true] at hall
    simp only [lambdaL3UnsafeArgs, l3Safe_of_means hvals he hall.1, Bool.false_or]
    exact l3SafeArgs_of_meansArgs hvals hes hall.2

end

end Analysis

/-! ## The flattened body -/

section Injector

variable {cat : ProcCatalog FnOid} {S : LambdaSignature} {mother : LambdaExpr FnOid V}
variable {args : List (Option (Scalar.Datum FnOid V))}

/-- Every lambda among the arguments of a call passes the analysis. -/
def ArgsL3Safe (args : List (Option (Scalar.Datum FnOid V))) : Prop :=
  ∀ repr le, some (.lambda repr le) ∈ args → lambdaExprIsL3Safe le = true

theorem l3Env_argEnv (hargs : ArgsFit cat S.argtypes args) (hsafe : ArgsL3Safe args) :
    L3Env (argEnv (fun _ _ _ => true) 0 S.argtypes args) := by
  intro E hE
  obtain ⟨k, hk⟩ := List.getElem?_of_mem hE
  obtain ⟨σ, v, _, hv, hfit, rfl⟩ := argEnv_inv hargs hk
  cases σ with
  | scalar t => rfl
  | func σs ρ =>
    obtain rfl | ⟨le, rfl, _⟩ := hfit.func_inv
    · trivial
    · simpa [argEntry, L3Entry, lambdaExprIsL3Safe] using hsafe _ le (List.mem_of_getElem? hv)

/-- With an atomic result the flag is computed through the calls. -/
theorem l3Safe_flattened {r : Expr FnOid V} (hr : Flattened S mother args r)
    (hm : mother.Conforms cat S) (hargs : ArgsFit cat S.argtypes args)
    (hmother : lambdaL3Unsafe mother.expr = false) (hsafe : ArgsL3Safe args)
    {t : Oid} (hret : S.rettype = .scalar t) : lambdaL3Unsafe r = false := by
  obtain ⟨E, hE, hatomic⟩ := hm.exists_means hargs l3Algebra fun _ _ _ => true
  obtain ⟨d, rfl⟩ := hatomic t hret
  obtain rfl : d = true := l3Entry_of_means (l3Env_argEnv hargs hsafe) hE hmother
  have hmeans : Means l3Algebra (plainEnv true args) r (.val true) :=
    hr l3Algebra _ _ _ (sameAtoms_plainEnv hargs true) hE
  exact l3Safe_of_means (atomicEnv_plainEnv true args) hmeans rfl

/-- A safe body that returns a function is a reference to one of its inputs. -/
theorem exists_param_of_func {Γ σs : List LambdaSigType} {ρ : LambdaSigType}
    {e : Expr FnOid V} (h : HasType cat Γ e (.func σs ρ)) (he : lambdaL3Unsafe e = false) :
    ∃ k, e = .param k LAMBDAOID ∧ Γ[k]? = some (.func σs ρ) := by
  cases e with
  | param k t =>
    obtain ⟨hk, rfl, _⟩ := h
    exact ⟨k, rfl, hk⟩
  | lambda hd e => cases he
  | const t v => cases h
  | func f args => cases h.1
  | caseWhen t c r d => cases h.1
  | coalesce t a b => cases h.1
  | lfa name t k args => cases h.1

/-- …and flattened it is the lambda that was passed for it. -/
theorem exists_lambda_of_flattened {r : Expr FnOid V} (hr : Flattened S mother args r)
    (hm : mother.Conforms cat S) (hargs : ArgsFit cat S.argtypes args)
    (hgiven : FunctionInputsGiven mother.expr args) (hmother : lambdaL3Unsafe mother.expr = false)
    {σs : List LambdaSigType} {ρ : LambdaSigType} (hret : S.rettype = .func σs ρ) :
    ∃ le : LambdaExpr FnOid V, r = le.toExpr := by
  have hbody := hm.body
  rw [hret] at hbody
  obtain ⟨k, hexpr, hk⟩ := exists_param_of_func hbody hmother
  have hfunc : mother.expr.isFunc k = true := by simp [hexpr, Expr.isFunc]
  obtain ⟨le, hle⟩ := given_function hm hargs hgiven hfunc
  have hmeans : Means unitAlgebra (argEnv (fun _ _ _ => ()) 0 S.argtypes args) mother.expr
      (.lam le.toLambdaHeader le.expr) := by
    rw [hexpr]
    exact Means.param (argEnv_getElem? hk hle)
  rcases hr unitAlgebra _ _ _ (sameAtoms_plainEnv hargs ()) hmeans with hr | ⟨i, t, _, hi⟩
  · exact ⟨le, hr⟩
  · obtain ⟨_, hE⟩ := atomicEnv_plainEnv () args i _ hi
    cases hE

/-- **The analysis is closed under flattening, up to functions as results.** A well-typed
mother and lambda arguments that each pass the analysis, none NULL that the mother refers
to: the injector returns, and its body passes the analysis exactly when the mother returns
an atomic value. -/
theorem lambdaInjectorScalar_l3Safe_iff (hm : mother.Conforms cat S)
    (hargs : ArgsFit cat S.argtypes args) (hgiven : FunctionInputsGiven mother.expr args)
    (hmother : lambdaExprIsL3Safe mother = true) (hsafe : ArgsL3Safe args) :
    ∃ result, Settles (fun n => lambdaInjectorScalar n mother args) result ∧
      (lambdaExprIsL3Safe result = true ↔ S.rettype.isFunction = false) := by
  obtain ⟨r, hr, _, hflat⟩ := lambdaInjectorScalar_spec hm hargs hgiven
  have hunsafe : lambdaL3Unsafe mother.expr = false := by
    simpa [lambdaExprIsL3Safe] using hmother
  refine ⟨_, hr, ?_⟩
  cases hret : S.rettype with
  | scalar t =>
    have hresult := l3Safe_flattened hflat hm hargs hunsafe hsafe hret
    simp [lambdaExprIsL3Safe, hresult, LambdaSigType.isFunction]
  | func σs ρ =>
    obtain ⟨le, rfl⟩ := exists_lambda_of_flattened hflat hm hargs hgiven hunsafe hret
    simp [lambdaExprIsL3Safe, LambdaExpr.toExpr, lambdaL3Unsafe, LambdaSigType.isFunction]

end Injector

/-! ### Two mothers

`λ(f, x) f(f(x))` and `λ(f) f`, called with `λ(y) y * y` over `float8`. -/

def float8Catalog : ProcCatalog FnOid where
  proisstrict _ := true
  provolatile _ := .immutable
  proargtypes f := List.replicate ((pronargs f).getD 0) FLOAT8OID
  prorettype _ := FLOAT8OID

def squareLambda : LambdaExpr FnOid Int :=
  scalarLambda ["y"] FLOAT8OID (.func .float8mul [.param 0 FLOAT8OID, .param 0 FLOAT8OID])

def twiceMother : LambdaExpr FnOid Int :=
  scalarLambda ["f", "x"] FLOAT8OID
    (.lfa ["f"] FLOAT8OID 0 [.lfa ["f"] FLOAT8OID 0 [.param 1 FLOAT8OID]])

def identityMother : LambdaExpr FnOid Int :=
  scalarLambda ["f"] LAMBDAOID (.param 0 LAMBDAOID)

def float8Function : LambdaSigType :=
  .func [.scalar FLOAT8OID] (.scalar FLOAT8OID)

theorem squareLambda_conforms :
    squareLambda.Conforms float8Catalog ⟨[.scalar FLOAT8OID], .scalar FLOAT8OID⟩ :=
  ⟨rfl, by simp [squareLambda, scalarLambda, HasType, HasTypes, float8Catalog, pronargs,
    FLOAT8OID, LAMBDAOID, LambdaSigType.oid, List.replicate]⟩

theorem twiceMother_conforms : twiceMother.Conforms float8Catalog
    ⟨[float8Function, .scalar FLOAT8OID], .scalar FLOAT8OID⟩ :=
  ⟨rfl, by simp [twiceMother, scalarLambda, HasType, HasTypes, float8Function, FLOAT8OID,
    LAMBDAOID, LambdaSigType.oid]⟩

theorem identityMother_conforms :
    identityMother.Conforms float8Catalog ⟨[float8Function], float8Function⟩ :=
  ⟨rfl, by simp [identityMother, scalarLambda, HasType, float8Function, LAMBDAOID,
    LambdaSigType.oid, LambdaSigType.isFunction]⟩

theorem argsL3Safe_square (args : List (Option (Scalar.Datum FnOid Int)))
    (h : ∀ repr le, some (.lambda repr le) ∈ args → le = squareLambda) : ArgsL3Safe args := by
  intro repr le hle
  rw [h repr le hle]
  decide

theorem lambdaInjectorScalar_l3Safe_iff_twice :
    ∃ result, Settles (fun n => lambdaInjectorScalar n twiceMother
        [some (.lambda .serialized squareLambda), some (.atom 3)]) result ∧
      lambdaExprIsL3Safe result = true := by
  have hargs : ArgsFit float8Catalog [float8Function, .scalar FLOAT8OID]
      [some (.lambda .serialized squareLambda), some (.atom 3)] :=
    .cons squareLambda_conforms (.cons trivial .nil)
  have hgiven : FunctionInputsGiven twiceMother.expr
      [some (.lambda .serialized squareLambda), some (.atom 3)] := by
    intro i _ h
    have hmem := List.mem_of_getElem? h
    simp at hmem
  have hsafe : ArgsL3Safe [some (.lambda .serialized squareLambda), some (.atom (3 : Int))] :=
    argsL3Safe_square _ (by simp)
  obtain ⟨result, hr, hiff⟩ :=
    lambdaInjectorScalar_l3Safe_iff twiceMother_conforms hargs hgiven (by decide) hsafe
  exact ⟨result, hr, hiff.mpr rfl⟩

/-- `λ(f) f` is a reference to its input, but what it is flattened to is a lambda. -/
theorem flattened_identity_unsafe :
    identityMother.Conforms float8Catalog ⟨[float8Function], float8Function⟩ ∧
      ArgsFit float8Catalog [float8Function] [some (.lambda .serialized squareLambda)] ∧
      lambdaExprIsL3Safe identityMother = true ∧ lambdaExprIsL3Safe squareLambda = true ∧
      identityMother.expr.hasLambda = false ∧ squareLambda.expr.hasLambda = false ∧
      ∃ result, Settles (fun n => lambdaInjectorScalar n identityMother
          [some (.lambda .serialized squareLambda)]) result ∧
        lambdaExprIsL3Safe result = false := by
  refine ⟨identityMother_conforms, .cons squareLambda_conforms .nil, by decide, by decide,
    by decide, by decide, _, settles_const rfl, by decide⟩

end HolLambdas.Jit
