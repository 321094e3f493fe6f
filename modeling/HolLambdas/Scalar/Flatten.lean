import HolLambdas.Scalar.Interpreter

/-!
# Flattening

`lambda_injector_scalar` turns a higher-order mother and the lambdas supplied
for its function inputs into a first-order body: no function-input call is left,
no embedded lambda, and every reference is to an input of the mother. The body
then does in one frame what the mother does in nested ones.

Termination comes from the typing alone (`Parametric`); first-orderness is read
off the result's meaning. A body that has an atomic meaning in an environment
without any function cannot contain a call — there would be nothing to call —
nor a lambda that is not the argument of one.
-/

namespace HolLambdas.Scalar

variable {F V D : Type}
variable {σs : List LambdaSigType}

/-! ## First-order bodies -/

namespace Expr

mutual

/-- Neither calls of function inputs nor embedded lambdas, and only references
to the first `n` inputs. -/
def firstOrder (n : Nat) : Expr F V → Bool
  | const _ _ => true
  | param k _ => decide (k < n)
  | func _ args => firstOrderArgs n args
  | caseWhen _ c r d => firstOrder n c && firstOrder n r && firstOrder n d
  | coalesce _ a b => firstOrder n a && firstOrder n b
  | lfa _ _ _ _ => false
  | lambda _ _ => false

def firstOrderArgs (n : Nat) : List (Expr F V) → Bool
  | [] => true
  | e :: es => firstOrder n e && firstOrderArgs n es

end

mutual

theorem hasLambda_of_firstOrder {n : Nat} : ∀ {e : Expr F V}, e.firstOrder n = true →
    e.hasLambda = false
  | const _ _, _ => rfl
  | param _ _, _ => rfl
  | func _ args, h => by
    simp only [firstOrder] at h
    simpa only [hasLambda] using hasLambdaArgs_of_firstOrder h
  | caseWhen _ c r d, h => by
    simp only [firstOrder, Bool.and_eq_true] at h
    simp [hasLambda, hasLambda_of_firstOrder h.1.1, hasLambda_of_firstOrder h.1.2,
      hasLambda_of_firstOrder h.2]
  | coalesce _ a b, h => by
    simp only [firstOrder, Bool.and_eq_true] at h
    simp [hasLambda, hasLambda_of_firstOrder h.1, hasLambda_of_firstOrder h.2]
  | lfa _ _ _ _, h => by simp [firstOrder] at h
  | lambda _ _, h => by simp [firstOrder] at h

theorem hasLambdaArgs_of_firstOrder {n : Nat} : ∀ {es : List (Expr F V)},
    firstOrderArgs n es = true → hasLambdaArgs es = false
  | [], _ => rfl
  | e :: es, h => by
    simp only [firstOrderArgs, Bool.and_eq_true] at h
    simp [hasLambdaArgs, hasLambda_of_firstOrder h.1, hasLambdaArgs_of_firstOrder h.2]

end

end Expr

/-- An environment of atomic inputs only. -/
def AtomicEnv (env : List (Entry F V D)) : Prop :=
  ∀ (k : Nat) (E : Entry F V D), env[k]? = some E → ∃ d, E = .val d

section FirstOrder

variable {A : ScalarAlgebra F V D} {env : List (Entry F V D)}
mutual

/-- An atomic meaning over atomic inputs only: the body is first-order. -/
theorem Means.firstOrder (hvals : AtomicEnv env) : ∀ {e : Expr F V} {d : D},
    Means A env e (.val d) → e.firstOrder env.length = true
  | _, _, .const => rfl
  | _, _, .param h => by simpa [Expr.firstOrder] using (List.getElem?_eq_some_iff.mp h).1
  | _, _, .func h => h.firstOrderArgs hvals
  | _, _, .caseWhen hc hr hd => by
    simp [Expr.firstOrder, hc.firstOrder hvals, hr.firstOrder hvals, hd.firstOrder hvals]
  | _, _, .coalesce ha hb => by simp [Expr.firstOrder, ha.firstOrder hvals, hb.firstOrder hvals]
  -- a callee would have to be a function of the environment
  | _, _, .lfa hk _ _ _ => nomatch hvals _ _ hk
  | _, _, .lfaNul hk _ => nomatch hvals _ _ hk

theorem MeansArgs.firstOrderArgs (hvals : AtomicEnv env) : ∀ {es : List (Expr F V)} {ds : List D},
    MeansArgs A env es (ds.map .val) → Expr.firstOrderArgs env.length es = true
  | [], _, _ => rfl
  | _ :: _, _, h => by
    obtain ⟨d, ds, rfl, he, hes⟩ := h.cons_val_inv
    simp [Expr.firstOrderArgs, he.firstOrder hvals, hes.firstOrderArgs hvals]

end

end FirstOrder

/-! ## What the injector returns -/

section Injector

variable {cat : ProcCatalog F} {S : LambdaSignature} {mother : LambdaExpr F V}
variable {args : List (Option (Datum F V))}

/-- An environment that has no function in it, for a body over the inputs of a call. -/
def plainEnv (d : D) (args : List (Option (Datum F V))) : List (Entry F V D) :=
  args.map fun _ => .val d

theorem atomicEnv_plainEnv (d : D) (args : List (Option (Datum F V))) :
    AtomicEnv (plainEnv d args) := by
  intro k E hk
  simp only [plainEnv, List.getElem?_map, Option.map_eq_some_iff] at hk
  obtain ⟨_, _, rfl⟩ := hk
  exact ⟨d, rfl⟩

theorem sameAtoms_plainEnv (hargs : ArgsFit cat S.argtypes args) (d : D) :
    SameAtoms (argEnv (fun _ _ _ => d) 0 S.argtypes args) (plainEnv d args) := by
  intro k d' hk
  obtain ⟨σ, v, _, hv, _, hE⟩ := argEnv_inv hargs hk
  cases σ with
  | scalar t =>
    cases hE
    simp only [plainEnv, List.getElem?_map, hv, Option.map_some]
  | func σs ρ =>
    -- the entry of a function is a lambda or NULL
    rcases v with _ | (_ | _) <;> cases hE

/-- The flattened body of a lambda with an atomic result is first-order over the
call's arguments. -/
theorem Flattened.firstOrder {r : Expr F V} (hr : Flattened S mother args r)
    (hm : mother.Conforms cat S) (hargs : ArgsFit cat S.argtypes args) {t : Oid}
    (hret : S.rettype = .scalar t) : r.firstOrder args.length = true := by
  -- any environment that has no function in it will do
  obtain ⟨E, hE, hatomic⟩ := hm.exists_means hargs unitAlgebra fun _ _ _ => ()
  obtain ⟨d, rfl⟩ := hatomic t hret
  have hmeans : Means unitAlgebra (plainEnv () args) r (.val d) :=
    hr unitAlgebra _ _ _ (sameAtoms_plainEnv hargs ()) hE
  simpa [plainEnv] using hmeans.firstOrder (atomicEnv_plainEnv () args)

end Injector

/-! ### A run

`λ(f, x) f(f(x))`, of signature `((int4) → int4, int4) → int4`, called with
`λ(y) y + 1` and 3. -/

def twiceLambda : LambdaExpr ArithFunc Int :=
  scalarLambda ["f", "x"] INT4OID
    (.lfa ["f"] INT4OID 0 [.lfa ["f"] INT4OID 0 [.param 1 INT4OID]])

def twiceSignature : LambdaSignature :=
  ⟨[.func [.scalar INT4OID] (.scalar INT4OID), .scalar INT4OID], .scalar INT4OID⟩

def succLambda : LambdaExpr ArithFunc Int :=
  scalarLambda ["y"] INT4OID (.func .plus [.param 0 INT4OID, .const INT4OID (some 1)])

def twiceArgs : List (Option (Datum ArithFunc Int)) :=
  [some (.lambda .serialized succLambda), some (.atom 3)]

theorem succLambda_conforms :
    succLambda.Conforms arithCatalog ⟨[.scalar INT4OID], .scalar INT4OID⟩ :=
  ⟨rfl, by simp [succLambda, scalarLambda, HasType, HasTypes, arithCatalog, INT4OID, LAMBDAOID]⟩

def atThreeLambda : LambdaExpr ArithFunc Int :=
  scalarLambda ["g"] INT4OID (.lfa ["g"] INT4OID 0 [.const INT4OID (some 3)])

def chosenLambda : LambdaExpr ArithFunc Int :=
  scalarLambda ["x", "f", "g", "h", "z"] INT4OID
    (.func .plus [.lfa ["h"] INT4OID 3 [.caseWhen LAMBDAOID
      (.func .greater [.param 0 INT4OID, .const INT4OID (some 0)])
      (.param 1 LAMBDAOID) (.param 2 LAMBDAOID)], .param 4 INT4OID])

def chosenSignature : LambdaSignature :=
  ⟨[.scalar INT4OID, .func [.scalar INT4OID] (.scalar INT4OID),
    .func [.scalar INT4OID] (.scalar INT4OID),
    .func [.func [.scalar INT4OID] (.scalar INT4OID)] (.scalar INT4OID), .scalar INT4OID],
    .scalar INT4OID⟩

def chosenArgs : List (Option (Datum ArithFunc Int)) :=
  [some (.atom 1), some (.lambda .serialized succLambda), some (.lambda .serialized succLambda),
    some (.lambda .serialized atThreeLambda), some (.atom 10)]

theorem atThreeLambda_conforms : atThreeLambda.Conforms arithCatalog
    ⟨[.func [.scalar INT4OID] (.scalar INT4OID)], .scalar INT4OID⟩ :=
  ⟨rfl, by simp [atThreeLambda, scalarLambda, HasType, HasTypes]⟩

theorem chosenLambda_accepted : chosenLambda.Accepted arithCatalog chosenSignature :=
  ⟨rfl, by
    simp [chosenLambda, chosenSignature, scalarLambda, Accepts, AcceptsArgs, arithCatalog, INT4OID,
      BOOLOID, LAMBDAOID]⟩

theorem chosenArgs_fit : ArgsFit arithCatalog chosenSignature.argtypes chosenArgs :=
  .cons trivial (.cons succLambda_conforms (.cons succLambda_conforms
    (.cons atThreeLambda_conforms (.cons trivial .nil))))

section Exec

variable {cat : ProcCatalog F} {m : Type → Type} [Monad m] [MonadExceptOf LambdaError m]
variable {rt : Runtime F V m} {frame : List (Option (Datum F V))}
variable {call call' : CallLambdaExprState F V → m (Option (Datum F V))}

mutual

/-- A first-order body makes no nested call. -/
theorem execExprWith_congr {n : Nat} : ∀ {e : Expr F V}, e.firstOrder n = true →
    execExprWith cat rt call frame e = execExprWith cat rt call' frame e
  | .const _ _, _ => rfl
  | .param _ _, _ => rfl
  | .func f args, h => by
    simp only [Expr.firstOrder] at h
    simp only [execExprWith, execArgsWith_congr h]
  | .caseWhen _ c r d, h => by
    simp only [Expr.firstOrder, Bool.and_eq_true] at h
    simp only [execExprWith, execExprWith_congr h.1.1, execExprWith_congr h.1.2,
      execExprWith_congr h.2]
  | .coalesce _ a b, h => by
    simp only [Expr.firstOrder, Bool.and_eq_true] at h
    simp only [execExprWith, execExprWith_congr h.1, execExprWith_congr h.2]
  | .lfa _ _ _ _, h => by simp [Expr.firstOrder] at h
  | .lambda _ _, h => by simp [Expr.firstOrder] at h

theorem execArgsWith_congr {n : Nat} : ∀ {es : List (Expr F V)},
    Expr.firstOrderArgs n es = true →
    execArgsWith cat rt call frame es = execArgsWith cat rt call' frame es
  | [], _ => rfl
  | e :: es, h => by
    simp only [Expr.firstOrderArgs, Bool.and_eq_true] at h
    simp only [execArgsWith, execExprWith_congr h.1, execArgsWith_congr h.2]

end

end Exec

section Equivalence

variable {cat : ProcCatalog F} {S : LambdaSignature} {mother : LambdaExpr F V}
variable {args : List (Option (Datum F V))}
variable {fn : F → List (Option V) → Option V} {isTrue : V → Bool}

/-- The value of an atomic argument, as an element of the algebra of values. -/
def valueAtom (_ : Nat) (_ : Oid) (v : Option V) : Option V := v

/-- The inputs of a call: lambda arguments arrive serialized. -/
def callSlots (σs : List LambdaSigType) (args : List (Option (Datum F V))) : List (InputSlot F V) :=
  (argEnv valueAtom 0 σs args).map fun E => (E, false)

theorem callSlots_fst (σs : List LambdaSigType) (args : List (Option (Datum F V))) :
    (callSlots σs args).map Prod.fst = argEnv valueAtom 0 σs args := by
  rw [callSlots, List.map_map]
  exact List.map_id _

/-- The arguments of a call represent its environment. -/
theorem represents_args (hargs : ArgsFit cat σs args) {p : Nat} :
    List.Forall₂ Represents ((argEnv valueAtom p σs args).map fun E => (E, false)) args := by
  induction hargs generalizing p with
  | nil => exact .nil
  | @cons σ v σs vs hfit _ ih =>
    refine .cons ?_ ih
    cases σ with
    | scalar t =>
      obtain ⟨a, rfl⟩ := hfit.scalar_inv
      cases a <;> rfl
    | func =>
      obtain rfl | ⟨le, rfl, _⟩ := hfit.func_inv
      · rfl
      · rfl

/-- The body of a call evaluates to its meaning, unless an embedded lambda is called. -/
theorem Means.nested {e : Expr F V} {v : Option V}
    (h : Means (valueAlgebra cat fn isTrue) (argEnv valueAtom 0 σs args) e (.val v))
    (hargs : ArgsFit cat σs args) :
    (CallsEmbedded cat fn isTrue (callSlots σs args) e ∧
      Raises cat (pureRuntime fn isTrue) args e .notSerialized) ∨
    (¬ CallsEmbedded cat fn isTrue (callSlots σs args) e ∧
      Evaluates cat (pureRuntime fn isTrue) args e (v.map .atom)) := by
  rw [← callSlots_fst] at h
  rcases nestedSpec_of_means h rfl args (represents_args hargs) with hcall | ⟨hno, _, hv, rfl⟩
  · exact .inl hcall
  · exact .inr ⟨hno, hv⟩

end Equivalence

end HolLambdas.Scalar
