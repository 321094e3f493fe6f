import HolLambdas.Scalar.Inject
import HolLambdas.Scalar.Fold

/-!
# Running a lambda call

`ExecEvalCallLambdaExpr` and what it rests on: the steps `ExecInitExprRec`
compiles a body into, and `lambda_cache_build`, which decides what body a call
runs.

A body reads its inputs from a frame, the `PARAM_EXEC` array that replaces the
query's while the body runs. A function-input call loads the callee from the
frame, evaluates all of its arguments, and then calls: the callee's body runs in
a fresh frame that holds the arguments. An embedded lambda is compiled into a
constant step whose value is the address of the node — it is *not* serialized
(`LambdaRepr.node`), and detoasting it later fails.

With `custom_lambda_hoisting_var` on, a called lambda whose body contains a
function-input call is first flattened by the scalar injector and then constant
folded; with it off, the stored body runs and the calls in it are nested calls.

The compiled body is cached per combination of lambda values. The cache changes
no result of a single call and is left out here.
-/

namespace HolLambdas.Scalar

variable {F V : Type} {m : Type → Type} [Monad m] [MonadExceptOf LambdaError m]

/-- `exprType`. -/
def Expr.exprType (cat : ProcCatalog F) : Expr F V → Oid
  | .const t _ => t
  | .param _ t => t
  | .func f _ => cat.prorettype f
  | .caseWhen t _ _ _ => t
  | .coalesce t _ _ => t
  | .lfa _ t _ _ => t
  | .lambda _ _ => LAMBDAOID

/-! ## Steps -/

/-- A `PARAM_EXEC` load. -/
def readParam (frame : List (Option (Datum F V))) (k : Nat) : m (Option (Datum F V)) :=
  match frame[k]? with
  | some v => pure v
  | none => throw (.noSuchParam k)

/-- The arguments of an SQL function: atomic values or NULL. -/
def atoms? : List (Option (Datum F V)) → Option (List (Option V))
  | [] => some []
  | none :: vs => (atoms? vs).map (none :: ·)
  | some (.atom v) :: vs => (atoms? vs).map (some v :: ·)
  | some (.lambda _ _) :: _ => none

/-- A function call step: a strict function is not called on NULL. -/
def callFunction (cat : ProcCatalog F) (rt : Runtime F V m) (f : F) (vs : List (Option V)) :
    m (Option V) :=
  if cat.proisstrict f && vs.any Option.isNone then pure none else rt.call f vs

/-- The test of a `CASE` arm. -/
def datumHolds (isTrue : V → Bool) : Option (Datum F V) → Bool
  | some (.atom v) => isTrue v
  | _ => false

/-- `CallLambdaExprState` at the moment of the call: the callee, and the static
types and the values of the arguments. -/
structure CallLambdaExprState (F V : Type) where
  lambdaValue : Option (Datum F V)
  argTypes : List Oid
  argvalues : List (Option (Datum F V))

section Exec

variable (cat : ProcCatalog F) (rt : Runtime F V m)

section Steps

variable (call : CallLambdaExprState F V → m (Option (Datum F V)))
variable (frame : List (Option (Datum F V)))

mutual

/-- The value of an expression in a frame; `call` is the step of a
function-input call. -/
def execExprWith : Expr F V → m (Option (Datum F V))
  | .const _ v => pure (v.map .atom)
  | .param k _ => readParam frame k
  | .func f args => do
    let vs ← execArgsWith args
    match atoms? vs with
    | some as => do
      let v ← callFunction cat rt f as
      pure (v.map .atom)
    | none => throw .wrongKind
  | .caseWhen _ c r d => do
    let v ← execExprWith c
    if datumHolds rt.isTrue v then execExprWith r else execExprWith d
  | .coalesce _ a b => do
    let v ← execExprWith a
    if v.isSome then pure v else execExprWith b
  | .lfa _ _ k args => do
    let lambdaValue ← readParam frame k
    let argvalues ← execArgsWith args
    call { lambdaValue, argTypes := args.map (Expr.exprType cat), argvalues }
  | .lambda h e => pure (some (.lambda .node { toLambdaHeader := h, expr := e }))

def execArgsWith : List (Expr F V) → m (List (Option (Datum F V)))
  | [] => pure []
  | e :: es => do
    let v ← execExprWith e
    let vs ← execArgsWith es
    pure (v :: vs)

end

end Steps

/-! ## The body of a call -/

/-- An `Except` computation inside the executor's monad. -/
def liftError {α : Type} : Except LambdaError α → m α
  | .ok a => pure a
  | .error e => throw e

theorem liftError_except {α : Type} (x : Except LambdaError α) :
    (liftError x : Except LambdaError α) = x := by
  cases x <;> rfl

/-- `lambda_cache_build`: the body a call of `le` runs. -/
def lambdaCacheBuild (hoisting : Bool) (fuel : Nat) (le : LambdaExpr F V)
    (st : CallLambdaExprState F V) : m (Expr F V) :=
  let nargs := st.argvalues.length
  -- the body's frame has one slot per call argument
  if le.nargs > nargs then throw (.takesPasses le.nargs nargs)
  else if hoisting && le.expr.hasLfa then
    -- every argument the injector embeds must be part of the cache key
    match (lambdaScalarFuncInputs le.expr nargs).find?
        fun i => st.argTypes[i]? ≠ some LAMBDAOID with
    | some i => throw (.embeddedNotLambdaTyped (i + 1))
    | none => do
      let injected ← liftError (lambdaInjectorScalar fuel le st.argvalues)
      evalConstExpressions cat rt injected.expr
  else pure le.expr

/-- `ExecEvalCallLambdaExpr` without held arguments, at most `fuel` calls deep. -/
def execEvalCallLambdaExpr (hoisting : Bool) :
    (fuel : Nat) → CallLambdaExprState F V → m (Option (Datum F V))
  | 0, _ => throw .outOfFuel
  | n + 1, st =>
    match st.lambdaValue with
    | none => pure none
    | some (.atom _) => throw .wrongKind
    | some (.lambda repr le) => do
      rt.detoast repr
      let body ← lambdaCacheBuild cat rt hoisting n le st
      execExprWith cat rt (execEvalCallLambdaExpr hoisting n) st.argvalues body

/-- An expression evaluated in a frame, its function-input calls nested calls. -/
def execExpr (hoisting : Bool) (fuel : Nat) (frame : List (Option (Datum F V))) (e : Expr F V) :
    m (Option (Datum F V)) :=
  execExprWith cat rt (execEvalCallLambdaExpr cat rt hoisting fuel) frame e

/-! ## Partial application -/

/-- Spread the filled arguments over `n` positions, the first of which is `p`;
held positions get no value. -/
def spreadFilled (held : Nat → Bool) : (p n : Nat) → List (Option (Datum F V)) →
    Except LambdaError (List (Option (Datum F V)))
  | _, 0, _ => .ok []
  | p, n + 1, args =>
    if held p then (none :: ·) <$> spreadFilled held (p + 1) n args
    else
      match args with
      | [] => .error .fewerFilledArgs
      | v :: vs => (v :: ·) <$> spreadFilled held (p + 1) n vs

/-- `ExecEvalCallLambdaExpr` with held arguments: the value of the call is the
residual lambda, serialized. `args` are the filled arguments only. -/
def execPartialApply (fuel : Nat) (lambdaValue : Option (Datum F V)) (held : Nat → Bool)
    (args : List (Option (Datum F V))) : m (Option (Datum F V)) :=
  match lambdaValue with
  | none => pure none
  | some (.atom _) => throw .wrongKind
  | some (.lambda repr mother) => do
    rt.detoast repr
    let fullVals ← liftError (spreadFilled held 0 mother.nargs args)
    let residual ← liftError (lambdaPartialApply fuel mother held fullVals)
    let expr ← evalConstExpressions cat rt residual.expr
    pure (some (.lambda .serialized { residual with expr }))

end Exec

/-! ## Runtimes -/

/-- What detoasting does: a node address is no varlena. -/
def detoastDatum : LambdaRepr → m Unit
  | .serialized => pure ()
  | .node => throw .notSerialized

/-- The runtime of functions that may raise and have no other effect. -/
def raisingRuntime (fn : F → List (Option V) → Except LambdaError (Option V))
    (isTrue : V → Bool) : Runtime F V (Except LambdaError) :=
  { call := fn, isTrue, detoast := detoastDatum }

/-- The runtime of pure, total functions. -/
def pureRuntime (fn : F → List (Option V) → Option V) (isTrue : V → Bool) :
    Runtime F V (Except LambdaError) :=
  raisingRuntime (fun f vs => .ok (fn f vs)) isTrue

/-! ## A concrete instance

Integer arithmetic, enough to run the executor on: addition, division, which
raises, and a comparison. -/

def INT4OID : Oid := 23

def BOOLOID : Oid := 16

/-- The functions of a small catalog. -/
inductive ArithFunc where
  | plus
  | divide
  | greater
deriving DecidableEq, Repr

def arithCatalog : ProcCatalog ArithFunc where
  proisstrict _ := true
  provolatile _ := .immutable
  proargtypes _ := [INT4OID, INT4OID]
  prorettype
    | .greater => BOOLOID
    | _ => INT4OID

def arithFn : ArithFunc → List (Option Int) → Except LambdaError (Option Int)
  | .plus, [some a, some b] => .ok (some (a + b))
  | .divide, [some a, some b] =>
    if b = 0 then .error (.raised "division by zero") else .ok (some (a.tdiv b))
  | .greater, [some a, some b] => .ok (some (if a > b then 1 else 0))
  | _, _ => .ok none

/-- The same functions made total: NULL where they would raise. -/
def arithTotalFn (f : ArithFunc) (vs : List (Option Int)) : Option Int :=
  match arithFn f vs with
  | .ok v => v
  | .error _ => none

def arithTotalRuntime : Runtime ArithFunc Int (Except LambdaError) :=
  pureRuntime arithTotalFn fun v => v != 0

/-- A scalar lambda as the parser builds it. -/
def scalarLambda {F V : Type} (argnames : List String) (rettype : Oid) (expr : Expr F V) :
    LambdaExpr F V :=
  { lambdakind := .scalar, argnames, rettype, rettypmod := -1, lambdatypmod := 0,
    isStrict := false, expr }

end HolLambdas.Scalar
