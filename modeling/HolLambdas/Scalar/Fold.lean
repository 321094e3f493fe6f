import HolLambdas.Scalar.Nodes

/-!
# Functions, and constant folding

What the rest of the development knows about SQL functions is split in two. The
*catalog* is the part of `pg_proc` that the planner and the executor consult:
strictness, volatility, argument and result types. The *runtime* is what a call
does. It lives in an arbitrary monad, so one definition of the executor serves
total functions, functions that raise, and functions with effects.

`eval_const_expressions` (`clauses.c`) walks a tree bottom up. A call of a
strict function with a NULL constant among its arguments becomes NULL whatever
the other arguments are; a call of an immutable function on constants is
evaluated on the spot; a `CASE` or `COALESCE` whose deciding operand is constant
loses the operands it can no longer reach. Function-input calls and embedded
lambdas are not known to the folder, which processes them generically: it folds
the arguments of the former and the bodies of the latter.

The walk is written over the evaluator it uses for constant calls. With the
runtime's own evaluator it is `evalConstExpressions`, and an error raised by a
constant call is raised by the folding.
-/

namespace HolLambdas.Scalar

variable {F V : Type} {m : Type → Type} [Monad m]

/-- `provolatile`. -/
inductive Provolatile where
  | immutable
  | stable
  | volatile
deriving DecidableEq, Repr

/-- The columns of `pg_proc` that are consulted here. -/
structure ProcCatalog (F : Type) where
  proisstrict : F → Bool
  provolatile : F → Provolatile
  proargtypes : F → List Oid
  prorettype : F → Oid

/-- What running SQL code does: calling a function, reading a boolean, and
detoasting a lambda value that is about to be called. -/
structure Runtime (F V : Type) (m : Type → Type) where
  call : F → List (Option V) → m (Option V)
  isTrue : V → Bool
  detoast : LambdaRepr → m Unit

namespace Expr

/-- A `Const` node that is NULL. -/
def isNullConst : Expr F V → Bool
  | const _ none => true
  | _ => false

/-- The value of a `Const` node. -/
def constValue? : Expr F V → Option (Option V)
  | const _ v => some v
  | _ => none

/-- The values of a list of `Const` nodes, if all of them are. -/
def constValues? : List (Expr F V) → Option (List (Option V))
  | [] => some []
  | e :: es => match constValue? e, constValues? es with
    | some v, some vs => some (v :: vs)
    | _, _ => none

end Expr

/-- A deciding operand counts as true when it is a non-null true value. -/
def condHolds (isTrue : V → Bool) (v : Option V) : Bool :=
  v.any isTrue

section Fold

variable (cat : ProcCatalog F) (isTrue : V → Bool)
variable (eval : F → List (Option V) → m (Option (Option V)))

/-- `evaluate_function` on folded arguments. `eval` evaluates a call on
constants; it answers `none` to leave the call alone. -/
def evaluateFunction (f : F) (args : List (Expr F V)) : m (Expr F V) :=
  if cat.proisstrict f && args.any Expr.isNullConst then
    pure (.const (cat.prorettype f) none)
  else if cat.provolatile f = .immutable then
    match Expr.constValues? args with
    | some vs => do
      match ← eval f vs with
      | some v => pure (.const (cat.prorettype f) v)
      | none => pure (.func f args)
    | none => pure (.func f args)
  else pure (.func f args)

mutual

/-- `eval_const_expressions_mutator`. -/
def evalConstExpressionsWith : Expr F V → m (Expr F V)
  | .const t v => pure (.const t v)
  | .param k t => pure (.param k t)
  | .func f args => do
    let args' ← evalConstExpressionsArgs args
    evaluateFunction cat eval f args'
  | .caseWhen t c r d => do
    let c' ← evalConstExpressionsWith c
    match c'.constValue? with
    | some v =>
      if condHolds isTrue v then evalConstExpressionsWith r else evalConstExpressionsWith d
    | none => do
      let r' ← evalConstExpressionsWith r
      let d' ← evalConstExpressionsWith d
      pure (.caseWhen t c' r' d')
  | .coalesce t a b => do
    let a' ← evalConstExpressionsWith a
    match a'.constValue? with
    | some none => evalConstExpressionsWith b
    | some (some _) => pure a'
    | none => do
      let b' ← evalConstExpressionsWith b
      pure (.coalesce t a' b')
  | .lfa name t k args => do
    let args' ← evalConstExpressionsArgs args
    pure (.lfa name t k args')
  | .lambda h e => do
    let e' ← evalConstExpressionsWith e
    pure (.lambda h e')

def evalConstExpressionsArgs : List (Expr F V) → m (List (Expr F V))
  | [] => pure []
  | e :: es => do
    let e' ← evalConstExpressionsWith e
    let es' ← evalConstExpressionsArgs es
    pure (e' :: es')

end

end Fold

/-- `eval_const_expressions`: constant calls run, and what they raise is raised. -/
def evalConstExpressions (cat : ProcCatalog F) (rt : Runtime F V m) (e : Expr F V) :
    m (Expr F V) :=
  evalConstExpressionsWith cat rt.isTrue (fun f vs => some <$> rt.call f vs) e

end HolLambdas.Scalar
