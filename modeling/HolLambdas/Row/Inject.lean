import HolLambdas.Scalar.Inject

/-!
# Row-context injection

`lambda_injector` of `lambda_injector.c`. A table function is given a mother
lambda over rows, say over a data row `a` and a row `b` of lambdas, whose body
refers to fields (`a.x`) and calls function columns (`b.f(a.x, 2)`, where an
argument may also name a function, as in `b.g(a.x, b.f)`). Before it is run, each
call is replaced by the body of the lambda that the current row `b` holds in that
column.

The lambdas come from columns, so they are scalar ones, with inputs numbered from
0 and calls of their own; the injector refuses any other kind. Two walkers work
together. `mother_mutator_callback` walks the mother and stops at a call;
`inject_scalar_child_from_row_context` binds the call's arguments as they stand
and lets the scalar walker build the callee's body over them. What the scalar
walker returns is not walked again.

In the source both kinds of trees are made of the same nodes. Here the mother is
a `RowBody`; what is built is an `Expr` over the functions `RowFunc F`, which are
those of `F` and, as nodes that the scalar walker never looks into, the field
references and the calls of the mother. A branch of `mother_mutator_callback` is
for callees with rows of their own; it is dead, since the injector has refused
them, and is left out.
-/

namespace HolLambdas.Row

open Scalar

/-- Functions and operators, and the nodes that occur in row context only:
`FieldSelect` over the `Param` of a row, and `LambdaFuncAliasExpr` with the row and
column it names, both counted from 1. -/
inductive RowFunc (F : Type) where
  | op (funcid : F)
  | field (paramid fieldnum : Nat) (resulttype : Oid)
  | lfa (name : List String) (rettype : Oid) (param_id fieldSelect_id : Nat)
deriving DecidableEq, Repr

/-- The body of a row-context lambda. An alias without arguments is a function
passed by name. -/
inductive RowBody (F V : Type) where
  | const (consttype : Oid) (constvalue : Option V)
  | field (paramid fieldnum : Nat) (resulttype : Oid)
  | func (funcid : F) (args : List (RowBody F V))
  | caseWhen (casetype : Oid) (cond result defresult : RowBody F V)
  | coalesce (coalescetype : Oid) (first rest : RowBody F V)
  | lfa (name : List String) (rettype : Oid) (param_id fieldSelect_id : Nat)
      (args : List (RowBody F V))
deriving Repr

variable {F V : Type}

/-! ## Nodes of both kinds as one tree -/

mutual

/-- A scalar body as a tree over the larger set of functions. -/
def embed : Expr F V → Expr (RowFunc F) V
  | .const t v => .const t v
  | .param k t => .param k t
  | .func f args => .func (.op f) (embedArgs args)
  | .caseWhen t c r d => .caseWhen t (embed c) (embed r) (embed d)
  | .coalesce t a b => .coalesce t (embed a) (embed b)
  | .lfa name t k args => .lfa name t k (embedArgs args)
  | .lambda h e => .lambda h (embed e)

def embedArgs : List (Expr F V) → List (Expr (RowFunc F) V)
  | [] => []
  | e :: es => embed e :: embedArgs es

end

/-- A scalar lambda among row lambdas. -/
def embedLambda (le : LambdaExpr F V) : LambdaExpr (RowFunc F) V :=
  { toLambdaHeader := le.toLambdaHeader, expr := embed le.expr }

mutual

/-- A part of the mother as a tree, calls included: what `copyObject` of an argument
is. -/
def RowBody.node : RowBody F V → Expr (RowFunc F) V
  | .const t v => .const t v
  | .field p k t => .func (.field p k t) []
  | .func f args => .func (.op f) (nodes args)
  | .caseWhen t c r d => .caseWhen t c.node r.node d.node
  | .coalesce t a b => .coalesce t a.node b.node
  | .lfa name t p k args => .func (.lfa name t p k) (nodes args)

def RowBody.nodes : List (RowBody F V) → List (Expr (RowFunc F) V)
  | [] => []
  | e :: es => e.node :: nodes es

end

/-- The row and column of a function passed by name. -/
def RowBody.byName : RowBody F V → Option (Nat × Nat)
  | .lfa _ _ p k [] => some (p, k)
  | _ => none

def RowFunc.isLfa : RowFunc F → Bool
  | .lfa _ _ _ _ => true
  | _ => false

mutual

/-- Is there a `LambdaFuncAliasExpr` in the tree, of either kind? -/
def hasAlias : Expr (RowFunc F) V → Bool
  | .const _ _ => false
  | .param _ _ => false
  | .func f args => f.isLfa || hasAliasArgs args
  | .caseWhen _ c r d => hasAlias c || hasAlias r || hasAlias d
  | .coalesce _ a b => hasAlias a || hasAlias b
  | .lfa _ _ _ _ => true
  | .lambda _ e => hasAlias e

def hasAliasArgs : List (Expr (RowFunc F) V) → Bool
  | [] => false
  | e :: es => hasAlias e || hasAliasArgs es

end

/-! ## The injector -/

/-- The errors of the row-context injector, with the numbers their messages print. -/
inductive RowError where
  /-- "LFA param_id %d out of bounds" -/
  | paramId (id : Nat)
  /-- "LFA fieldSelect_id %d out of bounds" -/
  | fieldSelectId (id : Nat)
  /-- "No valid lambda found for LFA %s" -/
  | noValidLambda (name : List String)
  /-- "scalar child called with %d args, expected %d" -/
  | childArity (passes expected : Nat)
  /-- "scalar child arg param_id %d out of bounds" -/
  | childArgParamId (id : Nat)
  /-- "scalar child arg fieldSelect_id %d out of bounds" -/
  | childArgFieldSelectId (id : Nat)
  /-- "Non-column-stored Lambda function passed to injector!" -/
  | notColumnStored
  /-- The tuple has no value in the column; the source would follow a null pointer. -/
  | noDatum (tupleIdx colIdx : Nat)
  /-- An error of the scalar walker. -/
  | scalar (e : LambdaError)
deriving DecidableEq, Repr

/-- The element with number `i`, counted from 1. -/
def nth1 {α : Type} (xs : List α) (i : Nat) : Option α :=
  if i = 0 then none else xs[i - 1]?

/-- The injector's `args`: for each row and column the lambda found there, nothing
for an atomic column. -/
abbrev MotherArgs (F V : Type) := List (List (Option (LambdaExpr (RowFunc F) V)))

/-- Both walkers look a row and a column up, each with messages of its own. -/
def motherArg (perr ferr : Nat → RowError) (args : MotherArgs F V) (p k : Nat) :
    Except RowError (Option (LambdaExpr (RowFunc F) V)) :=
  match nth1 args p with
  | none => .error (perr p)
  | some tuple =>
    match nth1 tuple k with
    | none => .error (ferr k)
    | some entry => .ok entry

/-- What an argument of a call is bound to: a function passed by name to the lambda
found for it, anything else as it stands. -/
def childBinding (args : MotherArgs F V) (arg : RowBody F V) :
    Except RowError (Option (Expr (RowFunc F) V)) :=
  match arg.byName with
  | some pk => do
    let concrete ← motherArg .childArgParamId .childArgFieldSelectId args pk.1 pk.2
    return concrete.map LambdaExpr.toExpr
  | none => .ok (some arg.node)

/-- The arguments of a call as bindings of the callee. -/
def childBindings (args : MotherArgs F V) :
    List (RowBody F V) → Except RowError (List (Option (Expr (RowFunc F) V)))
  | [] => .ok []
  | arg :: rest => do
    let b ← childBinding args arg
    let bs ← childBindings args rest
    return b :: bs

/-- `inject_scalar_child_from_row_context`. -/
def injectScalarChild (fuel : Nat) (args : MotherArgs F V) (child : LambdaExpr (RowFunc F) V)
    (callArgs : List (RowBody F V)) : Except RowError (Expr (RowFunc F) V) :=
  if callArgs.length ≠ child.nargs then .error (.childArity callArgs.length child.nargs)
  else do
    let binding ← childBindings args callArgs
    (scalarInjectWalk fuel { binding } child.expr).mapError .scalar

mutual

/-- `mother_mutator_callback`. The scalar walker is given `fuel` inlined calls. -/
def motherMutator (fuel : Nat) (args : MotherArgs F V) :
    RowBody F V → Except RowError (Expr (RowFunc F) V)
  | .const t v => .ok (.const t v)
  | .field p k t => .ok (.func (.field p k t) [])
  | .func f es => do
    let es' ← motherMutatorArgs fuel args es
    return .func (.op f) es'
  | .caseWhen t c r d => do
    let c' ← motherMutator fuel args c
    let r' ← motherMutator fuel args r
    let d' ← motherMutator fuel args d
    return .caseWhen t c' r' d'
  | .coalesce t a b => do
    let a' ← motherMutator fuel args a
    let b' ← motherMutator fuel args b
    return .coalesce t a' b'
  | .lfa name _ p k es => do
    let target ← motherArg .paramId .fieldSelectId args p k
    match target with
    | none => .error (.noValidLambda name)
    | some child => injectScalarChild fuel args child es

def motherMutatorArgs (fuel : Nat) (args : MotherArgs F V) :
    List (RowBody F V) → Except RowError (List (Expr (RowFunc F) V))
  | [] => .ok []
  | e :: es => do
    let e' ← motherMutator fuel args e
    let es' ← motherMutatorArgs fuel args es
    return e' :: es'

end

/-- The entry of `args` for a declared column: a function is deserialized from the
tuple's value in the same position. -/
def injectorEntry (innerLambdas : List (List (Option (Datum F V)))) (tupleIdx colIdx : Nat)
    (input : LambdaSigType) : Except RowError (Option (LambdaExpr (RowFunc F) V)) :=
  if input.isFunction then
    match (innerLambdas[tupleIdx]?).bind (fun tuple => (tuple[colIdx]?).join) with
    | none => .error (.noDatum tupleIdx colIdx)
    | some d => do
      let le ← (lambdaDeserialize d).mapError .scalar
      if le.lambdakind = .scalar then return some (embedLambda le)
      else .error .notColumnStored
  else .ok none

def injectorRow (innerLambdas : List (List (Option (Datum F V)))) (tupleIdx : Nat)
    (inputs : List LambdaSigType) :
    Except RowError (List (Option (LambdaExpr (RowFunc F) V))) :=
  inputs.zipIdx.mapM fun x => injectorEntry innerLambdas tupleIdx x.2 x.1

/-- What `lambda_injector` hands to the mutator. -/
def injectorArgs (innerLambdas : List (List (Option (Datum F V))))
    (argtypes : List (List LambdaSigType)) : Except RowError (MotherArgs F V) :=
  argtypes.zipIdx.mapM fun x => injectorRow innerLambdas x.2 x.1

/-- `lambda_injector`: the body of the mother with its calls replaced. `argtypes`
declares the columns of each row, `innerLambdas` is the current tuple of each. -/
def lambdaInjector (fuel : Nat) (argtypes : List (List LambdaSigType)) (mother : RowBody F V)
    (innerLambdas : List (List (Option (Datum F V)))) : Except RowError (Expr (RowFunc F) V) := do
  let args ← injectorArgs innerLambdas argtypes
  motherMutator fuel args mother

end HolLambdas.Row
