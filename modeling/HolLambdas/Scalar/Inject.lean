import HolLambdas.Scalar.Nodes

/-!
# The scalar inliner and partial application

`lambda_injector.c`, the scalar half. One tree walk, `scalar_inject_walk`, does
all the rewriting. It carries a binding for each input of the lambda scope it
is in, and replaces

* a reference to a bound input by (a copy of) its binding, without walking the
  copy again;
* a call of an input bound to a lambda by that lambda's body, walked in a new
  scope whose bindings are the walked arguments;
* a call of an input bound to a `Param` by a call of that `Param`'s input.

The new scope is where the walk is not structural: the callee's body is no
part of the tree being walked. So the walk is split into the structural part,
`scalarInjectWalkWith`, which is handed what to do with a callee's body, and the
knot `scalarInjectCallee`, which spends one unit of fuel on each inlined call.

Two callers build the bindings. `lambda_injector_scalar` binds every function
input to the lambda supplied for it and leaves the atomic inputs alone.
`lambda_partial_apply` binds every position of the mother: a held position to a
`Param` of the residual, a filled one to the supplied lambda or constant.
-/

namespace HolLambdas.Scalar

variable {F V : Type}

/-! ## Values -/

/-- A non-null datum in a parameter slot. -/
inductive Datum (F V : Type) where
  | atom (v : V)
  | lambda (repr : LambdaRepr) (le : LambdaExpr F V)
deriving Repr

/-- `lambda_deserialize(PG_DETOAST_DATUM(d))`. Only the serialized form passes
the checks on the header. -/
def lambdaDeserialize : Datum F V → Except LambdaError (LambdaExpr F V)
  | .lambda .serialized le => .ok le
  | .lambda .node _ => .error .notSerialized
  | .atom _ => .error .wrongKind

/-! ## The walk -/

/-- `ScalarBind`: what each input of the current scope resolves to (`none` is
the source's NULL: leave a reference as it is), and the names of the residual's
slots, empty outside partial application. -/
structure ScalarBind (F V : Type) where
  binding : List (Option (Expr F V))
  slotnames : List (List String) := []

/-- The name a call retargeted to slot `id` gets. -/
def ScalarBind.slotname (ctx : ScalarBind F V) (id : Nat) (name : List String) : List String :=
  (ctx.slotnames[id]?).getD name

/-- What a bare reference to input `k` becomes. -/
def ScalarBind.resolve (ctx : ScalarBind F V) (k : Nat) (node : Expr F V) : Expr F V :=
  match ctx.binding[k]? with
  | some (some b) => b
  | _ => node

mutual

/-- One scope of `scalar_inject_walk`; `inl` walks the body of a callee. -/
def scalarInjectWalkWith
    (inl : ScalarBind F V → Expr F V → Except LambdaError (Expr F V)) (ctx : ScalarBind F V) :
    Expr F V → Except LambdaError (Expr F V)
  | .const t v => .ok (.const t v)
  | .param k t => .ok (ctx.resolve k (.param k t))
  | .func f args => do
    let args' ← scalarInjectWalkArgs inl ctx args
    return .func f args'
  | .caseWhen t c r d => do
    let c' ← scalarInjectWalkWith inl ctx c
    let r' ← scalarInjectWalkWith inl ctx r
    let d' ← scalarInjectWalkWith inl ctx d
    return .caseWhen t c' r' d'
  | .coalesce t a b => do
    let a' ← scalarInjectWalkWith inl ctx a
    let b' ← scalarInjectWalkWith inl ctx b
    return .coalesce t a' b'
  | .lfa name t k args =>
    match ctx.binding[k]? with
    | none => .error (.inputOutOfRange k)
    | some (some (.lambda h body)) =>
      -- the callee is a concrete lambda: inline its body
      if args.length ≠ h.nargs then .error (.callArity k args.length h.nargs)
      else do
        let args' ← scalarInjectWalkArgs inl ctx args
        inl { ctx with binding := args'.map some } body
    | some (some (.param id _)) => do
      -- the callee is an open input: keep the call, retarget it
      let args' ← scalarInjectWalkArgs inl ctx args
      return .lfa (ctx.slotname id name) t id args'
    | some _ => .error (.notAFunction k)
  | .lambda h e => .ok (.lambda h e)

def scalarInjectWalkArgs
    (inl : ScalarBind F V → Expr F V → Except LambdaError (Expr F V)) (ctx : ScalarBind F V) :
    List (Expr F V) → Except LambdaError (List (Expr F V))
  | [] => .ok []
  | e :: es => do
    let e' ← scalarInjectWalkWith inl ctx e
    let es' ← scalarInjectWalkArgs inl ctx es
    return e' :: es'

end

/-- The walk of a callee's body, `fuel` inlined calls deep. -/
def scalarInjectCallee : (fuel : Nat) → ScalarBind F V → Expr F V → Except LambdaError (Expr F V)
  | 0, _, _ => .error .outOfFuel
  | n + 1, ctx, e => scalarInjectWalkWith (scalarInjectCallee n) ctx e

/-- `scalar_inject_walk`, at most `fuel` inlined calls deep. -/
def scalarInjectWalk (fuel : Nat) (ctx : ScalarBind F V) (e : Expr F V) :
    Except LambdaError (Expr F V) :=
  scalarInjectWalkWith (scalarInjectCallee fuel) ctx e

/-! ## `lambda_injector_scalar` -/

/-- The binding of input `i` for a full application. -/
def injectorBinding (body : Expr F V) (v : Option (Datum F V)) (i : Nat) :
    Except LambdaError (Option (Expr F V)) :=
  if body.isFunc i then
    match v with
    | none => .error (.functionInputNull i)
    | some d => do
      let le ← lambdaDeserialize d
      return some le.toExpr
  else .ok none

/-- `lambda_injector_scalar`: the mother with every function input inlined. -/
def lambdaInjectorScalar (fuel : Nat) (mother : LambdaExpr F V)
    (argvalues : List (Option (Datum F V))) : Except LambdaError (LambdaExpr F V) := do
  let binding ← argvalues.zipIdx.mapM fun (v, i) => injectorBinding mother.expr v i
  let expr ← scalarInjectWalk fuel { binding } mother.expr
  return { mother with expr }

/-! ## `lambda_partial_apply` -/

/-- `newidx[p]`: the number of held positions before `p`. -/
def newidx (held : Nat → Bool) (p : Nat) : Nat :=
  (List.range p).countP held

/-- The entries of a position-indexed list whose position is wanted, in order.
The first entry of the list has position `p`. -/
def selectFrom {α : Type} (want : Nat → Bool) (p : Nat) : List α → List α
  | [] => []
  | x :: xs => if want p then x :: selectFrom want (p + 1) xs else selectFrom want (p + 1) xs

/-- The binding of the mother's position `p` in a partial application. -/
def partialBinding (body : Expr F V) (held : Nat → Bool) (v : Option (Datum F V)) (p : Nat) :
    Except LambdaError (Option (Expr F V)) :=
  if held p then
    -- a held function that is only ever called has no reference to copy
    .ok (some (.param (newidx held p) ((body.proto p).getD LAMBDAOID)))
  else if body.isFunc p then
    match v with
    | none => .error (.filledFunctionInputNull p)
    | some d => do
      let le ← lambdaDeserialize d
      return some le.toExpr
  else
    match body.proto p, v with
    | some t, none => .ok (some (.const t none))
    | some t, some (.atom a) => .ok (some (.const t (some a)))
    | some _, some (.lambda _ _) => .error .wrongKind
    | none, _ => .ok none

/-- `lambda_partial_apply`: `vals` has one entry for each input of the mother,
those of held positions are not read. -/
def lambdaPartialApply (fuel : Nat) (mother : LambdaExpr F V) (held : Nat → Bool)
    (vals : List (Option (Datum F V))) : Except LambdaError (LambdaExpr F V) := do
  let heldnames := selectFrom held 0 mother.argnames
  let binding ← vals.zipIdx.mapM fun (v, p) => partialBinding mother.expr held v p
  let expr ← scalarInjectWalk fuel
    { binding, slotnames := heldnames.map fun name => [name] } mother.expr
  return {
    lambdakind := .scalar
    argnames := heldnames
    rettype := mother.rettype
    rettypmod := mother.rettypmod
    lambdatypmod := -1
    isStrict := mother.isStrict
    expr }

end HolLambdas.Scalar
