import HolLambdas.Signature

/-!
# Expression trees of scalar lambda bodies

A lambda stored in a column ("scalar context") has a body that is an ordinary
expression tree over its own inputs. Three node types are new in this code
base, and they are the ones the inliner and the interpreter are about:

* `Param` with `paramkind = PARAM_EXEC` and `lambda = true` — a reference to
  input number `paramid` of the enclosing lambda (`Expr.param`);
* `LambdaFuncAliasExpr` ("LFA") — a call of the function held by input number
  `fieldSelect_id` (`Expr.lfa`);
* `LambdaExpr` — a lambda value embedded in the tree (`Expr.lambda`). Its body
  has an index space of its own: inside it, input 0 is the embedded lambda's
  first input.

The remaining constructors are the host language. Function calls and operators
are one form, over an arbitrary type `F` of function OIDs. `CASE` and
`COALESCE` are kept apart because they decide which of their operands are
evaluated. A `CASE` with several arms is a chain through the default result,
and `COALESCE(a, b, c)` is the chain `a, (b, (c, NULL))`; both the executor and
the constant folder treat the arms one after the other, so the chains lose
nothing.

The type parameters are the function OIDs `F` and the by-value representation
`V` of non-null atomic values; SQL `NULL` is `none`.
-/

namespace HolLambdas.Scalar

/-- `lambdakind` of a `LambdaExpr`. -/
inductive LambdaKind where
  | row
  | scalar
deriving DecidableEq, Repr, Inhabited

/-- The fields of a `LambdaExpr` other than its body. -/
structure LambdaHeader where
  lambdakind : LambdaKind
  argnames : List String
  rettype : Oid
  rettypmod : Int
  lambdatypmod : Int
  isStrict : Bool
deriving DecidableEq, Repr, Inhabited

/-- Expression nodes that can occur in a scalar lambda body. -/
inductive Expr (F V : Type) where
  | const (consttype : Oid) (constvalue : Option V)
  | param (paramid : Nat) (paramtype : Oid)
  | func (funcid : F) (args : List (Expr F V))
  | caseWhen (casetype : Oid) (cond result defresult : Expr F V)
  | coalesce (coalescetype : Oid) (first rest : Expr F V)
  | lfa (name : List String) (rettype : Oid) (fieldSelectId : Nat) (args : List (Expr F V))
  | lambda (hdr : LambdaHeader) (expr : Expr F V)
deriving Repr, Inhabited

/-- A `LambdaExpr` with its body. -/
structure LambdaExpr (F V : Type) extends LambdaHeader where
  expr : Expr F V
deriving Repr, Inhabited

variable {F V : Type}

/-- The number of inputs of a lambda, `list_length(argnames)`. -/
def LambdaHeader.nargs (h : LambdaHeader) : Nat :=
  h.argnames.length

/-- The lambda as an expression node. -/
def LambdaExpr.toExpr (le : LambdaExpr F V) : Expr F V :=
  .lambda le.toLambdaHeader le.expr

/-- How a lambda value is represented: as the varlena `SerializedLambda`, or as
the address of a `LambdaExpr` node, which is what an `EEOP_CONST` step for an
embedded lambda yields. -/
inductive LambdaRepr where
  | serialized
  | node
deriving DecidableEq, Repr

/-! ## Errors -/

/-- Everything that can end an evaluation or a rewriting early. Apart from
`outOfFuel`, which the source does not have, each constructor is one
`elog`/`ereport` of the source with the numbers its message prints. -/
inductive LambdaError where
  /-- The fuel of the embedding ran out; the source would still be running. -/
  | outOfFuel
  /-- "scalar injector: function input %d out of range" -/
  | inputOutOfRange (k : Nat)
  /-- "scalar injector: call to input %d passes %d args, expected %d" -/
  | callArity (k passes expected : Nat)
  /-- "scalar injector: input %d is not a function" -/
  | notAFunction (k : Nat)
  /-- "scalar injector: function input %d is NULL" -/
  | functionInputNull (i : Nat)
  /-- "partial apply: filled function input %d is NULL" -/
  | filledFunctionInputNull (p : Nat)
  /-- "partial apply: fewer filled args than expected" -/
  | fewerFilledArgs
  /-- "lambda takes %d arguments, call passes %d" -/
  | takesPasses (takes passes : Nat)
  /-- "lambda argument %d is embedded into the body, but is not lambda-typed" -/
  | embeddedNotLambdaTyped (argno : Nat)
  /-- `lambda_deserialize` on a datum that is not a serialized lambda. -/
  | notSerialized
  /-- A read of a `PARAM_EXEC` slot the frame does not have. -/
  | noSuchParam (k : Nat)
  /-- A lambda where an atomic value is required, or the other way round. -/
  | wrongKind
  /-- An error raised by a function or operator. -/
  | raised (message : String)
deriving DecidableEq, Repr

/-! ## Walkers over a body -/

namespace Expr

mutual

/-- `has_lfa_walker`: does the tree contain a call of a function input? The
walker does not stop at embedded lambdas, so their calls count too. -/
def hasLfa : Expr F V → Bool
  | const _ _ => false
  | param _ _ => false
  | func _ args => hasLfaArgs args
  | caseWhen _ c r d => hasLfa c || hasLfa r || hasLfa d
  | coalesce _ a b => hasLfa a || hasLfa b
  | lfa _ _ _ _ => true
  | lambda _ e => hasLfa e

def hasLfaArgs : List (Expr F V) → Bool
  | [] => false
  | e :: es => hasLfa e || hasLfaArgs es

end

mutual

/-- Does the tree contain an embedded lambda value? -/
def hasLambda : Expr F V → Bool
  | const _ _ => false
  | param _ _ => false
  | func _ args => hasLambdaArgs args
  | caseWhen _ c r d => hasLambda c || hasLambda r || hasLambda d
  | coalesce _ a b => hasLambda a || hasLambda b
  | lfa _ _ _ args => hasLambdaArgs args
  | lambda _ _ => true

def hasLambdaArgs : List (Expr F V) → Bool
  | [] => false
  | e :: es => hasLambda e || hasLambdaArgs es

end

mutual

/-- `scalar_prescan_walker`, the `isFunc[k]` entry: input `k` is a function
input when it is called, or read as a value of type `lambda`. Embedded lambdas
are opaque, their inputs are numbered separately. -/
def isFunc (k : Nat) : Expr F V → Bool
  | const _ _ => false
  | param i t => i == k && t == LAMBDAOID
  | func _ args => isFuncArgs k args
  | caseWhen _ c r d => isFunc k c || isFunc k r || isFunc k d
  | coalesce _ a b => isFunc k a || isFunc k b
  | lfa _ _ i args => i == k || isFuncArgs k args
  | lambda _ _ => false

def isFuncArgs (k : Nat) : List (Expr F V) → Bool
  | [] => false
  | e :: es => isFunc k e || isFuncArgs k es

end

mutual

/-- `scalar_prescan_walker`, the `proto[k]` entry: the type of the first
reference to input `k` in walking order. -/
def proto (k : Nat) : Expr F V → Option Oid
  | const _ _ => none
  | param i t => if i = k then some t else none
  | func _ args => protoArgs k args
  | caseWhen _ c r d => (proto k c).or ((proto k r).or (proto k d))
  | coalesce _ a b => (proto k a).or (proto k b)
  | lfa _ _ _ args => protoArgs k args
  | lambda _ _ => none

def protoArgs (k : Nat) : List (Expr F V) → Option Oid
  | [] => none
  | e :: es => (proto k e).or (protoArgs k es)

end

end Expr

/-- `lambda_scalar_func_inputs`: the function inputs the prescan finds among
the first `nargs`, in increasing order. -/
def lambdaScalarFuncInputs (e : Expr F V) (nargs : Nat) : List Nat :=
  (List.range nargs).filter fun k => e.isFunc k

end HolLambdas.Scalar
