import HolLambdas.Scalar.Exec

/-!
# Parse analysis of lambda literals and lambda calls

`parse_expr.c`, `parse_func.c`: from raw syntax to the expression trees the rest
of the system works on.

A lambda literal outside a UDF is analysed against the signature of one column
of the `INSERT` target. While its body is transformed, a hook replaces every
column reference: a name is looked up among the literal's argument names, and
the signature's type *at that position* is the type of the reference. A call
whose name is an argument name becomes a call of that function input, with the
nested signature's types as the declared argument types.

A call of a lambda column is analysed against the column's own signature, in a
branch of its own.

What the lambda code does not add to the parser is a parameter here
(`ParserCatalog`): looking up functions, operators, casts and common types.
-/

namespace HolLambdas.Parse

open HolLambdas.Scalar

/-! ## Raw syntax -/

/-- The raw parse tree of a lambda body. -/
inductive RawExpr (V : Type) where
  | aConst (consttype : Oid) (val : Option V)
  | columnRef (fields : List String)
  | funcCall (funcname : List String) (args : List (RawExpr V))
  | aExpr (opname : String) (args : List (RawExpr V))
  | caseExpr (cond result defresult : RawExpr V)
  | coalesceExpr (first rest : RawExpr V)
  | lambdaExpr (argnames : List String) (expr : RawExpr V)
deriving Repr

/-- Induction over raw syntax, through the argument lists. -/
theorem RawExpr.induction {V : Type} {P : RawExpr V → Prop} (aConst : ∀ t v, P (.aConst t v))
    (columnRef : ∀ fields, P (.columnRef fields))
    (funcCall : ∀ funcname args, (∀ a ∈ args, P a) → P (.funcCall funcname args))
    (aExpr : ∀ opname args, (∀ a ∈ args, P a) → P (.aExpr opname args))
    (caseExpr : ∀ c r d, P c → P r → P d → P (.caseExpr c r d))
    (coalesceExpr : ∀ a b, P a → P b → P (.coalesceExpr a b))
    (lambdaExpr : ∀ argnames e, P e → P (.lambdaExpr argnames e)) (e : RawExpr V) : P e := by
  refine @RawExpr.rec V P (fun es => ∀ a ∈ es, P a) aConst columnRef funcCall aExpr caseExpr
    coalesceExpr lambdaExpr ?_ ?_ e
  · intro a h
    cases h
  · intro e es he hes a h
    rcases List.mem_cons.mp h with rfl | hmem
    · exact he
    · exact hes a hmem

/-- A lambda literal, as the grammar builds it. -/
structure LambdaLiteral (V : Type) where
  argnames : List String
  expr : RawExpr V
deriving Repr

/-- The errors of parse analysis, by their messages. -/
inductive ParseError where
  /-- "invalid column reference inside lambda expression" -/
  | invalidColumnReference
  /-- "variable not found in lambda expressions signature!" -/
  | variableNotFound
  /-- "lambda typmod %d does not reference a stored lambda signature" -/
  | noStoredSignature (typmod : Int)
  /-- A type modifier that is no key of `pg_lambdasig`. -/
  | lookupFailed (typmod : Int)
  /-- `TupleDescAttr` past the last attribute, which the source does not check. -/
  | noSuchAttribute (attno : Nat)
  /-- `list_nth` past the end of the signature's argument types, which the source
  only asserts not to happen. -/
  | noSuchArgument (idx : Nat)
  /-- A call of an atomic input: the source asserts that the input is a function
  and reads its nested signature. -/
  | notAFunction (idx : Nat)
  /-- "Declaration and definition of new lambda-function inside of another
  lambda-function!" -/
  | nestedLambda
  /-- "partial application of a lambda function input is not supported" -/
  | partialOfInput
  /-- "lambda function name \"%s\" collides with existing function namespace" -/
  | nameCollides (funcname : List String)
  /-- "function %s does not exist" -/
  | undefinedFunction (funcname : List String)
  /-- "schema \"%s\" does not exist" -/
  | undefinedSchema (nspname : String)
  /-- "operator does not exist: %s" -/
  | undefinedOperator (opname : String)
  /-- "failed to find conversion function from %s to %s" -/
  | cannotCoerce (actual target : Oid)
  /-- "%s types %s and %s cannot be matched" -/
  | noCommonType
  /-- "lambda column has no stored lambda signature" -/
  | columnWithoutSignature
  /-- "lambda expects %d arguments, got %d" -/
  | lambdaExpects (expects got : Nat)
  /-- "lambda argument %d expects a lambda value" -/
  | expectsLambda (argno : Nat)
  /-- "lambda argument %d cannot be coerced to type %s" -/
  | argumentNotCoercible (argno : Nat) (target : Oid)
  /-- "currently, called lambda functions cannot return lambda functions" -/
  | returnsLambda
  /-- "column \"%s\" of relation \"%s\" does not exist" -/
  | undefinedColumn (name : String)
  /-- "column \"%s\" specified more than once" -/
  | duplicateColumn (name : String)
  /-- "INSERT has more expressions than target columns" -/
  | moreExpressions
  /-- "INSERT has more target columns than expressions" -/
  | moreTargetColumns
  /-- "VALUES lists must all be the same length" -/
  | valuesLength
  /-- "cannot set a subfield to DEFAULT" -/
  | subfieldDefault
  /-- "column \"%s\" is of type %s but expression is of type %s" -/
  | datatypeMismatch (name : String)
deriving DecidableEq, Repr

/-! ## The catalogs -/

/-- Where a coercion is asked for, `CoercionContext`. -/
inductive CoercionContext where
  | implicit
  | assignment
  | explicit
deriving DecidableEq, Repr

/-- What `func_get_detail` finds. -/
inductive FuncDetail (F : Type) where
  | notfound
  | normal (funcid : F)
  /-- A call of a type name with one argument. -/
  | coercion (targetType : Oid)
  /-- Nothing: `FuncNameAsType` raises for a qualified name without a schema. -/
  | undefinedSchema (nspname : String)
deriving DecidableEq, Repr

/-- `pg_type` OID of string literals without a type. -/
def UNKNOWNOID : Oid := 705

/-- What parse analysis asks the catalogs. A cast function takes the type it
casts from and returns the type it casts to. -/
structure ParserCatalog (F V : Type) extends ProcCatalog F where
  /-- `func_get_detail` on a name and the actual argument types. -/
  funcGetDetail : List String → List Oid → FuncDetail F
  /-- `FuncnameGetCandidates` finds a function of this name and arity. -/
  isFunctionName : List String → Nat → Bool
  /-- The operator of a name for operands of these types. -/
  oper : String → List Oid → Option F
  /-- `select_common_type`. -/
  selectCommonType : List Oid → Option Oid
  booloid : Oid
  /-- `find_coercion_pathway` from one type to another. -/
  castFunction : CoercionContext → Oid → Oid → Option F
  /-- The input function of a type on a literal. -/
  typeInput : Oid → Option V → Option (Option V)
  castFunction_prorettype : ∀ c s t f, castFunction c s t = some f → prorettype f = t
  castFunction_proargtypes : ∀ c s t f, castFunction c s t = some f → proargtypes f = [s]

variable {F V : Type}

/-- `list_index` on a list of names. -/
def listIndex (names : List String) (name : String) : Option Nat :=
  names.findIdx? (· == name)

section Body

variable (cat : ParserCatalog F V)

/-! ## Coercions -/

/-- A cast applied to an expression. -/
def castExpr (ctx : CoercionContext) (actual target : Oid) (e : Expr F V) : Option (Expr F V) :=
  (cat.castFunction ctx actual target).map fun f => .func f [e]

/-- `coerce_type`: an untyped literal is read by the target type's input function,
anything else is cast. -/
def coerceType (ctx : CoercionContext) (actual target : Oid) (e : Expr F V) :
    Except ParseError (Expr F V) :=
  if actual = target then .ok e
  else
    let coerced :=
      match e with
      | .const t v =>
        if t = UNKNOWNOID then (cat.typeInput target v).map (.const target)
        else castExpr cat ctx actual target e
      | _ => castExpr cat ctx actual target e
    match coerced with
    | some e' => .ok e'
    | none => .error (.cannotCoerce actual target)

/-- The type `make_fn_arguments` takes an argument to have: where a function is
declared, a call of a function input without arguments passes for one. -/
def actualArgType (declared : Oid) (e : Expr F V) : Oid :=
  match e with
  | .lfa _ t _ [] => if declared = LAMBDAOID then LAMBDAOID else t
  | _ => e.exprType cat.toProcCatalog

/-- `make_fn_arguments`. The array of declared types has one entry per actual
argument, zero where the declaration has none. -/
def makeFnArguments : List Oid → List (Expr F V) → Except ParseError (List (Expr F V))
  | _, [] => .ok []
  | declared, e :: es => do
    let target := declared.headD 0
    let e' ← coerceType cat .implicit (actualArgType cat target e) target e
    let es' ← makeFnArguments declared.tail es
    return e' :: es'

/-! ## References and calls in a body -/

section Transform

variable (sig : Except ParseError LambdaSignature) (argnames : List String)

/-- `LambdaColumnRefHookOutsideUDF`: a reference to the argument at the name's
position, of the type the signature has there. `sig` is the outcome of looking
up the signature of the target column. -/
def lambdaColumnRefHookOutsideUDF (fields : List String) : Except ParseError (Expr F V) :=
  match fields with
  | [varName] =>
    match listIndex argnames varName with
    | none => .error .variableNotFound
    | some idx => do
      let sig ← sig
      match sig.argtypes[idx]? with
      | none => .error (.noSuchArgument idx)
      | some (.func _ _) => return .param idx LAMBDAOID
      | some (.scalar typeoid) => return .param idx typeoid
  | _ => .error .invalidColumnReference

/-- Put something in the place of the holes among the arguments. -/
def fillHoles (hole : Except ParseError (Expr F V)) :
    List (Option (Expr F V)) → Except ParseError (List (Expr F V))
  | [] => .ok []
  | none :: es => do
    let e ← hole
    let es' ← fillHoles hole es
    return e :: es'
  | some e :: es => do
    let es' ← fillHoles hole es
    return e :: es'

/-- The types `func_get_detail` sees. -/
def actualArgTypes (args : List (Expr F V)) : List Oid :=
  args.map (Expr.exprType cat.toProcCatalog)

/-- `ParseFuncOrColumn`, a call of function input `idx` of the lambda whose body
is being transformed. The number of arguments is not compared with the declared
one. -/
def parseFunctionInput (funcname : List String) (idx : Nat) (fargs : List (Option (Expr F V))) :
    Except ParseError (Expr F V) := do
  let sig ← sig
  match sig.argtypes[idx]? with
  | none => .error (.noSuchArgument idx)
  | some (.scalar _) => .error (.notAFunction idx)
  | some (.func argtypes rettype) => do
    let args ← fillHoles (.error .partialOfInput) fargs
    if cat.isFunctionName funcname args.length then .error (.nameCollides funcname)
    else
      match cat.funcGetDetail funcname (actualArgTypes cat args), args with
      | .undefinedSchema nspname, _ => .error (.undefinedSchema nspname)
      -- an input whose name is a type name: the call is a cast
      | .coercion target, [e] => coerceType cat .explicit (e.exprType cat.toProcCatalog) target e
      | _, _ => do
        let args ← makeFnArguments cat (argtypes.map LambdaSigType.oid) args
        return .lfa funcname rettype.typeoid idx args

/-- `ParseFuncOrColumn` in the body of a scalar lambda. -/
def parseFuncOrColumn (funcname : List String) (fargs : List (Option (Expr F V))) :
    Except ParseError (Expr F V) :=
  match funcname.head?.bind (listIndex argnames) with
  | some idx => parseFunctionInput cat sig funcname idx fargs
  | none => do
    -- outside a lambda call a hole is the column reference it was written as
    let args ← fillHoles (lambdaColumnRefHookOutsideUDF sig argnames ["_"]) fargs
    match cat.funcGetDetail funcname (actualArgTypes cat args), args with
    | .undefinedSchema nspname, _ => .error (.undefinedSchema nspname)
    | .coercion target, [e] => coerceType cat .explicit (e.exprType cat.toProcCatalog) target e
    | .normal f, args => do
      let args ← makeFnArguments cat (cat.proargtypes f) args
      return .func f args
    | _, _ => .error (.undefinedFunction funcname)

/-- `make_op`. -/
def makeOp (opname : String) (operands : List (Expr F V)) : Except ParseError (Expr F V) :=
  match cat.oper opname (actualArgTypes cat operands) with
  | none => .error (.undefinedOperator opname)
  | some f => do
    let args ← makeFnArguments cat (cat.proargtypes f) operands
    return .func f args

/-- `select_common_type`, then `coerce_to_common_type` on each expression. -/
def coerceToCommonType (e e' : Expr F V) : Except ParseError (Oid × Expr F V × Expr F V) :=
  let s := e.exprType cat.toProcCatalog
  let s' := e'.exprType cat.toProcCatalog
  match cat.selectCommonType [s, s'] with
  | none => .error .noCommonType
  | some t => do
    let r ← coerceType cat .implicit s t e
    let r' ← coerceType cat .implicit s' t e'
    return (t, r, r')

/-- A direct argument `_` of a call. -/
def RawExpr.isHole : RawExpr V → Bool
  | .columnRef ["_"] => true
  | _ => false

mutual

/-- `transformExpr` in the body of a lambda literal. A lambda literal among the
arguments of a call would be left as raw syntax; here it is rejected as it is
everywhere else. -/
def transformExpr : RawExpr V → Except ParseError (Expr F V)
  | .aConst t v => .ok (.const t v)
  | .columnRef fields => lambdaColumnRefHookOutsideUDF sig argnames fields
  | .funcCall funcname args => do
    let fargs ← transformFuncArgs args
    parseFuncOrColumn cat sig argnames funcname fargs
  | .aExpr opname args => do
    let operands ← transformExprs args
    makeOp cat opname operands
  | .caseExpr c r d => do
    let c' ← transformExpr c
    let c' ← coerceType cat .assignment (c'.exprType cat.toProcCatalog) cat.booloid c'
    let r' ← transformExpr r
    let d' ← transformExpr d
    -- the default result comes first in choosing the type
    let (t, d', r') ← coerceToCommonType cat d' r'
    return .caseWhen t c' r' d'
  | .coalesceExpr a b => do
    let a' ← transformExpr a
    let b' ← transformExpr b
    let (t, a', b') ← coerceToCommonType cat a' b'
    return .coalesce t a' b'
  | .lambdaExpr _ _ => .error .nestedLambda

def transformExprs : List (RawExpr V) → Except ParseError (List (Expr F V))
  | [] => .ok []
  | e :: es => do
    let e' ← transformExpr e
    let es' ← transformExprs es
    return e' :: es'

/-- The arguments in `transformFuncCall`: holes are passed on. -/
def transformFuncArgs : List (RawExpr V) → Except ParseError (List (Option (Expr F V)))
  | [] => .ok []
  | e :: es =>
    if e.isHole then do
      let es' ← transformFuncArgs es
      return none :: es'
    else do
      let e' ← transformExpr e
      let es' ← transformFuncArgs es
      return some e' :: es'

end

end Transform

/-- The type modifier of a choice of type `t`, from the types and type modifiers of
two alternatives: the one they agree on. -/
def choiceTypmod (t : Oid) (e e' : Oid × Int) : Int :=
  if e.1 = t ∧ 0 ≤ e.2 ∧ e' = e then e.2 else -1

/-- `exprTypmod`. A reference to an atomic argument has the zero that `makeNode`
leaves. -/
def exprTypmod : Expr F V → Int
  | .const _ _ => -1
  | .param _ t => if t = LAMBDAOID then -1 else 0
  | .func _ _ => -1
  | .caseWhen t _ r d =>
    choiceTypmod t (d.exprType cat.toProcCatalog, exprTypmod d)
      (r.exprType cat.toProcCatalog, exprTypmod r)
  -- a `NULL` ends the chain, it is no alternative
  | .coalesce t a (.const _ none) =>
    choiceTypmod t (a.exprType cat.toProcCatalog, exprTypmod a)
      (a.exprType cat.toProcCatalog, exprTypmod a)
  | .coalesce t a b =>
    choiceTypmod t (a.exprType cat.toProcCatalog, exprTypmod a)
      (b.exprType cat.toProcCatalog, exprTypmod b)
  | .lfa _ _ _ _ => -1
  | .lambda hdr _ => hdr.lambdatypmod

/-- `transformLambdaExpr`: the literal as a lambda value. Its return type is the
type of its body; the context's `targettypmod` is never assigned. -/
def transformLambdaExpr (sig : Except ParseError LambdaSignature) (l : LambdaLiteral V) :
    Except ParseError (LambdaExpr F V) := do
  let expr ← transformExpr cat sig l.argnames l.expr
  return {
    lambdakind := .scalar
    argnames := l.argnames
    rettype := expr.exprType cat.toProcCatalog
    rettypmod := exprTypmod cat expr
    lambdatypmod := 0
    isStrict := false
    expr }

end Body

/-! ## Calls of lambda columns -/

/-- An argument expression of a call in a query: its type and the signature its
type modifier stands for, if it stands for one. -/
structure QueryExpr where
  exprtype : Oid
  signature : Option LambdaSignature
deriving DecidableEq, Repr

/-- An argument as written: an expression, or a hole. -/
inductive CallArg where
  | hole
  | expr (e : QueryExpr)
deriving DecidableEq, Repr

/-- A `CallLambdaExpr`: the filled arguments, the held positions, and the type of
the call, a signature if it is a partial application. -/
structure CallLambdaExpr where
  args : List QueryExpr
  heldargs : List Nat
  rettype : LambdaSigType
deriving DecidableEq, Repr

section ColumnCall

variable (coercible : Oid → Oid → Bool)

/-- One argument of a column call against its declared type: a function-valued
parameter takes any lambda. The argument has position `i`. -/
def parseColumnArgument (i : Nat) (e : QueryExpr) : LambdaSigType → Except ParseError QueryExpr
  | .func _ _ =>
    if e.exprtype = LAMBDAOID then .ok e else .error (.expectsLambda (i + 1))
  | .scalar typeoid =>
    if e.exprtype = typeoid then .ok e
    else if coercible e.exprtype typeoid then .ok ⟨typeoid, none⟩
    else .error (.argumentNotCoercible (i + 1) typeoid)

/-- The loop over arguments and declared types: the filled arguments, the held
positions and the types of the held positions. The first argument has position
`i`. -/
def parseColumnArguments : (i : Nat) → List CallArg → List LambdaSigType →
    Except ParseError (List QueryExpr × List Nat × List LambdaSigType)
  | i, .hole :: args, σ :: σs => do
    let (filled, held, heldtypes) ← parseColumnArguments (i + 1) args σs
    return (filled, i :: held, σ :: heldtypes)
  | i, .expr e :: args, σ :: σs => do
    let e' ← parseColumnArgument coercible i e σ
    let (filled, held, heldtypes) ← parseColumnArguments (i + 1) args σs
    return (e' :: filled, held, heldtypes)
  | _, _, _ => .ok ([], [], [])

/-- `ParseFuncOrColumn` on a lambda column of signature `sig`. -/
def parseColumnCall (sig : Option LambdaSignature) (fargs : List CallArg) :
    Except ParseError CallLambdaExpr :=
  match sig with
  | none => .error .columnWithoutSignature
  | some sig =>
    if sig.argtypes.length ≠ fargs.length then
      .error (.lambdaExpects sig.argtypes.length fargs.length)
    else do
      let (args, heldargs, heldtypes) ← parseColumnArguments coercible 0 fargs sig.argtypes
      if heldargs ≠ [] then return { args, heldargs, rettype := .func heldtypes sig.rettype }
      else if sig.rettype.isFunction then .error .returnsLambda
      else return { args, heldargs, rettype := sig.rettype }

end ColumnCall

/-! ## A concrete instance

The integer operators of the executor's instance, without casts and without
schemas. -/

def arithParser : ParserCatalog ArithFunc Int where
  toProcCatalog := arithCatalog
  funcGetDetail funcname types :=
    match funcname, types with
    | [nspname, _], [_] => .undefinedSchema nspname
    | _, _ => .notfound
  isFunctionName _ _ := false
  oper opname types :=
    if types = [INT4OID, INT4OID] then
      match opname with
      | "+" => some .plus
      | "/" => some .divide
      | ">" => some .greater
      | _ => none
    else none
  selectCommonType types := types.head?
  booloid := BOOLOID
  castFunction _ _ _ := none
  typeInput _ _ := none
  castFunction_prorettype := fun _ _ _ _ h => by cases h
  castFunction_proargtypes := fun _ _ _ _ h => by cases h

end HolLambdas.Parse
