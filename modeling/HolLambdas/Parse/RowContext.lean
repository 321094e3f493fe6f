import HolLambdas.Parse.Transform
import HolLambdas.Row.Inject

/-!
# Parse analysis of row-context lambdas

A lambda that is an argument of a table function declares its rows and their
columns, `lambda(a:[x:int], b:[f:(int -> int)]) b.f(a.x)`, and the function is
called with subqueries that deliver the rows. `ParseFuncOrColumn` first makes a
tuple descriptor of every subquery, then gives each row alias one of them and
transforms the body.

Inside the body a two-part name is looked up in one of two ways. A call `b.f(…)` is
matched against the declared columns of `b`; `LambdaColumnRefHook` looks a reference
`b.f` up in the tuple descriptor, and only asks the declaration whether the column
is a function. Both store what they found as a position.

Left out: subquery columns marked junk (their descriptor entries are never set),
names of lambda columns of the surrounding query, and polymorphic declarations. A
call is written with a two-part name; the source only asserts that.
-/

namespace HolLambdas.Row

open Scalar Parse

variable {F V : Type}

/-! ## Rows -/

/-- `LambdaInputParam`: a declared column. -/
structure LambdaInputParam where
  name : String
  type : LambdaSigType
deriving DecidableEq, Repr

namespace LambdaInputParam

/-- The `type` field of the node: the type of the column, or its return type if it is
a function. -/
def rettype (param : LambdaInputParam) : Oid :=
  match param.type with
  | .scalar t => t
  | .func _ ρ => ρ.typeoid

/-- The arguments a function column is declared with. -/
def inputTypes (param : LambdaInputParam) : List LambdaSigType :=
  match param.type with
  | .scalar _ => []
  | .func σs _ => σs

end LambdaInputParam

/-- The part of a `TargetEntry` of a subquery that is looked at. -/
structure TargetEntry where
  resname : String
  exprType : Oid
  exprTypmod : Int
deriving DecidableEq, Repr

/-- `lambdaUndecorateName`: without the suffix that displays the column's typmod. -/
def lambdaUndecorateName (exprTypmod : Int) (colname : String) : String :=
  if exprTypmod < 0 then colname
  else
    let suffix := s!"(id:{exprTypmod})"
    if colname.length > suffix.length ∧ suffix.toList.isSuffixOf colname.toList then
      String.ofList (colname.toList.take (colname.length - suffix.length))
    else colname

/-- An attribute of a tuple descriptor; its number is its position. -/
structure Attribute where
  attname : String
  atttypid : Oid
deriving DecidableEq, Repr

abbrev TupleDesc := List Attribute

/-- The tuple descriptor of a subquery. -/
def subqueryDesc (targetList : List TargetEntry) : TupleDesc :=
  targetList.map fun tent => ⟨lambdaUndecorateName tent.exprTypmod tent.resname, tent.exprType⟩

/-- A row-context lambda as the grammar builds it. -/
structure RowLiteral (V : Type) where
  rows : List (String × List LambdaInputParam)
  expr : RawExpr V
deriving Repr

/-- What the body of a row-context lambda is analysed against. -/
structure RowHeader where
  rows : List (String × List LambdaInputParam)
  argTypesTupDesc : List TupleDesc
deriving DecidableEq, Repr

namespace RowHeader

def argnames (h : RowHeader) : List String :=
  h.rows.map Prod.fst

def argtypes (h : RowHeader) : List (List LambdaInputParam) :=
  h.rows.map Prod.snd

/-- The declared types, as the injector reads them. -/
def sigtypes (h : RowHeader) : List (List LambdaSigType) :=
  h.argtypes.map fun params => params.map LambdaInputParam.type

end RowHeader

/-- The lambda after analysis. -/
structure RowLambda (F V : Type) extends RowHeader where
  expr : RowBody F V
deriving Repr

/-- The errors of the analysis, by their messages. -/
inductive RowParseError where
  /-- "invalid column reference inside lambda expression" -/
  | invalidColumnReference
  /-- "illegal rowAlias \"%s\" in top-level lambda expression" -/
  | illegalRowAlias (rowAlias : String)
  /-- "column \"%s\" does not exist" -/
  | columnDoesNotExist (colName : String)
  /-- "input \"%s\".\"%s\" does not exist" -/
  | inputDoesNotExist (rowAlias colName : String)
  /-- "duplicate lambda arg name \"%s\"" -/
  | duplicateArgName (name : String)
  /-- No subquery is left for the row, which cannot happen if there is one at all. -/
  | noSubquery
  /-- An error shared with the analysis of other lambdas. -/
  | parse (e : ParseError)
deriving DecidableEq, Repr

/-! ## References -/

/-- The loop over the attributes, the first of which has index `idx`. -/
def findAttribute (colName : String) : (idx : Nat) → TupleDesc → Option (Nat × Attribute)
  | _, [] => none
  | idx, attr :: desc =>
    if attr.attname = colName then some (idx, attr) else findAttribute colName (idx + 1) desc

/-- `get_input_param_from_name`. -/
def getInputParamFromName (h : RowHeader) (rowAlias colName : String) :
    Option LambdaInputParam :=
  h.rows.findSome? fun row =>
    if row.1 = rowAlias then row.2.find? (fun param => param.name = colName) else none

/-- `LambdaColumnRefHook`. -/
def lambdaColumnRefHook (h : RowHeader) (fields : List String) :
    Except RowParseError (RowBody F V) :=
  match fields with
  | [rowAlias, colName] =>
    match listIndex h.argnames rowAlias with
    | none => .error (.illegalRowAlias rowAlias)
    | some idx1 =>
      match h.argTypesTupDesc[idx1]? with
      | none => .error (.illegalRowAlias rowAlias)
      | some inputOfLambda =>
        match findAttribute colName 0 inputOfLambda with
        | none => .error (.columnDoesNotExist colName)
        | some attr =>
          match getInputParamFromName h rowAlias colName with
          | none => .error (.inputDoesNotExist rowAlias colName)
          | some argType =>
            if argType.type.isFunction then
              .ok (.lfa fields argType.rettype (idx1 + 1) (attr.1 + 1) [])
            else .ok (.field (idx1 + 1) (attr.1 + 1) attr.2.atttypid)
  | _ => .error .invalidColumnReference

/-! ## Calls -/

/-- The loop over the declared columns, the first of which has index `colIdx`. -/
def findInputParam (field : String) :
    (colIdx : Nat) → List LambdaInputParam → Option (Nat × LambdaInputParam)
  | _, [] => none
  | colIdx, param :: params =>
    if param.name = field then some (colIdx, param) else findInputParam field (colIdx + 1) params

/-- `matching_LambdaInput` of `ParseFuncOrColumn`, with `rowIdx_of_match` and
`colIdx_of_match`. -/
def matchingLambdaInput (h : RowHeader) (rowAlias field : String) :
    Option (Nat × Nat × LambdaInputParam) :=
  match listIndex h.argnames rowAlias with
  | none => none
  | some argIdx =>
    match h.argtypes[argIdx]? with
    | none => none
    | some params => (findInputParam field 0 params).map fun found => (argIdx, found)

section Body

variable (cat : ParserCatalog F V) (h : RowHeader)

/-- `exprType`. -/
def RowBody.exprType (cat : ProcCatalog F) : RowBody F V → Oid
  | .const t _ => t
  | .field _ _ t => t
  | .func f _ => cat.prorettype f
  | .caseWhen t _ _ _ => t
  | .coalesce t _ _ => t
  | .lfa _ t _ _ _ => t

/-- What `coerce_type` makes of an expression: an untyped literal is read by the
target type's input function, anything else is cast. -/
def coercedRow (ctx : CoercionContext) (actual target : Oid) (e : RowBody F V) :
    Option (RowBody F V) :=
  let cast := (cat.castFunction ctx actual target).map fun f => RowBody.func f [e]
  match e with
  | .const t v => if t = UNKNOWNOID then (cat.typeInput target v).map (.const target) else cast
  | _ => cast

/-- `coerce_type`. -/
def coerceRow (ctx : CoercionContext) (actual target : Oid) (e : RowBody F V) :
    Except RowParseError (RowBody F V) :=
  if actual = target then .ok e
  else
    match coercedRow cat ctx actual target e with
    | some e' => .ok e'
    | none => .error (.parse (.cannotCoerce actual target))

/-- The type `make_fn_arguments` takes an argument to have. -/
def actualRowArgType (declared : Oid) (e : RowBody F V) : Oid :=
  if declared = LAMBDAOID ∧ e.byName.isSome then LAMBDAOID else e.exprType cat.toProcCatalog

/-- `make_fn_arguments`. The declared types are zero where the declaration has none. -/
def makeRowFnArguments :
    List Oid → List (RowBody F V) → Except RowParseError (List (RowBody F V))
  | _, [] => .ok []
  | declared, e :: es => do
    let target := declared.headD 0
    let e' ← coerceRow cat .implicit (actualRowArgType cat target e) target e
    let es' ← makeRowFnArguments declared.tail es
    return e' :: es'

/-- The arguments of a call that may have no holes. -/
def withoutHoles (err : RowParseError) :
    List (Option (RowBody F V)) → Except RowParseError (List (RowBody F V))
  | [] => .ok []
  | none :: _ => .error err
  | some e :: es => do
    let es' ← withoutHoles err es
    return e :: es'

def rowArgTypes (args : List (RowBody F V)) : List Oid :=
  args.map (RowBody.exprType cat.toProcCatalog)

/-- `ParseFuncOrColumn`, a call of a declared column. -/
def parseRowInput (funcname : List String) (found : Nat × Nat × LambdaInputParam)
    (fargs : List (Option (RowBody F V))) : Except RowParseError (RowBody F V) := do
  let args ← withoutHoles (.parse .partialOfInput) fargs
  if cat.isFunctionName funcname args.length then .error (.parse (.nameCollides funcname))
  else
    match cat.funcGetDetail funcname (rowArgTypes cat args), args with
    | .undefinedSchema nspname, _ => .error (.parse (.undefinedSchema nspname))
    -- a type of that name: the call is a cast
    | .coercion target, [e] => coerceRow cat .explicit (e.exprType cat.toProcCatalog) target e
    | _, _ => do
      let args ← makeRowFnArguments cat (found.2.2.inputTypes.map LambdaSigType.oid) args
      return .lfa funcname found.2.2.rettype (found.1 + 1) (found.2.1 + 1) args

/-- `ParseFuncOrColumn`, any other call. A hole is the one-part reference it was
written as. -/
def parseRowFunction (funcname : List String) (fargs : List (Option (RowBody F V))) :
    Except RowParseError (RowBody F V) := do
  let args ← withoutHoles .invalidColumnReference fargs
  match cat.funcGetDetail funcname (rowArgTypes cat args), args with
  | .undefinedSchema nspname, _ => .error (.parse (.undefinedSchema nspname))
  | .coercion target, [e] => coerceRow cat .explicit (e.exprType cat.toProcCatalog) target e
  | .normal f, args => do
    let args ← makeRowFnArguments cat (cat.proargtypes f) args
    return .func f args
  | _, _ => .error (.parse (.undefinedFunction funcname))

/-- `ParseFuncOrColumn` in the body of a row-context lambda. -/
def parseRowFuncOrColumn (funcname : List String) (fargs : List (Option (RowBody F V))) :
    Except RowParseError (RowBody F V) :=
  match funcname with
  | [rowAlias, field] =>
    match matchingLambdaInput h rowAlias field with
    | some found => parseRowInput cat funcname found fargs
    | none => parseRowFunction cat funcname fargs
  | _ => parseRowFunction cat funcname fargs

/-- `make_op`. -/
def makeRowOp (opname : String) (operands : List (RowBody F V)) :
    Except RowParseError (RowBody F V) :=
  match cat.oper opname (rowArgTypes cat operands) with
  | none => .error (.parse (.undefinedOperator opname))
  | some f => do
    let args ← makeRowFnArguments cat (cat.proargtypes f) operands
    return .func f args

/-- The common type of two branches. -/
def commonRowType (e e' : RowBody F V) : Except RowParseError Oid :=
  match cat.selectCommonType [e.exprType cat.toProcCatalog, e'.exprType cat.toProcCatalog] with
  | none => .error (.parse .noCommonType)
  | some t => .ok t

/-- `coerce_to_common_type`. -/
def coerceRowTo (t : Oid) (e : RowBody F V) : Except RowParseError (RowBody F V) :=
  coerceRow cat .implicit (e.exprType cat.toProcCatalog) t e

mutual

/-- `transformExpr` in the body of a row-context lambda. -/
def transformRowExpr : RawExpr V → Except RowParseError (RowBody F V)
  | .aConst t v => .ok (.const t v)
  | .columnRef fields => lambdaColumnRefHook h fields
  | .funcCall funcname args => do
    let fargs ← transformRowFuncArgs args
    parseRowFuncOrColumn cat h funcname fargs
  | .aExpr opname args => do
    let operands ← transformRowExprs args
    makeRowOp cat opname operands
  | .caseExpr c r d => do
    let c' ← transformRowExpr c
    let c' ← coerceRow cat .assignment (c'.exprType cat.toProcCatalog) cat.booloid c'
    let r' ← transformRowExpr r
    let d' ← transformRowExpr d
    -- the default result comes first in choosing the type
    let t ← commonRowType cat d' r'
    let d' ← coerceRowTo cat t d'
    let r' ← coerceRowTo cat t r'
    return .caseWhen t c' r' d'
  | .coalesceExpr a b => do
    let a' ← transformRowExpr a
    let b' ← transformRowExpr b
    let t ← commonRowType cat a' b'
    let a' ← coerceRowTo cat t a'
    let b' ← coerceRowTo cat t b'
    return .coalesce t a' b'
  | .lambdaExpr _ _ => .error (.parse .nestedLambda)

def transformRowExprs : List (RawExpr V) → Except RowParseError (List (RowBody F V))
  | [] => .ok []
  | e :: es => do
    let e' ← transformRowExpr e
    let es' ← transformRowExprs es
    return e' :: es'

/-- The arguments in `transformFuncCall`: holes are passed on. -/
def transformRowFuncArgs :
    List (RawExpr V) → Except RowParseError (List (Option (RowBody F V)))
  | [] => .ok []
  | e :: es =>
    if e.isHole then do
      let es' ← transformRowFuncArgs es
      return none :: es'
    else do
      let e' ← transformRowExpr e
      let es' ← transformRowFuncArgs es
      return some e' :: es'

end

end Body

/-! ## The rows and their subqueries -/

/-- `subtableInfo` and `argCounter`. They go on counting from one lambda of the call to
the next. -/
structure SubtableCursor where
  subtableInfo : Nat
  argCounter : Nat
deriving DecidableEq, Repr

/-- The end of a round of the loop. -/
def SubtableCursor.next (nltis : Nat) (c : SubtableCursor) : SubtableCursor where
  subtableInfo := if c.argCounter < nltis - 1 then c.subtableInfo + 1 else c.subtableInfo
  argCounter := c.argCounter + 1

/-- The loop over the aliases of a lambda; `argCheckList` are the earlier ones. -/
def assignTupDescs (ltiList : List TupleDesc) :
    SubtableCursor → (argCheckList : List String) → List String →
      Except RowParseError (List TupleDesc)
  | _, _, [] => .ok []
  | c, argCheckList, name :: names =>
    if name ∈ argCheckList then .error (.duplicateArgName name)
    else
      match ltiList[c.subtableInfo]? with
      | none => .error .noSubquery
      | some desc => do
        let descs ← assignTupDescs ltiList (c.next ltiList.length) (argCheckList ++ [name]) names
        return desc :: descs

/-- The analysis of one row-context lambda of a call. -/
def transformRowLambda (cat : ParserCatalog F V) (ltiList : List TupleDesc) (c : SubtableCursor)
    (l : RowLiteral V) : Except RowParseError (RowLambda F V) := do
  let argTypesTupDesc ← assignTupDescs ltiList c [] (l.rows.map Prod.fst)
  let expr ← transformRowExpr cat { rows := l.rows, argTypesTupDesc } l.expr
  return { rows := l.rows, argTypesTupDesc, expr }

end HolLambdas.Row
