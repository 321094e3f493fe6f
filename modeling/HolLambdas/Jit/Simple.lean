import HolLambdas.Jit.Functions

/-!
# The fast path

`llvm_compile_simple_expr`. The body has been flattened into steps, arguments before
the call, constants loaded explicitly. The compiler goes through the steps once, with
a stack of LLVM values (`registers`) that stand for what the steps so far leave
behind, and emits for each call the instructions of a fixed switch. The compiled
function takes the rows as arrays of datums and returns a datum.

An `LValue` is an LLVM value with the instructions it is computed from. Its run is on
LLVM's types: 32-bit and 64-bit integers and doubles, where a 64-bit integer is a
datum (`Datum`): an integer, the bits of a number, or the address of a row. Where the
types do not fit, where the source reinterprets bits of another type, and where LLVM
leaves a result undefined, the run has no value. `LLVMBuildNeg` is an integer
instruction that the switch also applies to a double; what becomes of it is not
specified and is a parameter (`negDouble`).

The array `registers` has 500 elements, and nothing checks the index; writing past the
end is an error here.
-/

namespace HolLambdas.Jit

open Row (nth1)

variable {R : Type}

/-! ## Steps -/

/-- A datum. -/
inductive Datum (R : Type) where
  | word (w : BitVec 64)
  | float8 (x : R)
  | row (paramid : Nat)
deriving DecidableEq, Repr

/-- `Int32GetDatum`, `Int64GetDatum`, `Float8GetDatum`. -/
def Value.datum : Value R → Datum R
  | .int4 n => .word (n.signExtend 64)
  | .int8 n => .word n
  | .float8 x => .float8 x

/-- `DatumGetInt32`, `DatumGetInt64`, `DatumGetFloat8`. -/
def Datum.read : SqlType → Datum R → Option (Value R)
  | .int4, .word w => some (.int4 (w.setWidth 32))
  | .int8, .word w => some (.int8 w)
  | .float8, .float8 x => some (.float8 x)
  | _, _ => none

/-- `ExprEvalStep`. -/
inductive Step (R : Type) where
  | done
  | const (value : Datum R)
  | funcexpr (fn_oid : FnOid)
  | paramExtern (paramid : Nat)
  | paramExec (paramid : Nat)
  | fieldselect (fieldnum : Nat)
  | other (opcode : Nat)
deriving DecidableEq, Repr

mutual

/-- `ExecInitExprRec` on a body. -/
def steps : Body R → List (Step R)
  | .const v => [.const v.datum]
  | .field p k => [.paramExtern p, .fieldselect k]
  | .func f args => stepsArgs args ++ [.funcexpr f]

def stepsArgs : List (Body R) → List (Step R)
  | [] => []
  | e :: es => steps e ++ stepsArgs es

end

/-! ## The compiler -/

/-- `l_as_int4` and `l_as_float8`. -/
inductive As where
  | int4
  | float8
deriving DecidableEq, Repr

/-- Instructions with one operand: `LLVMBuildNeg`, the three casts, and calls. -/
inductive Op1 where
  | neg
  | siToFP
  | fpToSI32
  | fpToSI64
  | call (f : CFunc1)
deriving DecidableEq, Repr

/-- Instructions with two operands. -/
inductive Op2 where
  | mul | sdiv | add | sub
  | fmul | fdiv | fadd | fsub
  | call (f : CFunc2)
deriving DecidableEq, Repr

/-- An LLVM value. `loadParam p` is the load of `datum_param[p - 1]`, `loadField v k`
that of element `k - 1` of the row at `v`. -/
inductive LValue (R : Type) where
  | sizetConst (d : Datum R)
  | loadParam (paramid : Nat)
  | loadField (v : LValue R) (fieldnum : Nat)
  | as (a : As) (v : LValue R)
  | op1 (o : Op1) (v : LValue R)
  | op2 (o : Op2) (v w : LValue R)
  /-- `LLVMBuildZExtOrBitCast` to `TypeDatum`. -/
  | toDatum (v : LValue R)
deriving DecidableEq, Repr

/-- A case of the switch: the number of operands, how they are read, and the
instruction. -/
inductive Emitter where
  | one (a : As) (o : Op1)
  | two (a : As) (o : Op2)
deriving DecidableEq, Repr

/-- `numparams`. -/
def Emitter.numparams : Emitter → Nat
  | .one _ _ => 1
  | .two _ _ => 2

/-- The switch over `fn_oid`. The case of `cot` ends in `llvm_pg_func`, which raises: there
is no `cot` among the functions of `llvmjit_types.c`. -/
def emitter : FnOid → Option Emitter
  | .int4mul => some (.two .int4 .mul)
  | .int4div => some (.two .int4 .sdiv)
  | .int4pl => some (.two .int4 .add)
  | .int4mi => some (.two .int4 .sub)
  | .int4um => some (.one .int4 .neg)
  | .float8mul => some (.two .float8 .fmul)
  | .float8div => some (.two .float8 .fdiv)
  | .float8pl => some (.two .float8 .fadd)
  | .float8mi => some (.two .float8 .fsub)
  | .float8um => some (.one .float8 .neg)
  | .float8Int4 => some (.one .int4 .siToFP)
  | .int4Float8 => some (.one .float8 .fpToSI32)
  | .int8Float8 => some (.one .float8 .fpToSI64)
  | .float8abs => some (.one .float8 (.call .fabs))
  | .absFloat8 => some (.one .float8 (.call .fabs))
  | .dsqrt => some (.one .float8 (.call .sqrt))
  | .dpow => some (.two .float8 (.call .pow))
  | .asin => some (.one .float8 (.call .asin))
  | .acos => some (.one .float8 (.call .acos))
  | .atan => some (.one .float8 (.call .atan))
  | .atan2 => some (.two .float8 (.call .atan2))
  | .sin => some (.one .float8 (.call .sin))
  | .cos => some (.one .float8 (.call .cos))
  | .tan => some (.one .float8 (.call .tan))
  | .cot => none
  | .dlog10 => some (.one .float8 (.call .log10))
  | .logFloat8 => some (.one .float8 (.call .log10))
  | .lnFloat8 => some (.one .float8 (.call .log))
  | .sqrtFloat8 => some (.one .float8 (.call .sqrt))
  | .powFloat8Float8 => some (.two .float8 (.call .pow))
  | .powerFloat8Float8 => some (.two .float8 (.call .pow))
  | .expFloat8 => some (.one .float8 (.call .exp))
  | .other _ => none

/-- The errors of the compiler, and accesses outside `registers`. -/
inductive JitError where
  /-- "Function with Oid %i has no fast JIT implementation." -/
  | noFastImplementation (fn_oid : FnOid)
  /-- "function %s not in llvmjit_types.c" -/
  | notInTypes (funcname : String)
  /-- "Opcode %i cannot be JIT-compiled with llvm_compile_simple_expr" -/
  | cannotBeCompiled (opcode : Nat)
  /-- A write past the end of `registers`, which the source does not notice. -/
  | registerOverflow
  /-- A read below its start. -/
  | registerUnderflow
  /-- Steps without a last one. -/
  | noReturn
deriving DecidableEq, Repr

/-- The error of a function that nothing is emitted for. -/
def emitError : FnOid → JitError
  | .cot => .notInTypes "cot"
  | f => .noFastImplementation f

/-- The size of `registers`. -/
def registersLength : Nat := 500

/-- `registers[registerPointer++] = v`; the newest register comes first. -/
def pushRegister (v : LValue R) (registers : List (LValue R)) :
    Except JitError (List (LValue R)) :=
  if registers.length < registersLength then .ok (v :: registers) else .error .registerOverflow

/-- A call: its operands are taken from the registers, its result is put there. -/
def emitCall : Emitter → List (LValue R) → Except JitError (List (LValue R))
  | .one a o, v :: registers => pushRegister (.op1 o (.as a v)) registers
  | .two a o, w :: v :: registers => pushRegister (.op2 o (.as a v) (.as a w)) registers
  | _, _ => .error .registerUnderflow

/-- `llvm_compile_simple_expr`: the value that the function returns. -/
def compileSimpleExpr : List (Step R) → List (LValue R) → Except JitError (LValue R)
  | [], _ => .error .noReturn
  | .done :: _, registers =>
    match registers with
    | v :: _ => .ok (.toDatum v)
    | [] => .error .registerUnderflow
  | .const d :: rest, registers => do
    let registers ← pushRegister (.sizetConst d) registers
    compileSimpleExpr rest registers
  | .funcexpr f :: rest, registers =>
    match emitter f with
    | none => .error (emitError f)
    | some em => do
      let registers ← emitCall em registers
      compileSimpleExpr rest registers
  | .paramExtern p :: rest, registers => do
    let registers ← pushRegister (.loadParam p) registers
    compileSimpleExpr rest registers
  | .paramExec p :: rest, registers => do
    -- only a warning
    let registers ← pushRegister (.loadParam (p + 1)) registers
    compileSimpleExpr rest registers
  | .fieldselect k :: rest, registers =>
    match registers with
    | v :: registers => compileSimpleExpr rest (.loadField v k :: registers)
    | [] => .error .registerUnderflow
  | .other opcode :: _, _ => .error (.cannotBeCompiled opcode)

/-! ## Running the compiled function -/

/-- What an LLVM value evaluates to. -/
inductive LVal (R : Type) where
  | i32 (n : BitVec 32)
  | i64 (d : Datum R)
  | double (x : R)
deriving DecidableEq, Repr

/-- `LLVMBuildTruncOrBitCast` to 32 bits, `LLVMBuildBitCast` to double. -/
def As.run : As → LVal R → Option (LVal R)
  | .int4, .i64 (.word w) => some (.i32 (w.setWidth 32))
  | .int4, .i32 n => some (.i32 n)
  | .float8, .i64 (.float8 x) => some (.double x)
  | .float8, .double x => some (.double x)
  | _, _ => none

/-- `LLVMBuildZExtOrBitCast`. -/
def LVal.toDatum : LVal R → Datum R
  | .i32 n => .word (n.setWidth 64)
  | .i64 d => d
  | .double x => .float8 x

section Run

variable [Field R] [LinearOrder R] [FloorRing R] (lib : FloatLib R) (negDouble : R → Option R)

/-- `fptosi` to a width; undefined if the integer does not fit. -/
def fpToSI (w : Nat) (x : R) : Option (BitVec w) :=
  if FitsWidth w (trunc x) then some (BitVec.ofInt w (trunc x)) else none

/-- An instruction that LLVM leaves undefined gives nothing. -/
def Op1.run : Op1 → LVal R → Option (LVal R)
  | .neg, .i32 n => some (.i32 (-n))
  | .neg, .double x => (negDouble x).map .double
  | .siToFP, .i32 n => some (.double (n.toInt : R))
  | .fpToSI32, .double x => (fpToSI 32 x).map .i32
  | .fpToSI64, .double x => (fpToSI 64 x).map fun n => .i64 (.word n)
  | .call f, .double x => some (.double (lib.call1 f x))
  | _, _ => none

def Op2.run : Op2 → LVal R → LVal R → Option (LVal R)
  | .mul, .i32 a, .i32 b => some (.i32 (a * b))
  | .sdiv, .i32 a, .i32 b =>
    if b = 0 ∨ (a = BitVec.intMin 32 ∧ b = -1) then none else some (.i32 (a.sdiv b))
  | .add, .i32 a, .i32 b => some (.i32 (a + b))
  | .sub, .i32 a, .i32 b => some (.i32 (a - b))
  | .fmul, .double x, .double y => some (.double (x * y))
  -- an infinity is no exact number
  | .fdiv, .double x, .double y => if y = 0 then none else some (.double (x / y))
  | .fadd, .double x, .double y => some (.double (x + y))
  | .fsub, .double x, .double y => some (.double (x - y))
  | .call f, .double x, .double y => some (.double (lib.call2 f x y))
  | _, _, _ => none

/-- The value of an LLVM value on the rows that are passed. -/
def LValue.run (rows : List (List (Datum R))) : LValue R → Option (LVal R)
  | .sizetConst d => some (.i64 d)
  | .loadParam p => (nth1 rows p).map fun _ => .i64 (.row p)
  | .loadField v k =>
    match v.run rows with
    | some (.i64 (.row p)) => ((nth1 rows p).bind fun row => nth1 row k).map .i64
    | _ => none
  | .as a v => (v.run rows).bind a.run
  | .op1 o v => (v.run rows).bind (o.run lib negDouble)
  | .op2 o v w => (v.run rows).bind fun x => (w.run rows).bind fun y => o.run lib x y
  | .toDatum v => (v.run rows).map fun x => .i64 x.toDatum

/-- The fast path: compile the steps and run the function; the caller reads the
returned datum as a value of the given type. -/
def fastEval (rows : List (List (Value R))) (e : Body R) (type : SqlType) : Option (Value R) :=
  match compileSimpleExpr (steps e ++ [.done]) [] with
  | .error _ => none
  | .ok fn =>
    match fn.run lib negDouble (rows.map fun row => row.map Value.datum) with
    | some (.i64 d) => d.read type
    | _ => none

end Run

end HolLambdas.Jit
