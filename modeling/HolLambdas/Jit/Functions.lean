import HolLambdas.Rounding
import HolLambdas.Row.Inject

/-!
# The SQL functions that have a fast implementation

`llvm_compile_simple_expr` translates calls of a fixed list of functions on `int4`,
`int8` and `float8`. Here are the functions themselves, from `int.c`, `int8.c` and
`float.c`, with the errors they raise.

Integers are bit vectors of their width. A `float8` is an exact number: `R` is any
ordered field with a floor, the four operations are those of the field, and the
functions of the C library are given (`FloatLib`). What the source checks about
infinities, NaN and `errno` has no counterpart; its checks for a result of zero have
one and are kept.
-/

namespace HolLambdas.Jit

open Row (nth1)

/-- A value of one of the three types, not NULL. -/
inductive Value (R : Type) where
  | int4 (n : BitVec 32)
  | int8 (n : BitVec 64)
  | float8 (x : R)
deriving DecidableEq, Repr

/-- The types. -/
inductive SqlType where
  | int4
  | int8
  | float8
deriving DecidableEq, Repr

def Value.type {R : Type} : Value R → SqlType
  | .int4 _ => .int4
  | .int8 _ => .int8
  | .float8 _ => .float8

/-- The functions of the C library, of one and of two arguments. -/
inductive CFunc1 where
  | fabs | sqrt | asin | acos | atan | sin | cos | tan | log10 | log | exp
deriving DecidableEq, Repr

inductive CFunc2 where
  | pow | atan2
deriving DecidableEq, Repr

/-- What the library computes. It has no `cot`: SQL divides by the tangent. -/
structure FloatLib (R : Type) where
  call1 : CFunc1 → R → R
  call2 : CFunc2 → R → R → R

/-- The errors, by their messages. -/
inductive SqlError where
  /-- "integer out of range" -/
  | integerOutOfRange
  /-- "bigint out of range" -/
  | bigintOutOfRange
  /-- "division by zero" -/
  | divisionByZero
  /-- "value out of range: underflow" -/
  | underflow
  /-- "cannot take square root of a negative number" -/
  | sqrtOfNegative
  /-- "zero raised to a negative power is undefined" -/
  | zeroToNegativePower
  /-- "a negative number raised to a non-integer power yields a complex result" -/
  | complexPower
  /-- "cannot take logarithm of zero" -/
  | logarithmOfZero
  /-- "cannot take logarithm of a negative number" -/
  | logarithmOfNegative
  /-- "input is out of range" -/
  | inputOutOfRange
  /-- A field that the row does not have. -/
  | noSuchField
  /-- Arguments that are not of the function's types. -/
  | wrongArguments
  /-- An error of some other function. -/
  | raised (message : String)
deriving DecidableEq, Repr

/-- The function identifiers that occur in the switch, and all others. -/
inductive FnOid where
  | int4mul | int4div | int4pl | int4mi | int4um
  | float8mul | float8div | float8pl | float8mi | float8um
  | float8Int4 | int4Float8 | int8Float8
  | float8abs | absFloat8 | dsqrt | sqrtFloat8 | dpow | powFloat8Float8 | powerFloat8Float8
  | asin | acos | atan | atan2 | sin | cos | tan | cot
  | dlog10 | logFloat8 | lnFloat8 | expFloat8
  | other (oid : Oid)
deriving DecidableEq, Repr

/-! ## Integers -/

section Integers

/-- The integers of a width. -/
def FitsWidth (w : Nat) (n : Int) : Prop :=
  -2 ^ (w - 1) ≤ n ∧ n < 2 ^ (w - 1)

instance (w : Nat) (n : Int) : Decidable (FitsWidth w n) :=
  inferInstanceAs (Decidable (_ ∧ _))

/-- An integer result, if it can be stored. -/
def inRange (w : Nat) (err : SqlError) (n : Int) : Except SqlError (BitVec w) :=
  if FitsWidth w n then .ok (BitVec.ofInt w n) else .error err

def int4pl (a b : BitVec 32) : Except SqlError (BitVec 32) :=
  inRange 32 .integerOutOfRange (a.toInt + b.toInt)

def int4mi (a b : BitVec 32) : Except SqlError (BitVec 32) :=
  inRange 32 .integerOutOfRange (a.toInt - b.toInt)

def int4mul (a b : BitVec 32) : Except SqlError (BitVec 32) :=
  inRange 32 .integerOutOfRange (a.toInt * b.toInt)

def int4um (a : BitVec 32) : Except SqlError (BitVec 32) :=
  if a = BitVec.intMin 32 then .error .integerOutOfRange else .ok (-a)

def int4div (a b : BitVec 32) : Except SqlError (BitVec 32) :=
  if b = 0 then .error .divisionByZero
  -- division by -1 is negation, which may overflow
  else if b = -1 then int4um a
  else .ok (BitVec.ofInt 32 (a.toInt.tdiv b.toInt))

end Integers

/-! ## Numbers -/

section Numbers

variable {R : Type} [Field R] [LinearOrder R] [FloorRing R]

/-- The check for a result that vanished. -/
def checkUnderflow (result : R) (mayVanish : Bool) : Except SqlError R :=
  if result = 0 ∧ ¬ mayVanish then .error .underflow else .ok result

def float8pl (x y : R) : Except SqlError R :=
  .ok (x + y)

def float8mi (x y : R) : Except SqlError R :=
  .ok (x - y)

def float8mul (x y : R) : Except SqlError R :=
  checkUnderflow (x * y) (x = 0 ∨ y = 0)

def float8div (x y : R) : Except SqlError R :=
  if y = 0 then .error .divisionByZero else checkUnderflow (x / y) (x = 0)

def float8um (x : R) : Except SqlError R :=
  .ok (-x)

def i4tod (n : BitVec 32) : R :=
  (n.toInt : R)

def dtoi4 (x : R) : Except SqlError (BitVec 32) :=
  inRange 32 .integerOutOfRange (rint x)

def dtoi8 (x : R) : Except SqlError (BitVec 64) :=
  inRange 64 .bigintOutOfRange (rint x)

variable (lib : FloatLib R)

/-- The functions that only pass their argument on: `float8abs`, `datan`, `dsin`, `dcos`
and `dtan`. -/
def libCall1 (f : CFunc1) (x : R) : Except SqlError R :=
  .ok (lib.call1 f x)

def datan2 (x y : R) : Except SqlError R :=
  .ok (lib.call2 .atan2 x y)

def dsqrt (x : R) : Except SqlError R :=
  if x < 0 then .error .sqrtOfNegative else checkUnderflow (lib.call1 .sqrt x) (x = 0)

def dpow (x y : R) : Except SqlError R :=
  if x = 0 ∧ y < 0 then .error .zeroToNegativePower
  else if x < 0 ∧ (⌊y⌋ : R) ≠ y then .error .complexPower
  else checkUnderflow (lib.call2 .pow x y) (x = 0)

/-- `dasin` and `dacos`. -/
def arcCall (f : CFunc1) (x : R) : Except SqlError R :=
  if x < -1 ∨ 1 < x then .error .inputOutOfRange else .ok (lib.call1 f x)

def dcot (x : R) : Except SqlError R :=
  .ok (1 / lib.call1 .tan x)

/-- `dlog1` and `dlog10`. -/
def logCall (f : CFunc1) (x : R) : Except SqlError R :=
  if x = 0 then .error .logarithmOfZero
  else if x < 0 then .error .logarithmOfNegative
  else checkUnderflow (lib.call1 f x) (x = 1)

def dexp (x : R) : Except SqlError R :=
  checkUnderflow (lib.call1 .exp x) false

end Numbers

/-! ## Calls -/

/-- A function with the types of its arguments and of its result. -/
inductive Builtin (R : Type) where
  | int4s (f : BitVec 32 → BitVec 32 → Except SqlError (BitVec 32))
  | int4 (f : BitVec 32 → Except SqlError (BitVec 32))
  | float8s (f : R → R → Except SqlError R)
  | float8 (f : R → Except SqlError R)
  | int4ToFloat8 (f : BitVec 32 → R)
  | float8ToInt4 (f : R → Except SqlError (BitVec 32))
  | float8ToInt8 (f : R → Except SqlError (BitVec 64))
  | other (f : List (Value R) → Except SqlError (Value R))

/-- A call through the function manager. -/
def Builtin.call {R : Type} : Builtin R → List (Value R) → Except SqlError (Value R)
  | .int4s f, [.int4 a, .int4 b] => .int4 <$> f a b
  | .int4 f, [.int4 a] => .int4 <$> f a
  | .float8s f, [.float8 x, .float8 y] => .float8 <$> f x y
  | .float8 f, [.float8 x] => .float8 <$> f x
  | .int4ToFloat8 f, [.int4 a] => .ok (.float8 (f a))
  | .float8ToInt4 f, [.float8 x] => .int4 <$> f x
  | .float8ToInt8 f, [.float8 x] => .int8 <$> f x
  | .other f, vs => f vs
  | _, _ => .error .wrongArguments

/-- What SQL functions there are. -/
structure SqlFunctions (R : Type) where
  lib : FloatLib R
  other : Oid → List (Value R) → Except SqlError (Value R)

section Table

variable {R : Type} [Field R] [LinearOrder R] [FloorRing R] (sql : SqlFunctions R)

/-- `pg_proc`: which function an identifier stands for. -/
def builtin : FnOid → Builtin R
  | .int4mul => .int4s int4mul
  | .int4div => .int4s int4div
  | .int4pl => .int4s int4pl
  | .int4mi => .int4s int4mi
  | .int4um => .int4 int4um
  | .float8mul => .float8s float8mul
  | .float8div => .float8s float8div
  | .float8pl => .float8s float8pl
  | .float8mi => .float8s float8mi
  | .float8um => .float8 float8um
  | .float8Int4 => .int4ToFloat8 i4tod
  | .int4Float8 => .float8ToInt4 dtoi4
  | .int8Float8 => .float8ToInt8 dtoi8
  | .float8abs => .float8 (libCall1 sql.lib .fabs)
  | .absFloat8 => .float8 (libCall1 sql.lib .fabs)
  | .dsqrt => .float8 (dsqrt sql.lib)
  | .sqrtFloat8 => .float8 (dsqrt sql.lib)
  | .dpow => .float8s (dpow sql.lib)
  | .powFloat8Float8 => .float8s (dpow sql.lib)
  | .powerFloat8Float8 => .float8s (dpow sql.lib)
  | .asin => .float8 (arcCall sql.lib .asin)
  | .acos => .float8 (arcCall sql.lib .acos)
  | .atan => .float8 (libCall1 sql.lib .atan)
  | .atan2 => .float8s (datan2 sql.lib)
  | .sin => .float8 (libCall1 sql.lib .sin)
  | .cos => .float8 (libCall1 sql.lib .cos)
  | .tan => .float8 (libCall1 sql.lib .tan)
  | .cot => .float8 (dcot sql.lib)
  | .dlog10 => .float8 (logCall sql.lib .log10)
  | .logFloat8 => .float8 (logCall sql.lib .log10)
  | .lnFloat8 => .float8 (logCall sql.lib .log)
  | .expFloat8 => .float8 (dexp sql.lib)
  | .other oid => .other (sql.other oid)

end Table

/-! ## Bodies -/

/-- The body of a lambda over rows: constants, fields and calls. Rows and fields are
counted from 1. -/
inductive Body (R : Type) where
  | const (constvalue : Value R)
  | field (paramid fieldnum : Nat)
  | func (fn_oid : FnOid) (args : List (Body R))
deriving Repr

section Eval

variable {R : Type} [Field R] [LinearOrder R] [FloorRing R] (sql : SqlFunctions R)
  (rows : List (List (Value R)))

mutual

/-- The SQL value of a body on rows without NULLs. -/
def sqlEval : Body R → Except SqlError (Value R)
  | .const v => .ok v
  | .field p k =>
    match (nth1 rows p).bind fun row => nth1 row k with
    | some v => .ok v
    | none => .error .noSuchField
  | .func f args => do
    let vs ← sqlEvalArgs args
    (builtin sql f).call vs

def sqlEvalArgs : List (Body R) → Except SqlError (List (Value R))
  | [] => .ok []
  | e :: es => do
    let v ← sqlEval e
    let vs ← sqlEvalArgs es
    return v :: vs

end

end Eval

end HolLambdas.Jit
