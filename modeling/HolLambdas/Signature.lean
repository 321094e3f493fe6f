/-!
# Lambda signatures

The type of a lambda column is a *lambda signature*: a list of argument types
and a return type (`LambdaSignature` in `primnodes.h`). An argument or return
type (`LambdaSigType`) is either an ordinary SQL type, named by its OID, or
another signature — that is how a column says it expects a function. The
source keeps both readings in one node with an `is_function` flag; here the
flag is the constructor.

Every function-valued expression has the one SQL type `lambda`
(`LAMBDAOID`): a signature is more than its OID, and everything that is decided
on the OID alone loses the difference. `LambdaSigType.oid` is that projection.
-/

namespace HolLambdas

/-- A catalog object identifier. -/
abbrev Oid := UInt32

/-- `pg_type` OID of the built-in type `lambda`. -/
def LAMBDAOID : Oid := 8501

/-- `LambdaSigType`: an SQL type, or a nested signature. -/
inductive LambdaSigType where
  | scalar (typeoid : Oid)
  | func (argtypes : List LambdaSigType) (rettype : LambdaSigType)
deriving Repr, Inhabited

/-- `LambdaSignature`: what a lambda column is declared with. -/
structure LambdaSignature where
  argtypes : List LambdaSigType
  rettype : LambdaSigType
deriving Repr, Inhabited

namespace LambdaSigType

/-- The `is_function` flag. -/
def isFunction : LambdaSigType → Bool
  | scalar _ => false
  | func _ _ => true

/-- The SQL type of an expression of this signature type. -/
def oid : LambdaSigType → Oid
  | scalar t => t
  | func _ _ => LAMBDAOID

/-- The `typeoid` field, `InvalidOid` for a nested signature. -/
def typeoid : LambdaSigType → Oid
  | scalar t => t
  | func _ _ => 0

@[simp] theorem isFunction_scalar (t : Oid) : (scalar t).isFunction = false := rfl
@[simp] theorem isFunction_func (σs : List LambdaSigType) (τ : LambdaSigType) :
    (func σs τ).isFunction = true := rfl
@[simp] theorem oid_scalar (t : Oid) : (scalar t).oid = t := rfl
@[simp] theorem oid_func (σs : List LambdaSigType) (τ : LambdaSigType) :
    (func σs τ).oid = LAMBDAOID := rfl

-- `deriving DecidableEq` does not reach through the nested list, so equality
-- is decided by the recursion it would have generated.
mutual

/-- Equality of signature types, recursively through nested signatures. -/
def decEq : (σ τ : LambdaSigType) → Decidable (σ = τ)
  | scalar s, scalar t =>
    if h : s = t then isTrue (by rw [h]) else isFalse (by simp [h])
  | func σs ρ, func τs ρ' =>
    match decEqs σs τs, decEq ρ ρ' with
    | isTrue h, isTrue h' => isTrue (by rw [h, h'])
    | isFalse h, _ => isFalse (by simp [h])
    | _, isFalse h => isFalse (by simp [h])
  | scalar _, func _ _ => isFalse (by simp)
  | func _ _, scalar _ => isFalse (by simp)

def decEqs : (σs τs : List LambdaSigType) → Decidable (σs = τs)
  | [], [] => isTrue rfl
  | σ :: σs, τ :: τs =>
    match decEq σ τ, decEqs σs τs with
    | isTrue h, isTrue h' => isTrue (by rw [h, h'])
    | isFalse h, _ => isFalse (by simp [h])
    | _, isFalse h => isFalse (by simp [h])
  | [], _ :: _ => isFalse (by simp)
  | _ :: _, [] => isFalse (by simp)

end

instance : DecidableEq LambdaSigType := decEq

end LambdaSigType

deriving instance DecidableEq for LambdaSignature

end HolLambdas
