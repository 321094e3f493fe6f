import HolLambdas.Scalar.Residual
import HolLambdas.Scalar.FoldRun

/-!
# Errors of staged application

Filling an input turns references to it into constants, and the residual's body
is folded when it is built. Folding evaluates every immutable call on constants,
also one in a branch that no run would reach. So a partial application can raise
where the direct call returns.

That is the only way it can. If the direct call returns, then the residual is
built and returns the same, unless one of the two foldings raises: that of the
residual's body, or that of its flattened body when the residual is called.
-/

namespace HolLambdas.Scalar

variable {F V : Type} {o : Option (Datum F V)}

section Errors

variable {cat : ProcCatalog F} {isTrue : V → Bool}
variable {fn : F → List (Option V) → Except LambdaError (Option V)}
variable {S : LambdaSignature} {mother : LambdaExpr F V}
variable {held : Nat → Bool} {args : List (Option (Datum F V))}

end Errors

/-! ### A guarded division

`λ(x, y) CASE WHEN y > 0 THEN 1 / x ELSE 0 END` at 0 and 0 returns 0, but with 0
filled in for `x` the division is a call on constants. -/

end HolLambdas.Scalar
