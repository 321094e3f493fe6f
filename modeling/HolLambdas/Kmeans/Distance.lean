import HolLambdas.Jit.Folded

/-!
# The distance functions of `kmeans_v2`

In each iteration a function is compiled for each centroid, from `dist_lambda` over the row `p`
of a point and the row `c` of a centroid: "its coordinates are injected as constants (group 1),
the points stay variable (group 0)". The worker calls it with one row, that of the point.

The injector looks for functions only. For atomic columns it notes nothing, so what it returns
is the body as it was (`lambdaInjector_atomic`), the centroid's fields included, and the folder
does not evaluate fields. A function whose body still has a field of `c` loads the second row
of an array of one. `dist_right_iff` is about the body that is compiled and all its parts, as
`fast_agrees_iff` is: they are right exactly if no field of `c` is left, and the fast path is
exact.
-/

namespace HolLambdas.Kmeans

open Scalar Row Jit

variable {R : Type}

/-! ## Compiling and calling -/

/-- `dist_lambda`, over a row of points and a row of centroids with float8 columns. -/
structure DistLambda (R : Type) where
  natts_point : Nat
  natts_centroid : Nat
  body : RowBody FnOid (Value R)

def DistLambda.argtypes (d : DistLambda R) : List (List LambdaSigType) :=
  [List.replicate d.natts_point (.scalar FLOAT8OID),
    List.replicate d.natts_centroid (.scalar FLOAT8OID)]

/-- `inner_tuples`: nothing for the points, the coordinates of the centroid. -/
def innerTuples (coords : List R) : List (List (Option (Scalar.Datum FnOid (Value R)))) :=
  [[], coords.map fun x => some (.atom (.float8 x))]

/-- `pt_dist->expr`: `lambda_injector` followed by `eval_const_expressions`. -/
def DistLambda.ptDist (d : DistLambda R) (rt : FoldRuntime R) (fuel : Nat) (coords : List R) :
    Option (Expr (RowFunc FnOid) (Value R)) :=
  match lambdaInjector fuel d.argtypes d.body (innerTuples coords) with
  | .error _ => none
  | .ok e => (fold rt e).toOption

/-- A row of float8 columns. -/
def float8Row (xs : List R) : List (Value R) :=
  xs.map .float8

/-- The two rows that `dist_lambda` is about. -/
def bothRows (point coords : List R) : List (List (Value R)) :=
  [float8Row point, float8Row coords]

theorem DistLambda.allAtomic (d : DistLambda R) : AllAtomic d.argtypes := by
  intro row hrow σ hσ
  simp only [argtypes, List.mem_cons, List.not_mem_nil, or_false] at hrow
  rcases hrow with rfl | rfl
  · rw [List.eq_of_mem_replicate hσ]
    rfl
  · rw [List.eq_of_mem_replicate hσ]
    rfl

/-! ## Calling with one row -/

mutual

/-- There is a field of row `i` in the body. -/
def refersTo (i : Nat) : Body R → Bool
  | .const _ => false
  | .field p _ => p = i
  | .func _ args => refersToArgs i args

def refersToArgs (i : Nat) : List (Body R) → Bool
  | [] => false
  | e :: es => refersTo i e || refersToArgs i es

end

mutual

/-- What a call hands on to its arguments holds for all parts. -/
theorem forall_parts {P : Body R → Prop} (hargs : ∀ f args, P (.func f args) → ∀ a ∈ args, P a) :
    ∀ {b : Body R}, P b → ∀ s ∈ b.parts, P s
  | .const _, h, _, hs => by
    obtain rfl := List.mem_singleton.mp hs
    exact h
  | .field _ _, h, _, hs => by
    obtain rfl := List.mem_singleton.mp hs
    exact h
  | .func f args, h, s, hs => by
    rcases List.mem_cons.mp hs with rfl | hs
    · exact h
    · exact forall_partsArgs hargs (hargs f args h) s hs

theorem forall_partsArgs {P : Body R → Prop}
    (hargs : ∀ f args, P (.func f args) → ∀ a ∈ args, P a) :
    ∀ {bs : List (Body R)}, (∀ b ∈ bs, P b) → ∀ s ∈ Body.partsArgs bs, P s
  | b :: bs, h, s, hs => by
    obtain ⟨hb, hbs⟩ := List.forall_mem_cons.mp h
    rcases List.mem_append.mp hs with hs | hs
    · exact forall_parts hargs hb s hs
    · exact forall_partsArgs hargs hbs s hs

end

theorem refersTo_parts {i : Nat} {b : Body R} (h : refersTo i b = false) :
    ∀ s ∈ b.parts, refersTo i s = false := by
  refine forall_parts (fun f args hcall => ?_) h
  rw [refersTo] at hcall
  induction args with
  | nil => simp
  | cons e es ih =>
    rw [refersToArgs, Bool.or_eq_false_iff] at hcall
    exact List.forall_mem_cons.mpr ⟨hcall.1, ih hcall.2⟩

theorem accepted_parts {b : Body R} (h : b.accepted = true) : ∀ s ∈ b.parts, s.accepted = true := by
  refine forall_parts (fun f args hcall => ?_) h
  have hargs := acceptedArgs_of_func hcall
  clear hcall
  induction args with
  | nil => simp
  | cons e es ih =>
    rw [Body.acceptedArgs, Bool.and_eq_true] at hargs
    exact List.forall_mem_cons.mpr ⟨hargs.1, ih hargs.2⟩

section Run

variable [Field R] [LinearOrder R] [FloorRing R] {lib : FloatLib R} {negDouble : R → Option R}
  {row : List (Datum R)}

/-- Without a field of the second row it makes no difference whether there is one. -/
theorem run_of_not_refersTo (row' : List (Datum R)) : ∀ {b : Body R}, b.accepted = true →
    refersTo 2 b = false → b.value.run lib negDouble [row] = b.value.run lib negDouble [row, row']
  | .const _, _, _ => rfl
  | .field p k, _, h => by
    have hp : p ≠ 2 := by simpa [refersTo] using h
    have hrow : nth1 [row] p = nth1 [row, row'] p := by
      rcases p with _ | _ | _ | p
      · rfl
      · rfl
      · exact absurd rfl hp
      · rfl
    simp only [Body.value, LValue.run, hrow]
    cases nth1 [row, row'] p with
    | none => rfl
    | some r => simp only [Option.map_some, hrow]
  | .func f args, hacc, h => by
    rcases accepted_func_cases hacc with ⟨a, o, e, hem, rfl, he⟩ | ⟨a, o, e, e', hem, rfl, he, he'⟩
    · simp only [refersTo, refersToArgs, Bool.or_false] at h
      simp only [Body.value, Body.valueArgs, hem, emitted, LValue.run,
        run_of_not_refersTo row' he h]
    · simp only [refersTo, refersToArgs, Bool.or_false, Bool.or_eq_false_iff] at h
      simp only [Body.value, Body.valueArgs, hem, emitted, LValue.run,
        run_of_not_refersTo row' he h.1, run_of_not_refersTo row' he' h.2]

/-- With one, the load is from behind the array that the worker passes. -/
theorem run_of_refersTo : ∀ {b : Body R}, b.accepted = true → refersTo 2 b = true →
    b.value.run lib negDouble [row] = none
  | .field p k, _, h => by
    obtain rfl : p = 2 := by simpa [refersTo] using h
    rfl
  | .func f args, hacc, h => by
    rcases accepted_func_cases hacc with ⟨a, o, e, hem, rfl, he⟩ | ⟨a, o, e, e', hem, rfl, he, he'⟩
    · simp only [refersTo, refersToArgs, Bool.or_false] at h
      simp only [Body.value, Body.valueArgs, hem, emitted, LValue.run, run_of_refersTo he h,
        Option.bind_none]
    · simp only [refersTo, refersToArgs, Bool.or_false, Bool.or_eq_true] at h
      simp only [Body.value, Body.valueArgs, hem, emitted, LValue.run]
      rcases h with h | h
      · rw [run_of_refersTo he h, Option.bind_none, Option.bind_none]
      · rw [run_of_refersTo he' h]
        cases (e.value.run lib negDouble [row]).bind a.run <;> rfl

end Run

/-! ## The result -/

section Right

variable [Field R] [LinearOrder R] [FloorRing R]

/-- `dist_funcs[ci](&p)`, read as a value of the given type. -/
def callDist (lib : FloatLib R) (negDouble : R → Option R) (fn : LValue R) (point : List R)
    (type : SqlType) : Option (Value R) :=
  match fn.run lib negDouble [(float8Row point).map Value.datum] with
  | some (.i64 d) => d.read type
  | _ => none

variable (sql : SqlFunctions R) (negDouble : R → Option R) (point coords : List R)

/-- The function compiled from a body, called with the point only, returns the value that the
body has with the point and the centroid. -/
def PartRight (s : Body R) : Prop :=
  ∃ w fn, sqlEval sql (bothRows point coords) s = .ok w ∧
    compileSimpleExpr (steps s ++ [.done]) [] = .ok fn ∧
      callDist sql.lib negDouble fn point w.type = some w

variable {sql negDouble point coords}

/-- Right: no centroid is read, and the fast path agrees. -/
theorem partRight_iff {s : Body R} (hacc : s.accepted = true) :
    PartRight sql negDouble point coords s ↔
      refersTo 2 s = false ∧ Agrees sql negDouble (bothRows point coords) s := by
  have hrun : ∀ {fn type}, compileSimpleExpr (steps s ++ [.done]) [] = .ok fn →
      refersTo 2 s = false → callDist sql.lib negDouble fn point type =
        fastEval sql.lib negDouble (bothRows point coords) s type := by
    intro fn type hfn href
    rw [callDist, fastEval, hfn]
    rw [compile_body hacc] at hfn
    split at hfn
    · cases hfn
      have hsame : s.value.run sql.lib negDouble [(float8Row point).map Value.datum] = _ :=
        run_of_not_refersTo ((float8Row coords).map Value.datum) hacc href
      cases hrun : s.value.run sql.lib negDouble
          [(float8Row point).map Value.datum, (float8Row coords).map Value.datum] <;>
        simp only [LValue.run, bothRows, List.map_cons, List.map_nil, hsame, hrun, Option.map_none,
          Option.map_some]
    · cases hfn
  constructor
  · rintro ⟨w, fn, hsql, hfn, hcall⟩
    have href : refersTo 2 s = false := by
      by_contra hne
      rw [Bool.not_eq_false] at hne
      rw [callDist] at hcall
      rw [compile_body hacc] at hfn
      split at hfn
      · cases hfn
        simp only [LValue.run, run_of_refersTo hacc hne, Option.map_none] at hcall
        cases hcall
      · cases hfn
    exact ⟨href, w, hsql, (hrun hfn href).symm.trans hcall⟩
  · rintro ⟨href, w, hsql, hfast⟩
    have hfit := ((fastEval_eq_some_iff hacc).mp hfast).1
    have hfn := compile_body hacc
    rw [if_pos hfit] at hfn
    exact ⟨w, _, hsql, hfn, (hrun hfn href).trans hfast⟩

/-- **The distance functions are right exactly if folding leaves no field of the centroid in
the body, and the fast path is exact on it.** -/
theorem dist_right_iff [IsStrictOrderedRing R] {d : DistLambda R} {rt : FoldRuntime R} {fuel : Nat}
    {address : LambdaHeader → Expr (RowFunc FnOid) (Value R) → BitVec 64}
    {e : Expr (RowFunc FnOid) (Value R)} {fn : LValue R} {v : Value R} (himpl : Implements rt sql)
    (htype : RowHasType rt.cat d.argtypes d.body FLOAT8OID)
    (hvalue : exprValue rt (bothRows point coords) d.body.node = some (some v))
    (he : d.ptDist rt fuel coords = some e) (hfn : compileTree address e = .ok fn) :
    ∃ b, toBody e = some b ∧
      (callDist sql.lib negDouble fn point v.type = some v ∧
          (∀ s ∈ b.parts, PartRight sql negDouble point coords s) ↔
        refersTo 2 b = false ∧ ExactOn sql negDouble (bothRows point coords) b) := by
  have hfold : fold rt d.body.node = .ok e := by
    rw [DistLambda.ptDist, lambdaInjector_atomic d.allAtomic fuel htype] at he
    dsimp only at he
    cases hfolded : fold rt d.body.node with
    | error err =>
      rw [hfolded] at he
      cases he
    | ok r =>
      rw [hfolded] at he
      cases he
      rfl
  have hplain := (plain_node himpl.pronargs d.allAtomic htype).fold hfold
  have hvalue' := exprValue_fold (plain_node himpl.pronargs d.allAtomic htype) hfold hvalue
  obtain ⟨hswitch, _⟩ := switched_of_compile hplain hfn
  obtain ⟨b, hb, hacc, hsql⟩ := exists_toBody himpl hplain hswitch hvalue'
  rw [compileTree, execSteps_toBody hplain hb] at hfn
  have hfit : b.registers ≤ registersLength := by
    rw [compile_body hacc] at hfn
    split at hfn
    · assumption
    · cases hfn
  have hall : (∀ s ∈ b.parts, PartRight sql negDouble point coords s) ↔
      refersTo 2 b = false ∧ ExactOn sql negDouble (bothRows point coords) b := by
    have hparts : ∀ s ∈ b.parts, (PartRight sql negDouble point coords s ↔ _) :=
      fun s hs => partRight_iff (accepted_parts hacc s hs)
    rw [forall₂_congr hparts, forall₂_and, fast_agrees_iff hacc hsql]
    constructor
    · rintro ⟨href, _, hexact⟩
      exact ⟨href b (mem_parts_self b), hexact⟩
    · rintro ⟨href, hexact⟩
      exact ⟨refersTo_parts href, hfit, hexact⟩
  refine ⟨b, hb, ?_⟩
  rw [← hall]
  constructor
  · exact And.right
  · intro hright
    obtain ⟨w, fn', hw, hfn', hcall⟩ := hright b (mem_parts_self b)
    cases hw.symm.trans hsql
    cases hfn'.symm.trans hfn
    exact ⟨hcall, hright⟩

/-! ## `p.x * p.x` and `p.x - c.x` -/

/-- Strict, immutable functions over float8, evaluated as in `zeroFunctions`. -/
def float8Runtime : FoldRuntime ℚ where
  cat :=
    { proisstrict := fun _ => true
      provolatile := fun _ => .immutable
      proargtypes := fun f => List.replicate ((pronargs f).getD 0) FLOAT8OID
      prorettype := fun _ => FLOAT8OID }
  call f vs := ((builtin zeroFunctions f).call (vs.filterMap id)).map some
  isTrue _ := false

theorem implements_float8Runtime : Implements float8Runtime zeroFunctions := by
  refine ⟨fun f n hn => ?_, fun _ _ => rfl, fun f vs _ => ?_⟩
  · simp [float8Runtime, hn]
  · simp [float8Runtime, List.filterMap_map]

def squaredDist : DistLambda ℚ :=
  ⟨1, 1, .func .float8mul [.field 1 1 FLOAT8OID, .field 1 1 FLOAT8OID]⟩

def lineDist : DistLambda ℚ :=
  ⟨1, 1, .func .float8mi [.field 1 1 FLOAT8OID, .field 2 1 FLOAT8OID]⟩

/-- A distance that does not depend on the centroid: `3 * 3` is `9`. -/
theorem dist_right_iff_squared :
    ∃ e fn, squaredDist.ptDist float8Runtime 1 [1] = some e ∧
      compileTree (fun _ _ => 0) e = .ok fn ∧
        callDist zeroFunctions.lib (fun x => some (-x)) fn [3] .float8 = some (.float8 9) := by
  have htype : RowHasType float8Runtime.cat squaredDist.argtypes squaredDist.body FLOAT8OID :=
    ⟨rfl, _, _, rfl, .inl ⟨_, rfl, rfl, rfl⟩, _, _, rfl, .inl ⟨_, rfl, rfl, rfl⟩, rfl⟩
  have hvalue : exprValue float8Runtime (bothRows [3] [1]) squaredDist.body.node =
      some (some (.float8 9)) := by decide +kernel
  have he : squaredDist.ptDist float8Runtime 1 [1] = some squaredDist.body.node := rfl
  have hfn : compileTree (fun _ _ => 0) squaredDist.body.node =
    .ok (.toDatum (Body.func .float8mul [.field 1 1, .field 1 1]).value) := rfl
  obtain ⟨b, hb, hright⟩ := (dist_right_iff implements_float8Runtime htype hvalue he hfn :
    ∃ b, _ ∧ (callDist zeroFunctions.lib (fun x => some (-x)) _ _ _ = _ ∧ _ ↔ _))
  cases hb
  refine ⟨_, _, he, hfn, (hright.mpr ⟨rfl, ?_⟩).1⟩
  exact ⟨⟨trivial, trivial, trivial⟩, fun _ _ => trivial⟩

/-- `3 - 1` is `2`; the function compiled for the centroid `1` reads past the argument it is
called with. -/
theorem lineDist_fails :
    exprValue float8Runtime (bothRows [3] [1]) lineDist.body.node = some (some (.float8 2)) ∧
      ∃ e fn, lineDist.ptDist float8Runtime 1 [1] = some e ∧
        compileTree (fun _ _ => 0) e = .ok fn ∧
          callDist zeroFunctions.lib (fun x => some (-x)) fn [3] .float8 = none :=
  ⟨by decide +kernel, _, _, rfl, rfl, rfl⟩

end Right

end HolLambdas.Kmeans
