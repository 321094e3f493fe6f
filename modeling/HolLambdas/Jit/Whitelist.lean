import HolLambdas.Jit.Agree
import HolLambdas.Scalar.Substitution

/-!
# The whitelist of the fast path

A lambda stored in a column carries a flag, `l3_safe`, computed once when the literal
is analysed (`lambda_helpers.c`): its body consists of constants, references to its
inputs, calls of its function inputs, and calls of functions on a list
(`LAMBDA_L3_FUNC_LIST` of `lambda.h`). The list is to name the functions that the
switch of `llvm_compile_simple_expr` has a case for; nothing checks that it does.

Inlining puts such bodies together and adds nothing of its own, so what is handed to
the compiler is again made of constants, fields and calls on the list
(`madeOf_lambdaInjector`).
-/

namespace HolLambdas.Jit

open Scalar Row

variable {V R : Type}
variable {args : MotherArgs FnOid V}

/-! ## The analysis -/

/-- `LAMBDA_L3_FUNC_LIST`. A function that is not in the switch is given by its OID in
`pg_proc.dat`. -/
def lambdaL3FuncList : List FnOid :=
  [.float8mul,
   .other 1726, -- numeric_mul
   .float8div,
   .other 1727, -- numeric_div
   .float8pl,
   .other 1724, -- numeric_add
   .float8mi,
   .other 1725, -- numeric_sub
   .float8um, .float8abs, .absFloat8,
   .dpow, .powFloat8Float8, .powerFloat8Float8, .dsqrt, .sqrtFloat8, .expFloat8, .lnFloat8,
   .dlog10,
   .sin, .cos, .tan, .cot, .asin, .acos, .atan, .atan2,
   .other 7801, -- softmax_cce
   .other 7802, -- silu
   .other 7803, -- sigmoid
   .other 7804, -- tanh
   .other 7805, -- relu
   .other 9000, -- mat_mul
   .other 9001, -- silu_m
   .other 9002, -- sigmoid_m
   .other 9003, -- tanh_m
   .other 9004, -- relu_m
   .other 9005] -- mat_add

/-- `lambda_op_has_l3_impl`. -/
def lambdaOpHasL3Impl (funcid : FnOid) : Bool :=
  lambdaL3FuncList.contains funcid

mutual

/-- `lambda_l3_unsafe_walker`. The `Param`s of a column-stored lambda are all
`PARAM_EXEC`. -/
def lambdaL3Unsafe : Expr FnOid V → Bool
  | .const _ _ => false
  | .param _ _ => false
  | .func f args => !lambdaOpHasL3Impl f || lambdaL3UnsafeArgs args
  | .lfa _ _ _ args => lambdaL3UnsafeArgs args
  -- unhandled tag
  | .caseWhen _ _ _ _ => true
  | .coalesce _ _ _ => true
  | .lambda _ _ => true

def lambdaL3UnsafeArgs : List (Expr FnOid V) → Bool
  | [] => false
  | e :: es => lambdaL3Unsafe e || lambdaL3UnsafeArgs es

end

/-- `lambda_expr_is_l3_safe`. -/
def lambdaExprIsL3Safe (lambda : LambdaExpr FnOid V) : Bool :=
  !lambdaL3Unsafe lambda.expr

/-- A lambda in a column with its flag. Only the analysis of a literal sets the flag. -/
structure StoredLambda (V : Type) where
  lambda : LambdaExpr FnOid V
  l3_safe : Bool
  sound : l3_safe = true → lambdaExprIsL3Safe lambda = true

/-- What `transformLambdaExpr` makes of a literal. -/
def StoredLambda.ofLiteral (lambda : LambdaExpr FnOid V) : StoredLambda V :=
  ⟨lambda, lambdaExprIsL3Safe lambda, id⟩

/-- A column value of the row that the lambdas are read from. -/
inductive StoredCell (V : Type) where
  | atom (v : V)
  | lambda (s : StoredLambda V)

/-- The tuple as the injector is given it; the flag is not among what it reads. -/
def StoredCell.datum : StoredCell V → Scalar.Datum FnOid V
  | .atom v => .atom v
  | .lambda s => .lambda .serialized s.lambda

def storedTuple (cells : List (Option (StoredCell V))) : List (Option (Scalar.Datum FnOid V)) :=
  cells.map fun cell => cell.map StoredCell.datum

/-! ## Number of arguments -/

/-- `pronargs` of the functions in the switch. -/
def pronargs : FnOid → Option Nat
  | .int4mul => some 2
  | .int4div => some 2
  | .int4pl => some 2
  | .int4mi => some 2
  | .float8mul => some 2
  | .float8div => some 2
  | .float8pl => some 2
  | .float8mi => some 2
  | .dpow => some 2
  | .powFloat8Float8 => some 2
  | .powerFloat8Float8 => some 2
  | .atan2 => some 2
  | .other _ => none
  | _ => some 1

theorem pronargs_of_emitter {f : FnOid} {em : Emitter} (hem : emitter f = some em) :
    pronargs f = some em.numparams := by
  cases f with
  | other _ | cot => cases hem
  | _ =>
    cases hem
    rfl

/-- A call passes as many arguments as the function has. -/
def callFits (f : FnOid) (n : Nat) : Bool :=
  (pronargs f).all fun k => k = n

mutual

def callsFit : Expr FnOid V → Bool
  | .const _ _ => true
  | .param _ _ => true
  | .func f args => callFits f args.length && callsFitArgs args
  | .caseWhen _ c r d => callsFit c && callsFit r && callsFit d
  | .coalesce _ a b => callsFit a && callsFit b
  | .lfa _ _ _ args => callsFitArgs args
  | .lambda _ e => callsFit e

def callsFitArgs : List (Expr FnOid V) → Bool
  | [] => true
  | e :: es => callsFit e && callsFitArgs es

end

mutual

/-- A mother made of fields, constants, calls on the list, each with the function's
number of arguments, and calls of function inputs. -/
def motherL3Shape : RowBody FnOid V → Bool
  | .const _ _ => true
  | .field _ _ _ => true
  | .func f args => lambdaOpHasL3Impl f && callFits f args.length && motherL3ShapeArgs args
  | .caseWhen _ _ _ _ => false
  | .coalesce _ _ _ => false
  | .lfa _ _ _ _ args => motherL3ShapeArgs args

def motherL3ShapeArgs : List (RowBody FnOid V) → Bool
  | [] => true
  | e :: es => motherL3Shape e && motherL3ShapeArgs es

end

/-! ## What inlining keeps -/

section MadeOf

variable (ok : RowFunc FnOid → Nat → Bool)

mutual

/-- Constants, references and calls, where `ok` says which functions are called with how
many arguments; the same within embedded lambdas. -/
def madeOf : Expr (RowFunc FnOid) V → Bool
  | .const _ _ => true
  | .param _ _ => true
  | .func f args => ok f args.length && madeOfArgs args
  | .caseWhen _ _ _ _ => false
  | .coalesce _ _ _ => false
  | .lfa _ _ _ args => madeOfArgs args
  | .lambda _ e => madeOf e

def madeOfArgs : List (Expr (RowFunc FnOid) V) → Bool
  | [] => true
  | e :: es => madeOf e && madeOfArgs es

end

variable {ok}

theorem madeOf_of_mem : ∀ {es : List (Expr (RowFunc FnOid) V)}, madeOfArgs ok es = true →
    ∀ {e : Expr (RowFunc FnOid) V}, e ∈ es → madeOf ok e = true
  | x :: es, h, e, he => by
    simp only [madeOfArgs, Bool.and_eq_true] at h
    rcases List.mem_cons.mp he with rfl | he
    · exact h.1
    · exact madeOf_of_mem h.2 he

/-- All bindings of a scope are such trees. -/
def MadeOfBindings (ok : RowFunc FnOid → Nat → Bool)
    (binding : List (Option (Expr (RowFunc FnOid) V))) : Prop :=
  ∀ b, some b ∈ binding → madeOf ok b = true

theorem madeOfBindings_map {es : List (Expr (RowFunc FnOid) V)} (h : madeOfArgs ok es = true) :
    MadeOfBindings ok (es.map some) := by
  intro b hb
  obtain ⟨e, he, heq⟩ := List.mem_map.mp hb
  cases heq
  exact madeOf_of_mem h he

theorem MadeOfBindings.resolve {ctx : ScalarBind (RowFunc FnOid) V}
    (h : MadeOfBindings ok ctx.binding) (k : Nat) (t : Oid) :
    madeOf ok (ctx.resolve k (.param k t)) = true := by
  unfold ScalarBind.resolve
  split
  · next b hb => exact h b (List.mem_of_getElem? hb)
  · rfl

mutual

/-- A step inlines a body over trees, and both are made of the same calls. -/
theorem madeOf_walks : ∀ {ctx : ScalarBind (RowFunc FnOid) V} {e r : Expr (RowFunc FnOid) V},
    Walks ctx e r → MadeOfBindings ok ctx.binding → madeOf ok e = true → madeOf ok r = true
  | _, _, _, .const, _, he => he
  | _, _, _, .param, hctx, _ => hctx.resolve _ _
  | _, _, _, .func h, hctx, he => by
    simp only [madeOf, Bool.and_eq_true] at he ⊢
    rw [h.length_eq]
    exact ⟨he.1, madeOfArgs_walks h hctx he.2⟩
  | _, _, _, .inline hk _ hargs hbody, hctx, he => by
    -- the arguments become the bindings of the new scope
    have hcallee := hctx _ (List.mem_of_getElem? hk)
    exact madeOf_walks hbody (madeOfBindings_map (madeOfArgs_walks hargs hctx he)) hcallee
  | _, _, _, .retarget _ hargs, hctx, he => madeOfArgs_walks hargs hctx he
  | _, _, _, .lambda, _, he => he

theorem madeOfArgs_walks : ∀ {ctx : ScalarBind (RowFunc FnOid) V}
    {es rs : List (Expr (RowFunc FnOid) V)}, WalksArgs ctx es rs →
      MadeOfBindings ok ctx.binding → madeOfArgs ok es = true → madeOfArgs ok rs = true
  | _, _, _, .nil, _, _ => rfl
  | _, _, _, .cons h hs, hctx, he => by
    simp only [madeOfArgs, Bool.and_eq_true] at he ⊢
    exact ⟨madeOf_walks h hctx he.1, madeOfArgs_walks hs hctx he.2⟩

end

/-- The lambdas that the injector holds for the mother's columns are such trees. -/
def MadeOfLambdas (ok : RowFunc FnOid → Nat → Bool) (args : MotherArgs FnOid V) : Prop :=
  ∀ tuple ∈ args, ∀ le : LambdaExpr (RowFunc FnOid) V, some le ∈ tuple → madeOf ok le.expr = true

theorem mem_of_nth1 {α : Type} {xs : List α} {i : Nat} {x : α} (h : nth1 xs i = some x) :
    x ∈ xs := by
  unfold nth1 at h
  split at h
  · cases h
  · exact List.mem_of_getElem? h

theorem MadeOfLambdas.motherArg (hargs : MadeOfLambdas ok args) {perr ferr : Nat → RowError}
    {p k : Nat} {le : LambdaExpr (RowFunc FnOid) V}
    (h : motherArg perr ferr args p k = .ok (some le)) : madeOf ok le.expr = true := by
  unfold Row.motherArg at h
  split at h
  · cases h
  · next tuple htuple =>
    split at h
    · cases h
    · next entry hentry =>
      cases h
      exact hargs tuple (mem_of_nth1 htuple) le (mem_of_nth1 hentry)

theorem madeOfBindings_child (hargs : MadeOfLambdas ok args) :
    ∀ {es : List (RowBody FnOid V)} {bs : List (Option (Expr (RowFunc FnOid) V))},
      childBindings args es = .ok bs → madeOfArgs ok (RowBody.nodes es) = true →
        MadeOfBindings ok bs
  | [], _, h, _ => by
    cases h
    intro b hb
    cases hb
  | e :: es, _, h, he => by
    obtain ⟨b, hb, h⟩ := bind_eq_ok.mp h
    obtain ⟨bs, hbs, h⟩ := bind_eq_ok.mp h
    cases h
    simp only [RowBody.nodes, madeOfArgs, Bool.and_eq_true] at he
    intro x hx
    rcases List.mem_cons.mp hx with rfl | hx
    · unfold childBinding at hb
      split at hb
      · -- passed by name: the lambda found for it
        obtain ⟨concrete, hc, hb⟩ := bind_eq_ok.mp hb
        cases concrete with
        | none => cases hb
        | some le =>
          cases hb
          exact hargs.motherArg hc
      · cases hb
        exact he.1
    · exact madeOfBindings_child hargs hbs he.2 x hx

mutual

/-- Injection adds nothing to what mother and lambdas are made of. -/
theorem madeOf_motherMutator {fuel : Nat} (hargs : MadeOfLambdas ok args) :
    ∀ {e : RowBody FnOid V} {r : Expr (RowFunc FnOid) V},
      motherMutator fuel args e = .ok r → madeOf ok e.node = true → madeOf ok r = true
  | .const _ _, _, h, _ => by
    cases h
    rfl
  | .field p k t, _, h, he => by
    cases h
    exact he
  | .func f es, _, h, he => by
    obtain ⟨rs, hrs, h⟩ := bind_eq_ok.mp h
    cases h
    simp only [RowBody.node, madeOf, Bool.and_eq_true] at he ⊢
    obtain ⟨hover, hlen⟩ := madeOf_motherMutatorArgs hargs hrs he.2
    rw [hlen]
    exact ⟨he.1, hover⟩
  | .caseWhen _ _ _ _, _, _, he => by cases he
  | .coalesce _ _ _, _, _, he => by cases he
  | .lfa name t p k es, r, h, he => by
    obtain ⟨target, htarget, h⟩ := bind_eq_ok.mp h
    simp only [RowBody.node, madeOf, Bool.and_eq_true] at he
    cases target with
    | none => cases h
    | some child =>
      simp only [injectScalarChild] at h
      split at h
      · cases h
      · obtain ⟨bs, hbs, h⟩ := bind_eq_ok.mp h
        have hwalk : scalarInjectWalk fuel { binding := bs } child.expr = .ok r := by
          revert h
          cases scalarInjectWalk fuel { binding := bs } child.expr with
          | error x => exact fun h => nomatch h
          | ok x => exact fun h => by cases h; rfl
        exact madeOf_walks (walks_of_walk hwalk) (madeOfBindings_child hargs hbs he.2)
          (hargs.motherArg htarget)

theorem madeOf_motherMutatorArgs {fuel : Nat} (hargs : MadeOfLambdas ok args) :
    ∀ {es : List (RowBody FnOid V)} {rs : List (Expr (RowFunc FnOid) V)},
      motherMutatorArgs fuel args es = .ok rs → madeOfArgs ok (RowBody.nodes es) = true →
        madeOfArgs ok rs = true ∧ rs.length = (RowBody.nodes es).length
  | [], _, h, _ => by
    cases h
    exact ⟨rfl, rfl⟩
  | e :: es, _, h, he => by
    obtain ⟨r, hr, h⟩ := bind_eq_ok.mp h
    obtain ⟨rs, hrs, h⟩ := bind_eq_ok.mp h
    cases h
    simp only [RowBody.nodes, madeOfArgs, Bool.and_eq_true, List.length_cons] at he ⊢
    obtain ⟨hover, hlen⟩ := madeOf_motherMutatorArgs hargs hrs he.2
    exact ⟨⟨madeOf_motherMutator hargs hr he.1, hover⟩, by rw [hlen]⟩

end

/-- A cell of the tuple holds a lambda made of such calls, if it holds one. -/
def MadeOfCell (ok : RowFunc FnOid → Nat → Bool) (d : Option (Scalar.Datum FnOid V)) : Prop :=
  ∀ repr le, d = some (.lambda repr le) → madeOf ok (embed le.expr) = true

theorem madeOfLambdas_injectorArgs {inner : List (List (Option (Scalar.Datum FnOid V)))}
    {argtypes : List (List LambdaSigType)} (hinner : ∀ tuple ∈ inner, ∀ d ∈ tuple, MadeOfCell ok d)
    (h : injectorArgs inner argtypes = .ok args) : MadeOfLambdas ok args := by
  intro tuple htuple le hle
  obtain ⟨i, hi⟩ := List.mem_iff_getElem?.mp htuple
  obtain ⟨j, hj⟩ := List.mem_iff_getElem?.mp hle
  obtain ⟨inputs, _, hrow⟩ := zipIdx_mapM_get h hi
  obtain ⟨input, _, hentry⟩ := zipIdx_mapM_get hrow hj
  unfold injectorEntry at hentry
  split at hentry
  · split at hentry
    · cases hentry
    · next d hd =>
      obtain ⟨row, hrow, hcell⟩ := Option.bind_eq_some_iff.mp hd
      obtain ⟨le', hle', hentry⟩ := bind_eq_ok.mp hentry
      split at hentry
      · cases hentry
        have hmem : some d ∈ row := List.mem_of_getElem? (Option.join_eq_some_iff.mp hcell)
        cases d with
        | atom v => cases hle'
        | lambda repr l =>
          cases repr with
          | node => cases hle'
          | serialized =>
            cases hle'
            exact hinner row (List.mem_of_getElem? hrow) _ hmem _ _ rfl
      · cases hentry
  · cases hentry

/-- Injection adds no call of its own. -/
theorem madeOf_lambdaInjector {fuel : Nat} {argtypes : List (List LambdaSigType)}
    {mother : RowBody FnOid V} {inner : List (List (Option (Scalar.Datum FnOid V)))}
    {e : Expr (RowFunc FnOid) V} (h : lambdaInjector fuel argtypes mother inner = .ok e)
    (hmother : madeOf ok mother.node = true)
    (hinner : ∀ tuple ∈ inner, ∀ d ∈ tuple, MadeOfCell ok d) : madeOf ok e = true := by
  obtain ⟨args, hargs, h⟩ := bind_eq_ok.mp h
  exact madeOf_motherMutator (madeOfLambdas_injectorArgs hinner hargs) h hmother

end MadeOf

/-! ## Mothers and lambdas that pass the analysis -/

/-- The calls that the analysis allows, with the number of arguments of the function. -/
def onList : RowFunc FnOid → Nat → Bool
  | .op f, n => lambdaOpHasL3Impl f && callFits f n
  | .field _ _ _, n => n = 0
  | .lfa _ _ _ _, _ => true

theorem length_embedArgs : ∀ (es : List (Expr FnOid V)), (embedArgs es).length = es.length
  | [] => rfl
  | _ :: es => congrArg (· + 1) (length_embedArgs es)

theorem length_nodes : ∀ (es : List (RowBody FnOid V)), (RowBody.nodes es).length = es.length
  | [] => rfl
  | _ :: es => congrArg (· + 1) (length_nodes es)

mutual

theorem madeOf_embed : ∀ {e : Expr FnOid V}, lambdaL3Unsafe e = false → callsFit e = true →
    madeOf onList (embed e) = true
  | .const _ _, _, _ => rfl
  | .param _ _, _, _ => rfl
  | .func f args, hsafe, hfit => by
    simp only [lambdaL3Unsafe, Bool.or_eq_false_iff, Bool.not_eq_false'] at hsafe
    simp only [callsFit, Bool.and_eq_true] at hfit
    simp only [embed, madeOf, onList, length_embedArgs, Bool.and_eq_true]
    exact ⟨⟨hsafe.1, hfit.1⟩, madeOf_embedArgs hsafe.2 hfit.2⟩
  | .lfa _ _ _ args, hsafe, hfit => madeOf_embedArgs hsafe hfit

theorem madeOf_embedArgs : ∀ {es : List (Expr FnOid V)}, lambdaL3UnsafeArgs es = false →
    callsFitArgs es = true → madeOfArgs onList (embedArgs es) = true
  | [], _, _ => rfl
  | e :: es, hsafe, hfit => by
    simp only [lambdaL3UnsafeArgs, Bool.or_eq_false_iff] at hsafe
    simp only [callsFitArgs, Bool.and_eq_true] at hfit
    simp only [embedArgs, madeOfArgs, Bool.and_eq_true]
    exact ⟨madeOf_embed hsafe.1 hfit.1, madeOf_embedArgs hsafe.2 hfit.2⟩

end

mutual

theorem madeOf_node : ∀ {e : RowBody FnOid V}, motherL3Shape e = true → madeOf onList e.node = true
  | .const _ _, _ => rfl
  | .field _ _ _, _ => rfl
  | .func f args, h => by
    simp only [motherL3Shape, Bool.and_eq_true] at h
    simp only [RowBody.node, madeOf, onList, length_nodes, Bool.and_eq_true]
    exact ⟨h.1, madeOf_nodes h.2⟩
  | .lfa _ _ _ _ args, h => madeOf_nodes h

theorem madeOf_nodes : ∀ {es : List (RowBody FnOid V)}, motherL3ShapeArgs es = true →
    madeOfArgs onList (RowBody.nodes es) = true
  | [], _ => rfl
  | e :: es, h => by
    simp only [motherL3ShapeArgs, Bool.and_eq_true] at h
    simp only [RowBody.nodes, madeOfArgs, Bool.and_eq_true]
    exact ⟨madeOf_node h.1, madeOf_nodes h.2⟩

end

/-- Every lambda of the tuples has the flag, and calls functions with their number of
arguments. -/
def TuplesSafe (tuples : List (List (Option (StoredCell V)))) : Prop :=
  ∀ tuple ∈ tuples, ∀ s : StoredLambda V, some (.lambda s) ∈ tuple →
    s.l3_safe = true ∧ callsFit s.lambda.expr = true

theorem TuplesSafe.madeOfCell {tuples : List (List (Option (StoredCell V)))}
    (h : TuplesSafe tuples) :
    ∀ tuple ∈ tuples.map storedTuple, ∀ d ∈ tuple, MadeOfCell onList d := by
  intro tuple htuple d hd repr le heq
  subst heq
  obtain ⟨cells, hcells, rfl⟩ := List.mem_map.mp htuple
  obtain ⟨cell, hcell, hdatum⟩ := List.mem_map.mp hd
  cases cell with
  | none => cases hdatum
  | some c =>
    cases c with
    | atom v => cases hdatum
    | lambda s =>
      cases hdatum
      obtain ⟨hflag, hfit⟩ := h cells hcells s hcell
      have hsafe := s.sound hflag
      simp only [lambdaExprIsL3Safe, Bool.not_eq_true'] at hsafe
      exact madeOf_embed hsafe hfit

end HolLambdas.Jit
