import HolLambdas.Jit.Whitelist

/-!
# Compiling an injected body

A body that is put together from lambdas with the flag is made of constants, fields and
calls on the whitelist. Whether the fast compiler translates it is then a matter of its
switch, and of the registers. The comment on the whitelist says that it lines up with
the switch exactly; fifteen functions on the list have no case, and the case of `cot`
calls a function that is not there (`notEmitted`).
`l3_compiles_iff`: the body compiles exactly if none of them is left in it, and 500
registers suffice.
-/

namespace HolLambdas.Jit

open Scalar Row

variable {V R : Type}

section Compile

/-- The opcodes that the fast compiler does not know and that a tree can lead to. -/
def EEOP_CALLLAMBDAEXPR : Nat := 18
def EEOP_JUMP : Nat := 31
def EEOP_JUMP_IF_NOT_NULL : Nat := 33
def EEOP_JUMP_IF_NOT_TRUE : Nat := 34

/-- The datum of a `Const`; a NULL one has the datum zero. -/
def constDatum : Option (Value R) → Datum R
  | some v => v.datum
  | none => .word 0

/-- The last steps of a call or a field. -/
def funcSteps : RowFunc FnOid → List (Step R)
  | .op f => [.funcexpr f]
  | .field p k _ => [.paramExtern p, .fieldselect k]
  | .lfa _ _ _ _ => [.other EEOP_CALLLAMBDAEXPR]

/-- A call of a function input begins with a load of that input. -/
def calleeSteps : RowFunc FnOid → List (Step R)
  | .lfa _ _ _ k => [.paramExec k]
  | _ => []

variable (address : LambdaHeader → Expr (RowFunc FnOid) (Value R) → BitVec 64)

mutual

/-- `ExecInitExprRec` with `load_consts_explicitly`. An embedded lambda is a constant,
the address of the node. -/
def execSteps : Expr (RowFunc FnOid) (Value R) → List (Step R)
  | .const _ v => [.const (constDatum v)]
  | .param k _ => [.paramExec k]
  | .func f args => calleeSteps f ++ (execStepsArgs args ++ funcSteps f)
  | .caseWhen _ c r d =>
    execSteps c ++ .other EEOP_JUMP_IF_NOT_TRUE :: (execSteps r ++ .other EEOP_JUMP :: execSteps d)
  | .coalesce _ a b => execSteps a ++ .other EEOP_JUMP_IF_NOT_NULL :: execSteps b
  | .lfa _ _ k args =>
    .paramExec k :: (execStepsArgs args ++ [.other EEOP_CALLLAMBDAEXPR])
  | .lambda h e => [.const (.word (address h e))]

def execStepsArgs : List (Expr (RowFunc FnOid) (Value R)) → List (Step R)
  | [] => []
  | e :: es => execSteps e ++ execStepsArgs es

end

/-- `ExecInitLambdaExpr` with the fast compiler. -/
def compileTree (e : Expr (RowFunc FnOid) (Value R)) : Except JitError (LValue R) :=
  compileSimpleExpr (execSteps address e ++ [.done]) []

mutual

/-- The functions that a tree calls. -/
def calledFunctions : Expr (RowFunc FnOid) V → List FnOid
  | .const _ _ => []
  | .param _ _ => []
  | .func (.op f) args => f :: calledFunctionsArgs args
  | .func _ args => calledFunctionsArgs args
  | .caseWhen _ c r d => calledFunctions c ++ calledFunctions r ++ calledFunctions d
  | .coalesce _ a b => calledFunctions a ++ calledFunctions b
  | .lfa _ _ _ args => calledFunctionsArgs args
  | .lambda _ _ => []

def calledFunctionsArgs : List (Expr (RowFunc FnOid) V) → List FnOid
  | [] => []
  | e :: es => calledFunctions e ++ calledFunctionsArgs es

end

mutual

/-- How many registers are in use at once. -/
def treeRegisters : Expr (RowFunc FnOid) V → Nat
  | .const _ _ => 1
  | .param _ _ => 1
  | .func (.field _ _ _) _ => 1
  | .func _ args => treeRegistersArgs args
  | .caseWhen _ c r d => max (treeRegisters c) (max (treeRegisters r) (treeRegisters d))
  | .coalesce _ a b => max (treeRegisters a) (treeRegisters b)
  | .lfa _ _ _ args => 1 + treeRegistersArgs args
  | .lambda _ _ => 1

def treeRegistersArgs : List (Expr (RowFunc FnOid) V) → Nat
  | [] => 0
  | e :: es => max (treeRegisters e) (1 + treeRegistersArgs es)

end

/-- The functions on the whitelist that the switch has no case for, or one that raises. -/
def notEmitted : List FnOid :=
  [.cot, -- not in the library
   .other 1726, .other 1727, .other 1724, .other 1725, -- arithmetic on numeric
   .other 7801, .other 7802, .other 7803, .other 7804, .other 7805, -- activations
   .other 9000, .other 9001, .other 9002, .other 9003, .other 9004, .other 9005] -- matrices

theorem isSome_emitter_iff : ∀ {f : FnOid}, lambdaOpHasL3Impl f = true →
    ((emitter f).isSome = true ↔ f ∉ notEmitted) := by
  have hlist : ∀ f ∈ lambdaL3FuncList, (emitter f).isSome = true ↔ f ∉ notEmitted := by decide
  intro f hf
  exact hlist f (List.contains_iff_mem.mp hf)

/-- Every function that a tree calls has a case in the switch that does not raise. -/
def HasCases (e : Expr (RowFunc FnOid) V) : Prop :=
  ∀ f ∈ calledFunctions e, (emitter f).isSome = true

def HasCasesArgs (es : List (Expr (RowFunc FnOid) V)) : Prop :=
  ∀ f ∈ calledFunctionsArgs es, (emitter f).isSome = true

theorem hasCases_func {f : FnOid} {args : List (Expr (RowFunc FnOid) V)} :
    HasCases (.func (.op f) args) ↔ (emitter f).isSome = true ∧ HasCasesArgs args := by
  simp only [HasCases, calledFunctions, List.forall_mem_cons]
  rfl

variable {e : Expr (RowFunc FnOid) V} {es : List (Expr (RowFunc FnOid) V)}

theorem hasCasesArgs_cons : HasCasesArgs (e :: es) ↔ HasCases e ∧ HasCasesArgs es := by
  simp only [HasCasesArgs, calledFunctionsArgs, List.forall_mem_append]
  rfl

/-- What is handed to the compiler after a complete injection of safe lambdas. -/
structure L3Tree (e : Expr (RowFunc FnOid) V) : Prop where
  madeOf : madeOf onList e = true
  noAlias : hasAlias e = false

structure L3Trees (es : List (Expr (RowFunc FnOid) V)) : Prop where
  madeOf : madeOfArgs onList es = true
  noAlias : hasAliasArgs es = false

theorem L3Trees.head (h : L3Trees (e :: es)) : L3Tree e := by
  obtain ⟨hover, hno⟩ := h
  simp only [madeOfArgs, Bool.and_eq_true] at hover
  simp only [hasAliasArgs, Bool.or_eq_false_iff] at hno
  exact ⟨hover.1, hno.1⟩

theorem L3Trees.tail (h : L3Trees (e :: es)) : L3Trees es := by
  obtain ⟨hover, hno⟩ := h
  simp only [madeOfArgs, Bool.and_eq_true] at hover
  simp only [hasAliasArgs, Bool.or_eq_false_iff] at hno
  exact ⟨hover.2, hno.2⟩

/-- A call in such a tree is a field, or a call on the list with fitting arguments. -/
theorem L3Tree.func_cases {f : RowFunc FnOid} {args : List (Expr (RowFunc FnOid) V)}
    (h : L3Tree (.func f args)) :
    (∃ p k t, f = .field p k t ∧ args = []) ∨
      ∃ g, f = .op g ∧ callFits g args.length = true ∧ L3Trees args := by
  obtain ⟨hover, hno⟩ := h
  simp only [Jit.madeOf, Bool.and_eq_true] at hover
  simp only [hasAlias, Bool.or_eq_false_iff] at hno
  cases f with
  | op g =>
    simp only [onList, Bool.and_eq_true] at hover
    exact .inr ⟨g, rfl, hover.1.2, hover.2, hno.2⟩
  | field p k t =>
    simp only [onList, decide_eq_true_eq] at hover
    exact .inl ⟨p, k, t, rfl, List.eq_nil_of_length_eq_zero hover.1⟩
  | lfa name t p k => cases hno.1

mutual

theorem L3Tree.onList : ∀ {e : Expr (RowFunc FnOid) V}, L3Tree e →
    ∀ f ∈ calledFunctions e, lambdaOpHasL3Impl f = true
  | .func g args, h, f, hf => by
    rcases h.func_cases with ⟨p, k, t, rfl, rfl⟩ | ⟨g, rfl, _, hargs⟩
    · cases hf
    · rcases List.mem_cons.mp hf with rfl | hf
      · have hover := h.madeOf
        simp only [Jit.madeOf, Jit.onList, Bool.and_eq_true] at hover
        exact hover.1.1
      · exact hargs.onList f hf
  | .caseWhen _ _ _ _, h, _, _ => by cases h.madeOf
  | .coalesce _ _ _, h, _, _ => by cases h.madeOf
  | .lfa _ _ _ _, h, _, _ => by cases h.noAlias

theorem L3Trees.onList : ∀ {es : List (Expr (RowFunc FnOid) V)}, L3Trees es →
    ∀ f ∈ calledFunctionsArgs es, lambdaOpHasL3Impl f = true
  | e :: es, h, f, hf => by
    rcases List.mem_append.mp hf with hf | hf
    · exact h.head.onList f hf
    · exact h.tail.onList f hf

end

theorem L3Tree.hasCases_iff (h : L3Tree e) : HasCases e ↔ ∀ f ∈ calledFunctions e, f ∉ notEmitted :=
  forall₂_congr fun f hf => isSome_emitter_iff (h.onList f hf)

/-- With a case in the switch the number of arguments is the one the case takes. -/
theorem length_of_callFits {f : FnOid} {em : Emitter} {n : Nat} (hem : emitter f = some em)
    (hfit : callFits f n = true) : n = em.numparams := by
  simp only [callFits, pronargs_of_emitter hem, Option.all_some, decide_eq_true_eq] at hfit
  exact hfit.symm

theorem treeRegisters_pos (h : L3Tree e) (hcases : HasCases e) : 0 < treeRegisters e := by
  cases e with
  | const t v => exact Nat.one_pos
  | param k t => exact Nat.one_pos
  | func f args =>
    rcases h.func_cases with ⟨p, k, t, rfl, rfl⟩ | ⟨g, rfl, hfit, _⟩
    · exact Nat.one_pos
    · obtain ⟨em, hem⟩ := Option.isSome_iff_exists.mp (hasCases_func.mp hcases).1
      have hlen := length_of_callFits hem hfit
      cases args with
      | nil => cases em <;> cases hlen
      | cons a as =>
        simp only [treeRegisters, treeRegistersArgs]
        omega
  | caseWhen t c r d => cases h.madeOf
  | coalesce t a b => cases h.madeOf
  | lfa name t k args => cases h.noAlias
  | lambda hdr e => exact Nat.one_pos

mutual

/-- The registers are a stack here too. -/
theorem compile_tree : ∀ {e : Expr (RowFunc FnOid) (Value R)}, L3Tree e → HasCases e →
    ∃ v, ∀ (rest : List (Step R)) (registers : List (LValue R)),
      registers.length ≤ registersLength →
        compileSimpleExpr (execSteps address e ++ rest) registers =
          compiledTo rest registers (treeRegisters e) [v]
  | .const t v, _, _ => by
    refine ⟨.sizetConst (constDatum v), fun rest registers _ => ?_⟩
    simp only [execSteps, List.singleton_append, compileSimpleExpr, push_bind]
    rfl
  | .param k t, _, _ => by
    refine ⟨.loadParam (k + 1), fun rest registers _ => ?_⟩
    simp only [execSteps, List.singleton_append, compileSimpleExpr, push_bind]
    rfl
  | .func f args, h, hcases => by
    rcases h.func_cases with ⟨p, k, t, rfl, rfl⟩ | ⟨g, rfl, hfit, hargs⟩
    · refine ⟨.loadField (.loadParam p) k, fun rest registers _ => ?_⟩
      simp only [execSteps, execStepsArgs, calleeSteps, funcSteps, List.nil_append,
        List.cons_append, compileSimpleExpr, push_bind]
      rfl
    · have hpos := treeRegisters_pos h hcases
      rw [hasCases_func] at hcases
      obtain ⟨em, hem⟩ := Option.isSome_iff_exists.mp hcases.1
      have hlen := length_of_callFits hem hfit
      obtain ⟨vs, hvs, hcompile⟩ := compile_trees hargs hcases.2
      -- the operands are on top, the result takes their place
      have hcall : ∃ v, ∀ registers : List (LValue R), registers.length + 1 ≤ registersLength →
          emitCall em (vs.reverse ++ registers) = .ok (v :: registers) := by
        cases em with
        | one a o =>
          obtain ⟨w, rfl⟩ := List.length_eq_one_iff.mp (hvs.trans hlen)
          refine ⟨.op1 o (.as a w), fun registers hroom => ?_⟩
          simp only [List.reverse_singleton, List.singleton_append, emitCall, pushRegister]
          rw [if_pos (by omega)]
        | two a o =>
          obtain ⟨w, w', rfl⟩ := List.length_eq_two.mp (hvs.trans hlen)
          refine ⟨.op2 o (.as a w) (.as a w'), fun registers hroom => ?_⟩
          simp only [List.reverse_cons, List.reverse_nil, List.nil_append, List.cons_append,
            emitCall, pushRegister]
          rw [if_pos (by omega)]
      obtain ⟨v, hv⟩ := hcall
      refine ⟨v, fun rest registers hroom => ?_⟩
      simp only [treeRegisters] at hpos
      simp only [execSteps, calleeSteps, funcSteps, List.nil_append, List.append_assoc,
        List.singleton_append, treeRegisters, hcompile _ _ hroom]
      unfold compiledTo
      by_cases hfits : registers.length + treeRegistersArgs args ≤ registersLength
      · have hcalled := hv registers (by omega)
        rw [if_pos hfits, if_pos hfits]
        simp only [compileSimpleExpr, hem, hcalled, ok_bind, List.reverse_singleton,
          List.singleton_append]
      · rw [if_neg hfits, if_neg hfits]
  | .lambda hdr e, _, _ => by
    refine ⟨.sizetConst (.word (address hdr e)), fun rest registers _ => ?_⟩
    simp only [execSteps, List.singleton_append, compileSimpleExpr, push_bind]
    rfl
  | .caseWhen _ _ _ _, h, _ => by cases h.madeOf
  | .coalesce _ _ _, h, _ => by cases h.madeOf
  | .lfa _ _ _ _, h, _ => by cases h.noAlias

theorem compile_trees : ∀ {es : List (Expr (RowFunc FnOid) (Value R))}, L3Trees es →
    HasCasesArgs es → ∃ vs, vs.length = es.length ∧
      ∀ (rest : List (Step R)) (registers : List (LValue R)), registers.length ≤ registersLength →
        compileSimpleExpr (execStepsArgs address es ++ rest) registers =
          compiledTo rest registers (treeRegistersArgs es) vs
  | [], _, _ => by
    refine ⟨[], rfl, fun rest registers hroom => ?_⟩
    unfold compiledTo
    rw [if_pos (by simpa [treeRegistersArgs] using hroom)]
    rfl
  | e :: es, h, hcases => by
    obtain ⟨hcase, hcases⟩ := hasCasesArgs_cons.mp hcases
    have hpos := treeRegisters_pos h.head hcase
    obtain ⟨v, hv⟩ := compile_tree h.head hcase
    obtain ⟨vs, hlen, hvs⟩ := compile_trees h.tail hcases
    refine ⟨v :: vs, by simp [hlen], fun rest registers hroom => ?_⟩
    rw [execStepsArgs, List.append_assoc, hv _ _ hroom]
    unfold compiledTo
    rw [treeRegistersArgs]
    by_cases hfits : registers.length + treeRegisters e ≤ registersLength
    · rw [if_pos hfits, List.reverse_singleton, List.singleton_append,
        hvs rest (v :: registers) (by rw [List.length_cons]; omega)]
      unfold compiledTo
      rw [List.length_cons, List.reverse_cons, List.append_assoc, List.singleton_append]
      by_cases hfits' : registers.length + 1 + treeRegistersArgs es ≤ registersLength
      · rw [if_pos hfits', if_pos (by omega)]
      · rw [if_neg hfits', if_neg (by omega)]
    · rw [if_neg hfits, if_neg (by omega)]

end

/-- After trees that compile, either the registers are exhausted or the rest decides. -/
theorem error_of_compiledTo {rest : List (Step R)} {registers vs : List (LValue R)} {n : Nat}
    (hrest : registers.length + n ≤ registersLength →
      ∃ err, compileSimpleExpr rest (vs.reverse ++ registers) = .error err) :
    ∃ err, compiledTo rest registers n vs = .error err := by
  unfold compiledTo
  split
  · next hfits => exact hrest hfits
  · exact ⟨_, rfl⟩

mutual

/-- A function without a case ends the compilation. -/
theorem compile_error : ∀ {e : Expr (RowFunc FnOid) (Value R)}, L3Tree e → ¬ HasCases e →
    ∀ (rest : List (Step R)) (registers : List (LValue R)), registers.length ≤ registersLength →
      ∃ err, compileSimpleExpr (execSteps address e ++ rest) registers = .error err
  | .const _ _, _, hcases, _, _, _ => absurd (fun _ h => nomatch h) hcases
  | .param _ _, _, hcases, _, _, _ => absurd (fun _ h => nomatch h) hcases
  | .lambda _ _, _, hcases, _, _, _ => absurd (fun _ h => nomatch h) hcases
  | .caseWhen _ _ _ _, h, _, _, _, _ => by cases h.madeOf
  | .coalesce _ _ _, h, _, _, _, _ => by cases h.madeOf
  | .lfa _ _ _ _, h, _, _, _, _ => by cases h.noAlias
  | .func f args, h, hcases, rest, registers, hroom => by
    rcases h.func_cases with ⟨p, k, t, rfl, rfl⟩ | ⟨g, rfl, _, hargs⟩
    · exact absurd (fun _ h => nomatch h) hcases
    · simp only [execSteps, calleeSteps, funcSteps, List.nil_append, List.append_assoc,
        List.singleton_append]
      by_cases hargcases : HasCasesArgs args
      · -- the arguments compile, the function has no case
        obtain ⟨vs, _, hvs⟩ := compile_trees address hargs hargcases
        rw [hvs _ _ hroom]
        refine error_of_compiledTo fun _ => ?_
        have hnone : emitter g = none := by
          rw [hasCases_func, not_and] at hcases
          cases hem : emitter g with
          | none => rfl
          | some em => exact absurd hargcases (hcases (by rw [hem]; rfl))
        rw [compileSimpleExpr, hnone]
        exact ⟨_, rfl⟩
      · exact compile_errorArgs hargs hargcases _ registers hroom

theorem compile_errorArgs : ∀ {es : List (Expr (RowFunc FnOid) (Value R))}, L3Trees es →
    ¬ HasCasesArgs es → ∀ (rest : List (Step R)) (registers : List (LValue R)),
      registers.length ≤ registersLength →
        ∃ err, compileSimpleExpr (execStepsArgs address es ++ rest) registers = .error err
  | [], _, hcases, _, _, _ => absurd (fun _ h => nomatch h) hcases
  | e :: es, h, hcases, rest, registers, hroom => by
    rw [execStepsArgs, List.append_assoc]
    by_cases hcase : HasCases e
    · have hpos := treeRegisters_pos h.head hcase
      obtain ⟨v, hv⟩ := compile_tree address h.head hcase
      rw [hv _ _ hroom]
      refine error_of_compiledTo fun hfits => ?_
      have hcases' : ¬ HasCasesArgs es := fun hes => hcases (hasCasesArgs_cons.mpr ⟨hcase, hes⟩)
      exact compile_errorArgs h.tail hcases' rest (v :: registers)
        (by rw [List.length_cons]; omega)
    · exact compile_error h.head hcase _ registers hroom

end

/-- Such a tree compiles if all its functions have a case and 500 registers suffice. -/
theorem compileTree_iff {e : Expr (RowFunc FnOid) (Value R)} (h : L3Tree e) :
    (∃ fn, compileTree address e = .ok fn) ↔ HasCases e ∧ treeRegisters e ≤ registersLength := by
  unfold compileTree
  by_cases hcases : HasCases e
  · obtain ⟨v, hv⟩ := compile_tree address h hcases
    rw [hv [.done] [] (Nat.zero_le _)]
    unfold compiledTo
    rw [List.length_nil, Nat.zero_add]
    by_cases hfits : treeRegisters e ≤ registersLength
    · rw [if_pos hfits]
      exact iff_of_true ⟨_, rfl⟩ ⟨hcases, hfits⟩
    · rw [if_neg hfits]
      refine iff_of_false ?_ fun h => hfits h.2
      rintro ⟨fn, hfn⟩
      cases hfn
  · obtain ⟨err, herr⟩ := compile_error address h hcases [.done] [] (Nat.zero_le _)
    rw [herr]
    refine iff_of_false ?_ fun h => hcases h.1
    rintro ⟨fn, hfn⟩
    cases hfn

/-- The injected body of a mother of the L3 shape, with lambdas that all have the flag,
compiles exactly if none of the functions that the switch raises for is left in it, and it
needs no more than the 500 registers there are. -/
theorem l3_compiles_iff {fuel : Nat} {argtypes : List (List LambdaSigType)}
    {mother : RowBody FnOid (Value R)} {tuples : List (List (Option (StoredCell (Value R))))}
    {e : Expr (RowFunc FnOid) (Value R)} (hmother : motherL3Shape mother = true)
    (htuples : TuplesSafe tuples)
    (hinject : lambdaInjector fuel argtypes mother (tuples.map storedTuple) = .ok e)
    (hcalls : hasAlias e = false) :
    (∃ fn, compileTree address e = .ok fn) ↔
      (∀ f ∈ calledFunctions e, f ∉ notEmitted) ∧ treeRegisters e ≤ registersLength := by
  have htree : L3Tree e :=
    ⟨madeOf_lambdaInjector hinject (madeOf_node hmother) htuples.madeOfCell, hcalls⟩
  rw [compileTree_iff address htree, htree.hasCases_iff]

end Compile

/-! ## `lambda(a: [x: float8], b: [f: (float8, float8 -> float8)])(b.f(a.x, a.x))` -/

section Examples

def FLOAT8OID : Oid := 701

def fieldTypes : List (List LambdaSigType) :=
  [[.scalar FLOAT8OID], [.func [.scalar FLOAT8OID, .scalar FLOAT8OID] (.scalar FLOAT8OID)]]

def fieldMother : RowBody FnOid (Value ℚ) :=
  .lfa ["b", "f"] FLOAT8OID 2 1 [.field 1 1 FLOAT8OID, .field 1 1 FLOAT8OID]

/-- `lambda(y, z)(f(y))` -/
def unaryLambda (f : FnOid) : LambdaExpr FnOid (Value ℚ) :=
  { lambdakind := .scalar, argnames := ["y", "z"], rettype := FLOAT8OID, rettypmod := -1,
    lambdatypmod := 0, isStrict := false, expr := .func f [.param 0 FLOAT8OID] }

/-- The tuples of the two rows, the second with one lambda. -/
def oneLambda (f : FnOid) : List (List (Option (StoredCell (Value ℚ)))) :=
  [[], [some (.lambda (.ofLiteral (unaryLambda f)))]]

theorem l3_compiles_iff_sin :
    ∃ e fn, lambdaInjector 1 fieldTypes fieldMother ((oneLambda .sin).map storedTuple) = .ok e ∧
      compileTree (fun _ _ => 0) e = .ok fn := by
  have hsafe : TuplesSafe (oneLambda .sin) := by
    intro tuple htuple s hs
    simp only [oneLambda, List.mem_cons, List.not_mem_nil, or_false] at htuple
    rcases htuple with rfl | rfl
    · cases hs
    · simp only [List.mem_singleton, Option.some.injEq, StoredCell.lambda.injEq] at hs
      subst hs
      exact ⟨rfl, rfl⟩
  have hinject : lambdaInjector 1 fieldTypes fieldMother ((oneLambda .sin).map storedTuple) =
      .ok (.func (.op .sin) [.func (.field 1 1 FLOAT8OID) []]) := rfl
  obtain ⟨fn, hfn⟩ := (l3_compiles_iff (fun _ _ => 0) rfl hsafe hinject rfl).mpr
    ⟨by decide, by decide⟩
  exact ⟨_, fn, hinject, hfn⟩

/-- `tanh` is on the list, a lambda that calls it has the flag, and the body it is
injected into does not compile. -/
theorem l3_tanh_fails :
    motherL3Shape fieldMother = true ∧
      (StoredLambda.ofLiteral (unaryLambda (.other 7804))).l3_safe = true ∧
      ∃ e, lambdaInjector 1 fieldTypes fieldMother ((oneLambda (.other 7804)).map storedTuple) =
          .ok e ∧ hasAlias e = false ∧
        compileTree (fun _ _ => 0) e = .error (.noFastImplementation (.other 7804)) :=
  ⟨rfl, rfl, _, rfl, rfl, rfl⟩

end Examples

end HolLambdas.Jit
