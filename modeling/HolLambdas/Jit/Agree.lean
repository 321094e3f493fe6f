import HolLambdas.Fuel
import HolLambdas.Jit.Simple
import Mathlib.Data.Rat.Floor

/-!
# Does the fast path agree with SQL?

The steps of a body are its postfix form, so the registers behave like the stack of
an expression evaluator: the compiler turns each part of the body into one LLVM value
(`Body.value`), as long as no more than 500 registers are in use (`compile_steps`).
Then it is a matter of the single functions. All of them compute what SQL computes
whenever SQL returns normally, with two exceptions: a cast from `float8` to an integer
truncates where SQL rounds to the nearest integer, and the negation of a `float8` is
emitted as an integer instruction.

A wrong part need not show in the value of the body, since it may be multiplied by
zero. `fast_agrees_iff` is therefore about a body and all its parts.
-/

namespace HolLambdas.Jit

open Row (nth1)

variable {R : Type} {a b c : BitVec 32}

/-! ## What is compiled -/

namespace Body

mutual

/-- Every call is of a function in the switch, with as many arguments as it takes. -/
def accepted : Body R → Bool
  | const _ => true
  | field _ _ => true
  | func f args => (emitter f).any (fun em => em.numparams = args.length) && acceptedArgs args

def acceptedArgs : List (Body R) → Bool
  | [] => true
  | e :: es => e.accepted && acceptedArgs es

end

mutual

/-- How many registers are in use at once. -/
def registers : Body R → Nat
  | const _ => 1
  | field _ _ => 1
  | func _ args => registersArgs args

def registersArgs : List (Body R) → Nat
  | [] => 0
  | e :: es => max e.registers (1 + registersArgs es)

end

mutual

/-- The body and all bodies in it. -/
def parts : Body R → List (Body R)
  | const v => [const v]
  | field p k => [field p k]
  | func f args => func f args :: partsArgs args

def partsArgs : List (Body R) → List (Body R)
  | [] => []
  | e :: es => e.parts ++ partsArgs es

end

end Body

theorem mem_parts_self (e : Body R) : e ∈ e.parts := by
  cases e with
  | const v => exact List.mem_cons_self
  | field p k => exact List.mem_cons_self
  | func f args => exact List.mem_cons_self

/-- The LLVM value for a call. -/
def emitted : Option Emitter → List (LValue R) → LValue R
  | some (.one a o), [v] => .op1 o (.as a v)
  | some (.two a o), [v, w] => .op2 o (.as a v) (.as a w)
  | _, _ => .sizetConst (.word 0)

mutual

/-- The LLVM value for a body. -/
def Body.value : Body R → LValue R
  | .const v => .sizetConst v.datum
  | .field p k => .loadField (.loadParam p) k
  | .func f args => emitted (emitter f) (valueArgs args)

def Body.valueArgs : List (Body R) → List (LValue R)
  | [] => []
  | e :: es => e.value :: valueArgs es

end

theorem acceptedArgs_of_func {f : FnOid} {args : List (Body R)}
    (hacc : (Body.func f args).accepted = true) : Body.acceptedArgs args = true := by
  simp only [Body.accepted, Bool.and_eq_true] at hacc
  exact hacc.2

/-- An accepted call has one or two arguments. -/
theorem accepted_func_cases {f : FnOid} {args : List (Body R)}
    (h : (Body.func f args).accepted = true) :
    (∃ a o e, emitter f = some (.one a o) ∧ args = [e] ∧ e.accepted = true) ∨
      ∃ a o e e', emitter f = some (.two a o) ∧ args = [e, e'] ∧ e.accepted = true ∧
        e'.accepted = true := by
  simp only [Body.accepted, Bool.and_eq_true, Option.any_eq_true_iff_get] at h
  obtain ⟨⟨hsome, hnum⟩, hargs⟩ := h
  obtain ⟨em, hem⟩ := Option.isSome_iff_exists.mp hsome
  simp only [hem, Option.get_some, decide_eq_true_eq] at hnum
  cases em with
  | one a o =>
    obtain ⟨e, rfl⟩ := List.length_eq_one_iff.mp hnum.symm
    simp only [Body.acceptedArgs, Bool.and_true] at hargs
    exact .inl ⟨a, o, e, hem, rfl, hargs⟩
  | two a o =>
    obtain ⟨e, e', rfl⟩ := List.length_eq_two.mp hnum.symm
    simp only [Body.acceptedArgs, Bool.and_true, Bool.and_eq_true] at hargs
    exact .inr ⟨a, o, e, e', hem, rfl, hargs.1, hargs.2⟩

theorem registers_pos : ∀ {e : Body R}, e.accepted = true → 0 < e.registers
  | .const _, _ => Nat.one_pos
  | .field _ _, _ => Nat.one_pos
  | .func f args, h => by
    rcases accepted_func_cases h with ⟨a, o, e, _, rfl, he⟩ | ⟨a, o, e, e', _, rfl, he, _⟩
    · simp [Body.registers, Body.registersArgs]
    · simp [Body.registers, Body.registersArgs]

/-- What the compiler does with the steps of a body that needs `n` registers and is
turned into the values `vs`. -/
def compiledTo (rest : List (Step R)) (registers : List (LValue R)) (n : Nat)
    (vs : List (LValue R)) : Except JitError (LValue R) :=
  if registers.length + n ≤ registersLength then compileSimpleExpr rest (vs.reverse ++ registers)
  else .error .registerOverflow

theorem push_bind {v : LValue R} {registers : List (LValue R)}
    {k : List (LValue R) → Except JitError (LValue R)} :
    (pushRegister v registers >>= k) =
      if registers.length + 1 ≤ registersLength then k (v :: registers)
      else .error .registerOverflow := by
  unfold pushRegister
  by_cases hlt : registers.length < registersLength
  · rw [if_pos hlt, if_pos (Nat.succ_le_of_lt hlt)]
    rfl
  · rw [if_neg hlt, if_neg (by omega)]
    rfl

mutual

/-- The registers are a stack: the steps of a body leave its value on top. -/
theorem compile_steps : ∀ {e : Body R}, e.accepted = true → ∀ (rest : List (Step R))
    (registers : List (LValue R)), registers.length ≤ registersLength →
      compileSimpleExpr (steps e ++ rest) registers =
        compiledTo rest registers e.registers [e.value]
  | .const v, _, rest, registers, _ => by
    simp only [steps, List.singleton_append, compileSimpleExpr, push_bind]
    rfl
  | .field p k, _, rest, registers, _ => by
    simp only [steps, List.cons_append, List.nil_append, compileSimpleExpr, push_bind]
    rfl
  | .func f args, hacc, rest, registers, hlen => by
    have hargs := compile_stepsArgs (acceptedArgs_of_func hacc) (.funcexpr f :: rest) registers hlen
    rw [steps, List.append_assoc, List.singleton_append, hargs]
    unfold compiledTo
    rw [Body.registers]
    by_cases hfit : registers.length + Body.registersArgs args ≤ registersLength
    · have hpos := registers_pos hacc
      rw [Body.registers] at hpos
      have hroom : registers.length + 1 ≤ registersLength := by omega
      rw [if_pos hfit, if_pos hfit]
      rcases accepted_func_cases hacc with ⟨a, o, e, hem, rfl, _⟩ | ⟨a, o, e, e', hem, rfl, _⟩
      · simp only [compileSimpleExpr, hem, Body.valueArgs, List.reverse_singleton,
          List.singleton_append, emitCall, push_bind, if_pos hroom, Body.value, emitted]
      · simp only [compileSimpleExpr, hem, Body.valueArgs, List.reverse_cons, List.reverse_nil,
          List.nil_append, List.cons_append, emitCall, push_bind, if_pos hroom,
          Body.value, emitted]
    · rw [if_neg hfit, if_neg hfit]

theorem compile_stepsArgs : ∀ {es : List (Body R)}, Body.acceptedArgs es = true →
    ∀ (rest : List (Step R)) (registers : List (LValue R)), registers.length ≤ registersLength →
      compileSimpleExpr (stepsArgs es ++ rest) registers =
        compiledTo rest registers (Body.registersArgs es) (Body.valueArgs es)
  | [], _, rest, registers, hlen => by
    unfold compiledTo
    rw [if_pos (by simpa [Body.registersArgs] using hlen)]
    rfl
  | e :: es, hacc, rest, registers, hlen => by
    simp only [Body.acceptedArgs, Bool.and_eq_true] at hacc
    rw [stepsArgs, List.append_assoc, compile_steps hacc.1 _ registers hlen]
    have hpos := registers_pos hacc.1
    unfold compiledTo
    rw [Body.registersArgs]
    by_cases hfit : registers.length + e.registers ≤ registersLength
    · have hlen' : (e.value :: registers).length ≤ registersLength := by
        rw [List.length_cons]
        omega
      have hrest := compile_stepsArgs hacc.2 rest (e.value :: registers) hlen'
      rw [if_pos hfit, List.reverse_singleton, List.singleton_append, hrest]
      unfold compiledTo
      rw [List.length_cons, Body.valueArgs, List.reverse_cons, List.append_assoc,
        List.singleton_append]
      by_cases hfit' : registers.length + 1 + Body.registersArgs es ≤ registersLength
      · rw [if_pos hfit', if_pos (by omega)]
      · rw [if_neg hfit', if_neg (by omega)]
    · rw [if_neg hfit, if_neg (by omega)]

end

/-- The whole body. -/
theorem compile_body {e : Body R} (hacc : e.accepted = true) :
    compileSimpleExpr (steps e ++ [.done]) [] =
      if e.registers ≤ registersLength then .ok (.toDatum e.value)
      else .error .registerOverflow := by
  rw [compile_steps hacc [.done] [] (Nat.zero_le _)]
  unfold compiledTo
  rw [List.length_nil, Nat.zero_add]
  rfl

/-! ## Registers that hold a value -/

/-- Returned as a datum, the content of the register reads as the value. -/
def Holds (x : LVal R) (v : Value R) : Prop :=
  x.toDatum.read v.type = some v

theorem holds_datum : ∀ (v : Value R), Holds (.i64 v.datum) v
  | .int4 n => by
    have hlow : (n.signExtend 64).setWidth 32 = n := by
      ext i hi
      have hi' : i < 64 := by omega
      simp [BitVec.getElem_signExtend, hi, hi']
    simp only [Holds, LVal.toDatum, Value.datum, Value.type, Datum.read, hlow]
  | .int8 n => rfl
  | .float8 x => rfl

theorem holds_i32 {n m : BitVec 32} : Holds (.i32 n : LVal R) (.int4 m) ↔ n = m := by
  have hlow : (n.setWidth 64).setWidth 32 = n := by
    rw [BitVec.setWidth_setWidth_of_le n (by decide), BitVec.setWidth_eq]
  simp only [Holds, LVal.toDatum, Value.type, Datum.read, hlow, Option.some.injEq,
    Value.int4.injEq]

theorem holds_i64 {w m : BitVec 64} : Holds (.i64 (.word w) : LVal R) (.int8 m) ↔ w = m := by
  simp only [Holds, LVal.toDatum, Value.type, Datum.read, Option.some.injEq, Value.int8.injEq]

theorem holds_double {x y : R} : Holds (.double x) (.float8 y) ↔ x = y := by
  simp only [Holds, LVal.toDatum, Value.type, Datum.read, Option.some.injEq, Value.float8.injEq]

/-- A register content that can only be the result if it comes from `c`. -/
theorem exists_holds_map_iff {β : Type} {mk : β → LVal R} {v : Value R} {c : β}
    (hmk : ∀ {b}, Holds (mk b) v ↔ b = c) {o : Option β} :
    (∃ y, o.map mk = some y ∧ Holds y v) ↔ o = some c := by
  constructor
  · rintro ⟨y, hy, hholds⟩
    obtain ⟨b, hb, rfl⟩ := Option.map_eq_some_iff.mp hy
    rw [hb, hmk.mp hholds]
  · rintro rfl
    exact ⟨mk c, rfl, hmk.mpr rfl⟩

theorem Holds.as_int4 : ∀ {x : LVal R} {n : BitVec 32}, Holds x (.int4 n) →
    As.int4.run x = some (.i32 n)
  | .i32 m, n, h => by rw [holds_i32.mp h]; rfl
  | .i64 (.word w), n, h => by
    simp only [Holds, LVal.toDatum, Value.type, Datum.read, Option.some.injEq,
      Value.int4.injEq] at h
    rw [As.run, h]
  | .i64 (.float8 _), _, h => by cases h
  | .i64 (.row _), _, h => by cases h
  | .double _, _, h => by cases h

theorem Holds.as_float8 : ∀ {x : LVal R} {r : R}, Holds x (.float8 r) →
    As.float8.run x = some (.double r)
  | .double y, r, h => by rw [holds_double.mp h]; rfl
  | .i64 (.float8 y), r, h => by
    simp only [Holds, LVal.toDatum, Value.type, Datum.read, Option.some.injEq,
      Value.float8.injEq] at h
    rw [As.run, h]
  | .i64 (.word _), _, h => by cases h
  | .i64 (.row _), _, h => by cases h
  | .i32 _, _, h => by cases h

/-! ## Integers -/

theorem FitsWidth.toInt_ofInt {w : Nat} {n : Int} (hw : 0 < w) (h : FitsWidth w n) :
    (BitVec.ofInt w n).toInt = n :=
  BitVec.toInt_ofInt_eq_self hw h.1 h.2

theorem inRange_ok {w : Nat} {err : SqlError} {n : Int} {b : BitVec w}
    (h : inRange w err n = .ok b) : FitsWidth w n ∧ b = BitVec.ofInt w n := by
  unfold inRange at h
  split at h
  next hfit =>
    cases h
    exact ⟨hfit, rfl⟩
  · cases h

theorem int4pl_ok (h : int4pl a b = .ok c) : a + b = c := by
  rw [(inRange_ok h).2, BitVec.ofInt_add, BitVec.ofInt_toInt, BitVec.ofInt_toInt]

theorem int4mi_ok (h : int4mi a b = .ok c) : a - b = c := by
  rw [(inRange_ok h).2, Int.sub_eq_add_neg, BitVec.ofInt_add, BitVec.ofInt_neg,
    BitVec.ofInt_toInt, BitVec.ofInt_toInt, BitVec.sub_eq_add_neg]

theorem int4mul_ok (h : int4mul a b = .ok c) : a * b = c := by
  rw [(inRange_ok h).2, BitVec.ofInt_mul, BitVec.ofInt_toInt, BitVec.ofInt_toInt]

theorem int4um_ok {a c : BitVec 32} (h : int4um a = .ok c) : a ≠ BitVec.intMin 32 ∧ -a = c := by
  unfold int4um at h
  split at h
  · cases h
  next hmin =>
    cases h
    exact ⟨hmin, rfl⟩

theorem ofInt_tdiv (a b : BitVec 32) : BitVec.ofInt 32 (a.toInt.tdiv b.toInt) = a.sdiv b := by
  apply BitVec.eq_of_toInt_eq
  rw [BitVec.toInt_ofInt, BitVec.toInt_sdiv]

theorem int4div_ok (h : int4div a b = .ok c) :
    ¬ (b = 0 ∨ (a = BitVec.intMin 32 ∧ b = -1)) ∧ a.sdiv b = c := by
  unfold int4div at h
  split at h
  · cases h
  next hzero =>
  split at h
  next hone =>
    obtain ⟨hmin, hneg⟩ := int4um_ok h
    refine ⟨fun hbad => hbad.elim hzero fun hmin' => hmin hmin'.1, ?_⟩
    rw [← ofInt_tdiv, hone, ← hneg]
    have hminus : (-1 : BitVec 32).toInt = -1 := by decide
    rw [hminus, Int.tdiv_neg, Int.tdiv_one, BitVec.ofInt_neg, BitVec.ofInt_toInt]
  next hone =>
    cases h
    exact ⟨fun hbad => hbad.elim hzero fun hmin => hone hmin.2, (ofInt_tdiv a b).symm⟩

/-! ## Numbers -/

section Numbers

variable [Field R] [LinearOrder R] {lib : FloatLib R}

theorem checkUnderflow_ok {result y : R} {mayVanish : Bool}
    (h : checkUnderflow result mayVanish = .ok y) : result = y := by
  unfold checkUnderflow at h
  split at h
  · cases h
  · cases h
    rfl

theorem float8div_ok {x y z : R} (h : float8div x y = .ok z) : y ≠ 0 ∧ x / y = z := by
  unfold float8div at h
  split at h
  · cases h
  next hzero => exact ⟨hzero, checkUnderflow_ok h⟩

theorem dsqrt_ok {x y : R} (h : dsqrt lib x = .ok y) : lib.call1 .sqrt x = y := by
  unfold dsqrt at h
  split at h
  · cases h
  · exact checkUnderflow_ok h

theorem arcCall_ok {f : CFunc1} {x y : R} (h : arcCall lib f x = .ok y) : lib.call1 f x = y := by
  unfold arcCall at h
  split at h
  · cases h
  · exact Except.ok.inj h

theorem logCall_ok {f : CFunc1} {x y : R} (h : logCall lib f x = .ok y) : lib.call1 f x = y := by
  unfold logCall at h
  split at h
  · cases h
  split at h
  · cases h
  · exact checkUnderflow_ok h

variable [FloorRing R]

theorem dpow_ok {x y z : R} (h : dpow lib x y = .ok z) : lib.call2 .pow x y = z := by
  unfold dpow at h
  split at h
  · cases h
  split at h
  · cases h
  · exact checkUnderflow_ok h

end Numbers

/-! ## Calls -/

section Calls

variable [Field R] [LinearOrder R] {lib : FloatLib R}

/-- The result of an instruction, with its operands read as the case of the switch
says. -/
def Holds2 (lib : FloatLib R) (a : As) (o : Op2) (x x' : LVal R) (v : Value R) : Prop :=
  ∃ y, ((a.run x).bind fun z => (a.run x').bind fun z' => o.run lib z z') = some y ∧ Holds y v

variable {o : Op2} {x x' : LVal R} {w w' v : Value R}

theorem holds2_int4 {f : BitVec 32 → BitVec 32 → Except SqlError (BitVec 32)}
    (hf : ∀ a b c, f a b = .ok c → o.run lib (.i32 a) (.i32 b) = some (.i32 c : LVal R))
    (hx : Holds x w) (hx' : Holds x' w')
    (hsql : (Builtin.int4s f).call [w, w'] = .ok v) : Holds2 lib .int4 o x x' v := by
  cases w with
  | int4 a =>
    cases w' with
    | int4 b =>
      obtain ⟨c, hc, rfl⟩ := map_eq_ok.mp hsql
      refine ⟨.i32 c, ?_, holds_i32.mpr rfl⟩
      rw [hx.as_int4, hx'.as_int4]
      exact hf a b c hc
    | int8 | float8 => cases hsql
  | int8 | float8 => cases hsql

theorem holds2_float8 {f : R → R → Except SqlError R}
    (hf : ∀ x y z, f x y = .ok z → o.run lib (.double x) (.double y) = some (.double z))
    (hx : Holds x w) (hx' : Holds x' w')
    (hsql : (Builtin.float8s f).call [w, w'] = .ok v) : Holds2 lib .float8 o x x' v := by
  cases w with
  | float8 r =>
    cases w' with
    | float8 r' =>
      obtain ⟨z, hz, rfl⟩ := map_eq_ok.mp hsql
      refine ⟨.double z, ?_, holds_double.mpr rfl⟩
      rw [hx.as_float8, hx'.as_float8]
      exact hf r r' z hz
    | int4 | int8 => cases hsql
  | int4 | int8 => cases hsql

/-- A call of the library. -/
theorem holds2_call {f : R → R → Except SqlError R} {g : CFunc2}
    (hf : ∀ x y z, f x y = .ok z → lib.call2 g x y = z)
    (hx : Holds x w) (hx' : Holds x' w') (hsql : (Builtin.float8s f).call [w, w'] = .ok v) :
    Holds2 lib .float8 (.call g) x x' v :=
  holds2_float8 (fun x y z h => by rw [Op2.run, hf x y z h]) hx hx' hsql

variable [FloorRing R] {negDouble : R → Option R}

/-- Functions of two arguments: the fast path computes what SQL returns. -/
theorem holds2_of_sql {sql : SqlFunctions R} {f : FnOid} {a : As}
    (hem : emitter f = some (.two a o)) (hx : Holds x w)
    (hx' : Holds x' w') (hsql : (builtin sql f).call [w, w'] = .ok v) :
    Holds2 sql.lib a o x x' v := by
  cases f with
  | int4mul =>
    cases hem
    exact holds2_int4 (fun a b c h => by rw [Op2.run, int4mul_ok h]) hx hx' hsql
  | int4div =>
    cases hem
    refine holds2_int4 (fun a b c h => ?_) hx hx' hsql
    rw [Op2.run, if_neg (int4div_ok h).1, (int4div_ok h).2]
  | int4pl =>
    cases hem
    exact holds2_int4 (fun a b c h => by rw [Op2.run, int4pl_ok h]) hx hx' hsql
  | int4mi =>
    cases hem
    exact holds2_int4 (fun a b c h => by rw [Op2.run, int4mi_ok h]) hx hx' hsql
  | float8mul =>
    cases hem
    exact holds2_float8 (fun x y z h => by rw [Op2.run, checkUnderflow_ok h]) hx hx' hsql
  | float8div =>
    cases hem
    refine holds2_float8 (fun x y z h => ?_) hx hx' hsql
    rw [Op2.run, if_neg (float8div_ok h).1, (float8div_ok h).2]
  | float8pl | float8mi =>
    cases hem
    exact holds2_float8 (fun x y z h => by rw [Op2.run, Except.ok.inj h]) hx hx' hsql
  | dpow | powFloat8Float8 | powerFloat8Float8 =>
    cases hem
    exact holds2_call (fun _ _ _ => dpow_ok) hx hx' hsql
  | atan2 =>
    cases hem
    exact holds2_call (fun _ _ _ => Except.ok.inj) hx hx' hsql
  | _ => cases hem

def Holds1 (lib : FloatLib R) (negDouble : R → Option R) (a : As) (o : Op1) (x : LVal R)
    (v : Value R) : Prop :=
  ∃ y, (a.run x).bind (o.run lib negDouble) = some y ∧ Holds y v

theorem holds1_float8 {f : R → Except SqlError R} {o : Op1}
    (hf : ∀ x y, f x = .ok y → o.run lib negDouble (.double x) = some (.double y))
    (hx : Holds x w) (hsql : (Builtin.float8 f).call [w] = .ok v) :
    Holds1 lib negDouble .float8 o x v := by
  cases w with
  | float8 r =>
    obtain ⟨z, hz, rfl⟩ := map_eq_ok.mp hsql
    refine ⟨.double z, ?_, holds_double.mpr rfl⟩
    rw [hx.as_float8]
    exact hf r z hz
  | int4 | int8 => cases hsql

theorem holds1_call {f : R → Except SqlError R} {g : CFunc1}
    (hf : ∀ x y, f x = .ok y → lib.call1 g x = y) (hx : Holds x w)
    (hsql : (Builtin.float8 f).call [w] = .ok v) :
    Holds1 lib negDouble .float8 (.call g) x v :=
  holds1_float8 (fun x y h => by rw [Op1.run, hf x y h]) hx hsql

/-- What a call on these arguments requires: a cast that drops nothing but what rounding
drops, and a negation that happens to be one. -/
def CallExact (negDouble : R → Option R) : FnOid → List (Value R) → Prop
  | .int4Float8, [.float8 x] => Nearest x (trunc x)
  | .int8Float8, [.float8 x] => Nearest x (trunc x)
  | .float8um, [.float8 x] => negDouble x = some (-x)
  | _, _ => True

variable [IsStrictOrderedRing R]

/-- Where SQL returns an integer, truncation gives the same one exactly if it is the
nearest. -/
theorem fpToSI_iff {w : Nat} (hw : 0 < w) {err : SqlError} {x : R} {b : BitVec w}
    (h : inRange w err (rint x) = .ok b) : fpToSI w x = some b ↔ Nearest x (trunc x) := by
  obtain ⟨hfit, rfl⟩ := inRange_ok h
  have hpos : (0 : Int) < 2 ^ (w - 1) := by positivity
  have htrunc : FitsWidth w (trunc x) := by
    have hrange := trunc_mem_range (by omega) (by omega) hfit.1 (Int.le_sub_one_of_lt hfit.2)
    exact ⟨hrange.1, by omega⟩
  rw [fpToSI, if_pos htrunc, Option.some.injEq, ← eq_rint_iff]
  constructor
  · intro heq
    have hint := congrArg BitVec.toInt heq
    rwa [htrunc.toInt_ofInt hw, hfit.toInt_ofInt hw] at hint
  · intro heq
    rw [heq]

/-- Functions of one argument. -/
theorem holds1_iff {sql : SqlFunctions R} {f : FnOid} {a : As} {o : Op1}
    (hem : emitter f = some (.one a o)) (hx : Holds x w) (hsql : (builtin sql f).call [w] = .ok v) :
    Holds1 sql.lib negDouble a o x v ↔ CallExact negDouble f [w] := by
  cases f with
  | int4um =>
    cases hem
    cases w with
    | int4 n =>
      obtain ⟨c, hc, rfl⟩ := map_eq_ok.mp hsql
      refine iff_of_true ⟨.i32 c, ?_, holds_i32.mpr rfl⟩ trivial
      rw [hx.as_int4, Option.bind_some, Op1.run, (int4um_ok hc).2]
    | int8 | float8 => cases hsql
  | float8Int4 =>
    cases hem
    cases w with
    | int4 n =>
      cases hsql
      refine iff_of_true ⟨.double (n.toInt : R), ?_, holds_double.mpr rfl⟩ trivial
      rw [hx.as_int4, Option.bind_some, Op1.run]
    | int8 | float8 => cases hsql
  | float8um =>
    cases hem
    cases w with
    | float8 r =>
      cases hsql
      simp only [Holds1, hx.as_float8, Option.bind_some, Op1.run, CallExact]
      exact exists_holds_map_iff holds_double
    | int4 | int8 => cases hsql
  | int4Float8 =>
    cases hem
    cases w with
    | float8 r =>
      obtain ⟨c, hc, rfl⟩ := map_eq_ok.mp hsql
      simp only [Holds1, hx.as_float8, Option.bind_some, Op1.run, CallExact]
      rw [← fpToSI_iff (by decide) hc]
      exact exists_holds_map_iff holds_i32
    | int4 | int8 => cases hsql
  | int8Float8 =>
    cases hem
    cases w with
    | float8 r =>
      obtain ⟨c, hc, rfl⟩ := map_eq_ok.mp hsql
      simp only [Holds1, hx.as_float8, Option.bind_some, Op1.run, CallExact]
      rw [← fpToSI_iff (by decide) hc]
      exact exists_holds_map_iff holds_i64
    | int4 | int8 => cases hsql
  | float8abs | absFloat8 | atan | sin | cos | tan =>
    cases hem
    exact iff_of_true (holds1_call (fun _ _ => Except.ok.inj) hx hsql) trivial
  | dsqrt | sqrtFloat8 =>
    cases hem
    exact iff_of_true (holds1_call (fun _ _ => dsqrt_ok) hx hsql) trivial
  | asin | acos =>
    cases hem
    exact iff_of_true (holds1_call (fun _ _ => arcCall_ok) hx hsql) trivial
  | dlog10 | logFloat8 | lnFloat8 =>
    cases hem
    exact iff_of_true (holds1_call (fun _ _ => logCall_ok) hx hsql) trivial
  | expFloat8 =>
    cases hem
    exact iff_of_true (holds1_call (fun _ _ => checkUnderflow_ok) hx hsql) trivial
  | _ => cases hem

end Calls

/-! ## Bodies -/

theorem nth1_map {α β : Type} (f : α → β) (xs : List α) (i : Nat) :
    nth1 (xs.map f) i = (nth1 xs i).map f := by
  unfold nth1
  split
  · rfl
  · rw [List.getElem?_map]

section Bodies

variable [Field R] [LinearOrder R] [FloorRing R]

section Definitions

variable (sql : SqlFunctions R) (negDouble : R → Option R) (rows : List (List (Value R)))

/-- The fast path computes the SQL value of the body on these rows. -/
def Agrees (e : Body R) : Prop :=
  ∃ v, sqlEval sql rows e = .ok v ∧ fastEval sql.lib negDouble rows e v.type = some v

mutual

/-- Every cast and every negation in the body meets its requirement on these rows. -/
def ExactOn : Body R → Prop
  | .const _ => True
  | .field _ _ => True
  | .func f args =>
    ExactOnArgs args ∧ ∀ vs, sqlEvalArgs sql rows args = .ok vs → CallExact negDouble f vs

def ExactOnArgs : List (Body R) → Prop
  | [] => True
  | e :: es => ExactOn e ∧ ExactOnArgs es

end

/-- The LLVM value of the body holds `v`. -/
def HoldsBody (e : Body R) (v : Value R) : Prop :=
  ∃ x, e.value.run sql.lib negDouble (rows.map fun row => row.map Value.datum) = some x ∧
    Holds x v

end Definitions

variable {sql : SqlFunctions R} {negDouble : R → Option R} {rows : List (List (Value R))}

variable {e : Body R} {v : Value R} {f : FnOid} {a : As}

theorem fastEval_eq_some_iff (hacc : e.accepted = true) :
    fastEval sql.lib negDouble rows e v.type = some v ↔
      e.registers ≤ registersLength ∧ HoldsBody sql negDouble rows e v := by
  unfold fastEval HoldsBody
  rw [compile_body hacc]
  by_cases hfit : e.registers ≤ registersLength
  · rw [if_pos hfit]
    dsimp only
    rw [LValue.run]
    cases e.value.run sql.lib negDouble (rows.map fun row => row.map Value.datum) with
    | none => simp
    | some x => simp [Holds, hfit]
  · simp [hfit]

theorem holdsBody_field {p k : Nat} (hsql : sqlEval sql rows (.field p k) = .ok v) :
    HoldsBody sql negDouble rows (.field p k) v := by
  simp only [sqlEval] at hsql
  split at hsql
  next v' hv' =>
    cases hsql
    obtain ⟨row, hrow, hk⟩ := Option.bind_eq_some_iff.mp hv'
    refine ⟨.i64 v.datum, ?_, holds_datum v⟩
    simp only [Body.value, LValue.run, nth1_map, hrow, hk, Option.map_some, Option.bind_some]
  · cases hsql

theorem holdsBody_one {o : Op1} (hem : emitter f = some (.one a o)) {x : LVal R}
    (hx : e.value.run sql.lib negDouble (rows.map fun row => row.map Value.datum) = some x) :
    HoldsBody sql negDouble rows (.func f [e]) v ↔ Holds1 sql.lib negDouble a o x v := by
  simp only [HoldsBody, Holds1, Body.value, Body.valueArgs, hem, emitted, LValue.run, hx,
    Option.bind_some]

theorem holdsBody_two {o : Op2} (hem : emitter f = some (.two a o)) {e' : Body R} {x x' : LVal R}
    (hx : e.value.run sql.lib negDouble (rows.map fun row => row.map Value.datum) = some x)
    (hx' : e'.value.run sql.lib negDouble (rows.map fun row => row.map Value.datum) = some x') :
    HoldsBody sql negDouble rows (.func f [e, e']) v ↔ Holds2 sql.lib a o x x' v := by
  simp only [HoldsBody, Holds2, Body.value, Body.valueArgs, hem, emitted, LValue.run, hx, hx',
    Option.bind_some]

theorem callExact_two {o : Op2} (hem : emitter f = some (.two a o)) (vs : List (Value R)) :
    CallExact negDouble f vs := by
  cases f <;> first | cases hem; done | exact trivial

theorem sqlEvalArgs_cons {es : List (Body R)} {vs : List (Value R)}
    (h : sqlEvalArgs sql rows (e :: es) = .ok vs) :
    ∃ w ws, vs = w :: ws ∧ sqlEval sql rows e = .ok w ∧ sqlEvalArgs sql rows es = .ok ws := by
  obtain ⟨w, hw, hrest⟩ := bind_eq_ok.mp h
  obtain ⟨ws, hws, hvs⟩ := bind_eq_ok.mp hrest
  cases hvs
  exact ⟨w, ws, rfl, hw, hws⟩

/-- A call, given that its arguments are right: only the requirement of the function
itself decides. -/
theorem holdsBody_func_iff [IsStrictOrderedRing R] {args : List (Body R)} {vs : List (Value R)}
    (hacc : (Body.func f args).accepted = true)
    (hargs : List.Forall₂ (HoldsBody sql negDouble rows) args vs)
    (hcall : (builtin sql f).call vs = .ok v) :
    HoldsBody sql negDouble rows (.func f args) v ↔ CallExact negDouble f vs := by
  rcases accepted_func_cases hacc with ⟨a, o, e, hem, rfl, _⟩ | ⟨a, o, e, e', hem, rfl, _⟩
  · obtain ⟨w, ws, ⟨x, hrun, hx⟩, hnil, rfl⟩ := List.forall₂_cons_left_iff.mp hargs
    cases hnil
    rw [holdsBody_one hem hrun]
    exact holds1_iff hem hx hcall
  · obtain ⟨w, ws, ⟨x, hrun, hx⟩, htail, rfl⟩ := List.forall₂_cons_left_iff.mp hargs
    obtain ⟨w', ws', ⟨x', hrun', hx'⟩, hnil, rfl⟩ := List.forall₂_cons_left_iff.mp htail
    cases hnil
    rw [holdsBody_two hem hrun hrun']
    exact iff_of_true (holds2_of_sql hem hx hx' hcall) (callExact_two hem _)

mutual

/-- Where every call is exact, the LLVM value of a body holds its SQL value. -/
theorem holdsBody_of_exactOn [IsStrictOrderedRing R] : ∀ {e : Body R} {v : Value R},
    e.accepted = true → sqlEval sql rows e = .ok v → ExactOn sql negDouble rows e →
      HoldsBody sql negDouble rows e v
  | .const v, _, _, hsql, _ => by
    cases hsql
    exact ⟨.i64 v.datum, rfl, holds_datum v⟩
  | .field p k, _, _, hsql, _ => holdsBody_field hsql
  | .func f args, v, hacc, hsql, hexact => by
    obtain ⟨vs, hvs, hcall⟩ := bind_eq_ok.mp hsql
    have hargs := holdsBody_of_exactOnArgs (acceptedArgs_of_func hacc) hvs hexact.1
    exact (holdsBody_func_iff hacc hargs hcall).mpr (hexact.2 vs hvs)

theorem holdsBody_of_exactOnArgs [IsStrictOrderedRing R] :
    ∀ {es : List (Body R)} {vs : List (Value R)}, Body.acceptedArgs es = true →
      sqlEvalArgs sql rows es = .ok vs → ExactOnArgs sql negDouble rows es →
        List.Forall₂ (HoldsBody sql negDouble rows) es vs
  | [], _, _, hsql, _ => by
    cases hsql
    exact .nil
  | e :: es, _, hacc, hsql, hexact => by
    obtain ⟨w, ws, rfl, hw, hws⟩ := sqlEvalArgs_cons hsql
    simp only [Body.acceptedArgs, Bool.and_eq_true] at hacc
    exact .cons (holdsBody_of_exactOn hacc.1 hw hexact.1)
      (holdsBody_of_exactOnArgs hacc.2 hws hexact.2)

end

theorem agrees_of_exactOn [IsStrictOrderedRing R] (hacc : e.accepted = true)
    (hsql : sqlEval sql rows e = .ok v)
    (hfit : e.registers ≤ registersLength) (hexact : ExactOn sql negDouble rows e) :
    Agrees sql negDouble rows e :=
  ⟨v, hsql, (fastEval_eq_some_iff hacc).mpr ⟨hfit, holdsBody_of_exactOn hacc hsql hexact⟩⟩

mutual

theorem agrees_parts [IsStrictOrderedRing R] : ∀ {e : Body R} {v : Value R}, e.accepted = true →
    sqlEval sql rows e = .ok v → e.registers ≤ registersLength → ExactOn sql negDouble rows e →
      ∀ s ∈ e.parts, Agrees sql negDouble rows s
  | .const v, _, hacc, hsql, hfit, hexact, s, hs => by
    rw [List.mem_singleton.mp hs]
    exact agrees_of_exactOn hacc hsql hfit hexact
  | .field p k, _, hacc, hsql, hfit, hexact, s, hs => by
    rw [List.mem_singleton.mp hs]
    exact agrees_of_exactOn hacc hsql hfit hexact
  | .func f args, v, hacc, hsql, hfit, hexact, s, hs => by
    rcases List.mem_cons.mp hs with rfl | hs
    · exact agrees_of_exactOn hacc hsql hfit hexact
    · obtain ⟨vs, hvs, _⟩ := bind_eq_ok.mp hsql
      exact agrees_partsArgs (acceptedArgs_of_func hacc) hvs hfit hexact.1 s hs

theorem agrees_partsArgs [IsStrictOrderedRing R] : ∀ {es : List (Body R)} {vs : List (Value R)},
    Body.acceptedArgs es = true → sqlEvalArgs sql rows es = .ok vs →
      Body.registersArgs es ≤ registersLength → ExactOnArgs sql negDouble rows es →
        ∀ s ∈ Body.partsArgs es, Agrees sql negDouble rows s
  | [], _, _, _, _, _, s, hs => by cases hs
  | e :: es, _, hacc, hsql, hfit, hexact, s, hs => by
    obtain ⟨w, ws, rfl, hw, hws⟩ := sqlEvalArgs_cons hsql
    simp only [Body.acceptedArgs, Bool.and_eq_true] at hacc
    -- the later arguments are compiled with one more register taken
    have hfits : e.registers ≤ registersLength ∧ Body.registersArgs es ≤ registersLength := by
      rw [Body.registersArgs] at hfit
      omega
    rcases List.mem_append.mp hs with hs | hs
    · exact agrees_parts hacc.1 hw hfits.1 hexact.1 s hs
    · exact agrees_partsArgs hacc.2 hws hfits.2 hexact.2 s hs

end

mutual

/-- A body whose parts all agree is exact: the innermost call that is not exact would
be handed the right arguments and return something else. -/
theorem exactOn_of_agrees [IsStrictOrderedRing R] : ∀ {e : Body R}, e.accepted = true →
    (∀ s ∈ e.parts, Agrees sql negDouble rows s) → ExactOn sql negDouble rows e
  | .const _, _, _ => trivial
  | .field _ _, _, _ => trivial
  | .func f args, hacc, h => by
    have hargs := exactOnArgs_of_agrees (acceptedArgs_of_func hacc)
      (fun s hs => h s (List.mem_cons_of_mem _ hs))
    refine ⟨hargs, fun vs hvs => ?_⟩
    obtain ⟨v, hsql, hfast⟩ := h (.func f args) List.mem_cons_self
    obtain ⟨vs', hvs', hcall⟩ := bind_eq_ok.mp hsql
    cases hvs.symm.trans hvs'
    have hheld := holdsBody_of_exactOnArgs (acceptedArgs_of_func hacc) hvs hargs
    exact (holdsBody_func_iff hacc hheld hcall).mp ((fastEval_eq_some_iff hacc).mp hfast).2

theorem exactOnArgs_of_agrees [IsStrictOrderedRing R] : ∀ {es : List (Body R)},
    Body.acceptedArgs es = true → (∀ s ∈ Body.partsArgs es, Agrees sql negDouble rows s) →
      ExactOnArgs sql negDouble rows es
  | [], _, _ => trivial
  | e :: es, hacc, h => by
    simp only [Body.acceptedArgs, Bool.and_eq_true] at hacc
    exact ⟨exactOn_of_agrees hacc.1 fun s hs => h s (List.mem_append_left _ hs),
      exactOnArgs_of_agrees hacc.2 fun s hs => h s (List.mem_append_right _ hs)⟩

end

/-- Where SQL evaluates an accepted body on the rows without an error, the fast path
returns the same value for it and for each of its parts exactly if no more than 500
registers are in use and every cast and every negation in it is exact. -/
theorem fast_agrees_iff [IsStrictOrderedRing R] {e : Body R} {v : Value R}
    (hacc : e.accepted = true) (hsql : sqlEval sql rows e = .ok v) :
    (∀ s ∈ e.parts, Agrees sql negDouble rows s) ↔
      e.registers ≤ registersLength ∧ ExactOn sql negDouble rows e := by
  constructor
  · intro h
    obtain ⟨v', _, hfast⟩ := h e (mem_parts_self e)
    exact ⟨((fastEval_eq_some_iff hacc).mp hfast).1, exactOn_of_agrees hacc h⟩
  · rintro ⟨hfit, hexact⟩
    exact agrees_parts hacc hsql hfit hexact

end Bodies

section Cast

/-- A library in which every function is zero. -/
def zeroFunctions : SqlFunctions ℚ where
  lib := { call1 := fun _ _ => 0, call2 := fun _ _ _ => 0 }
  other := fun _ _ => .error (.raised "")

/-- `int4(a.x * 3.0)` on a row with one field, `x`. -/
def castBody : Body ℚ :=
  .func .int4Float8 [.func .float8mul [.field 1 1, .const (.float8 3)]]

/-- Without a working negation of doubles, `int4(a.x * 3.0)` still agrees at `x = 3/4`:
the product `9/4` is cast to `2` on both paths. -/
theorem fast_agrees_iff_cast :
    castBody.accepted = true ∧
      sqlEval zeroFunctions [[.float8 (3 / 4)]] castBody = .ok (.int4 2) ∧
        ∀ s ∈ castBody.parts, Agrees zeroFunctions (fun _ => none) [[.float8 (3 / 4)]] s := by
  have hsql : sqlEval zeroFunctions [[.float8 (3 / 4)]] castBody = .ok (.int4 2) := by
    decide +kernel
  have hproduct : sqlEvalArgs zeroFunctions [[.float8 (3 / 4)]]
      [.func .float8mul [.field 1 1, .const (.float8 3)]] = .ok [.float8 (9 / 4)] := by
    decide +kernel
  have hnearest : Nearest (9 / 4 : ℚ) (trunc (9 / 4 : ℚ)) := eq_rint_iff.mp (by decide +kernel)
  refine ⟨rfl, hsql, (fast_agrees_iff rfl hsql).mpr ⟨by decide, ?_, fun vs hvs => ?_⟩⟩
  · exact ⟨⟨⟨trivial, trivial, trivial⟩, fun _ _ => trivial⟩, trivial⟩
  · cases hproduct.symm.trans hvs
    exact hnearest

/-- `int4(a.x)` at `x = 3/4` is `1` in SQL and `0` on the fast path. -/
theorem fast_truncates :
    (Body.func .int4Float8 [.field 1 1] : Body ℚ).accepted = true ∧
      sqlEval zeroFunctions [[.float8 (3 / 4)]] (.func .int4Float8 [.field 1 1]) = .ok (.int4 1) ∧
        fastEval zeroFunctions.lib (fun x => some (-x)) [[.float8 (3 / 4)]]
          (.func .int4Float8 [.field 1 1]) .int4 = some (.int4 0) := by
  refine ⟨rfl, by decide +kernel, by decide +kernel⟩

end Cast

end HolLambdas.Jit
