import HolLambdas.Jit.Injected

/-!
# The register arrays of the fast compilers

`llvm_compile_simple_expr` and `llvm_compile_simple_expr_derive` keep the LLVM values of
what the steps so far leave behind in an array on the C stack, of 500 elements ("scientifically
determined") and of 50. `registerPointer` goes up with each value that is put there and down
with each operand that is taken; nothing compares it with either end of the array.

Here only the indices are followed, for all steps up to the one at which the compiler raises
an error. `Does` says what a stretch of steps does with the pointer, whatever is below it
and whatever comes after, and the steps of a tree are put together with its rules. Taking and
leaving go right for every tree: the steps are a postfix form. How far up the pointer gets
depends on the tree alone (`peak`), and a sum that is nested to the right gets as far as it is
deep.
-/

namespace HolLambdas.Jit

open Scalar Row

variable {R : Type}

/-! ## The two compilers -/

/-- `llvm_compile_simple_expr` and `llvm_compile_simple_expr_derive`. -/
inductive SimpleCompiler where
  | eval
  | derive
deriving DecidableEq, Repr

namespace SimpleCompiler

/-- The size of `registers`. -/
def arrayLength : SimpleCompiler → Nat
  | eval => registersLength
  | derive => 50

/-- `numparams` in the switch of `llvm_compile_simple_expr_derive`, of the cases that do
not raise. -/
def deriveNumparams : FnOid → Option Nat
  | .other 1726 => some 2 -- numeric_mul
  | .float8mul => some 2
  | .other 1727 => some 2 -- numeric_div
  | .float8div => some 2
  | .other 1724 => some 2 -- numeric_add
  | .float8pl => some 2
  | .other 1725 => some 2 -- numeric_sub
  | .float8mi => some 2
  | .float8um => some 1
  | .absFloat8 => some 1
  | .float8abs => some 1
  | .sqrtFloat8 => some 1
  | .dsqrt => some 1
  | .asin => some 1
  | .acos => some 1
  | .atan => some 1
  | .sin => some 1
  | .cos => some 1
  | .tan => some 1
  | .dlog10 => some 1
  | .lnFloat8 => some 1
  | .dpow => some 2
  | .powFloat8Float8 => some 2
  | .powerFloat8Float8 => some 2
  | .expFloat8 => some 1
  | .atan2 => some 2
  | .other 7801 => some 2 -- softmax_cce
  | .other 7802 => some 1 -- silu
  | .other 7803 => some 1 -- sigmoid
  | .other 7804 => some 1 -- tanh
  | .other 7805 => some 1 -- relu
  | .other 9000 => some 2 -- mat_mul
  | .other 9001 => some 1 -- silu_m
  | .other 9002 => some 1 -- sigmoid_m
  | .other 9003 => some 1 -- tanh_m
  | .other 9004 => some 1 -- relu_m
  | .other 9005 => some 2 -- mat_add
  | _ => none

/-- `numparams`; a function that nothing is emitted for is an error. -/
def numparams : SimpleCompiler → FnOid → Option Nat
  | eval, f => (emitter f).map Emitter.numparams
  | derive, f => deriveNumparams f

/-- Only the first of the two has a case for `EEOP_PARAM_EXEC`. -/
def hasParamExec : SimpleCompiler → Bool
  | eval => true
  | derive => false

end SimpleCompiler

/-- What one step does: the elements of `registers` that are read or written, how many values
it takes from the stack or needs there, and `registerPointer` afterwards. -/
structure Effect where
  touched : List Int
  taken : Nat
  pointer : Int

/-- `registers[registerPointer++] = v` -/
def pushEffect (rp : Int) : Effect :=
  ⟨[rp], 0, rp + 1⟩

namespace SimpleCompiler

/-- One round of the loop; `none` is an error. At the end the second compiler also emits the
derivation, which does not use `registers`. -/
def effect (c : SimpleCompiler) (rp : Int) : Step R → Option Effect
  | .done => some ⟨[rp - 1], 1, rp⟩
  | .const _ => some (pushEffect rp)
  | .funcexpr f => (c.numparams f).map fun n =>
    ⟨(List.range n).map (fun i : Nat => rp - n + i) ++ [rp - n], n, rp - n + 1⟩
  | .paramExtern _ => some (pushEffect rp)
  | .paramExec _ => if c.hasParamExec then some (pushEffect rp) else none
  | .fieldselect _ => some ⟨[rp - 1, rp - 1], 1, rp⟩
  | .other _ => none

end SimpleCompiler

/-- A step with `registerPointer` before it. -/
structure Moment (R : Type) where
  step : Step R
  pointer : Int
  effect : Effect

/-- The rounds of the loop up to an error. -/
def SimpleCompiler.trace (c : SimpleCompiler) : Int → List (Step R) → List (Moment R)
  | _, [] => []
  | rp, step :: rest =>
    match c.effect rp step with
    | none => []
    | some eff => ⟨step, rp, eff⟩ :: c.trace eff.pointer rest

/-- The compiler stays inside its array and uses it as a stack. -/
structure RegistersSound (c : SimpleCompiler) (code : List (Step R)) : Prop where
  inArray : ∀ m ∈ c.trace 0 code, ∀ i ∈ m.effect.touched, 0 ≤ i ∧ i < c.arrayLength
  taken_le : ∀ m ∈ c.trace 0 code, (m.effect.taken : Int) ≤ m.pointer
  done_one : ∀ m ∈ c.trace 0 code, m.step = .done → m.pointer = 1

/-! ## Rules for stretches of steps -/

/-- Nothing below the start of the array is touched, nothing is taken that is not there, and
the step is not the last one. -/
def Moment.Disciplined (m : Moment R) : Prop :=
  (∀ i ∈ m.effect.touched, 0 ≤ i) ∧ (m.effect.taken : Int) ≤ m.pointer ∧ m.step ≠ .done

def Moment.Below (N : Nat) (m : Moment R) : Prop :=
  ∀ i ∈ m.effect.touched, i < N

/-- The steps, if no error ends them (`through`), leave `height` more values on the stack;
on the way there are at most `top` more, and at some time there are. -/
def Does (c : SimpleCompiler) (code : List (Step R)) (through : Bool) (height top : Nat) : Prop :=
  ∀ (rp : Nat) (rest : List (Step R)), ∃ ms,
    c.trace rp (code ++ rest) =
        ms ++ (if through then c.trace ((rp + height : Nat) : Int) rest else []) ∧
      (∀ m ∈ ms, m.Disciplined) ∧
      ∀ N, rp ≤ N → ((∀ m ∈ ms, m.Below N) ↔ rp + top ≤ N)

section Rules

variable {c : SimpleCompiler}

theorem does_nil : Does c ([] : List (Step R)) true 0 0 := by
  intro rp rest
  refine ⟨[], rfl, ?_, ?_⟩
  · intro m hm
    cases hm
  · intro N hN
    refine iff_of_true ?_ hN
    intro m hm
    cases hm

variable {step : Step R} {code : List (Step R)} {height top : Nat}

/-- A step that ends in an error. -/
theorem does_error (h : ∀ rp, c.effect rp step = none) : Does c (step :: code) false height 0 := by
  intro rp rest
  refine ⟨[], ?_, ?_, ?_⟩
  · simp [SimpleCompiler.trace, h]
  · intro m hm
    cases hm
  · intro N hN
    refine iff_of_true ?_ hN
    intro m hm
    cases hm

theorem does_push (h : ∀ rp, c.effect rp step = some (pushEffect rp)) (hdone : step ≠ .done) :
    Does c [step] true 1 1 := by
  intro rp rest
  refine ⟨[⟨step, rp, pushEffect rp⟩], ?_, ?_, ?_⟩
  · simp [SimpleCompiler.trace, h, pushEffect]
  · intro m hm
    rw [List.mem_singleton] at hm
    subst hm
    refine ⟨?_, ?_, hdone⟩ <;> simp [pushEffect]
  · intro N _
    simp only [List.mem_singleton, forall_eq, Moment.Below, pushEffect]
    omega

/-- One stretch after the other. -/
theorem Does.append {code' : List (Step R)} {through : Bool} {height' top' : Nat}
    (h : Does c code true height top) (hle : height ≤ top)
    (h' : Does c code' through height' top') :
    Does c (code ++ code') through (height + height') (max top (height + top')) := by
  intro rp rest
  obtain ⟨ms, htrace, hdisc, hbelow⟩ := h rp (code' ++ rest)
  obtain ⟨ms', htrace', hdisc', hbelow'⟩ := h' (rp + height) rest
  refine ⟨ms ++ ms', ?_, ?_, ?_⟩
  · rw [List.append_assoc, htrace, if_pos rfl, htrace', List.append_assoc, Nat.add_assoc]
  · intro m hm
    rcases List.mem_append.mp hm with hm | hm
    · exact hdisc m hm
    · exact hdisc' m hm
  · intro N hN
    simp only [List.forall_mem_append, hbelow N hN]
    constructor
    · rintro ⟨htop, hms'⟩
      have := (hbelow' N (by omega)).mp hms'
      omega
    · intro htop
      exact ⟨by omega, (hbelow' N (by omega)).mpr (by omega)⟩

/-- After an error nothing follows. -/
theorem Does.stop (h : Does c code false height top) (code' : List (Step R)) (height' : Nat) :
    Does c (code ++ code') false height' top := by
  intro rp rest
  obtain ⟨ms, htrace, hdisc, hbelow⟩ := h rp (code' ++ rest)
  exact ⟨ms, by rw [List.append_assoc, htrace]; rfl, hdisc, hbelow⟩

/-- A stretch that is ended by an error. -/
theorem Does.thenError {code' : List (Step R)} {height' : Nat} (h : Does c code true height top)
    (hle : height ≤ top) (herror : ∀ rp, c.effect rp step = none) :
    Does c (code ++ step :: code') false height' top := by
  have hstep : Does c (step :: code') false 0 0 := does_error herror
  have happend := (h.append hle hstep).stop [] height'
  rwa [Nat.add_zero, Nat.max_eq_left hle, List.append_nil] at happend

/-- A call takes its operands and puts its result where the first of them was. -/
theorem Does.call {f : FnOid} {n : Nat} (h : Does c code true n top) (hf : c.numparams f = some n)
    (hpos : 0 < n) (hle : n ≤ top) :
    Does c (code ++ [.funcexpr f]) true 1 top := by
  intro rp rest
  obtain ⟨ms, htrace, hdisc, hbelow⟩ := h rp (.funcexpr f :: rest)
  let eff : Effect :=
    ⟨(List.range n).map (fun i : Nat => ((rp + n : Nat) : Int) - n + i) ++
      [((rp + n : Nat) : Int) - n], n, ((rp + n : Nat) : Int) - n + 1⟩
  have heff : c.effect ((rp + n : Nat) : Int) (.funcexpr f : Step R) = some eff := by
    simp only [SimpleCompiler.effect, hf, Option.map_some, eff]
  have hpointer : eff.pointer = ((rp + 1 : Nat) : Int) := by
    simp only [eff]
    omega
  have htouched : ∀ i ∈ eff.touched, ∃ j : Nat, j < n ∧ i = rp + j := by
    intro i hi
    rcases List.mem_append.mp hi with hi | hi
    · obtain ⟨j, hj, rfl⟩ := List.mem_map.mp hi
      exact ⟨j, List.mem_range.mp hj, by omega⟩
    · exact ⟨0, hpos, by rw [List.mem_singleton.mp hi]; omega⟩
  refine ⟨ms ++ [⟨.funcexpr f, ((rp + n : Nat) : Int), eff⟩], ?_, ?_, ?_⟩
  · rw [List.append_assoc, List.singleton_append, htrace, if_pos rfl, if_pos rfl,
      List.append_assoc, List.singleton_append]
    simp only [SimpleCompiler.trace, heff, hpointer]
  · intro m hm
    rcases List.mem_append.mp hm with hm | hm
    · exact hdisc m hm
    · rw [List.mem_singleton] at hm
      subst hm
      refine ⟨?_, ?_, by simp⟩
      · intro i hi
        obtain ⟨j, _, rfl⟩ := htouched i hi
        omega
      · simp only [eff]
        omega
  · intro N hN
    simp only [List.forall_mem_append, hbelow N hN, List.mem_singleton, forall_eq,
      and_iff_left_iff_imp]
    -- the operands were put there before
    intro htop i hi
    obtain ⟨j, hj, rfl⟩ := htouched i hi
    omega

/-- A field: its row is loaded, and the field takes its place. -/
theorem does_field {p k : Nat} : Does c [(.paramExtern p : Step R), .fieldselect k] true 1 1 := by
  intro rp rest
  refine ⟨[⟨.paramExtern p, rp, pushEffect rp⟩,
    ⟨.fieldselect k, rp + 1, ⟨[rp + 1 - 1, rp + 1 - 1], 1, rp + 1⟩⟩], ?_, ?_, ?_⟩
  · simp [SimpleCompiler.trace, SimpleCompiler.effect, pushEffect]
  · intro m hm
    simp only [List.mem_cons, List.not_mem_nil, or_false] at hm
    rcases hm with rfl | rfl
    · exact ⟨by simp [pushEffect], by simp [pushEffect], by simp⟩
    · exact ⟨by simp, by simp, by simp⟩
  · intro N _
    simp only [List.mem_cons, List.not_mem_nil, or_false, forall_eq_or_imp, forall_eq,
      Moment.Below, pushEffect]
    omega

end Rules

/-! ## The steps of a tree -/

/-- `pronargs` of the functions in the two switches. -/
def switchPronargs : FnOid → Option Nat
  | .other 1724 => some 2
  | .other 1725 => some 2
  | .other 1726 => some 2
  | .other 1727 => some 2
  | .other 7801 => some 2
  | .other 7802 => some 1
  | .other 7803 => some 1
  | .other 7804 => some 1
  | .other 7805 => some 1
  | .other 9000 => some 2
  | .other 9001 => some 1
  | .other 9002 => some 1
  | .other 9003 => some 1
  | .other 9004 => some 1
  | .other 9005 => some 2
  | f => pronargs f

section Trees

variable {V : Type}

mutual

/-- Every call has as many arguments as the function takes, a field has none, and no lambda
is embedded: the analysis refuses a lambda, and the executor would make no step of one that
is an argument. -/
def argumentsFit : Expr (RowFunc FnOid) V → Bool
  | .const _ _ => true
  | .param _ _ => true
  | .func (.op f) args =>
    ((switchPronargs f).all fun n => n = args.length) && argumentsFitArgs args
  | .func (.field _ _ _) args => args.isEmpty
  | .func (.lfa _ _ _ _) args => argumentsFitArgs args
  | .caseWhen _ c r d => argumentsFit c && argumentsFit r && argumentsFit d
  | .coalesce _ a b => argumentsFit a && argumentsFit b
  | .lfa _ _ _ args => argumentsFitArgs args
  | .lambda _ _ => false

def argumentsFitArgs : List (Expr (RowFunc FnOid) V) → Bool
  | [] => true
  | e :: es => argumentsFit e && argumentsFitArgs es

end

namespace SimpleCompiler

mutual

/-- The compiler gets to the end of the tree's steps. -/
def through (c : SimpleCompiler) : Expr (RowFunc FnOid) V → Bool
  | .const _ _ => true
  | .param _ _ => c.hasParamExec
  | .func (.op f) args => throughArgs c args && (c.numparams f).isSome
  | .func (.field _ _ _) _ => true
  | .func (.lfa _ _ _ _) _ => false
  | .caseWhen _ _ _ _ => false
  | .coalesce _ _ _ => false
  | .lfa _ _ _ _ => false
  | .lambda _ _ => true

def throughArgs (c : SimpleCompiler) : List (Expr (RowFunc FnOid) V) → Bool
  | [] => true
  | e :: es => through c e && throughArgs c es

end

mutual

/-- How many registers are in use at once. The operands of a call are computed from left to
right, with the ones before below; what follows an error is not reached. -/
def peak (c : SimpleCompiler) : Expr (RowFunc FnOid) V → Nat
  | .const _ _ => 1
  | .param _ _ => if c.hasParamExec then 1 else 0
  | .func (.op _) args => peakArgs c args
  | .func (.field _ _ _) _ => 1
  | .func (.lfa _ _ _ _) args => if c.hasParamExec then 1 + peakArgs c args else 0
  | .caseWhen _ cond _ _ => peak c cond
  | .coalesce _ a _ => peak c a
  | .lfa _ _ _ args => if c.hasParamExec then 1 + peakArgs c args else 0
  | .lambda _ _ => 1

def peakArgs (c : SimpleCompiler) : List (Expr (RowFunc FnOid) V) → Nat
  | [] => 0
  | e :: es => if through c e then max (peak c e) (1 + peakArgs c es) else peak c e

end

/-- The two switches take the operands that the functions have. -/
theorem switchPronargs_of_numparams {c : SimpleCompiler} {f : FnOid} {n : Nat}
    (h : c.numparams f = some n) : switchPronargs f = some n ∧ 0 < n := by
  cases c with
  | eval =>
    simp only [numparams, Option.map_eq_some_iff] at h
    obtain ⟨em, hem, rfl⟩ := h
    have hnum : 0 < em.numparams := by
      cases em with
      | one a o => exact Nat.one_pos
      | two a o => exact Nat.two_pos
    have hpro := pronargs_of_emitter hem
    cases f with
    | other oid => cases hem
    | _ => exact ⟨hpro, hnum⟩
  | derive =>
    simp only [numparams] at h
    unfold deriveNumparams at h
    split at h <;> first
      | (cases h; exact ⟨rfl, by decide⟩)
      | cases h

end SimpleCompiler

section Steps

variable {c : SimpleCompiler}
variable (address : LambdaHeader → Expr (RowFunc FnOid) (Value R) → BitVec 64)

theorem does_paramExec {k : Nat} :
    Does c [(.paramExec k : Step R)] c.hasParamExec 1 (if c.hasParamExec then 1 else 0) := by
  cases hc : c.hasParamExec with
  | true => exact does_push (by simp [SimpleCompiler.effect, hc]) (by simp)
  | false => exact does_error (by simp [SimpleCompiler.effect, hc])

variable {code : List (Step R)} {through : Bool} {top : Nat} {e : Expr (RowFunc FnOid) (Value R)}

/-- The arguments of a call, and then the call. -/
theorem does_func {f : FnOid} {n : Nat} (hargs : Does c code through n top)
    (hle : through = true → n ≤ top) (hfit : ((switchPronargs f).all fun k => k = n) = true) :
    Does c (code ++ [.funcexpr f]) (through && (c.numparams f).isSome) 1 top := by
  cases through with
  | false => exact hargs.stop _ _
  | true =>
    cases hf : c.numparams f with
    | none =>
      exact hargs.thenError (hle rfl) (by simp [SimpleCompiler.effect, hf])
    | some k =>
      obtain ⟨hpro, hpos⟩ := SimpleCompiler.switchPronargs_of_numparams hf
      simp only [hpro, Option.all_some, decide_eq_true_eq] at hfit
      subst hfit
      exact hargs.call hf hpos (hle rfl)

/-- `CASE` and `COALESCE`: the first part, and then a jump. -/
theorem does_jump {step : Step R} {code' : List (Step R)} {height height' : Nat}
    (h : Does c code through height top)
    (hle : through = true → height ≤ top) (herror : ∀ rp, c.effect rp step = none) :
    Does c (code ++ step :: code') false height' top := by
  cases through with
  | false => exact h.stop _ _
  | true => exact h.thenError (hle rfl) herror

/-- A call of a function input: the compilers know no such step. -/
theorem does_callLambda {k : Nat} {n : Nat} (hargs : Does c code through n top)
    (hle : through = true → n ≤ top) :
    Does c (.paramExec k :: (code ++ [.other EEOP_CALLLAMBDAEXPR])) false 1
      (if c.hasParamExec then 1 + top else 0) := by
  cases hc : c.hasParamExec with
  | false => exact does_error (by simp [SimpleCompiler.effect, hc])
  | true =>
    have hload : Does c [(.paramExec k : Step R)] true 1 1 :=
      does_push (by simp [SimpleCompiler.effect, hc]) (by simp)
    have herror : Does c (code ++ [.other EEOP_CALLLAMBDAEXPR]) false 0 top :=
      does_jump hargs hle fun _ => rfl
    have h := hload.append (Nat.le_refl 1) herror
    rw [Nat.max_eq_right (by omega)] at h
    exact h

mutual

/-- The registers a tree needs, and the one it leaves. -/
theorem does_tree : ∀ {e : Expr (RowFunc FnOid) (Value R)}, argumentsFit e = true →
    Does c (execSteps address e) (c.through e) 1 (c.peak e) ∧ (c.through e = true → 1 ≤ c.peak e)
  | .const t v, _ => ⟨does_push (fun _ => rfl) (by simp), fun _ => Nat.le_refl 1⟩
  | .param k t, _ => by
    refine ⟨does_paramExec, fun h => ?_⟩
    simp only [SimpleCompiler.through] at h
    simp [SimpleCompiler.peak, h]
  | .func (.op f) args, hfit => by
    simp only [argumentsFit, Bool.and_eq_true] at hfit
    obtain ⟨hdoes, hle⟩ := does_trees hfit.2
    refine ⟨?_, fun h => ?_⟩
    · simpa only [execSteps, calleeSteps, funcSteps, List.nil_append, SimpleCompiler.through,
        SimpleCompiler.peak] using does_func hdoes hle hfit.1
    · -- a function in the switch has an argument
      simp only [SimpleCompiler.through, Bool.and_eq_true, Option.isSome_iff_exists] at h
      obtain ⟨hargs, n, hn⟩ := h
      obtain ⟨hpro, hpos⟩ := SimpleCompiler.switchPronargs_of_numparams hn
      have hlen := hfit.1
      simp only [hpro, Option.all_some, decide_eq_true_eq] at hlen
      have htop := hle hargs
      simp only [SimpleCompiler.peak]
      omega
  | .func (.field p k t) args, hfit => by
    simp only [argumentsFit, List.isEmpty_iff] at hfit
    subst hfit
    exact ⟨does_field, fun _ => Nat.le_refl 1⟩
  | .func (.lfa name t p k) args, hfit => by
    obtain ⟨hdoes, hle⟩ := does_trees hfit
    exact ⟨does_callLambda hdoes hle, fun h => absurd h Bool.false_ne_true⟩
  | .caseWhen t cond r d, hfit => by
    simp only [argumentsFit, Bool.and_eq_true] at hfit
    obtain ⟨hdoes, hle⟩ := does_tree hfit.1.1
    exact ⟨does_jump hdoes hle fun _ => rfl, fun h => absurd h Bool.false_ne_true⟩
  | .coalesce t a b, hfit => by
    simp only [argumentsFit, Bool.and_eq_true] at hfit
    obtain ⟨hdoes, hle⟩ := does_tree hfit.1
    exact ⟨does_jump hdoes hle fun _ => rfl, fun h => absurd h Bool.false_ne_true⟩
  | .lfa name t k args, hfit => by
    obtain ⟨hdoes, hle⟩ := does_trees hfit
    exact ⟨does_callLambda hdoes hle, fun h => absurd h Bool.false_ne_true⟩

theorem does_trees : ∀ {es : List (Expr (RowFunc FnOid) (Value R))}, argumentsFitArgs es = true →
    Does c (execStepsArgs address es) (c.throughArgs es) es.length (c.peakArgs es) ∧
      (c.throughArgs es = true → es.length ≤ c.peakArgs es)
  | [], _ => ⟨does_nil, fun _ => Nat.le_refl 0⟩
  | e :: es, hfit => by
    simp only [argumentsFitArgs, Bool.and_eq_true] at hfit
    obtain ⟨hhead, hone⟩ := does_tree hfit.1
    obtain ⟨htail, hle⟩ := does_trees hfit.2
    simp only [execStepsArgs, SimpleCompiler.throughArgs, SimpleCompiler.peakArgs,
      List.length_cons]
    cases hc : c.through e with
    | false =>
      rw [hc] at hhead
      exact ⟨hhead.stop _ _, fun h => absurd h Bool.false_ne_true⟩
    | true =>
      rw [hc] at hhead
      refine ⟨?_, fun h => ?_⟩
      · have happend := hhead.append (hone hc) htail
        rwa [Nat.add_comm 1 es.length] at happend
      · have htop := hle h
        simp only [if_true]
        omega

end

/-- The whole run: the steps of the tree, and `EEOP_DONE` if they have been gone through. -/
theorem trace_tree (hfit : argumentsFit e = true) :
    ∃ ms, c.trace 0 (execSteps address e ++ [.done]) =
        ms ++ (if c.through e then [⟨.done, 1, ⟨[0], 1, 1⟩⟩] else []) ∧
      (∀ m ∈ ms, m.Disciplined) ∧
        ((∀ m ∈ ms, m.Below c.arrayLength) ↔ c.peak e ≤ c.arrayLength) := by
  obtain ⟨ms, htrace, hdisc, hbelow⟩ := (does_tree (c := c) address hfit).1 0 [.done]
  refine ⟨ms, ?_, hdisc, ?_⟩
  · simpa [SimpleCompiler.trace, SimpleCompiler.effect] using htrace
  · simpa using hbelow c.arrayLength (Nat.zero_le _)

/-- The compiler gets as far up as the tree needs. -/
theorem peak_le_of_registersSound (hfit : argumentsFit e = true)
    (h : RegistersSound c (execSteps address e ++ [.done])) :
    c.peak e ≤ c.arrayLength := by
  obtain ⟨ms, htrace, _, hbelow⟩ := trace_tree (c := c) address hfit
  refine hbelow.mp fun m hm i hi => ?_
  have hmem : m ∈ c.trace 0 (execSteps address e ++ [.done]) := by
    rw [htrace]
    exact List.mem_append_left _ hm
  exact (h.inArray m hmem i hi).2

/-- …and no further. -/
theorem registersSound_of_peak_le (hfit : argumentsFit e = true) (htop : c.peak e ≤ c.arrayLength) :
    RegistersSound c (execSteps address e ++ [.done]) := by
  obtain ⟨ms, htrace, hdisc, hbelow⟩ := trace_tree (c := c) address hfit
  have hcases : ∀ m ∈ c.trace 0 (execSteps address e ++ [.done]),
      m ∈ ms ∨ m = ⟨.done, 1, ⟨[0], 1, 1⟩⟩ := by
    intro m hm
    rw [htrace, List.mem_append] at hm
    refine hm.imp_right fun hm => ?_
    split at hm
    · exact List.mem_singleton.mp hm
    · cases hm
  have hpos : 0 < c.arrayLength := by
    cases c with
    | eval | derive => decide
  refine ⟨?_, ?_, ?_⟩
  · intro m hm i hi
    rcases hcases m hm with hm | rfl
    · exact ⟨(hdisc m hm).1 i hi, hbelow.mpr htop m hm i hi⟩
    · rw [List.mem_singleton.mp hi]
      omega
  · intro m hm
    rcases hcases m hm with hm | rfl
    · exact (hdisc m hm).2.1
    · exact Int.le_refl 1
  · intro m hm hdone
    rcases hcases m hm with hm | rfl
    · exact absurd hdone (hdisc m hm).2.2
    · rfl

/-- **The registers suffice exactly if the tree is not too deep.** For every tree whose calls
have as many arguments as their functions: the compiler stays inside its array, no step takes
more than there is, and one value is left at the end, if and only if the tree needs no more
registers than there are. -/
theorem registersSound_iff {e : Expr (RowFunc FnOid) (Value R)} (hfit : argumentsFit e = true) :
    RegistersSound c (execSteps address e ++ [.done]) ↔ c.peak e ≤ c.arrayLength :=
  ⟨peak_le_of_registersSound address hfit, registersSound_of_peak_le address hfit⟩

end Steps

end Trees

/-! ## The registers of the first compiler -/

/-- All indices of a run from `rp` are inside the array. -/
def InsideFrom (rp : Int) (code : List (Step R)) : Prop :=
  ∀ m ∈ SimpleCompiler.eval.trace rp code, ∀ i ∈ m.effect.touched, 0 ≤ i ∧ i < registersLength

theorem InsideFrom.cons {rp : Int} {step : Step R} {code : List (Step R)} {eff : Effect}
    (h : InsideFrom rp (step :: code)) (heff : SimpleCompiler.eval.effect rp step = some eff) :
    (∀ i ∈ eff.touched, 0 ≤ i ∧ i < registersLength) ∧ InsideFrom eff.pointer code := by
  unfold InsideFrom at h
  simp only [SimpleCompiler.trace, heff, List.forall_mem_cons] at h
  exact h

theorem pushRegister_inside {v : LValue R} {registers : List (LValue R)}
    {k : List (LValue R) → Except JitError (LValue R)} (h : registers.length < registersLength) :
    (pushRegister v registers >>= k) = k (v :: registers) := by
  rw [push_bind, if_pos (Nat.succ_le_of_lt h)]

/-- Neither a write past the end nor a read below the start. -/
def NoRegisterError (r : Except JitError (LValue R)) : Prop :=
  r ≠ .error .registerOverflow ∧ r ≠ .error .registerUnderflow

/-- A step that pushes a value has room for it, and the rest starts one register higher. -/
theorem InsideFrom.push {v : LValue R} {registers : List (LValue R)} {step : Step R}
    {code : List (Step R)} {k : List (LValue R) → Except JitError (LValue R)}
    (h : InsideFrom registers.length (step :: code))
    (heff : SimpleCompiler.eval.effect registers.length step = some (pushEffect registers.length)) :
    (pushRegister v registers >>= k) = k (v :: registers) ∧
      InsideFrom (v :: registers).length code := by
  obtain ⟨hwrite, hrest⟩ := h.cons heff
  have hroom := hwrite _ (List.mem_singleton_self _)
  exact ⟨pushRegister_inside (by omega), hrest⟩

/-- The trace tells where the values of `compileSimpleExpr` go: as long as its indices are
inside the array, so are the registers. -/
theorem compileSimpleExpr_inside : ∀ {code : List (Step R)} {registers : List (LValue R)},
    InsideFrom registers.length code → NoRegisterError (compileSimpleExpr code registers)
  | [], _, _ => ⟨by simp [compileSimpleExpr], by simp [compileSimpleExpr]⟩
  | .done :: code, registers, h => by
    have hread := (h.cons rfl).1 _ (List.mem_singleton_self _)
    cases registers with
    | nil => simp at hread
    | cons v registers => exact ⟨by simp [compileSimpleExpr], by simp [compileSimpleExpr]⟩
  | .const d :: code, registers, h => by
    obtain ⟨hpush, hrest⟩ := h.push rfl
    rw [compileSimpleExpr, hpush]
    exact compileSimpleExpr_inside hrest
  | .paramExtern p :: code, registers, h => by
    obtain ⟨hpush, hrest⟩ := h.push rfl
    rw [compileSimpleExpr, hpush]
    exact compileSimpleExpr_inside hrest
  | .paramExec p :: code, registers, h => by
    obtain ⟨hpush, hrest⟩ := h.push rfl
    rw [compileSimpleExpr, hpush]
    exact compileSimpleExpr_inside hrest
  | .fieldselect k :: code, registers, h => by
    obtain ⟨hread, hrest⟩ := h.cons rfl
    have htop := hread _ List.mem_cons_self
    cases registers with
    | nil => simp at htop
    | cons v registers =>
      rw [compileSimpleExpr]
      exact compileSimpleExpr_inside hrest
  | .other opcode :: code, registers, _ =>
    ⟨by simp [compileSimpleExpr], by simp [compileSimpleExpr]⟩
  | .funcexpr f :: code, registers, h => by
    rw [compileSimpleExpr]
    cases hem : emitter f with
    | none => exact ⟨by cases f <;> simp [emitError], by cases f <;> simp [emitError]⟩
    | some em =>
      have heff : SimpleCompiler.eval.effect registers.length (.funcexpr f : Step R) =
          some ⟨(List.range em.numparams).map
            (fun i : Nat => (registers.length : Int) - em.numparams + i) ++
              [(registers.length : Int) - em.numparams], em.numparams,
            (registers.length : Int) - em.numparams + 1⟩ := by
        simp [SimpleCompiler.effect, SimpleCompiler.numparams, hem]
      obtain ⟨htouched, hrest⟩ := h.cons heff
      have hresult := htouched _ (List.mem_append_right _ (List.mem_singleton_self _))
      -- the index of the result bounds the operands from below
      cases em with
      | one a o =>
        simp only [Emitter.numparams] at hresult hrest
        obtain ⟨v, registers, rfl⟩ := List.exists_cons_of_length_pos (l := registers) (by omega)
        rw [List.length_cons] at hresult
        simp only [emitCall]
        rw [pushRegister_inside (by omega)]
        refine compileSimpleExpr_inside ?_
        simpa using hrest
      | two a o =>
        simp only [Emitter.numparams] at hresult hrest
        obtain ⟨w, registers, rfl⟩ := List.exists_cons_of_length_pos (l := registers) (by omega)
        rw [List.length_cons] at hresult
        obtain ⟨v, registers, rfl⟩ := List.exists_cons_of_length_pos (l := registers) (by omega)
        rw [List.length_cons] at hresult
        simp only [emitCall]
        rw [pushRegister_inside (by omega)]
        refine compileSimpleExpr_inside ?_
        have hpointer : ((registers.length + 1 + 1 : Nat) : Int) - (2 : Nat) + 1 =
            ((registers.length + 1 : Nat) : Int) := by omega
        simpa only [List.length_cons, hpointer] using hrest

/-- So a tree that fits the registers is compiled, or an error is raised, but never with a
register that is not there. -/
theorem noRegisterError_of_peak {e : Expr (RowFunc FnOid) (Value R)}
    (address : LambdaHeader → Expr (RowFunc FnOid) (Value R) → BitVec 64)
    (hfit : argumentsFit e = true) (htop : SimpleCompiler.eval.peak e ≤ registersLength) :
    NoRegisterError (compileTree address e) :=
  compileSimpleExpr_inside (registersSound_of_peak_le (c := .eval) address hfit htop).inArray

/-! ## Sums that are nested to the right -/

/-- `a.x + (a.x + (… + a.x))` with `n` additions. -/
def nestedSum : Nat → Expr (RowFunc FnOid) (Value ℚ)
  | 0 => .func (.field 1 1 FLOAT8OID) []
  | n + 1 => .func (.op .float8pl) [.func (.field 1 1 FLOAT8OID) [], nestedSum n]

theorem l3Tree_nestedSum : ∀ n : Nat, L3Tree (nestedSum n)
  | 0 => ⟨rfl, rfl⟩
  | n + 1 => by
    obtain ⟨hmade, hno⟩ := l3Tree_nestedSum n
    refine ⟨?_, ?_⟩
    · simp [nestedSum, madeOf, madeOfArgs, onList, hmade]
      decide
    · simp [nestedSum, hasAlias, hasAliasArgs, hno, RowFunc.isLfa]

theorem argumentsFit_nestedSum : ∀ n : Nat, argumentsFit (nestedSum n) = true
  | 0 => rfl
  | n + 1 => by
    have hpro : switchPronargs .float8pl = some 2 := rfl
    simp [nestedSum, argumentsFit, argumentsFitArgs, argumentsFit_nestedSum n, hpro]

/-- Each addition keeps its first operand while the second is computed. -/
theorem peak_nestedSum (c : SimpleCompiler) : ∀ n : Nat, c.peak (nestedSum n) = n + 1
  | 0 => rfl
  | n + 1 => by
    simp only [nestedSum, SimpleCompiler.peak, SimpleCompiler.peakArgs, SimpleCompiler.through,
      peak_nestedSum c n, if_true]
    split <;> omega

theorem registersSound_iff_sum :
    RegistersSound .eval (execSteps (fun _ _ => 0) (nestedSum 1) ++ [.done]) ∧
      RegistersSound .derive (execSteps (fun _ _ => 0) (nestedSum 1) ++ [.done]) := by
  refine ⟨(registersSound_iff _ (argumentsFit_nestedSum 1)).mpr ?_,
    (registersSound_iff _ (argumentsFit_nestedSum 1)).mpr ?_⟩
  · rw [peak_nestedSum]
    decide
  · rw [peak_nestedSum]
    decide

/-- A sum of 501 fields, made of nothing but fields and `float8pl`, leaves the array of the
first compiler, and one of 51 that of the second. -/
theorem nestedSum_leaves_registers :
    L3Tree (nestedSum 500) ∧ L3Tree (nestedSum 50) ∧
      ¬ RegistersSound .eval (execSteps (fun _ _ => 0) (nestedSum 500) ++ [.done]) ∧
      ¬ RegistersSound .derive (execSteps (fun _ _ => 0) (nestedSum 50) ++ [.done]) := by
  refine ⟨l3Tree_nestedSum 500, l3Tree_nestedSum 50, ?_, ?_⟩
  · intro h
    have htop := peak_le_of_registersSound _ (argumentsFit_nestedSum 500) h
    rw [peak_nestedSum] at htop
    revert htop
    decide
  · intro h
    have htop := peak_le_of_registersSound _ (argumentsFit_nestedSum 50) h
    rw [peak_nestedSum] at htop
    revert htop
    decide

theorem noRegisterError_of_peak_sum :
    NoRegisterError (compileTree (fun _ _ => 0) (nestedSum 499)) := by
  refine noRegisterError_of_peak _ (argumentsFit_nestedSum 499) ?_
  rw [peak_nestedSum]
  decide

end HolLambdas.Jit
