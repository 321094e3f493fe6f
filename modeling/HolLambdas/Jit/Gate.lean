import HolLambdas.Runs
import HolLambdas.Parallel.Workers
import HolLambdas.Row.Embed
import HolLambdas.Jit.Injected

/-!
# Is the fast path gated?

`lambda.h` says of `l3_safe` that "every lambda in a flattened combo must have l3_safe
== true before the fast path is taken". Here is the way from a table of lambdas to the
fast compiler. `apply_mt` takes the lambdas one after the other: it injects them into the
mother, folds constants, and has the body compiled. `apply_mt_pw` in mode 1 or 2 first
injects and folds all of them; then its workers claim jobs, one for each lambda, and the
worker that claims a job compiles the body. An error ends `apply_mt`, or the worker.

None of this reads the flag. `handed_iff` says which lambdas get to the compiler: those
that are not stopped by an error of another. So the fast path is gated exactly if none
of these is without the flag (`fast_path_gated_iff`).
-/

namespace HolLambdas.Jit

open Scalar Row
open Function

variable {R : Type}

/-! ## Folding in row context -/

/-- Fields and calls of inputs are nodes that the folder does not evaluate. -/
def foldCatalog (cat : ProcCatalog FnOid) : ProcCatalog (RowFunc FnOid) where
  proisstrict := (rowCatalog cat).proisstrict
  provolatile
    | .op f => cat.provolatile f
    | _ => .volatile
  proargtypes := (rowCatalog cat).proargtypes
  prorettype := (rowCatalog cat).prorettype

/-- What the folder needs to know about functions. -/
structure FoldRuntime (R : Type) where
  cat : ProcCatalog FnOid
  call : FnOid → List (Option (Value R)) → Except SqlError (Option (Value R))
  isTrue : Value R → Bool

def FoldRuntime.toRuntime (rt : FoldRuntime R) :
    Runtime (RowFunc FnOid) (Value R) (Except SqlError) where
  call
    | .op f, vs => rt.call f vs
    | _, _ => .ok none
  isTrue := rt.isTrue
  detoast _ := .ok ()

/-! ## The lambdas of a body -/

mutual

/-- The columns whose lambdas the injector puts into a body: those that the mother calls,
and those that it passes to a call by name. -/
def injectedColumns {F V : Type} : RowBody F V → List (Nat × Nat)
  | .const _ _ => []
  | .field _ _ _ => []
  | .func _ args => injectedColumnsArgs args
  | .caseWhen _ c r d => injectedColumns c ++ injectedColumns r ++ injectedColumns d
  | .coalesce _ a b => injectedColumns a ++ injectedColumns b
  | .lfa _ _ p k args => (p, k) :: args.filterMap RowBody.byName

def injectedColumnsArgs {F V : Type} : List (RowBody F V) → List (Nat × Nat)
  | [] => []
  | e :: es => injectedColumns e ++ injectedColumnsArgs es

end

/-! ## Calls of the operators -/

/-- The operators that use the fast compiler. `workers` of the requested processes have
been launched. -/
inductive FastOperator where
  | applyMt
  | applyMtPw (fastTuple : Bool) (nworkers : Int) (workers : Nat)

/-- A call: the mother with the declaration of its rows, the number of data rows, and the
table of lambdas. `provider` is the result of `provider_init`. -/
structure FastCall (R : Type) where
  operator : FastOperator
  argtypes : List (List LambdaSigType)
  mother : RowBody FnOid (Value R)
  rows : Nat
  tuples : List (List (Option (StoredCell (Value R))))
  provider : Bool
  rt : FoldRuntime R
  fuel : Nat
  address : LambdaHeader → Expr (RowFunc FnOid) (Value R) → BitVec 64

namespace FastCall

variable (c : FastCall R)

/-- `input_tuples`: there is nothing in the place of the data row. -/
def inputTuples (tuple : List (Option (StoredCell (Value R)))) :
    List (List (Option (StoredCell (Value R)))) :=
  [[], tuple]

/-- `lambda_injector` followed by `eval_const_expressions`. -/
def prepareTuple (tuple : List (Option (StoredCell (Value R)))) :
    Option (Expr (RowFunc FnOid) (Value R)) :=
  match lambdaInjector c.fuel c.argtypes c.mother ((inputTuples tuple).map storedTuple) with
  | .error _ => none
  | .ok e => (evalConstExpressions (foldCatalog c.rt.cat) c.rt.toRuntime e).toOption

/-- The body for the lambdas with number `l`, if there is one without an error. -/
def prepare (l : Nat) : Option (Expr (RowFunc FnOid) (Value R)) :=
  (c.tuples[l]?).bind c.prepareTuple

/-- Is lambda `l` injected, and its code generated? -/
def compiles (l : Nat) : Bool :=
  (c.prepare l).any fun e => (compileTree c.address e).toBool

/-- Every lambda that is injected for number `l` has the flag. -/
def AllFlagged (l : Nat) : Prop :=
  ∀ tuple, c.tuples[l]? = some tuple → ∀ pk ∈ injectedColumns c.mother, ∀ s,
    ((nth1 (inputTuples tuple) pk.1).bind fun row => (nth1 row pk.2).join) = some (.lambda s) →
      s.l3_safe = true

/-! ### `apply_mt` -/

/-- The loop over the table from number `l` on: which bodies are handed to the compiler. -/
def applyMtLoop : Nat → List (List (Option (StoredCell (Value R)))) → List Nat
  | _, [] => []
  | l, tuple :: rest =>
    match c.prepareTuple tuple with
    | none => []
    | some e =>
      l :: if (compileTree c.address e).toBool then applyMtLoop (l + 1) rest else []

/-- The lambdas whose code `apply_mt` hands to its threads. -/
def applyMtHanded : List Nat :=
  if c.provider then c.applyMtLoop 0 c.tuples else []

/-! ### `apply_mt_pw` -/

/-- The leader's arithmetic, in mode 1 or 2. -/
def pwCall (fastTuple : Bool) (nworkers : Int) : ApplyPwCall Unit Unit :=
  { rows := List.replicate c.rows (), lambdas := c.tuples.length, eval := fun _ _ _ => (),
    mode := if fastTuple then .fastTuple else .fast, nworkers, result_flat := true, garbage := (),
    sizes := fun _ => 0, damaged := fun _ _ => () }

/-- What of the processes has to do with compiling: the shared counter, which workers are
still there and which lambdas each has prepared; and what was handed to the compiler. -/
structure PwState (k : Nat) where
  next_job : Nat
  stopped : Fin k → Bool
  lambdas : Fin k → Nat → Bool
  handed : List Nat

def PwState.initial {k : Nat} : PwState k :=
  { next_job := 0, stopped := fun _ => false, lambdas := fun _ _ => false, handed := [] }

def PwState.claimed {k : Nat} (s : PwState k) : PwState k :=
  { s with next_job := (s.next_job + 1) % 2 ^ 32 }

def PwState.stop {k : Nat} (s : PwState k) (w : Fin k) : PwState k :=
  { s with stopped := update s.stopped w true }

/-- `ExecInitLambdaExpr` of a lambda that the worker has not met before. -/
def compileLambda {k : Nat} (s : PwState k) (w : Fin k) (l : Nat) : PwState k :=
  if c.compiles l then
    { s with
      lambdas := update s.lambdas w (update (s.lambdas w) l true)
      handed := s.handed ++ [l] }
  else { s.stop w with handed := s.handed ++ [l] }

/-- A worker claims the next job, and compiles its lambda if it has to. -/
def claim {k : Nat} (fastTuple : Bool) (nworkers : Int) (s : PwState k) (w : Fin k) :
    Option (PwState k) :=
  if s.stopped w then none
  else if (c.pwCall fastTuple nworkers).num_jobs.toNat ≤ s.next_job then some (s.claimed.stop w)
  else
    ((c.pwCall fastTuple nworkers).jobs[s.next_job]?).map fun job =>
      if s.lambdas w job.id_lambda then s.claimed else c.compileLambda s.claimed w job.id_lambda

/-- The leader gets as far as launching workers. -/
def leaderLaunches (fastTuple : Bool) (nworkers : Int) : Prop :=
  c.provider = true ∧ (∀ l < c.tuples.length, (c.prepare l).isSome = true) ∧
    (c.pwCall fastTuple nworkers).launches = true

instance (fastTuple : Bool) (nworkers : Int) : Decidable (c.leaderLaunches fastTuple nworkers) :=
  inferInstanceAs (Decidable (_ ∧ _))

/-- A worker claims a job, if there are workers. -/
def pwStep {k : Nat} (fastTuple : Bool) (nworkers : Int) (s : PwState k) (w : Fin k) :
    Option (PwState k) :=
  if c.leaderLaunches fastTuple nworkers then c.claim fastTuple nworkers s w else none

/-! ### What gets to the compiler -/

/-- The body for the lambdas with number `l` is handed to the compiler, in some run. -/
def Handed (l : Nat) : Prop :=
  match c.operator with
  | .applyMt => l ∈ c.applyMtHanded
  | .applyMtPw fastTuple nworkers k => ∃ s : PwState k,
      Reachable (c.pwStep fastTuple nworkers) (fun _ _ => True) PwState.initial s ∧ l ∈ s.handed

/-- A body is handed to the fast compiler only if all lambdas in it have the flag. -/
def Gated : Prop :=
  ∀ l, c.Handed l → c.AllFlagged l

/-- How many of the first bodies do not compile. -/
def failsBefore (l : Nat) : Nat :=
  (List.range l).countP fun j => !c.compiles j

/-- Nothing stops the body with number `l` on its way: those before it, or all of them,
are injected and folded without an error, and of those before it that do not compile
there are fewer than processes. -/
def Arrives (l : Nat) : Prop :=
  match c.operator with
  | .applyMt => c.provider = true ∧ l < c.tuples.length ∧
      (∀ j ≤ l, (c.prepare j).isSome = true) ∧ c.failsBefore l < 1
  | .applyMtPw fastTuple nworkers k => c.leaderLaunches fastTuple nworkers ∧
      l < (c.pwCall fastTuple nworkers).num_jobs.toNat ∧ c.failsBefore l < k

/-- The number of processes is an `int`. -/
def WorkersFit : Prop :=
  match c.operator with
  | .applyMt => True
  | .applyMtPw _ _ k => (k : Int) ≤ PG_INT32_MAX

/-! ## `apply_mt` -/

variable {c}

theorem failsBefore_eq_zero_iff {l : Nat} : c.failsBefore l < 1 ↔ ∀ j < l, c.compiles j = true := by
  rw [Nat.lt_one_iff, failsBefore, List.countP_eq_zero]
  simp only [List.mem_range, Bool.not_eq_true', Bool.not_eq_false]

theorem isSome_prepare_of_compiles {l : Nat} (h : c.compiles l = true) :
    (c.prepare l).isSome = true := by
  unfold compiles at h
  cases hl : c.prepare l with
  | none =>
    rw [hl] at h
    cases h
  | some e => rfl

theorem lt_length_of_prepare {l : Nat} (h : (c.prepare l).isSome = true) : l < c.tuples.length := by
  unfold prepare at h
  by_contra hge
  rw [List.getElem?_eq_none (by omega)] at h
  cases h

/-- The loop gets to a body if the ones before compile. -/
theorem mem_applyMtLoop {ts : List (List (Option (StoredCell (Value R))))} {n l : Nat}
    (hts : ∀ i, ts[i]? = c.tuples[n + i]?) :
    l ∈ c.applyMtLoop n ts ↔
      n ≤ l ∧ (c.prepare l).isSome = true ∧ ∀ j, n ≤ j → j < l → c.compiles j = true := by
  induction ts generalizing n with
  | nil =>
    simp only [applyMtLoop, List.not_mem_nil, false_iff, not_and]
    intro hle hsome
    have hlt := lt_length_of_prepare hsome
    have hnone := hts (l - n)
    rw [List.getElem?_nil, Nat.add_sub_cancel' hle, List.getElem?_eq_getElem hlt] at hnone
    cases hnone
  | cons tuple rest ih =>
    have hhead : c.prepare n = c.prepareTuple tuple := by
      have hn := hts 0
      rw [List.getElem?_cons_zero, Nat.add_zero] at hn
      rw [prepare, ← hn]
      rfl
    have hrest : ∀ i, rest[i]? = c.tuples[n + 1 + i]? := by
      intro i
      have hi := hts (i + 1)
      rw [List.getElem?_cons_succ] at hi
      rw [hi, Nat.add_assoc, Nat.add_comm 1 i]
    have hcompiles : ∀ e, c.prepareTuple tuple = some e →
        c.compiles n = (compileTree c.address e).toBool := by
      intro e he
      rw [compiles, hhead, he]
      rfl
    unfold applyMtLoop
    cases he : c.prepareTuple tuple with
    | none =>
      -- an error before the first compilation
      simp only [List.not_mem_nil, false_iff, not_and]
      intro hle hsome hall
      have hn : (c.prepare n).isSome = true := by
        rcases Nat.eq_or_lt_of_le hle with rfl | hlt
        · exact hsome
        · exact isSome_prepare_of_compiles (hall n (Nat.le_refl n) hlt)
      rw [hhead, he] at hn
      cases hn
    | some e =>
      have hn : (c.prepare n).isSome = true := by rw [hhead, he]; rfl
      simp only [List.mem_cons]
      constructor
      · rintro (rfl | hmem)
        · exact ⟨Nat.le_refl l, hn, fun j hj hlt => absurd hlt (Nat.not_lt.mpr hj)⟩
        · split at hmem
          · next hok =>
            obtain ⟨hle, hsome, hall⟩ := (ih hrest).mp hmem
            refine ⟨by omega, hsome, fun j hj hlt => ?_⟩
            rcases Nat.eq_or_lt_of_le hj with rfl | hj
            · rw [hcompiles e he]
              exact hok
            · exact hall j hj hlt
          · cases hmem
      · rintro ⟨hle, hsome, hall⟩
        rcases Nat.eq_or_lt_of_le hle with rfl | hlt
        · exact .inl rfl
        · right
          have hok := hall n (Nat.le_refl n) hlt
          rw [hcompiles e he] at hok
          rw [if_pos hok]
          exact (ih hrest).mpr ⟨hlt, hsome, fun j hj => hall j (by omega)⟩

theorem mem_applyMtHanded_iff {l : Nat} :
    l ∈ c.applyMtHanded ↔ c.provider = true ∧ l < c.tuples.length ∧
      (∀ j ≤ l, (c.prepare j).isSome = true) ∧ c.failsBefore l < 1 := by
  unfold applyMtHanded
  rw [failsBefore_eq_zero_iff]
  split
  · next hprovider =>
    rw [mem_applyMtLoop (fun i => by rw [Nat.zero_add])]
    constructor
    · rintro ⟨_, hsome, hall⟩
      refine ⟨hprovider, lt_length_of_prepare hsome, fun j hj => ?_,
        fun j hj => hall j (Nat.zero_le j) hj⟩
      rcases Nat.eq_or_lt_of_le hj with rfl | hlt
      · exact hsome
      · exact isSome_prepare_of_compiles (hall j (Nat.zero_le j) hlt)
    · rintro ⟨_, _, hsome, hall⟩
      exact ⟨Nat.zero_le l, hsome l (Nat.le_refl l), fun j _ hlt => hall j hlt⟩
  · next hprovider =>
    refine iff_of_false List.not_mem_nil fun h => hprovider h.1

/-! ## `apply_mt_pw` -/

section Workers

variable {fastTuple : Bool} {nworkers : Int} {k : Nat}

theorem chunks_eq_one : (c.pwCall fastTuple nworkers).chunks_per_lambda = 1 := by
  apply ApplyPwCall.chunks_eq_one
  unfold pwCall
  cases fastTuple <;> simp

theorem num_jobs_eq : (c.pwCall fastTuple nworkers).num_jobs =
    (c.pwCall fastTuple nworkers).num_tuples_lambda := by
  rw [ApplyPwCall.num_jobs, chunks_eq_one, mul_one]
  exact wrap32_of_isInt32 (isInt32_wrap32 _)

variable (c fastTuple nworkers) in
theorem num_jobs_le : (c.pwCall fastTuple nworkers).num_jobs ≤ PG_INT32_MAX := by
  rw [num_jobs_eq]
  exact (isInt32_wrap32 _).2

/-- The job with number `j` is for the lambda with number `j`. -/
theorem exists_job {j : Nat} (hj : j < (c.pwCall fastTuple nworkers).num_jobs.toNat) :
    ∃ job, (c.pwCall fastTuple nworkers).jobs[j]? = some job ∧ job.id_lambda = j := by
  rw [num_jobs_eq] at hj
  have hchunks : (c.pwCall fastTuple nworkers).chunks_per_lambda.toNat = 1 := by
    rw [chunks_eq_one]
    rfl
  rw [ApplyPwCall.jobs, hchunks, rowJobs]
  simp only [List.range_one, List.map_singleton, ← List.map_eq_flatMap]
  rw [List.getElem?_map, List.getElem?_range hj]
  exact ⟨_, rfl, rfl⟩

variable (c fastTuple nworkers) in
/-- The step of a worker, with what it needs. -/
inductive PwStep (s : PwState k) : PwState k → Prop
  | stop {w : Fin k} : s.stopped w = false →
      (c.pwCall fastTuple nworkers).num_jobs.toNat ≤ s.next_job → PwStep s (s.claimed.stop w)
  | again {w : Fin k} : s.stopped w = false →
      s.next_job < (c.pwCall fastTuple nworkers).num_jobs.toNat →
      s.lambdas w s.next_job = true → PwStep s s.claimed
  | compile {w : Fin k} : s.stopped w = false →
      s.next_job < (c.pwCall fastTuple nworkers).num_jobs.toNat →
      s.lambdas w s.next_job = false → PwStep s (c.compileLambda s.claimed w s.next_job)

variable {s : PwState k} {w : Fin k} {l : Nat}

theorem pwStep_cases {s' : PwState k} (h : c.pwStep fastTuple nworkers s w = some s') :
    c.leaderLaunches fastTuple nworkers ∧ PwStep c fastTuple nworkers s s' := by
  unfold pwStep at h
  split at h
  · next hlaunch =>
    refine ⟨hlaunch, ?_⟩
    unfold claim at h
    split at h
    · cases h
    · next hw =>
      rw [Bool.not_eq_true] at hw
      split at h
      · next hend =>
        cases h
        exact .stop hw hend
      · next hlt =>
        rw [Nat.not_le] at hlt
        obtain ⟨job, hjob, hid⟩ := exists_job hlt
        rw [hjob, Option.map_some, hid] at h
        split at h
        · next hmet =>
          cases h
          exact .again hw hlt hmet
        · next hmet =>
          cases h
          exact .compile hw hlt (Bool.not_eq_true _ ▸ hmet)
  · cases h

/-- How many workers have stopped. -/
def PwState.stoppedCount (s : PwState k) : Nat :=
  (Finset.univ.filter fun w => s.stopped w = true).card

theorem PwState.stoppedCount_stop (hw : s.stopped w = false) :
    (s.stop w).stoppedCount = s.stoppedCount + 1 := by
  have hset : (Finset.univ.filter fun v => (s.stop w).stopped v = true) =
      insert w (Finset.univ.filter fun v => s.stopped v = true) := by
    ext v
    simp only [PwState.stop, update_apply, Finset.mem_filter, Finset.mem_univ, true_and,
      Finset.mem_insert]
    by_cases hv : v = w
    · simp [hv]
    · simp [hv]
  rw [PwState.stoppedCount, hset, Finset.card_insert_of_notMem (by simp [hw])]
  rfl

theorem PwState.stoppedCount_lt (hw : s.stopped w = false) : s.stoppedCount < k := by
  have hlt : (Finset.univ.filter fun v => s.stopped v = true).card <
      (Finset.univ : Finset (Fin k)).card :=
    Finset.card_lt_card (Finset.filter_ssubset.mpr ⟨w, Finset.mem_univ w, by simp [hw]⟩)
  rwa [Finset.card_univ, Fintype.card_fin] at hlt

theorem failsBefore_succ (l : Nat) :
    c.failsBefore (l + 1) = c.failsBefore l + if c.compiles l then 0 else 1 := by
  rw [failsBefore, List.range_succ, List.countP_append, List.countP_singleton]
  cases c.compiles l <;> rfl

variable (c fastTuple nworkers) in
/-- Every job before the counter that does not compile has cost a worker. -/
structure PwInv (s : PwState k) : Prop where
  counter : s.next_job ≤ (c.pwCall fastTuple nworkers).num_jobs.toNat + s.stoppedCount
  fails : c.failsBefore (min s.next_job (c.pwCall fastTuple nworkers).num_jobs.toNat) ≤
    s.stoppedCount
  met : ∀ w l, s.lambdas w l = true → c.compiles l = true
  handed : ∀ l ∈ s.handed, c.leaderLaunches fastTuple nworkers ∧
    l < (c.pwCall fastTuple nworkers).num_jobs.toNat ∧ c.failsBefore l < k

theorem pwInv_initial : PwInv c fastTuple nworkers (PwState.initial : PwState k) where
  counter := Nat.zero_le _
  fails := by
    simp only [PwState.initial, Nat.zero_min]
    exact Nat.zero_le _
  met := by
    intro w l h
    cases h
  handed := by
    intro l h
    cases h

/-- What the workers have prepared after one of them has prepared `l`. -/
theorem met_update {f : Fin k → Nat → Bool} {v : Fin k} {i : Nat}
    (h : update f w (update (f w) l true) v i = true) :
    (v = w ∧ i = l) ∨ f v i = true := by
  by_cases hv : v = w
  · subst hv
    rw [update_self] at h
    by_cases hi : i = l
    · exact .inl ⟨rfl, hi⟩
    · rw [update_of_ne hi] at h
      exact .inr h
  · rw [update_of_ne hv] at h
    exact .inr h

/-- The counter does not wrap around while a worker is left. -/
theorem PwInv.next_job_succ (h : PwInv c fastTuple nworkers s) (hk : (k : Int) ≤ PG_INT32_MAX)
    (hw : s.stopped w = false) :
    s.claimed.next_job = s.next_job + 1 := by
  have hjobs := num_jobs_le c fastTuple nworkers
  have hlt := PwState.stoppedCount_lt hw
  have hcounter := h.counter
  unfold PG_INT32_MAX at hk hjobs
  exact Nat.mod_eq_of_lt (by omega)

theorem PwInv.handed_snoc (h : PwInv c fastTuple nworkers s)
    (hlaunch : c.leaderLaunches fastTuple nworkers) (hw : s.stopped w = false)
    (hlt : s.next_job < (c.pwCall fastTuple nworkers).num_jobs.toNat) :
    ∀ l ∈ s.handed ++ [s.next_job], c.leaderLaunches fastTuple nworkers ∧
      l < (c.pwCall fastTuple nworkers).num_jobs.toNat ∧ c.failsBefore l < k := by
  intro l hl
  rcases List.mem_append.mp hl with hl | hl
  · exact h.handed l hl
  · rw [List.mem_singleton] at hl
    subst hl
    have hfails := h.fails
    rw [Nat.min_eq_left (by omega)] at hfails
    exact ⟨hlaunch, hlt, hfails.trans_lt (PwState.stoppedCount_lt hw)⟩

/-- **One step** of the workers. -/
theorem pwInv_step (hk : (k : Int) ≤ PG_INT32_MAX) {s' : PwState k}
    (hlaunch : c.leaderLaunches fastTuple nworkers) (h : PwInv c fastTuple nworkers s)
    (hstep : PwStep c fastTuple nworkers s s') : PwInv c fastTuple nworkers s' := by
  have hfails := h.fails
  cases hstep with
  | @stop w hw hend =>
    have hnext := h.next_job_succ hk hw
    have hcount : (s.claimed.stop w).stoppedCount = s.stoppedCount + 1 :=
      PwState.stoppedCount_stop hw
    refine ⟨?_, ?_, h.met, h.handed⟩
    · have hcounter := h.counter
      rw [hcount]
      change s.claimed.next_job ≤ _
      omega
    · change c.failsBefore (min s.claimed.next_job _) ≤ _
      rw [Nat.min_eq_right hend] at hfails
      rw [hcount, hnext, Nat.min_eq_right (by omega)]
      omega
  | @again w hw hlt hmet =>
    have hnext := h.next_job_succ hk hw
    refine ⟨by omega, ?_, h.met, h.handed⟩
    rw [Nat.min_eq_left (by omega)] at hfails
    rw [hnext, Nat.min_eq_left (by omega), failsBefore_succ, h.met w _ hmet]
    exact hfails
  | @compile w hw hlt hmet =>
    have hnext := h.next_job_succ hk hw
    have hhanded := h.handed_snoc hlaunch hw hlt
    rw [Nat.min_eq_left (by omega)] at hfails
    unfold compileLambda
    split
    · next hok =>
      refine ⟨?_, ?_, ?_, hhanded⟩
      · change s.claimed.next_job ≤ _
        omega
      · change c.failsBefore (min s.claimed.next_job _) ≤ s.stoppedCount
        rw [hnext, Nat.min_eq_left (by omega), failsBefore_succ, if_pos hok]
        exact hfails
      · intro v l hvl
        rcases met_update hvl with ⟨_, rfl⟩ | hvl
        · exact hok
        · exact h.met v l hvl
    · next hfail =>
      have hcount : (s.claimed.stop w).stoppedCount = s.stoppedCount + 1 :=
        PwState.stoppedCount_stop hw
      refine ⟨?_, ?_, h.met, hhanded⟩
      · change s.claimed.next_job ≤ _
        omega
      · change c.failsBefore (min s.claimed.next_job _) ≤ (s.claimed.stop w).stoppedCount
        rw [hcount, hnext, Nat.min_eq_left (by omega), failsBefore_succ, if_neg hfail]
        omega

theorem failsBefore_mono {l' : Nat} (h : l ≤ l') : c.failsBefore l ≤ c.failsBefore l' := by
  induction h with
  | refl => exact Nat.le_refl _
  | step _ ih => exact ih.trans (by rw [failsBefore_succ]; omega)

/-- The run in which the jobs are claimed by the first worker that is left. -/
theorem exists_run (hlaunch : c.leaderLaunches fastTuple nworkers)
    (hl : l < (c.pwCall fastTuple nworkers).num_jobs.toNat) (hfails : c.failsBefore l < k) :
    ∀ j ≤ l + 1, ∃ s : PwState k,
      Reachable (c.pwStep fastTuple nworkers) (fun _ _ => True) PwState.initial s ∧
        s.next_job = j ∧ s.handed = List.range j ∧
        (∀ w, s.stopped w = true ↔ w.val < c.failsBefore j) ∧
        ∀ w i, s.lambdas w i = true → i < j := by
  intro j
  induction j with
  | zero =>
    intro _
    refine ⟨PwState.initial, .init, rfl, rfl, fun w => ?_, fun w i h => nomatch h⟩
    exact iff_of_false (fun h => nomatch h) (Nat.not_lt_zero _)
  | succ j ih =>
    intro hj
    obtain ⟨s, hreach, hnext, hhanded, hstopped, hmet⟩ := ih (by omega)
    have hlt : s.next_job < (c.pwCall fastTuple nworkers).num_jobs.toNat := by omega
    have hroom : c.failsBefore j < k := (failsBefore_mono (by omega)).trans_lt hfails
    -- each failure has stopped one worker, in the order of their numbers
    have hw : s.stopped ⟨c.failsBefore j, hroom⟩ = false := by
      rw [← Bool.not_eq_true, hstopped]
      exact Nat.lt_irrefl _
    have hnew : s.lambdas ⟨c.failsBefore j, hroom⟩ s.next_job = false := by
      rw [← Bool.not_eq_true]
      intro h
      have := hmet _ _ h
      omega
    have hstep : c.pwStep fastTuple nworkers s ⟨c.failsBefore j, hroom⟩ =
        some (c.compileLambda s.claimed ⟨c.failsBefore j, hroom⟩ s.next_job) := by
      obtain ⟨job, hjob, hid⟩ := exists_job hlt
      rw [pwStep, if_pos hlaunch, claim, if_neg (by rw [hw]; decide), if_neg (by omega), hjob,
        Option.map_some, hid, if_neg (by rw [hnew]; decide)]
    refine ⟨_, .step hreach trivial hstep, ?_⟩
    have hcounter : s.claimed.next_job = j + 1 := by
      have hjobs := num_jobs_le c fastTuple nworkers
      unfold PG_INT32_MAX at hjobs
      rw [PwState.claimed, hnext]
      exact Nat.mod_eq_of_lt (by omega)
    have hrange : s.handed ++ [s.next_job] = List.range (j + 1) := by
      rw [hhanded, hnext, List.range_succ]
    unfold compileLambda
    rw [failsBefore_succ, hnext]
    rw [hnext] at hrange
    split
    · refine ⟨hcounter, hrange, hstopped, fun w i hi => ?_⟩
      rcases met_update hi with ⟨_, rfl⟩ | hi
      · exact Nat.lt_succ_self i
      · exact (hmet w i hi).trans (Nat.lt_succ_self j)
    · refine ⟨hcounter, hrange, fun w => ?_,
        fun w i hi => (hmet w i hi).trans (Nat.lt_succ_self j)⟩
      by_cases hwi : w = ⟨c.failsBefore j, hroom⟩
      · subst hwi
        simp [PwState.stop]
      · have hne : w.val ≠ c.failsBefore j := fun h => hwi (Fin.ext h)
        simp only [PwState.stop, PwState.claimed, update_of_ne hwi, hstopped]
        omega

theorem exists_handed_iff (hk : (k : Int) ≤ PG_INT32_MAX) :
    (∃ s : PwState k, Reachable (c.pwStep fastTuple nworkers) (fun _ _ => True) PwState.initial s ∧
        l ∈ s.handed) ↔
      c.leaderLaunches fastTuple nworkers ∧
        l < (c.pwCall fastTuple nworkers).num_jobs.toNat ∧ c.failsBefore l < k := by
  constructor
  · rintro ⟨s, hreach, hl⟩
    have hinv : PwInv c fastTuple nworkers s := by
      refine hreach.invariant pwInv_initial fun s w s' h _ hstep => ?_
      obtain ⟨hlaunch, hcases⟩ := pwStep_cases hstep
      exact pwInv_step hk hlaunch h hcases
    exact hinv.handed l hl
  · rintro ⟨hlaunch, hl, hfails⟩
    obtain ⟨s, hreach, _, hhanded, _⟩ := exists_run hlaunch hl hfails (l + 1) (Nat.le_refl _)
    exact ⟨s, hreach, by rw [hhanded]; exact List.mem_range.mpr (Nat.lt_succ_self l)⟩

end Workers

/-! ## The gate -/

theorem handed_iff (hfit : c.WorkersFit) {l : Nat} : c.Handed l ↔ c.Arrives l := by
  unfold Handed Arrives
  unfold WorkersFit at hfit
  split
  · exact mem_applyMtHanded_iff
  · next hop =>
    rw [hop] at hfit
    exact exists_handed_iff hfit

end FastCall

/-- The fast path is gated, for a call with given mother and lambdas, exactly if every
lambda has the flag that belongs to a body which gets to the compiler. -/
theorem fast_path_gated_iff (c : FastCall R) (hfit : c.WorkersFit) :
    c.Gated ↔ ∀ l, c.Arrives l → c.AllFlagged l :=
  forall_congr' fun _ => imp_congr_left (FastCall.handed_iff hfit)

/-! ## One lambda `lambda(y, z)(y * z)` -/

section Examples

/-- Nothing is folded. -/
def volatileRuntime : FoldRuntime ℚ where
  cat := { proisstrict := fun _ => true, provolatile := fun _ => .volatile,
           proargtypes := fun _ => [], prorettype := fun _ => 0 }
  call := fun _ _ => .ok none
  isTrue := fun _ => false

/-- `lambda(a: [x: t], b: [f: ((t, t) -> t)])(b.f(a.x, a.x))` over one row and one lambda
`lambda(y, z)(y * z)`. -/
def squareCall (t : Oid) (mul : FnOid) (operator : FastOperator) : FastCall ℚ where
  operator
  argtypes := [[.scalar t], [.func [.scalar t, .scalar t] (.scalar t)]]
  mother := .lfa ["b", "f"] t 2 1 [.field 1 1 t, .field 1 1 t]
  rows := 1
  tuples := [[some (.lambda (.ofLiteral
    { lambdakind := .scalar, argnames := ["y", "z"], rettype := t, rettypmod := -1,
      lambdatypmod := 0, isStrict := false,
      expr := .func mul [.param 0 t, .param 1 t] }))]]
  provider := true
  rt := volatileRuntime
  fuel := 1
  address := fun _ _ => 0

theorem fast_path_gated_iff_float8 : (squareCall FLOAT8OID .float8mul .applyMt).Gated := by
  have hfit : (squareCall FLOAT8OID .float8mul .applyMt).WorkersFit := trivial
  refine (fast_path_gated_iff _ hfit).mpr fun l _ tuple htuple pk hpk s hs => ?_
  cases l with
  | succ l => cases htuple
  | zero =>
    cases htuple
    cases List.mem_singleton.mp hpk
    cases hs
    rfl

/-- The lambda over `int4` gets to the compiler, which compiles it, without the flag. -/
def SquareOpen (operator : FastOperator) : Prop :=
  (squareCall INT4OID .int4mul operator).Handed 0 ∧
    (squareCall INT4OID .int4mul operator).compiles 0 = true ∧
    ¬ (squareCall INT4OID .int4mul operator).Gated

theorem squareOpen_of_arrives {operator : FastOperator}
    (hfit : (squareCall INT4OID .int4mul operator).WorkersFit)
    (harrives : (squareCall INT4OID .int4mul operator).Arrives 0) : SquareOpen operator := by
  have hhanded := (FastCall.handed_iff hfit).mpr harrives
  refine ⟨hhanded, rfl, ?_⟩
  intro hgated
  have hflag := hgated 0 hhanded _ rfl (2, 1) (List.mem_singleton.mpr rfl) _ rfl
  -- `int4 * int4` is not on the whitelist
  cases hflag

/-- A lambda without the flag is compiled for the fast path, by either operator and in
both fast modes. -/
theorem fast_path_open :
    SquareOpen .applyMt ∧ SquareOpen (.applyMtPw false 1 1) ∧ SquareOpen (.applyMtPw true 1 1) := by
  have hworkers : ((1 : Nat) : Int) ≤ PG_INT32_MAX := by decide
  refine ⟨squareOpen_of_arrives trivial ?_, squareOpen_of_arrives hworkers ?_,
    squareOpen_of_arrives hworkers ?_⟩
  · exact ⟨rfl, by decide, by decide, by decide⟩
  · exact ⟨by decide, by decide, by decide⟩
  · exact ⟨by decide, by decide, by decide⟩

end Examples

end HolLambdas.Jit
