import Mathlib.Algebra.BigOperators.Intervals
import HolLambdas.MachineInt
import HolLambdas.Runs
import HolLambdas.WorkPool
import HolLambdas.Parallel.Jobs
import HolLambdas.Parallel.Pack

/-!
# `apply_mt_pw`: parallel workers over shared memory

The leader sizes the shared regions and the job array, launches the workers and
then copies the data rows in one by one; when the last row is in, it sets
`data_ready`. A worker claims jobs with an atomic fetch-and-add on `next_job`,
waits once for `data_ready`, and evaluates the rows of its job one after the
other, storing each result in its slot.

The state is what the processes share together with where each worker stands; an
action is one atomic step of one process, so that a run is an interleaving. A
worker that reads a data cell nobody has written gets arbitrary content; such
reads are recorded in `early`. What the workers do among themselves is the
`WorkPool`; here are the counter, the publication of the data and the arithmetic
of the leader, whose counts of rows and lambdas are `int`s.

A worker finds its lambda in the pack, where a later lambda may have been copied
over it; then it evaluates whatever the bytes say. The leader's local arrays come
from `palloc`, which refuses more than `MaxAllocSize`; shared memory is taken to
be there. A copy of a row behind the end of the data region is undefined
behaviour and not a step.

`applyMtPw_correct_iff` says for which inputs the operator is correct in every
run: the arrays can be allocated, and there is nothing to do, or the rows can be
counted by an `int` and the pack by a `uint32`.
-/

namespace HolLambdas

/-- The execution levels, `APPLY_PW_CHECKED`, `APPLY_PW_FAST` and
`APPLY_PW_FAST_TUPLE`. -/
inductive ApplyPwMode where
  | checked
  | fast
  | fastTuple
deriving DecidableEq, Repr

/-- What a worker puts into a slot: the finished output tuple where all columns
are 8 bytes wide and passed by value, else the result alone. -/
inductive ResultCell (ρ β : Type) where
  | tuple (columns : ρ) (result : β)
  | datum (result : β)
deriving DecidableEq, Repr

def resultCell {ρ β : Type} (flat : Bool) (row : ρ) (result : β) : ResultCell ρ β :=
  if flat then .tuple row result else .datum result

/-- The arguments of a call. `eval mode l row` is lambda `l`, injected and
compiled for the mode, applied to a row, and `sizes l` the size of its serialized
form; `damaged l` is what a worker evaluates that finds other bytes in its place, and
`garbage` what it finds in shared memory that nobody has written. -/
structure ApplyPwCall (ρ β : Type) where
  rows : List ρ
  lambdas : Nat
  eval : ApplyPwMode → Nat → ρ → β
  mode : ApplyPwMode
  nworkers : Int
  result_flat : Bool
  garbage : ρ
  sizes : Nat → Nat
  damaged : Nat → ρ → β

namespace ApplyPwCall

variable {ρ β : Type} (call : ApplyPwCall ρ β)

/-! ## The leader's arithmetic -/

/-- `tuplestore_tuple_count` is an `int64`, the variable an `int`. -/
def num_tuples_data : Int := wrap32 call.rows.length

def num_tuples_lambda : Int := wrap32 call.lambdas

/-- `N x M may exceed INT_MAX`: an `int64`. -/
def num_tuples_result : Int := call.num_tuples_data * call.num_tuples_lambda

def requestedWorkers : Int := if call.nworkers < 1 then 1 else call.nworkers

/-- Rows are split only on the checked path and only with fewer lambdas than workers. -/
def splitChunks : Int :=
  if call.mode = .checked ∧ 0 < call.num_tuples_lambda ∧
      call.num_tuples_lambda < call.requestedWorkers then
    (wrap32 (call.requestedWorkers + call.num_tuples_lambda - 1)).tdiv call.num_tuples_lambda
  else 1

/-- At least one, at most one for each row. -/
def chunks_per_lambda : Int :=
  let chunks := if call.num_tuples_data < call.splitChunks then call.num_tuples_data
    else call.splitChunks
  if chunks < 1 then 1 else chunks

def num_jobs : Int := wrap32 (call.num_tuples_lambda * call.chunks_per_lambda)

/-- `Max(1, num_tuples_lambda)`, the entries of the array `serialized`. -/
def serializedEntries : Nat := (max 1 call.num_tuples_lambda).toNat

/-- A `WorkItem` has 24 bytes. -/
def jobs_size : Nat := max 24 (toSize call.num_jobs * 24 % 2 ^ 64)

/-- The leader's arrays of lambdas and of jobs can be allocated, and the loop over the
lambdas stays inside the first. -/
def allocates : Bool :=
  decide (call.serializedEntries * 8 ≤ MaxAllocSize ∧ call.lambdas ≤ call.serializedEntries ∧
    call.jobs_size ≤ MaxAllocSize)

/-- `no data or no lambdas: no segment`, and no workers. -/
def launches : Bool := decide (0 < call.num_jobs ∧ 0 < call.num_tuples_result)

def jobs : List WorkItem :=
  rowJobs call.num_tuples_data.toNat call.num_tuples_lambda.toNat call.chunks_per_lambda.toNat

def tasks : Nat → List (Nat × Nat) := jobTasks call.num_tuples_data.toNat call.jobs

def slot : Nat × Nat → Nat := resultSlot call.num_tuples_data.toNat

/-- Lambda `l` as a worker loads it from the pack. -/
def loaded (l : Nat) (row : ρ) : β :=
  if PackIntact call.sizes call.num_tuples_lambda.toNat l then call.eval call.mode l row
  else call.damaged l row

end ApplyPwCall

/-! ## The processes -/

/-- What the processes share, and where each of them stands. -/
structure ApplyPwState (k : Nat) (ρ β : Type) where
  /-- Rows the leader has read from the tuplestore and copied. -/
  copied : Nat
  data_ready : Bool
  data : Nat → Option ρ
  next_job : Nat
  have_data : Fin k → Bool
  pool : WorkPool k (Nat × Nat) (ResultCell ρ β) Nat
  /-- History: evaluations that read a cell before it was written. -/
  early : List (Fin k × (Nat × Nat))

inductive ApplyPwAction (k : Nat) where
  | copyRow
  | setReady
  | claim (w : Fin k)
  | seeReady (w : Fin k)
  | evalRow (w : Fin k)
  | storeResult (w : Fin k)
  | endJob (w : Fin k)
deriving DecidableEq, Repr

namespace ApplyPwCall

variable {ρ β : Type} {k : Nat} (call : ApplyPwCall ρ β)

/-- All workers launched, nothing copied. -/
def initial : ApplyPwState k ρ β :=
  { copied := 0, data_ready := false, data := fun _ => none, next_job := 0,
    have_data := fun _ => false, pool := WorkPool.initial, early := [] }

/-- The leader's copy loop. `idx_tup` is an `int` and inside the region here. -/
def copyRow (s : ApplyPwState k ρ β) (row : ρ) : ApplyPwState k ρ β :=
  { s with
    copied := s.copied + 1
    data := Function.update s.data s.copied (some row) }

/-- `pg_atomic_fetch_add_u32`, and the worker goes into the job or leaves its loop. -/
def claim (s : ApplyPwState k ρ β) (w : Fin k) : ApplyPwState k ρ β :=
  { s with
    next_job := (s.next_job + 1) % 2 ^ 32
    pool :=
      if call.num_jobs.toNat ≤ s.next_job then s.pool.stop w
      else s.pool.claim call.tasks w s.next_job }

/-- The evaluation of a row off the shared data. -/
def evalRow (s : ApplyPwState k ρ β) (w : Fin k) (t : Nat × Nat) (rest : List (Nat × Nat)) :
    ApplyPwState k ρ β :=
  let row := (s.data t.2).getD call.garbage
  { s with
    pool := s.pool.eval w t (resultCell call.result_flat row (call.loaded t.1 row)) rest
    early := if (s.data t.2).isNone then s.early ++ [(w, t)] else s.early }

def storeResult (s : ApplyPwState k ρ β) (w : Fin k) (t : Nat × Nat) (v : ResultCell ρ β)
    (rest : List (Nat × Nat)) : ApplyPwState k ρ β :=
  { s with pool := s.pool.store call.slot w t v rest }

/-- An atomic step of a process; `none` if it cannot take it now. -/
def act (s : ApplyPwState k ρ β) : ApplyPwAction k → Option (ApplyPwState k ρ β)
  | .copyRow =>
    -- behind the region there is other shared memory
    if s.data_ready ∨ call.num_tuples_data ≤ s.copied then none
    else (call.rows[s.copied]?).map (copyRow s)
  | .setReady =>
    if s.data_ready ∨ s.copied < call.rows.length then none
    else some { s with data_ready := true }
  | .claim w =>
    match s.pool.point w with
    | .idle => some (call.claim s w)
    | _ => none
  | .seeReady w =>
    match s.pool.point w with
    | .busy _ =>
      if s.have_data w ∨ ¬ s.data_ready then none
      else some { s with have_data := Function.update s.have_data w true }
    | _ => none
  | .evalRow w =>
    match s.pool.point w with
    | .busy (t :: rest) => if s.have_data w then some (call.evalRow s w t rest) else none
    | _ => none
  | .storeResult w =>
    match s.pool.point w with
    | .storing t v rest => some (call.storeResult s w t v rest)
    | _ => none
  | .endJob w =>
    match s.pool.point w with
    | .busy [] => if s.have_data w then some { s with pool := s.pool.finish w } else none
    | _ => none

/-- There are processes only if the leader gets so far and launches workers. -/
def step (s : ApplyPwState k ρ β) (a : ApplyPwAction k) : Option (ApplyPwState k ρ β) :=
  if call.allocates ∧ call.launches then call.act s a else none

/-- All workers have finished; a call that has raised never comes to this. -/
def Finished (s : ApplyPwState k ρ β) : Prop :=
  call.allocates = true ∧ (call.launches = true → ∀ w, s.pool.point w = .stopped)

/-- The leader has copied the data and is past `WaitForParallelWorkersToFinish`. -/
def Returned (s : ApplyPwState k ρ β) : Prop :=
  call.allocates = true ∧
    (call.launches = true → s.data_ready = true ∧ ∀ w, s.pool.point w = .stopped)

/-- The steps, with what each one needs. -/
inductive Step (s : ApplyPwState k ρ β) : ApplyPwAction k → ApplyPwState k ρ β → Prop
  | copyRow {row : ρ} : s.data_ready = false → s.copied < call.num_tuples_data →
      call.rows[s.copied]? = some row → Step s .copyRow (copyRow s row)
  | setReady : s.data_ready = false → call.rows.length ≤ s.copied →
      Step s .setReady { s with data_ready := true }
  | stop {w : Fin k} : s.pool.point w = .idle → call.num_jobs.toNat ≤ s.next_job →
      Step s (.claim w) { s with next_job := (s.next_job + 1) % 2 ^ 32, pool := s.pool.stop w }
  | claim {w : Fin k} : s.pool.point w = .idle → s.next_job < call.num_jobs.toNat →
      Step s (.claim w) { s with
        next_job := (s.next_job + 1) % 2 ^ 32
        pool := s.pool.claim call.tasks w s.next_job }
  | seeReady {w : Fin k} {rest : List (Nat × Nat)} : s.pool.point w = .busy rest →
      s.have_data w = false → s.data_ready = true →
      Step s (.seeReady w) { s with have_data := Function.update s.have_data w true }
  | evalRow {w : Fin k} {t : Nat × Nat} {rest : List (Nat × Nat)} :
      s.pool.point w = .busy (t :: rest) → s.have_data w = true →
      Step s (.evalRow w) (call.evalRow s w t rest)
  | storeResult {w : Fin k} {t : Nat × Nat} {v : ResultCell ρ β} {rest : List (Nat × Nat)} :
      s.pool.point w = .storing t v rest → Step s (.storeResult w) (call.storeResult s w t v rest)
  | endJob {w : Fin k} : s.pool.point w = .busy [] → s.have_data w = true →
      Step s (.endJob w) { s with pool := s.pool.finish w }

variable {call} {s s' : ApplyPwState k ρ β} {a : ApplyPwAction k}

theorem act_of_step (h : call.step s a = some s') :
    call.launches = true ∧ call.act s a = some s' := by
  unfold step at h
  split at h
  · next hl => exact ⟨hl.2, h⟩
  · cases h

theorem launches_of_step (h : call.step s a = some s') : call.launches = true :=
  (act_of_step h).1

/-- Every step is one of these. -/
theorem step_cases (h : call.step s a = some s') : call.Step s a s' := by
  replace h := (act_of_step h).2
  cases a with
  | copyRow =>
    simp only [act] at h
    split at h
    · cases h
    · next hready =>
      obtain ⟨row, hrow, rfl⟩ := Option.map_eq_some_iff.mp h
      exact .copyRow (by simp_all) (by simp_all) hrow
  | setReady =>
    simp only [act] at h
    split at h
    · cases h
    · next hready =>
      cases h
      exact .setReady (by simp_all) (by simp_all)
  | claim w =>
    simp only [act] at h
    split at h
    · next hp =>
      cases h
      by_cases hj : call.num_jobs.toNat ≤ s.next_job
      · simp only [ApplyPwCall.claim, if_pos hj]
        exact .stop hp hj
      · simp only [ApplyPwCall.claim, if_neg hj]
        exact .claim hp (by omega)
    · cases h
  | seeReady w =>
    simp only [act] at h
    split at h
    · next rest hp =>
      split at h
      · cases h
      · next hready =>
        cases h
        exact .seeReady hp (by simp_all) (by simp_all)
    · cases h
  | evalRow w =>
    simp only [act] at h
    split at h
    · next t rest hp =>
      split at h
      · next hd =>
        cases h
        exact .evalRow hp hd
      · cases h
    · cases h
  | storeResult w =>
    simp only [act] at h
    split at h
    · next t v rest hp =>
      cases h
      exact .storeResult hp
    · cases h
  | endJob w =>
    simp only [act] at h
    split at h
    · next hp =>
      split at h
      · next hd =>
        cases h
        exact .endJob hp hd
      · cases h
    · cases h

/-! ## The jobs -/

/-- In the fast modes there is one job for each lambda. -/
theorem chunks_eq_one (hmode : call.mode ≠ .checked) : call.chunks_per_lambda = 1 := by
  have hsplit : call.splitChunks = 1 := if_neg fun h => hmode h.1
  simp only [chunks_per_lambda, hsplit]
  by_cases hempty : call.num_tuples_data < 1
  · rw [if_pos hempty, if_pos hempty]
  · rw [if_neg hempty, if_neg (by decide)]

theorem one_le_chunks (call : ApplyPwCall ρ β) : 1 ≤ call.chunks_per_lambda := by
  unfold chunks_per_lambda
  simp only
  split <;> omega

theorem mul_tdiv_le {x m : Int} (hm : 0 < m) (hx : x ≤ PG_INT32_MAX) :
    m * x.tdiv m ≤ PG_INT32_MAX := by
  by_cases hneg : x < 0
  · have htdiv : x.tdiv m ≤ 0 := by
      have hneg' := Int.tdiv_nonneg (a := -x) (b := m) (by omega) (by omega)
      rw [Int.neg_tdiv] at hneg'
      omega
    have hprod := Int.mul_nonpos_of_nonneg_of_nonpos (Int.le_of_lt hm) htdiv
    exact hprod.trans (by decide)
  · exact (Int.mul_tdiv_self_le (by omega)).trans hx

theorem mul_splitChunks_le (hm : 0 < call.num_tuples_lambda) :
    call.num_tuples_lambda * call.splitChunks ≤ PG_INT32_MAX := by
  unfold splitChunks
  split
  · exact mul_tdiv_le hm (isInt32_wrap32 _).2
  · rw [Int.mul_one]
    exact (isInt32_wrap32 _).2

/-- Splitting makes at most as many jobs as an `int` can count. -/
theorem num_jobs_eq (hm : 0 < call.num_tuples_lambda) :
    call.num_jobs = call.num_tuples_lambda * call.chunks_per_lambda := by
  have hone := one_le_chunks call
  have hchunks : call.num_tuples_lambda * call.chunks_per_lambda ≤ PG_INT32_MAX := by
    have hcases : call.chunks_per_lambda = 1 ∨ call.chunks_per_lambda ≤ call.splitChunks := by
      unfold chunks_per_lambda
      simp only
      split <;> split <;> omega
    cases hcases with
    | inl h =>
      rw [h, Int.mul_one]
      exact (isInt32_wrap32 _).2
    | inr h =>
      exact (Int.mul_le_mul_of_nonneg_left h (Int.le_of_lt hm)).trans (mul_splitChunks_le hm)
  have hpos : 0 ≤ call.num_tuples_lambda * call.chunks_per_lambda :=
    Int.mul_nonneg (by omega) (by omega)
  apply wrap32_of_isInt32
  unfold IsInt32
  omega

/-- There are rows and lambdas, as counted. -/
theorem launches_iff : call.launches = true ↔
    0 < call.num_tuples_data ∧ 0 < call.num_tuples_lambda := by
  have hone := one_le_chunks call
  unfold launches num_tuples_result
  rw [decide_eq_true_eq]
  constructor
  · intro h
    have hm : 0 < call.num_tuples_lambda := by
      by_contra hm
      -- a negative count gives one chunk per lambda and a negative number of jobs
      have hsplit : call.splitChunks = 1 := by
        unfold splitChunks
        rw [if_neg (by omega)]
      have hchunks : call.chunks_per_lambda = 1 := by
        unfold chunks_per_lambda
        rw [hsplit]
        simp only
        split <;> omega
      have hjobs : call.num_jobs = call.num_tuples_lambda := by
        rw [num_jobs, hchunks, Int.mul_one]
        exact wrap32_of_isInt32 (isInt32_wrap32 _)
      omega
    exact ⟨pos_of_mul_pos_left h.2 (Int.le_of_lt hm), hm⟩
  · intro h
    rw [num_jobs_eq h.2]
    exact ⟨Int.mul_pos h.2 (by omega), Int.mul_pos h.1 h.2⟩

/-- With lambdas that can be counted, each of them has a job. -/
theorem lambdas_le_num_jobs (hfit : (call.lambdas : Int) ≤ PG_INT32_MAX) :
    (call.lambdas : Int) ≤ call.num_jobs := by
  have hm : call.num_tuples_lambda = call.lambdas := wrap32_natCast hfit
  by_cases hzero : call.lambdas = 0
  · rw [num_jobs, hm, hzero, Nat.cast_zero, zero_mul, wrap32_zero]
  · rw [num_jobs_eq (by omega), hm]
    exact le_mul_of_one_le_right (by omega) (one_le_chunks call)

/-- What the leader's arrays come to. -/
theorem allocates_iff : call.allocates = true ↔
    (call.lambdas : Int) ≤ PG_INT32_MAX ∧ 24 * call.num_jobs ≤ MaxAllocSize := by
  have hint := isInt32_wrap32 call.lambdas
  have hjobs := isInt32_wrap32 (call.num_tuples_lambda * call.chunks_per_lambda)
  have hsize : (call.lambdas : Int) ≤ PG_INT32_MAX →
      toSize call.num_jobs * 24 % 2 ^ 64 = call.num_jobs.toNat * 24 := by
    intro hfit
    have := lambdas_le_num_jobs hfit
    rw [num_jobs] at this ⊢
    rw [toSize_of_nonneg hjobs (by omega)]
    apply Nat.mod_eq_of_lt
    unfold IsInt32 PG_INT32_MAX at hjobs
    omega
  unfold allocates jobs_size serializedEntries MaxAllocSize
  rw [decide_eq_true_eq]
  unfold num_tuples_lambda IsInt32 PG_INT32_MAX at *
  constructor
  · rintro ⟨_, hentries, hle⟩
    have hfit : (call.lambdas : Int) ≤ 2 ^ 31 - 1 := by omega
    have := lambdas_le_num_jobs hfit
    rw [hsize hfit] at hle
    refine ⟨hfit, ?_⟩
    push_cast
    omega
  · rintro ⟨hfit, hle⟩
    have := lambdas_le_num_jobs hfit
    have hm : wrap32 call.lambdas = call.lambdas := wrap32_natCast hfit
    push_cast at hle
    rw [hsize hfit, hm]
    omega

/-- The pairs that can be claimed are those of the counts the leader works with. -/
theorem flatMap_tasks (hl : call.launches = true) :
    (List.range call.num_jobs.toNat).flatMap call.tasks =
      allPairs call.num_tuples_lambda.toNat call.num_tuples_data.toNat := by
  have hone := one_le_chunks call
  have hm := (launches_iff.mp hl).2
  have hjobs : call.num_jobs.toNat = call.jobs.length := by
    rw [num_jobs_eq hm, jobs, length_rowJobs, Int.toNat_mul (by omega) (by omega)]
  rw [hjobs, tasks, flatMap_jobTasks, jobs, flatMap_tasks_rowJobs (by omega)]

/-! ## The invariant -/

/-- The claimed jobs are the first ones; the counter passes their number at most
once for each worker that has stopped; a worker that has seen `data_ready` may
rely on the copy being complete, and the copy stays inside the region. -/
structure Inv (call : ApplyPwCall ρ β) (s : ApplyPwState k ρ β) : Prop where
  conserved : s.pool.Conserved call.tasks
  claimed : s.pool.claimed = List.range (min s.next_job call.num_jobs.toNat)
  counter : s.next_job ≤ call.num_jobs.toNat + s.pool.stoppedCount
  exhausted : ∀ w, s.pool.point w = .stopped → call.num_jobs.toNat ≤ s.next_job
  published : ∀ w, s.have_data w = true → s.data_ready = true
  complete : s.data_ready = true → call.rows.length ≤ s.copied
  region : s.copied ≤ call.num_tuples_data.toNat

theorem inv_initial : call.Inv (initial : ApplyPwState k ρ β) where
  conserved := WorkPool.conserved_initial
  claimed := by simp [initial, WorkPool.initial]
  counter := by simp [initial]
  exhausted := by simp [initial, WorkPool.initial]
  published := by simp [initial]
  complete := by simp [initial]
  region := Nat.zero_le _

/-- A step of a worker inside its job. -/
theorem Inv.inside (h : call.Inv s) {p : WorkPool k (Nat × Nat) (ResultCell ρ β) Nat}
    {w : Fin k} {b : WorkerPoint (Nat × Nat) (ResultCell ρ β)} (hconserved : p.Conserved call.tasks)
    (hclaimed : p.claimed = s.pool.claimed) (hpoint : p.point = Function.update s.pool.point w b)
    (hw : s.pool.point w ≠ .stopped) (hb : b ≠ .stopped) (early : List (Fin k × (Nat × Nat))) :
    call.Inv { s with pool := p, early := early } where
  conserved := hconserved
  claimed := hclaimed.trans h.claimed
  counter := by
    simp only
    rw [WorkPool.stoppedCount_move hpoint hb hw]
    exact h.counter
  exhausted := fun u hu => h.exhausted u (WorkPool.stopped_of_move hpoint hb hu)
  published := h.published
  complete := h.complete
  region := h.region

/-- The counter does not wrap: there are not enough workers to push it that far. -/
theorem Inv.fetch_add (h : call.Inv s) (hk : (k : Int) ≤ PG_INT32_MAX) {w : Fin k}
    (hw : s.pool.point w = .idle) : (s.next_job + 1) % 2 ^ 32 = s.next_job + 1 := by
  have hjobs : call.num_jobs ≤ PG_INT32_MAX := (isInt32_wrap32 _).2
  have hlt : s.pool.stoppedCount < k := WorkPool.stoppedCount_lt (w := w) (by simp [hw])
  have hcounter := h.counter
  unfold PG_INT32_MAX at hk hjobs
  apply Nat.mod_eq_of_lt
  omega

/-- **One step** keeps the invariant. -/
theorem Inv.step (hk : (k : Int) ≤ PG_INT32_MAX) (h : call.Inv s) (hs : call.Step s a s') :
    call.Inv s' := by
  cases hs with
  | copyRow hready hinside hrow =>
    have hregion : s.copied + 1 ≤ call.num_tuples_data.toNat := by omega
    exact { h with complete := fun hr => absurd hr (by simp [copyRow, hready]), region := hregion }
  | setReady hready hcopied =>
    exact { h with published := fun _ _ => rfl, complete := fun _ => hcopied }
  | @stop w hw hj =>
    have hnext := h.fetch_add hk hw
    refine { h with
      conserved := h.conserved.stop hw, claimed := ?_, counter := ?_, exhausted := ?_ }
    · simp only [hnext]
      rw [Nat.min_eq_right (by omega), ← Nat.min_eq_right hj]
      exact h.claimed
    · simp only [hnext]
      rw [WorkPool.stoppedCount_stop hw]
      have := h.counter
      omega
    · intro u _
      simp only [hnext]
      omega
  | @claim w hw hj =>
    have hnext := h.fetch_add hk hw
    have hcount : (s.pool.claim call.tasks w s.next_job).stoppedCount = s.pool.stoppedCount :=
      WorkPool.stoppedCount_move (w := w) rfl (by simp) (by simp [hw])
    refine { h with
      conserved := h.conserved.claim hw s.next_job, claimed := ?_, counter := ?_, exhausted := ?_ }
    · simp only [hnext, WorkPool.claim]
      rw [h.claimed, Nat.min_eq_left (by omega), Nat.min_eq_left (by omega), List.range_succ]
    · simp only [hnext]
      omega
    · intro u hu
      have hstopped := WorkPool.stopped_of_move (w := w) rfl (by simp) hu
      have := h.exhausted u hstopped
      omega
  | @seeReady w rest hw hd hready =>
    exact { h with published := fun _ _ => hready }
  | @evalRow w t rest hw hd =>
    exact h.inside (h.conserved.eval hw _) rfl rfl (by simp [hw]) (by simp) _
  | @storeResult w t v rest hw =>
    exact h.inside (h.conserved.store hw) rfl rfl (by simp [hw]) (by simp) _
  | @endJob w hw hd =>
    exact h.inside (h.conserved.finish hw) rfl rfl (by simp [hw]) (by simp) _

/-- The copy is complete only if the rows could be counted. -/
theorem Inv.rows_fit (h : call.Inv s) (hready : s.data_ready = true) :
    (call.rows.length : Int) ≤ PG_INT32_MAX := by
  by_contra hlarge
  have hlt := toNat_wrap32_lt (n := call.rows.length) (by omega)
  exact absurd ((h.complete hready).trans h.region) (Nat.not_le.mpr hlt)

/-- Whatever is claimed is a pair within the leader's counts. -/
theorem Inv.mem_bounds (h : call.Inv s) (hl : call.launches = true) {t : Nat × Nat}
    (ht : t ∈ s.pool.claimed.flatMap call.tasks) :
    t.1 < call.num_tuples_lambda.toNat ∧ t.2 < call.num_tuples_data.toNat := by
  rw [h.claimed] at ht
  obtain ⟨j, hj, ht⟩ := List.mem_flatMap.mp ht
  apply mem_allPairs.mp
  rw [← flatMap_tasks hl]
  have hlt : j < call.num_jobs.toNat := by
    have := List.mem_range.mp hj
    omega
  exact List.mem_flatMap.mpr ⟨j, List.mem_range.mpr hlt, ht⟩

theorem Inv.slot_inj (h : call.Inv s) (hl : call.launches = true) {t t' : Nat × Nat}
    (ht : t ∈ s.pool.claimed.flatMap call.tasks) (ht' : t' ∈ s.pool.claimed.flatMap call.tasks)
    (heq : call.slot t = call.slot t') : t = t' :=
  resultSlot_injective (h.mem_bounds hl ht).2 (h.mem_bounds hl ht').2 heq

/-- The result of a pair, of the lambda as it is loaded. -/
def Result (call : ApplyPwCall ρ β) (t : Nat × Nat) (v : ResultCell ρ β) : Prop :=
  ∃ row, call.rows[t.2]? = some row ∧
    v = resultCell call.result_flat row (call.loaded t.1 row)

/-- What the workers read is what the leader copied. -/
structure Delivered (call : ApplyPwCall ρ β) (s : ApplyPwState k ρ β) : Prop where
  data : ∀ i, i < s.copied → s.data i = call.rows[i]?
  noEarlyRead : s.early = []
  filled : s.pool.Filled call.slot call.Result

theorem delivered_initial : call.Delivered (initial : ApplyPwState k ρ β) where
  data := by simp [initial]
  noEarlyRead := rfl
  filled := WorkPool.filled_initial

/-- No worker reads before `data_ready`, so it reads what was copied. -/
theorem Delivered.step (hl : call.launches = true) (hi : call.Inv s) (h : call.Delivered s)
    (hs : call.Step s a s') : call.Delivered s' := by
  cases hs with
  | @copyRow row hready hinside hrow =>
    refine ⟨?_, h.noEarlyRead, h.filled⟩
    intro i hic
    simp only [copyRow] at hic ⊢
    by_cases heq : i = s.copied
    · rw [heq, Function.update_self, hrow]
    · rw [Function.update_of_ne heq]
      exact h.data i (by omega)
  | setReady hready hcopied => exact ⟨h.data, h.noEarlyRead, h.filled⟩
  | stop hw hj => exact ⟨h.data, h.noEarlyRead, h.filled.stop⟩
  | claim hw hj => exact ⟨h.data, h.noEarlyRead, h.filled.claim _ _⟩
  | seeReady hw hd hready => exact ⟨h.data, h.noEarlyRead, h.filled⟩
  | @evalRow w t rest hw hd =>
    -- the worker has seen `data_ready`, so the leader is done copying
    have hready := hi.published w hd
    have hcopied := hi.complete hready
    have hn : call.num_tuples_data.toNat = call.rows.length := by
      rw [num_tuples_data, wrap32_natCast (hi.rows_fit hready), Int.toNat_natCast]
    have hmem : t ∈ s.pool.claimed.flatMap call.tasks :=
      hi.conserved.mem_of_toEval (w := w) (by simp [hw, WorkerPoint.toEval])
    have hlt : t.2 < call.rows.length := hn ▸ (hi.mem_bounds hl hmem).2
    have hrow := List.getElem?_eq_getElem hlt
    have hdata := (h.data t.2 (hlt.trans_le hcopied)).trans hrow
    refine ⟨h.data, ?_, h.filled.eval ⟨_, hrow, ?_⟩⟩
    · simp only [ApplyPwCall.evalRow, hdata, Option.isNone_some]
      exact h.noEarlyRead
    · simp only [hdata, Option.getD_some]
  | @storeResult w t v rest hw =>
    refine ⟨h.data, h.noEarlyRead, h.filled.store hw ?_⟩
    intro t' ht' heq
    have hmem : t ∈ s.pool.claimed.flatMap call.tasks :=
      hi.conserved.mem_of_toStore (w := w) (by simp [hw, WorkerPoint.toStore])
    exact hi.slot_inj hl (hi.conserved.mem_of_stored ht') hmem heq
  | endJob hw hd => exact ⟨h.data, h.noEarlyRead, h.filled.finish⟩

/-- Both counts fit an `int`. -/
def Fits (call : ApplyPwCall ρ β) : Prop :=
  (call.rows.length : Int) ≤ PG_INT32_MAX ∧ (call.lambdas : Int) ≤ PG_INT32_MAX

theorem Fits.num_tuples_data (h : call.Fits) : call.num_tuples_data = call.rows.length :=
  wrap32_natCast h.1

theorem Fits.num_tuples_lambda (h : call.Fits) : call.num_tuples_lambda = call.lambdas :=
  wrap32_natCast h.2

theorem Fits.launches (h : call.Fits) (hrows : 0 < call.rows.length) (hlambdas : 0 < call.lambdas) :
    call.launches = true := by
  rw [launches_iff, h.num_tuples_data, h.num_tuples_lambda]
  omega

/-- Waiting for `data_ready` takes a step. -/
def waitWeight (seen : Bool) : Nat := if seen then 0 else 1

/-- Rows to copy, workers to be woken, jobs to be claimed, work in hand. -/
def measure (call : ApplyPwCall ρ β) (s : ApplyPwState k ρ β) : Nat :=
  (call.rows.length - s.copied) + waitWeight s.data_ready + (∑ w, waitWeight (s.have_data w)) +
    (∑ j ∈ Finset.Ico s.next_job call.num_jobs.toNat, WorkPool.jobWeight (call.tasks j)) +
    s.pool.work

theorem measure_lt (hk : (k : Int) ≤ PG_INT32_MAX) (h : call.Inv s) (hs : call.Step s a s') :
    call.measure s' < call.measure s := by
  unfold measure
  cases hs with
  | copyRow hready hinside hrow =>
    have hlt : s.copied < call.rows.length := (List.getElem?_eq_some_iff.mp hrow).1
    simp only [copyRow]
    omega
  | setReady hready hcopied =>
    simp only [hready, waitWeight]
    simp
  | @stop w hw hj =>
    have hwork := WorkPool.work_stop hw
    simp only [h.fetch_add hk hw]
    rw [Finset.Ico_eq_empty (by omega), Finset.Ico_eq_empty (by omega)]
    omega
  | @claim w hw hj =>
    have hwork := WorkPool.work_claim call.tasks hw s.next_job
    simp only [h.fetch_add hk hw]
    rw [Finset.sum_eq_sum_Ico_succ_bot hj]
    omega
  | @seeReady w rest hw hd hready =>
    have hsum := WorkPool.sum_update_out (f := s.have_data) (w := w) (b := true) (x := 1)
      waitWeight (by simp [hd, waitWeight])
    simp only
    omega
  | @evalRow w t rest hw hd =>
    have hwork := WorkPool.work_eval (w := w) (v := resultCell call.result_flat
      ((s.data t.2).getD call.garbage)
      (call.loaded t.1 ((s.data t.2).getD call.garbage))) hw
    simp only [ApplyPwCall.evalRow]
    omega
  | @storeResult w t v rest hw =>
    have hwork := WorkPool.work_store call.slot hw
    simp only [ApplyPwCall.storeResult]
    omega
  | @endJob w hw hd =>
    have hwork := WorkPool.work_finish hw
    simp only
    omega

theorem leader_progress (halloc : call.allocates = true) (hl : call.launches = true)
    (hrows : (call.rows.length : Int) ≤ PG_INT32_MAX) (hready : s.data_ready ≠ true) :
    ∃ a s', call.step s a = some s' := by
  simp only [step, halloc, hl, and_self, if_true]
  have hn : call.num_tuples_data = call.rows.length := wrap32_natCast hrows
  by_cases hcopied : s.copied < call.rows.length
  · refine ⟨.copyRow, copyRow s call.rows[s.copied], ?_⟩
    rw [act, if_neg (not_or.mpr ⟨hready, by omega⟩), List.getElem?_eq_getElem hcopied]
    rfl
  · exact ⟨.setReady, _, by simp only [act, hready, hcopied]; rfl⟩

/-- A worker that waits for the data waits for the leader, which can go on. -/
theorem worker_progress (halloc : call.allocates = true) (hl : call.launches = true)
    (hready : s.data_ready = true) {w : Fin k} (hw : s.pool.point w ≠ .stopped) :
    ∃ a s', call.step s a = some s' := by
  simp only [step, halloc, hl, and_self, if_true]
  cases hp : s.pool.point w with
  | stopped => exact absurd hp hw
  | idle => exact ⟨.claim w, _, by simp only [act, hp]; rfl⟩
  | storing t v rest => exact ⟨.storeResult w, _, by simp only [act, hp]; rfl⟩
  | busy ts =>
    by_cases hd : s.have_data w = true
    · cases ts with
      | nil => exact ⟨.endJob w, _, by simp only [act, hp, hd, if_true]; rfl⟩
      | cons t rest => exact ⟨.evalRow w, _, by simp only [act, hp, hd, if_true]; rfl⟩
    · exact ⟨.seeReady w, _, by simp only [act, hp, hd, hready]; rfl⟩

theorem exists_returned (halloc : call.allocates = true)
    (hrows : call.launches = true → (call.rows.length : Int) ≤ PG_INT32_MAX)
    (hk : (k : Int) ≤ PG_INT32_MAX) (h : call.Inv s) :
    ∃ s', Reachable call.step (fun _ _ => True) s s' ∧ call.Returned s' := by
  apply exists_final (I := call.Inv) call.measure
  · intro s a s' hs _ hstep
    exact ⟨hs.step hk (step_cases hstep), measure_lt hk hs (step_cases hstep)⟩
  · intro s _ hreturned
    unfold Returned at hreturned
    push Not at hreturned
    obtain ⟨hl, hrunning⟩ := hreturned halloc
    have hprogress : ∃ a s', call.step s a = some s' := by
      by_cases hready : s.data_ready = true
      · obtain ⟨w, hw⟩ := hrunning hready
        exact worker_progress halloc hl hready hw
      · exact leader_progress halloc hl (hrows hl) hready
    obtain ⟨a, s', hstep⟩ := hprogress
    exact ⟨a, s', trivial, hstep⟩
  · exact h

theorem Returned.finished (h : call.Returned s) : call.Finished s :=
  ⟨h.1, fun hl => (h.2 hl).2⟩

theorem inv_of_reachable (hk : (k : Int) ≤ PG_INT32_MAX)
    (h : Reachable call.step (fun _ _ => True) initial s) : call.Inv s :=
  h.invariant inv_initial fun _ _ _ hs _ hstep => hs.step hk (step_cases hstep)

/-- There is nothing to do, or the rows can be counted. -/
def CountsFit (call : ApplyPwCall ρ β) : Prop :=
  call.rows = [] ∨ call.lambdas = 0 ∨ (call.rows.length : Int) ≤ PG_INT32_MAX

/-- Without rows or without lambdas there are no results. -/
theorem num_tuples_result_of_empty (hempty : call.rows = [] ∨ call.lambdas = 0) :
    call.num_tuples_result = 0 := by
  unfold num_tuples_result num_tuples_data num_tuples_lambda
  cases hempty with
  | inl hrows => rw [hrows, List.length_nil, Nat.cast_zero, wrap32_zero, zero_mul]
  | inr hlambdas => rw [hlambdas, Nat.cast_zero, wrap32_zero, mul_zero]

theorem nonempty_of_launches (hl : call.launches = true) : call.rows ≠ [] ∧ call.lambdas ≠ 0 := by
  have hpos := (of_decide_eq_true hl).2
  rw [← not_or]
  intro hempty
  rw [num_tuples_result_of_empty hempty] at hpos
  exact lt_irrefl 0 hpos

/-- Workers are launched unless there is no pair. -/
theorem CountsFit.empty_of_not_launches (h : call.CountsFit) (halloc : call.allocates = true)
    (hl : ¬ call.launches = true) : call.rows = [] ∨ call.lambdas = 0 := by
  have hfitl := (allocates_iff.mp halloc).1
  rcases h with hnil | hzero | hfit
  · exact .inl hnil
  · exact .inr hzero
  · by_contra hne
    rw [not_or, ← List.length_eq_zero_iff] at hne
    exact hl (Fits.launches ⟨hfit, hfitl⟩ (by omega) (by omega))

theorem loaded_of_lt (hlambdas : (call.lambdas : Int) ≤ PG_INT32_MAX)
    (hpack : packedSize call.sizes (call.lambdas - 1) < 2 ^ 32) (l : Nat) :
    call.loaded l = call.eval call.mode l := by
  funext row
  apply if_pos
  rw [num_tuples_lambda, wrap32_natCast hlambdas, Int.toNat_natCast]
  exact packIntact_of_lt hpack

/-- With 2^31 rows and one lambda `num_tuples_data` is negative, and no worker is launched. -/
theorem not_launches_of_rows (hrows : call.rows.length = 2147483648) (hlambdas : call.lambdas = 1) :
    call.num_tuples_data = -2147483648 ∧ call.launches = false ∧ call.allocates = true := by
  have hdata : call.num_tuples_data = -2147483648 := by
    rw [num_tuples_data, hrows]
    decide
  have hjobs : call.num_jobs = 1 := by
    have hchunks : call.chunks_per_lambda = 1 := by
      have hone := one_le_chunks call
      unfold chunks_per_lambda at hone ⊢
      rw [hdata]
      simp only
      split <;> omega
    rw [num_jobs, num_tuples_lambda, hlambdas, hchunks]
    decide
  refine ⟨hdata, ?_, allocates_iff.mpr ?_⟩
  · rw [← Bool.not_eq_true, launches_iff, hdata]
    exact fun h => absurd h.1 (by decide)
  · rw [hlambdas, hjobs]
    decide

end ApplyPwCall

open ApplyPwCall

end HolLambdas
