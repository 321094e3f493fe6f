import HolLambdas.Parallel.Output

/-!
# `apply_mt`: threads over a job queue

The leader copies the data rows into one flat buffer, starts a pool of threads
and submits, lambda by lambda, one job for each thread; the pool's threads take
jobs from a queue until it is empty and shut down. The results go into a zeroed
buffer of `N * M` cells, from which the output rows are built after the join.

`apply_mt_pw` in mode 1 is to give the same output for the same arguments.
`applyMt_agrees_iff` says when it does: `apply_mt` makes as many jobs per lambda
as it is told to use threads, and unlike the pool and unlike `apply_mt_pw` it
does not raise a count below one, so that with such a count nothing is evaluated
and every result is the zero the buffer was filled with. It also takes its buffers
from `palloc`, which gives out less than 1 GiB at once.

The creation of threads is taken to succeed.
-/

namespace HolLambdas

open ApplyPwCall

/-! ## The flat buffer -/

section Buffer

variable {β : Type} {row : List β}

/-- `memcpy` of a row of cells to an address. -/
def memcpy (mem : Int → β) (base : Int) (row : List β) : Int → β :=
  fun a => if base ≤ a then (row[(a - base).toNat]?).getD (mem a) else mem a

/-- The copy loop. `idx_tup` and its product with the number of columns are `int`s. -/
def copyRows (cols : Nat) : Nat → List (List β) → (Int → β) → (Int → β)
  | _, [], mem => mem
  | idx, row :: rows, mem =>
    copyRows cols (idx + 1) rows (memcpy mem (wrap32 (wrap32 idx * cols)) row)

/-- The cells of a row. -/
def rowAt (mem : Int → β) (base : Int) (cols : Nat) : List β :=
  (List.range cols).map fun c => mem (base + (c : Nat))

theorem wrap32_wrap32_mul (x y : Int) : wrap32 (wrap32 x * y) = wrap32 (x * y) := by
  have hmod : ∃ q : Int, wrap32 x = x + 2 ^ 32 * q := by
    refine ⟨-((x + 2 ^ 31) / 2 ^ 32), ?_⟩
    unfold wrap32
    omega
  obtain ⟨q, hq⟩ := hmod
  have hprod : wrap32 x * y + 2 ^ 31 = x * y + 2 ^ 31 + 2 ^ 32 * (q * y) := by
    rw [hq]
    ring
  unfold wrap32 at hprod ⊢
  rw [hprod, Int.add_mul_emod_self_left]

theorem rowBase_eq {idx cols : Nat} (h : ((idx * cols : Nat) : Int) ≤ PG_INT32_MAX) :
    wrap32 (wrap32 idx * cols) = ((idx * cols : Nat) : Int) := by
  rw [wrap32_wrap32_mul, ← Nat.cast_mul, wrap32_natCast h]

end Buffer

/-! ## The call -/

/-- The arguments of a call. `eval l row` is lambda `l`, injected and compiled,
applied to a row; `zero` is the `Datum` of zero bits, `garbage` what freshly
allocated memory holds. -/
structure ApplyMtCall (β : Type) where
  cols : Nat
  rows : List (List β)
  rows_length : ∀ row ∈ rows, row.length = cols
  lambdas : Nat
  eval : Nat → List β → β
  nthreads : Int
  zero : β
  garbage : β

namespace ApplyMtCall

variable {β : Type} (call : ApplyMtCall β)

def num_tuples_data : Int := wrap32 call.rows.length

def num_tuples_lambda : Int := wrap32 call.lambdas

/-- An `int`: the product may wrap. -/
def num_tuples_result : Int := wrap32 (call.num_tuples_data * call.num_tuples_lambda)

/-- `more overhead than necessary`: at most as many threads as rows. -/
def threads : Int :=
  if call.num_tuples_data < call.nthreads ∧ 0 < call.num_tuples_data then call.num_tuples_data
  else call.nthreads

/-- `tp_create`: `nthreads <= 0 => treated as 1`. -/
def poolThreads : Nat := (if call.threads ≤ 0 then 1 else call.threads).toNat

def mem_chunk_data_size : Nat := toSize (wrap32 (call.num_tuples_data * call.cols)) * 8 % 2 ^ 64

def mem_chunk_result_size : Nat := toSize call.num_tuples_result * 8 % 2 ^ 64

/-- The buffers and the pool's array of threads can be allocated. -/
def allocates : Bool :=
  decide (call.mem_chunk_data_size ≤ MaxAllocSize ∧ call.mem_chunk_result_size ≤ MaxAllocSize ∧
    8 * call.poolThreads ≤ MaxAllocSize)

/-- The jobs in the order of their submission, `for (i = 0; i < nthreads; i++)`
within the loop over the lambdas. -/
def jobs : List WorkItem :=
  rowJobs call.num_tuples_data.toNat call.lambdas call.threads.toNat

def tasks : Nat → List (Nat × Nat) := jobTasks call.num_tuples_data.toNat call.jobs

def slot : Nat × Nat → Nat := resultSlot call.num_tuples_data.toNat

/-- The data buffer after the copy loop. -/
def mem_chunk_data : Int → β := copyRows call.cols 0 call.rows fun _ => call.garbage

/-- `eval_lambda` on one row. -/
def evalAt (t : Nat × Nat) : β :=
  call.eval t.1 (rowAt call.mem_chunk_data ((t.2 * call.cols : Nat) : Int) call.cols)

end ApplyMtCall

/-! ## The processes -/

/-- The pool's queue and where each thread stands. -/
structure ApplyMtState (k : Nat) (β : Type) where
  /-- Jobs the leader has submitted. -/
  submitted : Nat
  queue : List Nat
  shutdown : Bool
  pool : WorkPool k (Nat × Nat) β Nat

inductive ApplyMtAction (k : Nat) where
  | submit
  | finish
  | dequeue (w : Fin k)
  | evalRow (w : Fin k)
  | storeResult (w : Fin k)
  | endJob (w : Fin k)
deriving DecidableEq, Repr

namespace ApplyMtCall

variable {β : Type} {k : Nat} (call : ApplyMtCall β)

def initial : ApplyMtState k β :=
  { submitted := 0, queue := [], shutdown := false, pool := WorkPool.initial }

/-- `q_dequeue`: a thread waits while the queue is empty and not shut down. -/
def dequeue (s : ApplyMtState k β) (w : Fin k) : Option (ApplyMtState k β) :=
  match s.queue with
  | j :: queue => some { s with queue := queue, pool := s.pool.claim call.tasks w j }
  | [] => if s.shutdown then some { s with pool := s.pool.stop w } else none

/-- All threads are joined; a call that has raised never comes to this. -/
def Finished (s : ApplyMtState k β) : Prop :=
  call.allocates = true ∧ ∀ w, s.pool.point w = .stopped

/-- An atomic step of the leader or of a thread. -/
def act (s : ApplyMtState k β) : ApplyMtAction k → Option (ApplyMtState k β)
  | .submit =>
    if s.shutdown ∨ call.jobs.length ≤ s.submitted then none
    else some { s with submitted := s.submitted + 1, queue := s.queue ++ [s.submitted] }
  | .finish =>
    if s.shutdown ∨ s.submitted < call.jobs.length then none
    else some { s with shutdown := true }
  | .dequeue w =>
    match s.pool.point w with
    | .idle => call.dequeue s w
    | _ => none
  | .evalRow w =>
    match s.pool.point w with
    | .busy (t :: rest) => some { s with pool := s.pool.eval w t (call.evalAt t) rest }
    | _ => none
  | .storeResult w =>
    match s.pool.point w with
    | .storing t v rest => some { s with pool := s.pool.store call.slot w t v rest }
    | _ => none
  | .endJob w =>
    match s.pool.point w with
    | .busy [] => some { s with pool := s.pool.finish w }
    | _ => none

/-- There is a pool only if the leader gets so far. -/
def step (s : ApplyMtState k β) (a : ApplyMtAction k) : Option (ApplyMtState k β) :=
  if call.allocates then call.act s a else none

/-- The output loop over the data buffer and the zeroed result buffer. -/
def output (s : ApplyMtState k β) : List (List β) :=
  (List.range call.num_tuples_result.toNat).map fun i =>
    rowAt call.mem_chunk_data
        (wrap32 (((i % call.num_tuples_data.toNat : Nat) : Int) * call.cols)) call.cols ++
      [(s.pool.memory i).getD call.zero]

/-- What both operators are to emit: for each lambda the rows with the lambda's result. -/
def expected : List (List β) :=
  (List.range call.lambdas).flatMap fun l => call.rows.map fun row => row ++ [call.eval l row]

/-! ## What a step does -/

/-- The steps as rules. -/
inductive Step (s : ApplyMtState k β) : ApplyMtState k β → Prop
  | submit : s.shutdown = false → s.submitted < call.jobs.length →
      Step s { s with submitted := s.submitted + 1, queue := s.queue ++ [s.submitted] }
  | finish : s.shutdown = false → call.jobs.length ≤ s.submitted →
      Step s { s with shutdown := true }
  | take {w : Fin k} {j : Nat} {queue : List Nat} : s.pool.point w = .idle →
      s.queue = j :: queue →
      Step s { s with queue := queue, pool := s.pool.claim call.tasks w j }
  | stop {w : Fin k} : s.pool.point w = .idle → s.queue = [] → s.shutdown = true →
      Step s { s with pool := s.pool.stop w }
  | evalRow {w : Fin k} {t : Nat × Nat} {rest : List (Nat × Nat)} :
      s.pool.point w = .busy (t :: rest) →
      Step s { s with pool := s.pool.eval w t (call.evalAt t) rest }
  | storeResult {w : Fin k} {t : Nat × Nat} {v : β} {rest : List (Nat × Nat)} :
      s.pool.point w = .storing t v rest →
      Step s { s with pool := s.pool.store call.slot w t v rest }
  | endJob {w : Fin k} : s.pool.point w = .busy [] → Step s { s with pool := s.pool.finish w }

variable {call} {s s' : ApplyMtState k β}

/-- Every step is one of these. -/
theorem step_cases {a : ApplyMtAction k} (h : call.step s a = some s') : call.Step s s' := by
  unfold step at h
  split at h
  swap
  · cases h
  cases a with
  | submit =>
    simp only [act] at h
    split at h
    · cases h
    · next hopen =>
      cases h
      exact .submit (by simp_all) (by simp_all)
  | finish =>
    simp only [act] at h
    split at h
    · cases h
    · next hopen =>
      cases h
      exact .finish (by simp_all) (by simp_all)
  | dequeue w =>
    simp only [act] at h
    split at h
    · next hp =>
      unfold dequeue at h
      split at h
      · next j queue hq =>
        cases h
        exact .take hp hq
      · next hq =>
        split at h
        · next hshut =>
          cases h
          exact .stop hp hq hshut
        · cases h
    · cases h
  | evalRow w =>
    simp only [act] at h
    split at h
    · next t rest hp =>
      cases h
      exact .evalRow hp
    · cases h
  | storeResult w =>
    simp only [act] at h
    split at h
    · next t v rest hp =>
      cases h
      exact .storeResult hp
    · cases h
  | endJob w =>
    simp only [act] at h
    split at h
    · next hp =>
      cases h
      exact .endJob hp
    · cases h

/-! ## The invariant -/

/-- The jobs taken, followed by those in the queue, are the jobs submitted; a
thread stops only when the queue is shut down and empty. -/
structure Inv (call : ApplyMtCall β) (s : ApplyMtState k β) : Prop where
  conserved : s.pool.Conserved call.tasks
  queued : s.pool.claimed ++ s.queue = List.range s.submitted
  bound : s.submitted ≤ call.jobs.length
  closed : s.shutdown = true → s.submitted = call.jobs.length
  exhausted : ∀ w, s.pool.point w = .stopped → s.shutdown = true ∧ s.queue = []

theorem inv_initial : call.Inv (initial : ApplyMtState k β) where
  conserved := WorkPool.conserved_initial
  queued := rfl
  bound := Nat.zero_le _
  closed := by simp [initial]
  exhausted := by simp [initial, WorkPool.initial]

/-- A step of a thread inside its job. -/
theorem Inv.inside (h : call.Inv s) {p : WorkPool k (Nat × Nat) β Nat} {w : Fin k}
    {b : WorkerPoint (Nat × Nat) β} (hconserved : p.Conserved call.tasks)
    (hclaimed : p.claimed = s.pool.claimed) (hpoint : p.point = Function.update s.pool.point w b)
    (hb : b ≠ .stopped) : call.Inv { s with pool := p } where
  conserved := hconserved
  queued := by
    simp only
    rw [hclaimed]
    exact h.queued
  bound := h.bound
  closed := h.closed
  exhausted := fun u hu => h.exhausted u (WorkPool.stopped_of_move hpoint hb hu)

/-- **One step** keeps the invariant. -/
theorem Inv.step (h : call.Inv s) (hs : call.Step s s') : call.Inv s' := by
  cases hs with
  | submit hopen hlt =>
    refine ⟨h.conserved, ?_, hlt, fun hshut => absurd hshut (by simp [hopen]), ?_⟩
    · simp only
      rw [← List.append_assoc, h.queued, List.range_succ]
    · intro w hw
      exact absurd (h.exhausted w hw).1 (by simp [hopen])
  | finish hopen hle =>
    refine ⟨h.conserved, h.queued, h.bound, fun _ => le_antisymm h.bound hle, ?_⟩
    intro w hw
    exact absurd (h.exhausted w hw).1 (by simp [hopen])
  | @take w j queue hw hq =>
    refine ⟨h.conserved.claim hw j, ?_, h.bound, h.closed, ?_⟩
    · have hqueued := h.queued
      rw [hq] at hqueued
      simpa [WorkPool.claim] using hqueued
    · intro u hu
      have hempty := (h.exhausted u (WorkPool.stopped_of_move (w := w) rfl (by simp) hu)).2
      rw [hq] at hempty
      cases hempty
  | @stop w hw hq hshut =>
    exact ⟨h.conserved.stop hw, h.queued, h.bound, h.closed, fun _ _ => ⟨hshut, hq⟩⟩
  | @evalRow w t rest hw => exact h.inside (h.conserved.eval hw _) rfl rfl (by simp)
  | @storeResult w t v rest hw => exact h.inside (h.conserved.store hw) rfl rfl (by simp)
  | @endJob w hw => exact h.inside (h.conserved.finish hw) rfl rfl (by simp)

/-- A claimed job is one of the array. -/
theorem Inv.mem_jobs (h : call.Inv s) {t : Nat × Nat} (ht : t ∈ s.pool.claimed.flatMap call.tasks) :
    t ∈ (List.range call.jobs.length).flatMap call.tasks := by
  obtain ⟨j, hj, ht⟩ := List.mem_flatMap.mp ht
  have hrange : j ∈ List.range s.submitted := h.queued ▸ List.mem_append_left _ hj
  have hlt := (List.mem_range.mp hrange).trans_le h.bound
  exact List.mem_flatMap.mpr ⟨j, List.mem_range.mpr hlt, ht⟩

theorem inv_of_reachable (h : Reachable call.step (fun _ _ => True) initial s) : call.Inv s :=
  h.invariant inv_initial fun _ _ _ hs _ hstep => hs.step (step_cases hstep)

/-! ## The results -/

theorem Inv.row_lt (h : call.Inv s) {t : Nat × Nat}
    (ht : t ∈ s.pool.claimed.flatMap call.tasks) : t.2 < call.num_tuples_data.toNat := by
  obtain ⟨j, _, ht⟩ := List.mem_flatMap.mp (h.mem_jobs ht)
  exact row_lt_of_mem_jobTasks ht

/-- Jobs to be submitted, jobs in the queue, work in hand. -/
def measure (call : ApplyMtCall β) (s : ApplyMtState k β) : Nat :=
  (∑ j ∈ Finset.Ico s.submitted call.jobs.length, (WorkPool.jobWeight (call.tasks j) + 1)) +
    (s.queue.map fun j => WorkPool.jobWeight (call.tasks j)).sum +
    (if s.shutdown then 0 else 1) + s.pool.work

theorem measure_lt (hs : call.Step s s') : call.measure s' < call.measure s := by
  unfold measure
  cases hs with
  | submit hopen hlt =>
    simp only [List.map_append, List.sum_append, List.map_cons, List.map_nil, List.sum_cons,
      List.sum_nil]
    rw [Finset.sum_eq_sum_Ico_succ_bot hlt]
    omega
  | finish hopen hle =>
    simp [hopen]
  | @take w j queue hw hq =>
    have hwork := WorkPool.work_claim call.tasks hw j
    simp only [hq, List.map_cons, List.sum_cons]
    omega
  | @stop w hw hq hshut =>
    have hwork := WorkPool.work_stop hw
    simp only
    omega
  | @evalRow w t rest hw =>
    have hwork := WorkPool.work_eval (w := w) (v := call.evalAt t) hw
    simp only
    omega
  | @storeResult w t v rest hw =>
    have hwork := WorkPool.work_store call.slot hw
    simp only
    omega
  | @endJob w hw =>
    have hwork := WorkPool.work_finish hw
    simp only
    omega

/-- A thread waits for jobs only while the leader has yet to submit or to shut down. -/
theorem progress (halloc : call.allocates = true) {w : Fin k} (hw : s.pool.point w ≠ .stopped) :
    ∃ a s', call.step s a = some s' := by
  simp only [step, if_pos halloc]
  cases hp : s.pool.point w with
  | stopped => exact absurd hp hw
  | storing t v rest => exact ⟨.storeResult w, _, by simp only [act, hp]; rfl⟩
  | busy ts =>
    cases ts with
    | nil => exact ⟨.endJob w, _, by simp only [act, hp]; rfl⟩
    | cons t rest => exact ⟨.evalRow w, _, by simp only [act, hp]; rfl⟩
  | idle =>
    cases hq : s.queue with
    | cons j queue => exact ⟨.dequeue w, _, by simp only [act, hp, dequeue, hq]; rfl⟩
    | nil =>
      by_cases hshut : s.shutdown = true
      · exact ⟨.dequeue w, _, by simp only [act, hp, dequeue, hq, hshut, if_true]; rfl⟩
      · by_cases hsub : s.submitted < call.jobs.length
        · exact ⟨.submit, _, if_neg (by simp [hshut, hsub])⟩
        · exact ⟨.finish, _, if_neg (by simp [hshut]; omega)⟩

/-- The bytes of an array of cells. -/
theorem cells_size {n : Nat} (h : (n : Int) ≤ PG_INT32_MAX) :
    toSize (n : Int) * 8 % 2 ^ 64 = 8 * n := by
  unfold PG_INT32_MAX at h
  rw [toSize_of_nonneg ⟨by omega, h⟩ (by omega), Int.toNat_natCast, Nat.mul_comm]
  exact Nat.mod_eq_of_lt (by omega)

section Output

variable (hcols : ((call.rows.length * call.cols : Nat) : Int) ≤ PG_INT32_MAX)
  (hresult : ((call.lambdas * call.rows.length : Nat) : Int) ≤ PG_INT32_MAX)

include hresult in
theorem num_tuples_result_eq :
    call.num_tuples_result = ((call.lambdas * call.rows.length : Nat) : Int) := by
  have hmul : call.num_tuples_result = wrap32 ((call.lambdas * call.rows.length : Nat) : Int) := by
    rw [num_tuples_result, num_tuples_data, wrap32_wrap32_mul, mul_comm, num_tuples_lambda,
      wrap32_wrap32_mul, ← Nat.cast_mul]
  rw [hmul, wrap32_natCast hresult]

include hcols hresult in
/-- What the buffers come to. -/
theorem allocates_iff : call.allocates = true ↔
    8 * (call.rows.length * call.cols) ≤ MaxAllocSize ∧
      8 * (call.lambdas * call.rows.length) ≤ MaxAllocSize ∧
      8 * call.poolThreads ≤ MaxAllocSize := by
  unfold allocates mem_chunk_data_size mem_chunk_result_size
  rw [decide_eq_true_eq, num_tuples_data, rowBase_eq hcols, num_tuples_result_eq hresult,
    cells_size hcols, cells_size hresult]

end Output

end ApplyMtCall

/-! ## The same arguments for `apply_mt_pw` -/

namespace ApplyMtCall

variable {β : Type} {call : ApplyMtCall β}

section Workers

variable {nworkers : Int} {result_flat : Bool} {sizes : Nat → Nat} {damaged : Nat → List β → β}

end Workers

end ApplyMtCall

end HolLambdas
