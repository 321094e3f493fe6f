import HolLambdas.LinkedQueue
import HolLambdas.Runs

/-!
# The thread pool: its steps

`threadpool.c`: a linked queue of jobs behind a mutex, a condition variable on which
workers wait while it is empty, and a flag that tells them to leave once it is. One thread
creates the pool, submits jobs and finishes the pool; the others run `tp_worker_main`.

A step is the acquisition of the mutex, the critical section up to its release (nothing
that a critical section touches is touched without the mutex), or something that needs no
mutex: copying a job into a node, a call of the worker function and its return, creating
and joining a thread. `pthread_cond_wait` releases the mutex, sleeps, and takes the mutex
again when it is woken: by a signal, which wakes one sleeper if there is one, by a
broadcast, or by nothing at all (`PoolAction.wake`).

`Step` lists what a step can do, and `step_cases` is the only place that looks into the
step function: everything after it is by cases on `Step`. Creation of threads and
allocation are taken to succeed, and the worker function to return.
-/

namespace HolLambdas.ThreadPool

open LinkedQueue
open Function

/-! ## The pool -/

abbrev Bytes := List UInt8

/-- Where the thread stands that owns the pool. -/
inductive Submitter where
  /-- In `tp_create`, before the creation of thread `i`. -/
  | creating (i : Nat)
  /-- Between calls. -/
  | idle
  /-- In `tp_submit`, with the mutex. -/
  | checking (job : Bytes)
  | copying (job : Bytes)
  /-- In `q_enqueue` before the mutex is taken. -/
  | locking (n : Nat)
  | enqueueing (n : Nat)
  /-- In `tp_finish_and_destroy`, with the mutex. -/
  | closing
  | joining (i : Nat)
  | returned
  /-- "threadpool job must be non-empty" -/
  | raised (job : Bytes)
deriving DecidableEq, Repr

/-- Where a thread of the pool stands. -/
inductive Worker where
  | notCreated
  /-- About to call `q_dequeue`. -/
  | start
  /-- At the loop condition of `q_dequeue`, with the mutex. -/
  | testing
  /-- Asleep in `pthread_cond_wait`. -/
  | waiting
  /-- Awake in `pthread_cond_wait`, without the mutex. -/
  | woken
  | calling (n : Nat)
  | running (n : Nat)
  | exited
deriving DecidableEq, Repr

/-- Who holds the mutex. -/
inductive Owner (k : Nat) where
  | submitter
  | worker (w : Fin k)
deriving DecidableEq, Repr

/-- The pool and its threads. -/
structure PoolState (k : Nat) where
  heap : List (Cell Bytes)
  queue : LinkedQueue
  shutdown : Bool
  mu : Option (Owner k)
  submitter : Submitter
  /-- The arguments of the calls of `tp_submit` that are to come. -/
  calls : List Bytes
  worker : Fin k → Worker
  /-- History: the nodes entered into the queue, taken out, passed to the worker function
  with the bytes passed, and those for which it has returned. -/
  sent : List Nat
  taken : List Nat
  passed : List (Nat × Bytes)
  finished : List Nat

inductive PoolAction (k : Nat) where
  | create
  | lock
  | check
  | copy
  | enqueue (signalled : Option (Fin k))
  | close
  | join
  | workerLock (w : Fin k)
  | test (w : Fin k)
  | call (w : Fin k)
  | ret (w : Fin k)
  | wake (w : Fin k)
deriving DecidableEq, Repr

/-- `tp_create`: `nthreads <= 0 => treated as 1`. -/
def threadCount (nthreads : Int) : Nat := (if nthreads ≤ 0 then 1 else nthreads).toNat

def initial {k : Nat} (jobs : List Bytes) : PoolState k where
  heap := []
  queue := LinkedQueue.empty
  shutdown := false
  mu := none
  submitter := .creating 0
  calls := jobs
  worker := fun _ => .notCreated
  sent := []
  taken := []
  passed := []
  finished := []

section Steps

variable {k : Nat}

/-- What `pthread_cond_broadcast` does to a thread. -/
def Worker.awaken : Worker → Worker
  | .waiting => .woken
  | p => p

/-- `pthread_cond_signal` wakes a thread that waits, unless none does. -/
def signals (worker : Fin k → Worker) : Option (Fin k) → Bool
  | some w => worker w = .waiting
  | none => ∀ w, worker w ≠ .waiting

def signalled (worker : Fin k → Worker) : Option (Fin k) → Fin k → Worker
  | some w => update worker w .woken
  | none => worker

variable (s : PoolState k)

/-- The loop of `tp_create`. -/
def create : Option (PoolState k) :=
  match s.submitter with
  | .creating i =>
    if h : i < k then
      some { s with submitter := .creating (i + 1),
                    worker := update s.worker ⟨i, h⟩ .start }
    else some { s with submitter := .idle }
  | _ => none

/-- `pthread_mutex_lock` in `tp_submit`, `q_enqueue` and `tp_finish_and_destroy`. -/
def lock : Option (PoolState k) :=
  if s.mu.isSome then none
  else
    match s.submitter with
    | .idle =>
      match s.calls with
      | job :: calls =>
        some { s with mu := some .submitter, submitter := .checking job, calls := calls }
      | [] => some { s with mu := some .submitter, submitter := .closing }
    | .locking n => some { s with mu := some .submitter, submitter := .enqueueing n }
    | _ => none

/-- "fast reject if shutting down" -/
def check : Option (PoolState k) :=
  match s.submitter with
  | .checking job =>
    some { s with mu := none, submitter := if s.shutdown then .idle else .copying job }
  | _ => none

/-- `qnode_create_copy`. -/
def copy : Option (PoolState k) :=
  match s.submitter with
  | .copying job =>
    if job = [] then some { s with submitter := .raised job }
    else some { s with heap := s.heap ++ [⟨none, job⟩], submitter := .locking s.heap.length }
  | _ => none

/-- `q_enqueue`. -/
def enqueue (w : Option (Fin k)) : Option (PoolState k) :=
  match s.submitter with
  | .enqueueing n =>
    if s.shutdown then some { s with mu := none, submitter := .idle }
    else if signals s.worker w then
      some { s with heap := s.queue.enqueueHeap s.heap n, queue := s.queue.enqueue n, mu := none,
                    submitter := .idle, worker := signalled s.worker w, sent := s.sent ++ [n] }
    else none
  | _ => none

/-- `tp_finish_and_destroy` up to the joins. -/
def close : Option (PoolState k) :=
  match s.submitter with
  | .closing =>
    some { s with shutdown := true, mu := none, submitter := .joining 0,
                  worker := fun w => (s.worker w).awaken }
  | _ => none

/-- `pthread_join` on thread `i`, which waits for its exit. -/
def join : Option (PoolState k) :=
  match s.submitter with
  | .joining i =>
    if h : i < k then
      if s.worker ⟨i, h⟩ = .exited then some { s with submitter := .joining (i + 1) } else none
    else some { s with submitter := .returned }
  | _ => none

/-- `pthread_mutex_lock` in `q_dequeue`, or the end of `pthread_cond_wait`. -/
def workerLock (w : Fin k) : Option (PoolState k) :=
  if s.mu.isSome then none
  else
    match s.worker w with
    | .start | .woken =>
      some { s with mu := some (.worker w), worker := update s.worker w .testing }
    | _ => none

/-- `q_dequeue` with the mutex, up to its release or to the wait. -/
def test (w : Fin k) : Option (PoolState k) :=
  match s.worker w with
  | .testing =>
    match s.queue.dequeue s.heap with
    | some (n, queue) =>
      some { s with queue := queue, mu := none,
                    worker := update s.worker w (.calling n), taken := s.taken ++ [n] }
    | none =>
      some { s with mu := none,
                    worker := update s.worker w
                      (if s.shutdown then .exited else .waiting) }
  | _ => none

/-- `p->fn((void *) n->data)`. -/
def call (w : Fin k) : Option (PoolState k) :=
  match s.worker w with
  | .calling n =>
    (s.heap[n]?).map fun c =>
      { s with worker := update s.worker w (.running n),
               passed := s.passed ++ [(n, c.data)] }
  | _ => none

def ret (w : Fin k) : Option (PoolState k) :=
  match s.worker w with
  | .running n =>
    some { s with worker := update s.worker w .start, finished := s.finished ++ [n] }
  | _ => none

/-- A thread wakes up though nobody has woken it. -/
def wake (w : Fin k) : Option (PoolState k) :=
  match s.worker w with
  | .waiting => some { s with worker := update s.worker w .woken }
  | _ => none

def step : PoolAction k → Option (PoolState k)
  | .create => create s
  | .lock => lock s
  | .check => check s
  | .copy => copy s
  | .enqueue w => enqueue s w
  | .close => close s
  | .join => join s
  | .workerLock w => workerLock s w
  | .test w => test s w
  | .call w => call s w
  | .ret w => ret s w
  | .wake w => wake s w

/-- Not an unasked-for wake-up. -/
def caused : PoolAction k → Bool
  | .wake _ => false
  | _ => true

/-! ## What a step does -/

/-- The steps as rules, one for each branch of the code. -/
inductive Step : PoolAction k → PoolState k → Prop
  | create {i : Nat} (hi : i < k) : s.submitter = .creating i →
      Step .create { s with submitter := .creating (i + 1),
                            worker := update s.worker ⟨i, hi⟩ .start }
  | created {i : Nat} : s.submitter = .creating i → k ≤ i →
      Step .create { s with submitter := .idle }
  | submit {job : Bytes} {calls : List Bytes} : s.mu = none → s.submitter = .idle →
      s.calls = job :: calls →
      Step .lock { s with mu := some .submitter, submitter := .checking job, calls := calls }
  | finish : s.mu = none → s.submitter = .idle → s.calls = [] →
      Step .lock { s with mu := some .submitter, submitter := .closing }
  | lock {n : Nat} : s.mu = none → s.submitter = .locking n →
      Step .lock { s with mu := some .submitter, submitter := .enqueueing n }
  | check {job : Bytes} : s.submitter = .checking job →
      Step .check { s with mu := none, submitter := if s.shutdown then .idle else .copying job }
  | raise {job : Bytes} : s.submitter = .copying job → job = [] →
      Step .copy { s with submitter := .raised job }
  | copy {job : Bytes} : s.submitter = .copying job → job ≠ [] →
      Step .copy { s with heap := s.heap ++ [⟨none, job⟩], submitter := .locking s.heap.length }
  | reject {n : Nat} {w : Option (Fin k)} : s.submitter = .enqueueing n → s.shutdown = true →
      Step (.enqueue w) { s with mu := none, submitter := .idle }
  | enqueue {n : Nat} {w : Option (Fin k)} : s.submitter = .enqueueing n → s.shutdown = false →
      signals s.worker w = true →
      Step (.enqueue w) { s with heap := s.queue.enqueueHeap s.heap n, queue := s.queue.enqueue n,
                                 mu := none, submitter := .idle, worker := signalled s.worker w,
                                 sent := s.sent ++ [n] }
  | close : s.submitter = .closing →
      Step .close { s with shutdown := true, mu := none, submitter := .joining 0,
                           worker := fun w => (s.worker w).awaken }
  | join {i : Nat} (hi : i < k) : s.submitter = .joining i → s.worker ⟨i, hi⟩ = .exited →
      Step .join { s with submitter := .joining (i + 1) }
  | destroy {i : Nat} : s.submitter = .joining i → k ≤ i →
      Step .join { s with submitter := .returned }
  | workerLock {w : Fin k} : s.mu = none → s.worker w = .start ∨ s.worker w = .woken →
      Step (.workerLock w) { s with mu := some (.worker w),
                                    worker := update s.worker w .testing }
  | take {w : Fin k} {n : Nat} {queue : LinkedQueue} : s.worker w = .testing →
      s.queue.dequeue s.heap = some (n, queue) →
      Step (.test w) { s with queue := queue, mu := none,
                              worker := update s.worker w (.calling n),
                              taken := s.taken ++ [n] }
  | sleepOrExit {w : Fin k} : s.worker w = .testing → s.queue.dequeue s.heap = none →
      Step (.test w) { s with mu := none,
                              worker := update s.worker w
                                (if s.shutdown then .exited else .waiting) }
  | call {w : Fin k} {n : Nat} {c : Cell Bytes} : s.worker w = .calling n → s.heap[n]? = some c →
      Step (.call w) { s with worker := update s.worker w (.running n),
                              passed := s.passed ++ [(n, c.data)] }
  | ret {w : Fin k} {n : Nat} : s.worker w = .running n →
      Step (.ret w) { s with worker := update s.worker w .start,
                             finished := s.finished ++ [n] }
  | wake {w : Fin k} : s.worker w = .waiting →
      Step (.wake w) { s with worker := update s.worker w .woken }

variable {s}

/-- Every step is one of these. -/
theorem step_cases {a : PoolAction k} {s' : PoolState k} (h : step s a = some s') :
    Step s a s' := by
  cases a with
  | create =>
    simp only [step, ThreadPool.create] at h
    split at h
    · next i hi =>
      split at h
      · next hlt => cases h; exact .create hlt hi
      · next hge => cases h; exact .created hi (Nat.le_of_not_lt hge)
    · cases h
  | lock =>
    simp only [step, ThreadPool.lock] at h
    split at h
    · cases h
    · next hmu =>
      have hmu : s.mu = none := by simpa using hmu
      split at h
      · next hidle =>
        split at h
        · next job calls hcalls => cases h; exact .submit hmu hidle hcalls
        · next hcalls => cases h; exact .finish hmu hidle hcalls
      · next n hn => cases h; exact .lock hmu hn
      · cases h
  | check =>
    simp only [step, ThreadPool.check] at h
    split at h
    · next job hjob => cases h; exact .check hjob
    · cases h
  | copy =>
    simp only [step, ThreadPool.copy] at h
    split at h
    · next job hjob =>
      split at h
      · next hnil => cases h; exact .raise hjob hnil
      · next hne => cases h; exact .copy hjob hne
    · cases h
  | enqueue w =>
    simp only [step, ThreadPool.enqueue] at h
    split at h
    · next n hn =>
      split at h
      · next hshut => cases h; exact .reject hn hshut
      · next hshut =>
        split at h
        · next hsig => cases h; exact .enqueue hn (Bool.eq_false_iff.mpr hshut) hsig
        · cases h
    · cases h
  | close =>
    simp only [step, ThreadPool.close] at h
    split at h
    · next hc => cases h; exact .close hc
    · cases h
  | join =>
    simp only [step, ThreadPool.join] at h
    split at h
    · next i hi =>
      split at h
      · next hlt =>
        split at h
        · next hexit => cases h; exact .join hlt hi hexit
        · cases h
      · next hge => cases h; exact .destroy hi (Nat.le_of_not_lt hge)
    · cases h
  | workerLock w =>
    simp only [step, ThreadPool.workerLock] at h
    split at h
    · cases h
    · next hmu =>
      have hmu : s.mu = none := by simpa using hmu
      split at h
      · next hw => cases h; exact .workerLock hmu (.inl hw)
      · next hw => cases h; exact .workerLock hmu (.inr hw)
      · cases h
  | test w =>
    simp only [step, ThreadPool.test] at h
    split at h
    · next hw =>
      split at h
      · next n queue hq => cases h; exact .take hw hq
      · next hq => cases h; exact .sleepOrExit hw hq
    · cases h
  | call w =>
    simp only [step, ThreadPool.call] at h
    split at h
    · next n hw =>
      obtain ⟨c, hc, rfl⟩ := Option.map_eq_some_iff.mp h
      exact .call hw hc
    · cases h
  | ret w =>
    simp only [step, ThreadPool.ret] at h
    split at h
    · next n hw => cases h; exact .ret hw
    · cases h
  | wake w =>
    simp only [step, ThreadPool.wake] at h
    split at h
    · next hw => cases h; exact .wake hw
    · cases h

end Steps

end HolLambdas.ThreadPool
