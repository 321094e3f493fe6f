import HolLambdas.Parallel.PoolInvariant

/-!
# The thread pool: every job once

`thread_pool_once` has the safety part, for every interleaving, and the progress part: a
run without unasked-for wake-ups is finite, and ends with the return of
`tp_finish_and_destroy`. It is finite because every step uses up some of the weight of the
pool (`poolWeight_lt`), and it ends there because in any other state somebody can go on
(`Inv.progress`): the owner of the mutex, a worker that is not asleep, or the submitter.
-/

namespace HolLambdas.ThreadPool

open LinkedQueue

section Progress

variable {k : Nat} {jobs : List Bytes} {s s' : PoolState k} {a : PoolAction k}
variable {o : Owner k} {w : Fin k} {b : Worker} {f : Fin k → Worker}

/-! ## Progress -/

/-- Twelve steps for a call of `tp_submit` with what it sets in motion, three for each
thread to be created, woken and joined. -/
def submitterWeight (k calls : Nat) : Submitter → Nat
  | .creating i => 3 * k + 4 + 12 * calls + 3 * (k - i)
  | .idle => 3 * k + 3 + 12 * calls
  | .checking _ => 3 * k + 14 + 12 * calls
  | .copying _ => 3 * k + 13 + 12 * calls
  | .locking _ => 3 * k + 12 + 12 * calls
  | .enqueueing _ => 3 * k + 11 + 12 * calls
  | .closing => 3 * k + 2
  | .joining i => k - i + 1
  | .returned => 0
  | .raised _ => 0

def workerWeight : Worker → Nat
  | .notCreated | .waiting | .exited => 0
  | .testing => 1
  | .start | .woken => 2
  | .running _ => 3
  | .calling _ => 4

/-- The steps that are left, up to wakeups that nothing caused. -/
def poolWeight (s : PoolState k) : Nat :=
  submitterWeight k s.calls.length s.submitter + ∑ w, workerWeight (s.worker w) + 4 * s.queue.count

theorem workerWeight_update :
    (∑ v, workerWeight (Function.update f w b v)) + workerWeight (f w) =
      (∑ v, workerWeight (f v)) + workerWeight b :=
  WorkPool.sum_update workerWeight

theorem workerWeight_signalled {sig : Option (Fin k)} (hsig : signals f sig = true) :
    ∑ v, workerWeight (signalled f sig v) ≤ (∑ v, workerWeight (f v)) + 2 := by
  cases sig with
  | none => exact Nat.le_add_right _ _
  | some w =>
    have hw : f w = .waiting := by simpa [signals] using hsig
    have hsum := workerWeight_update (f := f) (w := w) (b := .woken)
    rw [hw] at hsum
    exact Nat.le_of_eq hsum

theorem workerWeight_awaken (f : Fin k → Worker) :
    ∑ v, workerWeight (f v).awaken ≤ (∑ v, workerWeight (f v)) + 2 * k := by
  have hle : ∑ v, workerWeight (f v).awaken ≤ ∑ v, (workerWeight (f v) + 2) := by
    refine Finset.sum_le_sum fun v _ => ?_
    cases f v <;> simp [Worker.awaken, workerWeight]
  rwa [Finset.sum_add_distrib, Finset.sum_const, Finset.card_univ, Fintype.card_fin,
    Nat.nsmul_eq_mul, Nat.mul_comm] at hle

/-- A step that is not an unasked-for wake-up lowers the weight. -/
theorem poolWeight_lt (h : Inv jobs s) (ha : caused a = true) (hs : step s a = some s') :
    poolWeight s' < poolWeight s := by
  have hworker : ∀ {w : Fin k} {b : Worker},
      (∑ v, workerWeight (Function.update s.worker w b v)) + workerWeight (s.worker w) =
        (∑ v, workerWeight (s.worker v)) + workerWeight b := workerWeight_update
  unfold poolWeight
  cases step_cases hs with
  | @create i hi hsub =>
    have hnew : s.worker ⟨i, hi⟩ = .notCreated :=
      (h.workers.notCreated _).mpr ⟨i, hsub, Nat.le_refl _⟩
    have hsum := hworker (w := ⟨i, hi⟩) (b := .start)
    rw [hnew] at hsum
    simp only [hsub, submitterWeight, workerWeight] at hsum ⊢
    omega
  | created hsub _ | lock _ hsub | raise hsub _ | reject hsub _ | copy hsub _ =>
    simp only [hsub, submitterWeight]
    omega
  | submit _ hsub hcalls | finish _ hsub hcalls =>
    simp only [hsub, hcalls, submitterWeight, List.length_cons, List.length_nil]
    omega
  | check hsub =>
    have hopen : s.shutdown = false := by rw [h.control.shutdown, hsub]; rfl
    simp only [hsub, hopen, Bool.false_eq_true, if_false, submitterWeight]
    omega
  | enqueue hsub _ hsig =>
    have hsum := workerWeight_signalled hsig
    simp only [hsub, submitterWeight, LinkedQueue.enqueue]
    omega
  | close hsub =>
    -- the broadcast may wake every thread
    have hsum := workerWeight_awaken s.worker
    simp only [hsub, submitterWeight]
    omega
  | join hi hsub _ =>
    simp only [hsub, submitterWeight]
    omega
  | destroy hsub _ =>
    simp only [hsub, submitterWeight]
    omega
  | @workerLock w _ hw =>
    have hsum := hworker (w := w) (b := .testing)
    rcases hw with hw | hw
    · simp only [hw, workerWeight] at hsum ⊢
      omega
    · simp only [hw, workerWeight] at hsum ⊢
      omega
  | @take w n queue hw hq =>
    -- the weight of the node pays for the call
    have hsum := hworker (w := w) (b := .calling n)
    obtain ⟨l, hl, -⟩ := h.queue.queued
    obtain ⟨l', rfl, hl'⟩ := hl.dequeue hq
    have hcount := hl.count
    have hcount' := hl'.count
    rw [List.length_cons] at hcount
    simp only [hw, workerWeight] at hsum ⊢
    omega
  | @sleepOrExit w hw _ =>
    have hsum := hworker (w := w) (b := if s.shutdown then .exited else .waiting)
    have hzero : workerWeight (if s.shutdown then .exited else .waiting) = 0 := by
      split <;> rfl
    rw [hzero, hw] at hsum
    simp only [workerWeight] at hsum ⊢
    omega
  | @call w n _ hw _ =>
    have hsum := hworker (w := w) (b := .running n)
    simp only [hw, workerWeight] at hsum ⊢
    omega
  | @ret w n hw =>
    have hsum := hworker (w := w) (b := .start)
    simp only [hw, workerWeight] at hsum ⊢
    omega
  | wake _ => cases ha

/-- A signal has an effect that the standard allows. -/
theorem exists_signals (f : Fin k → Worker) : ∃ sig, signals f sig = true := by
  by_cases hw : ∃ w, f w = .waiting
  · obtain ⟨w, hw⟩ := hw
    exact ⟨some w, by simpa [signals] using hw⟩
  · refine ⟨none, ?_⟩
    have hnone : ∀ w, f w ≠ .waiting := fun w heq => hw ⟨w, heq⟩
    simpa [signals] using hnone

/-- Whoever has the mutex can go on. -/
theorem Inv.progress_of_owner (h : Inv jobs s) (hmu : s.mu = some o) :
    ∃ a, caused a = true ∧ (step s a).isSome := by
  have hin := (h.mutex o).mp hmu
  cases o with
  | worker w =>
    have hw : s.worker w = .testing := hin
    refine ⟨.test w, rfl, ?_⟩
    simp only [step, test, hw]
    split
    · rfl
    · rfl
  | submitter =>
    have hholds : s.submitter.holds = true := hin
    cases hsub : s.submitter with
    | checking job => exact ⟨.check, rfl, by simp [step, check, hsub]⟩
    | closing => exact ⟨.close, rfl, by simp [step, close, hsub]⟩
    | enqueueing n =>
      obtain ⟨sig, hsig⟩ := exists_signals s.worker
      refine ⟨.enqueue sig, rfl, ?_⟩
      simp only [step, enqueue, hsub, hsig, if_true]
      split
      · rfl
      · rfl
    | creating _ | idle | copying _ | locking _ | joining _ | returned | raised _ =>
      rw [hsub] at hholds
      cases hholds

/-- After the flag is set nobody sleeps, so a worker that has not left can go on. -/
theorem Inv.progress_of_worker (h : Inv jobs s) (hmu : s.mu = none) {i : Nat}
    (hsub : s.submitter = .joining i) (hw : s.worker w ≠ .exited) :
    ∃ a, caused a = true ∧ (step s a).isSome := by
  have hshut : s.shutdown = true := by rw [h.control.shutdown, hsub]; rfl
  cases hpoint : s.worker w with
  | notCreated =>
    obtain ⟨j, hj, -⟩ := (h.workers.notCreated w).mp hpoint
    rw [hsub] at hj
    cases hj
  | start | woken => exact ⟨.workerLock w, rfl, by simp [step, workerLock, hmu, hpoint]⟩
  | testing =>
    have hown := (h.mutex (.worker w)).mpr hpoint
    rw [hmu] at hown
    cases hown
  | waiting =>
    have hopen := h.workers.waiting w hpoint
    rw [hshut] at hopen
    cases hopen
  | calling n =>
    have htaken : n ∈ s.taken := h.delivered.mem_taken
      (.inr ⟨w, by rw [hpoint]; exact Multiset.mem_singleton_self n⟩)
    have hlt := h.queue.lt_length htaken
    exact ⟨.call w, rfl, by simp [step, call, hpoint, hlt]⟩
  | running n => exact ⟨.ret w, rfl, by simp [step, ret, hpoint]⟩
  | exited => exact absurd hpoint hw

/-- Until `tp_finish_and_destroy` returns, some thread can go on. -/
theorem Inv.progress (h : Inv jobs s) (hjobs : ∀ job ∈ jobs, job ≠ [])
    (hret : s.submitter ≠ .returned) : ∃ a, caused a = true ∧ (step s a).isSome := by
  cases hmu : s.mu with
  | some o => exact h.progress_of_owner hmu
  | none =>
    have hfree : s.submitter.holds = false := by
      rw [Bool.eq_false_iff]
      intro hholds
      have hown := (h.mutex .submitter).mpr hholds
      rw [hmu] at hown
      cases hown
    cases hsub : s.submitter with
    | creating i =>
      refine ⟨.create, rfl, ?_⟩
      simp only [step, create, hsub]
      split
      · rfl
      · rfl
    | idle =>
      refine ⟨.lock, rfl, ?_⟩
      simp only [step, lock, hmu, hsub]
      cases s.calls with
      | nil => rfl
      | cons job calls => rfl
    | copying job =>
      refine ⟨.copy, rfl, ?_⟩
      simp only [step, copy, hsub]
      split
      · rfl
      · rfl
    | locking n => exact ⟨.lock, rfl, by simp [step, lock, hmu, hsub]⟩
    | joining i =>
      by_cases hi : i < k
      · by_cases hexit : s.worker ⟨i, hi⟩ = .exited
        · exact ⟨.join, rfl, by simp [step, join, hsub, hi, hexit]⟩
        · exact h.progress_of_worker hmu hsub hexit
      · exact ⟨.join, rfl, by simp [step, join, hsub, hi]⟩
    | raised job =>
      -- no job is empty
      have hmem : job ∈ jobs := by
        rw [h.queue.jobs, hsub]
        simp [Submitter.pending]
      exact absurd (h.control.raised job hsub) (hjobs job hmem)
    | returned => exact absurd hsub hret
    | checking _ | enqueueing _ | closing =>
      rw [hsub] at hfree
      cases hfree

end Progress

theorem threadCount_pos (nthreads : Int) : 0 < threadCount nthreads := by
  unfold threadCount
  split
  · decide
  · omega

/-- For every number of threads, every sequence of jobs and every interleaving: a job is
passed to the worker function at most once and with its bytes, jobs leave the queue in
order, no worker leaves while one is queued, and `tp_finish_and_destroy` returns after all
of them are done. A run without unasked-for wake-ups cannot go on for ever, and unless a job
was empty, which is an error of `tp_submit`, it stops only when `tp_finish_and_destroy` has
returned. -/
theorem thread_pool_once (nthreads : Int) (jobs : List Bytes) (s : PoolState (threadCount nthreads))
    (hs : Reachable step (fun _ _ => True) (initial jobs) s) :
    Safe jobs s ∧ ∃ bound, ∀ as s', runActions step (fun _ a => caused a) as s = some s' →
      as.length ≤ bound ∧
        ((∀ job ∈ jobs, job ≠ []) → (∀ a, caused a = true → step s' a = none) →
          s'.submitter = .returned) := by
  have hinv := inv_of_reachable hs
  refine ⟨hinv.safe (threadCount_pos nthreads), poolWeight s, ?_⟩
  intro as s' hrun
  obtain ⟨hinv', hle⟩ := length_le_of_run poolWeight
    (fun t a t' ht ha hstep => ⟨ht.of_step hstep, poolWeight_lt ht ha hstep⟩) hinv hrun
  refine ⟨Nat.le_of_add_right_le hle, ?_⟩
  intro hjobs hstuck
  by_contra hret
  obtain ⟨a, ha, hsome⟩ := hinv'.progress hjobs hret
  rw [hstuck a ha] at hsome
  cases hsome

/-! ## Two threads, two jobs

The first thread falls asleep before the first job is submitted, and is signalled, but the
second one is faster. The first gets the second job, and calls the worker function first. -/

def pairRun (t u : Fin (threadCount 2)) : List (PoolAction (threadCount 2)) :=
  [.create, .create, .create, .workerLock t, .test t, .lock, .check, .copy, .lock,
    .enqueue (some t), .workerLock u, .test u, .workerLock t, .test t, .lock, .check, .copy, .lock,
    .enqueue (some t), .workerLock t, .test t, .call t, .lock, .close, .call u, .ret u, .ret t,
    .workerLock t, .test t, .workerLock u, .test u, .join, .join, .join]

theorem thread_pool_once_pair :
    ∃ s, runActions step (fun _ _ => true) (pairRun ⟨0, by decide⟩ ⟨1, by decide⟩)
        (initial [[7], [8, 9]]) = some s ∧
      s.submitter = .returned ∧ s.passed = [(1, [8, 9]), (0, [7])] ∧ Safe [[7], [8, 9]] s := by
  have hrun : (runActions step (fun _ _ => true) (pairRun ⟨0, by decide⟩ ⟨1, by decide⟩)
      (initial [[7], [8, 9]])).isSome = true := rfl
  obtain ⟨s, hs⟩ := Option.isSome_iff_exists.mp hrun
  have hreach : Reachable step (fun _ _ => True) (initial [[7], [8, 9]]) s :=
    (reachable_of_run .init hs).mono fun _ _ _ => trivial
  refine ⟨s, hs, ?_, ?_, (thread_pool_once 2 [[7], [8, 9]] s hreach).1⟩
  · cases hs
    rfl
  · cases hs
    rfl

end HolLambdas.ThreadPool
