import Mathlib.Data.List.Range
import Mathlib.Data.List.Nodup
import Mathlib.Data.Nat.Basic
import Mathlib.Order.Monotone.Basic

/-!
# Jobs of the parallel map operators

`apply_mt` and `apply_mt_pw` cut the `N × M` evaluations of `M` lambdas on `N`
rows into jobs of one lambda and one range of rows, `floor (N * c / chunks)` to
`floor (N * (c + 1) / chunks)`, and put the result for lambda `l` and row `i`
into slot `l * N + i`. Over all jobs every pair occurs exactly once
(`flatMap_tasks_rowJobs`), and different pairs have different slots
(`resultSlot_injective`).
-/

namespace HolLambdas

/-- A job: one lambda over a range of rows. The source calls the upper bound `end`. -/
structure WorkItem where
  id_lambda : Nat
  start : Nat
  stop : Nat
deriving DecidableEq, Repr

/-- The job array, lambda by lambda. The bounds are computed in 64 bits, where
`rows * (c + 1)` with two `int` factors cannot overflow. -/
def rowJobs (rows lambdas chunks : Nat) : List WorkItem :=
  (List.range lambdas).flatMap fun l =>
    (List.range chunks).map fun c =>
      { id_lambda := l, start := rows * c / chunks, stop := rows * (c + 1) / chunks }

/-- The evaluations of a job, `for (i = start; i < end && i < rows; i++)`. -/
def WorkItem.tasks (rows : Nat) (job : WorkItem) : List (Nat × Nat) :=
  (List.range' job.start (min job.stop rows - job.start)).map fun i => (job.id_lambda, i)

/-- The evaluations of the job with a given number. -/
def jobTasks (rows : Nat) (jobs : List WorkItem) (j : Nat) : List (Nat × Nat) :=
  (jobs[j]?).elim [] (WorkItem.tasks rows)

def resultSlot (rows : Nat) (t : Nat × Nat) : Nat := t.1 * rows + t.2

/-- Every lambda with every row, lambda by lambda. -/
def allPairs (lambdas rows : Nat) : List (Nat × Nat) :=
  (List.range lambdas).flatMap fun l => (List.range rows).map fun i => (l, i)

variable {lambdas rows chunks : Nat} {t : Nat × Nat}

theorem mem_allPairs : t ∈ allPairs lambdas rows ↔ t.1 < lambdas ∧ t.2 < rows := by
  constructor
  · intro h
    obtain ⟨l, hl, h⟩ := List.mem_flatMap.mp h
    obtain ⟨i, hi, rfl⟩ := List.mem_map.mp h
    exact ⟨List.mem_range.mp hl, List.mem_range.mp hi⟩
  · intro h
    apply List.mem_flatMap.mpr
    exact ⟨t.1, List.mem_range.mpr h.1, List.mem_map.mpr ⟨t.2, List.mem_range.mpr h.2, rfl⟩⟩

theorem nodup_allPairs (lambdas rows : Nat) : (allPairs lambdas rows).Nodup := by
  apply List.nodup_flatMap.mpr
  constructor
  · intro l _
    exact List.nodup_range.map (fun i j h => congrArg Prod.snd h)
  · apply List.Pairwise.imp _ List.nodup_range
    intro l l' hne t ht ht'
    obtain ⟨i, _, rfl⟩ := List.mem_map.mp ht
    obtain ⟨i', _, heq⟩ := List.mem_map.mp ht'
    exact hne (congrArg Prod.fst heq).symm

theorem resultSlot_injective {t' : Nat × Nat} (h : t.2 < rows) (h' : t'.2 < rows)
    (heq : resultSlot rows t = resultSlot rows t') : t = t' := by
  have hdiv : ∀ u : Nat × Nat, u.2 < rows → resultSlot rows u / rows = u.1 := by
    intro u hu
    rw [resultSlot, Nat.add_comm, Nat.add_mul_div_right _ _ (by omega), Nat.div_eq_of_lt hu,
      Nat.zero_add]
  have hfst : t.1 = t'.1 := by
    rw [← hdiv t h, heq, hdiv t' h']
  have hsnd : t.2 = t'.2 := by
    simp only [resultSlot, hfst] at heq
    exact Nat.add_left_cancel heq
  exact Prod.ext hfst hsnd

/-! ## The ranges partition the rows -/

/-- Consecutive intervals with monotone bounds join up. -/
theorem flatMap_intervals {b : Nat → Nat} (hb : Monotone b) (n : Nat) :
    (List.range n).flatMap (fun c => List.range' (b c) (b (c + 1) - b c)) =
      List.range' (b 0) (b n - b 0) := by
  induction n with
  | zero => simp
  | succ n ih =>
    have h₀ : b 0 ≤ b n := hb (Nat.zero_le n)
    have h₁ : b n ≤ b (n + 1) := hb (Nat.le_succ n)
    rw [List.range_succ, List.flatMap_append, ih, List.flatMap_singleton]
    have hsplit : b (n + 1) - b 0 = (b n - b 0) + (b (n + 1) - b n) := by omega
    have hstart : b n = b 0 + (b n - b 0) := by omega
    rw [hsplit, ← List.range'_append_1, ← hstart]

theorem monotone_chunkBound (rows chunks : Nat) : Monotone fun c => rows * c / chunks := by
  intro c c' h
  exact Nat.div_le_div_right (Nat.mul_le_mul_left rows h)

/-- The jobs of one lambda cover each row once. -/
theorem flatMap_chunks (rows : Nat) (hchunks : 1 ≤ chunks) :
    (List.range chunks).flatMap (fun c =>
        List.range' (rows * c / chunks) (min (rows * (c + 1) / chunks) rows - rows * c / chunks)) =
      List.range rows := by
  have hcut : ∀ c ∈ List.range chunks,
      min (rows * (c + 1) / chunks) rows = rows * (c + 1) / chunks := by
    intro c hc
    apply Nat.min_eq_left
    apply Nat.div_le_of_le_mul
    rw [Nat.mul_comm chunks]
    exact Nat.mul_le_mul_left rows (List.mem_range.mp hc)
  have hjoin := flatMap_intervals (monotone_chunkBound rows chunks) chunks
  rw [Nat.mul_zero, Nat.zero_div, Nat.sub_zero, Nat.mul_div_cancel rows (by omega)] at hjoin
  rw [List.range_eq_range' (n := rows), ← hjoin]
  apply List.flatMap_congr
  intro c hc
  rw [hcut c hc]

/-- Over all jobs every pair of a lambda and a row occurs exactly once. -/
theorem flatMap_tasks_rowJobs (hchunks : 1 ≤ chunks) :
    (rowJobs rows lambdas chunks).flatMap (WorkItem.tasks rows) = allPairs lambdas rows := by
  rw [rowJobs, allPairs, List.flatMap_assoc]
  apply List.flatMap_congr
  intro l _
  rw [← flatMap_chunks rows hchunks, List.map_flatMap, List.flatMap_map]
  rfl

theorem length_rowJobs (rows lambdas chunks : Nat) :
    (rowJobs rows lambdas chunks).length = lambdas * chunks := by
  simp [rowJobs, List.length_flatMap]

/-- Going through the jobs by number or through the array is the same. -/
theorem flatMap_jobTasks (rows : Nat) (jobs : List WorkItem) :
    (List.range jobs.length).flatMap (jobTasks rows jobs) = jobs.flatMap (WorkItem.tasks rows) := by
  induction jobs with
  | nil => rfl
  | cons job jobs ih =>
    rw [List.length_cons, List.range_succ_eq_map, List.flatMap_cons, List.flatMap_cons,
      List.flatMap_map, ← ih]
    rfl

/-- No job goes beyond the rows. -/
theorem row_lt_of_mem_jobTasks {jobs : List WorkItem} {j : Nat} (h : t ∈ jobTasks rows jobs j) :
    t.2 < rows := by
  unfold jobTasks at h
  cases hj : jobs[j]? with
  | none => simp [hj] at h
  | some job =>
    rw [hj] at h
    obtain ⟨i, hi, rfl⟩ := List.mem_map.mp h
    have := List.mem_range'_1.mp hi
    simp only
    omega

end HolLambdas
