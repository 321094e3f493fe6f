import Mathlib.Algebra.BigOperators.Group.Finset.Basic
import Mathlib.Algebra.BigOperators.Group.Finset.Piecewise
import Mathlib.Algebra.Order.BigOperators.Group.Finset
import Mathlib.Data.Fintype.BigOperators
import Mathlib.Data.Multiset.AddSub

/-!
# Workers that claim jobs and fill slots

A pool of `k` workers over a shared memory. A job is a list of tasks. A worker
claims a job, evaluates its tasks one after the other, storing the result of
each in the task's slot before it goes on, and then looks for another job; when
it finds none it stops. How a job is found — a shared counter, a queue — and
what an evaluation reads is the client's business; this file is about what
follows from the workers' behaviour alone, for every interleaving of their steps.

The law is one of conservation: no task is lost and none is duplicated. The
tasks evaluated, together with those the workers still have in hand, are the
tasks of the claimed jobs, each as often as it occurs there; likewise for the
tasks stored. `Conserved` states this as an equation between multisets, and every
operation keeps it. So if the jobs have no task in common then no task is
evaluated twice (`Conserved.evaluated_nodup`), and once every worker has stopped
each has been evaluated (`Conserved.evaluated_perm`) and its slot holds its result
(`Filled.memory`).
-/

namespace HolLambdas

open Function

/-- Where a worker stands. -/
inductive WorkerPoint (τ β : Type) where
  | idle
  /-- In a job, the tasks still to be done. -/
  | busy (rest : List τ)
  /-- The result of a task is at hand but not stored yet. -/
  | storing (t : τ) (v : β) (rest : List τ)
  | stopped
deriving DecidableEq, Repr

namespace WorkerPoint

variable {τ β : Type}

/-- The tasks to be evaluated yet. -/
def toEval : WorkerPoint τ β → Multiset τ
  | idle => 0
  | busy rest => rest
  | storing _ _ rest => rest
  | stopped => 0

/-- The tasks to be stored yet. -/
def toStore : WorkerPoint τ β → Multiset τ
  | idle => 0
  | busy rest => rest
  | storing t _ rest => t ::ₘ rest
  | stopped => 0

end WorkerPoint

/-- The workers and the memory they fill. -/
structure WorkPool (k : Nat) (τ β κ : Type) where
  point : Fin k → WorkerPoint τ β
  memory : κ → Option β
  /-- History: the jobs claimed, the tasks evaluated, the tasks stored. -/
  claimed : List Nat
  evaluated : List (Fin k × τ)
  stored : List (Fin k × τ)

namespace WorkPool

variable {k : Nat} {τ β κ : Type}

/-- Nothing claimed, nothing stored. -/
def initial : WorkPool k τ β κ :=
  { point := fun _ => .idle, memory := fun _ => none, claimed := [], evaluated := [], stored := [] }

section Operations

variable (tasks : Nat → List τ) (slot : τ → κ) [DecidableEq κ] (p : WorkPool k τ β κ) (w : Fin k)

/-- Worker `w` takes job `j` on. -/
def claim (j : Nat) : WorkPool k τ β κ :=
  { p with
    point := update p.point w (.busy (tasks j))
    claimed := p.claimed ++ [j] }

def eval (t : τ) (v : β) (rest : List τ) : WorkPool k τ β κ :=
  { p with
    point := update p.point w (.storing t v rest)
    evaluated := p.evaluated ++ [(w, t)] }

def store (t : τ) (v : β) (rest : List τ) : WorkPool k τ β κ :=
  { p with
    point := update p.point w (.busy rest)
    memory := update p.memory (slot t) (some v)
    stored := p.stored ++ [(w, t)] }

/-- A job is done. -/
def finish : WorkPool k τ β κ :=
  { p with point := update p.point w .idle }

def stop : WorkPool k τ β κ :=
  { p with point := update p.point w .stopped }

end Operations

/-! ## Sums over the workers -/

section Sums

variable {γ M : Type} {f : Fin k → γ} {w : Fin k} {b : γ}

theorem sum_update [AddCommMonoid M] (g : γ → M) :
    (∑ v, g (update f w b v)) + g (f w) = (∑ v, g (f v)) + g b := by
  have hcomp : (fun v => g (update f w b v)) =
      update (fun v => g (f v)) w (g b) := by
    funext v
    exact apply_update (fun _ => g) f w b v
  have hold : g (f w) + ∑ v ∈ Finset.univ \ {w}, g (f v) = ∑ v, g (f v) := by
    rw [Finset.sdiff_singleton_eq_erase]
    exact Finset.add_sum_erase Finset.univ (fun v => g (f v)) (Finset.mem_univ w)
  rw [hcomp, Finset.sum_update_of_mem (Finset.mem_univ w), ← hold]
  rw [add_comm (g b), add_right_comm, add_comm (g (f w))]

/-- A worker gives something away. -/
theorem sum_update_out [AddCancelCommMonoid M] {x : M} (g : γ → M) (h : g (f w) = g b + x) :
    (∑ v, g (update f w b v)) + x = ∑ v, g (f v) := by
  have hsum := sum_update (f := f) (w := w) (b := b) g
  rw [h, add_comm (g b), ← add_assoc] at hsum
  exact add_right_cancel hsum

/-- A worker takes something on. -/
theorem sum_update_in [AddCancelCommMonoid M] {x : M} (g : γ → M) (h : g b = g (f w) + x) :
    (∑ v, g (update f w b v)) = (∑ v, g (f v)) + x := by
  have hsum := sum_update (f := f) (w := w) (b := b) g
  rw [h, add_comm (g (f w)), ← add_assoc] at hsum
  exact add_right_cancel hsum

/-- What a worker has in hand stays the same. -/
theorem sum_update_same [AddCancelCommMonoid M] (g : γ → M) (h : g b = g (f w)) :
    (∑ v, g (update f w b v)) = ∑ v, g (f v) := by
  have hin := sum_update_in (f := f) (w := w) (b := b) (x := 0) g (by rw [h, add_zero])
  rw [hin, add_zero]

end Sums

/-! ## No task is lost, none is duplicated -/

section Conservation

variable {tasks : Nat → List τ} {slot : τ → κ} {p : WorkPool k τ β κ} {w : Fin k}
  {t : τ} {v : β} {rest : List τ}

/-- The tasks evaluated and those in hand are the tasks of the claimed jobs;
likewise for the tasks stored. -/
structure Conserved (tasks : Nat → List τ) (p : WorkPool k τ β κ) : Prop where
  evaluated : (↑(p.evaluated.map Prod.snd) : Multiset τ) + ∑ w, (p.point w).toEval =
    ↑(p.claimed.flatMap tasks)
  stored : (↑(p.stored.map Prod.snd) : Multiset τ) + ∑ w, (p.point w).toStore =
    ↑(p.claimed.flatMap tasks)

theorem coe_cons_add (t : τ) (rest : List τ) : (↑(t :: rest) : Multiset τ) = ↑rest + {t} := by
  rw [← Multiset.cons_coe, ← Multiset.singleton_add, add_comm]

/-- A task moves from a worker's hand to the history. -/
theorem coe_snoc_add (l : List (Fin k × τ)) (w : Fin k) (t : τ) (x : Multiset τ) :
    (↑((l ++ [(w, t)]).map Prod.snd) : Multiset τ) + x = ↑(l.map Prod.snd) + (x + {t}) := by
  rw [List.map_append, ← Multiset.coe_add, add_assoc, add_comm x]
  rfl

theorem conserved_initial : Conserved tasks (initial : WorkPool k τ β κ) := by
  constructor <;> simp [initial, WorkerPoint.toEval, WorkerPoint.toStore]

variable (h : Conserved tasks p)

include h

theorem Conserved.claim (hw : p.point w = .idle) (j : Nat) :
    Conserved tasks (p.claim tasks w j) := by
  have hclaimed : (↑((p.claimed ++ [j]).flatMap tasks) : Multiset τ) =
      ↑(p.claimed.flatMap tasks) + ↑(tasks j) := by
    simp
  constructor
  · have hsum := sum_update_in (f := p.point) (w := w) (b := .busy (tasks j)) (x := ↑(tasks j))
      WorkerPoint.toEval (by simp [hw, WorkerPoint.toEval])
    simp only [WorkPool.claim]
    rw [hsum, hclaimed, ← h.evaluated, add_assoc]
  · have hsum := sum_update_in (f := p.point) (w := w) (b := .busy (tasks j)) (x := ↑(tasks j))
      WorkerPoint.toStore (by simp [hw, WorkerPoint.toStore])
    simp only [WorkPool.claim]
    rw [hsum, hclaimed, ← h.stored, add_assoc]

theorem Conserved.eval (hw : p.point w = .busy (t :: rest)) (v : β) :
    Conserved tasks (p.eval w t v rest) := by
  constructor
  · have hsum := sum_update_out (f := p.point) (w := w) (b := .storing t v rest) (x := {t})
      WorkerPoint.toEval (by rw [hw]; exact coe_cons_add t rest)
    simp only [WorkPool.eval]
    rw [coe_snoc_add, hsum, h.evaluated]
  · have hsum := sum_update_same (f := p.point) (w := w) (b := .storing t v rest)
      WorkerPoint.toStore (by simp [hw, WorkerPoint.toStore])
    simp only [WorkPool.eval]
    rw [hsum, h.stored]

theorem Conserved.store [DecidableEq κ] (hw : p.point w = .storing t v rest) :
    Conserved tasks (p.store slot w t v rest) := by
  constructor
  · have hsum := sum_update_same (f := p.point) (w := w) (b := .busy rest)
      WorkerPoint.toEval (by simp [hw, WorkerPoint.toEval])
    simp only [WorkPool.store]
    rw [hsum, h.evaluated]
  · have hsum := sum_update_out (f := p.point) (w := w) (b := .busy rest) (x := {t})
      WorkerPoint.toStore (by rw [hw]; exact coe_cons_add t rest)
    simp only [WorkPool.store]
    rw [coe_snoc_add, hsum, h.stored]

/-- A worker with empty hands may move on. -/
theorem Conserved.move {b : WorkerPoint τ β}
    (heval : b.toEval = (p.point w).toEval) (hstore : b.toStore = (p.point w).toStore) :
    Conserved tasks { p with point := update p.point w b } := by
  constructor
  · rw [← h.evaluated]
    congr 1
    exact sum_update_same WorkerPoint.toEval heval
  · rw [← h.stored]
    congr 1
    exact sum_update_same WorkerPoint.toStore hstore

theorem Conserved.finish (hw : p.point w = .busy []) : Conserved tasks (p.finish w) :=
  h.move (by simp [hw, WorkerPoint.toEval]) (by simp [hw, WorkerPoint.toStore])

theorem Conserved.stop (hw : p.point w = .idle) : Conserved tasks (p.stop w) :=
  h.move (by simp [hw, WorkerPoint.toEval]) (by simp [hw, WorkerPoint.toStore])

theorem Conserved.stored_le :
    (↑(p.stored.map Prod.snd) : Multiset τ) ≤ ↑(p.claimed.flatMap tasks) := by
  rw [← h.stored]
  exact Multiset.le_add_right _ _

theorem Conserved.mem_of_stored (ht : t ∈ p.stored.map Prod.snd) : t ∈ p.claimed.flatMap tasks :=
  Multiset.mem_coe.mp (Multiset.mem_of_le h.stored_le (Multiset.mem_coe.mpr ht))

/-- What a worker has in hand comes from a claimed job. -/
theorem Conserved.mem_of_toEval (ht : t ∈ (p.point w).toEval) : t ∈ p.claimed.flatMap tasks := by
  have hsum : t ∈ ∑ w, (p.point w).toEval := Multiset.mem_sum.mpr ⟨w, Finset.mem_univ w, ht⟩
  rw [← Multiset.mem_coe, ← h.evaluated]
  exact Multiset.mem_add.mpr (.inr hsum)

theorem Conserved.mem_of_toStore (ht : t ∈ (p.point w).toStore) : t ∈ p.claimed.flatMap tasks := by
  have hsum : t ∈ ∑ w, (p.point w).toStore := Multiset.mem_sum.mpr ⟨w, Finset.mem_univ w, ht⟩
  rw [← Multiset.mem_coe, ← h.stored]
  exact Multiset.mem_add.mpr (.inr hsum)

end Conservation

/-! ## What the slots hold -/

section Slots

variable {slot : τ → κ} {good : τ → β → Prop} {p : WorkPool k τ β κ} {w : Fin k}
  {t : τ} {v : β} {rest : List τ}

/-- Every result at hand or in its slot is a good one for its task, and nothing
else has been written. -/
structure Filled (slot : τ → κ) (good : τ → β → Prop) (p : WorkPool k τ β κ) : Prop where
  atHand : ∀ w t v rest, p.point w = .storing t v rest → good t v
  memory : ∀ t ∈ p.stored.map Prod.snd, ∃ v, p.memory (slot t) = some v ∧ good t v
  written : ∀ a v, p.memory a = some v → ∃ t ∈ p.stored.map Prod.snd, slot t = a

theorem filled_initial : Filled slot good (initial : WorkPool k τ β κ) := by
  constructor
  · intro w t v rest h
    simp [initial] at h
  · intro t h
    simp [initial] at h
  · intro a v h
    simp [initial] at h

section

variable (h : Filled slot good p)

include h

/-- The results at hand after one worker has moved. -/
theorem Filled.atHand_move {b : WorkerPoint τ β} (hb : ∀ t v rest, b = .storing t v rest → good t v)
    (u : Fin k) (t : τ) (v : β) (rest : List τ)
    (hu : update p.point w b u = .storing t v rest) : good t v := by
  by_cases huw : u = w
  · subst huw
    rw [update_self] at hu
    exact hb t v rest hu
  · rw [update_of_ne huw] at hu
    exact h.atHand u t v rest hu

theorem Filled.claim (tasks : Nat → List τ) (j : Nat) : Filled slot good (p.claim tasks w j) :=
  ⟨h.atHand_move (by intro t v rest hb; cases hb), h.memory, h.written⟩

theorem Filled.eval (hv : good t v) : Filled slot good (p.eval w t v rest) :=
  ⟨h.atHand_move (by intro t' v' rest' hb; cases hb; exact hv), h.memory, h.written⟩

theorem Filled.finish : Filled slot good (p.finish w) :=
  ⟨h.atHand_move (by intro t v rest hb; cases hb), h.memory, h.written⟩

theorem Filled.stop : Filled slot good (p.stop w) :=
  ⟨h.atHand_move (by intro t v rest hb; cases hb), h.memory, h.written⟩

end

theorem mem_stored_store [DecidableEq κ] {t' : τ} :
    t' ∈ (p.store slot w t v rest).stored.map Prod.snd ↔
      t' ∈ p.stored.map Prod.snd ∨ t' = t := by
  simp [WorkPool.store]

/-- The slots of other tasks stay as they are, for they are other slots. -/
theorem Filled.store [DecidableEq κ] (h : Filled slot good p) (hw : p.point w = .storing t v rest)
    (hslot : ∀ t' ∈ p.stored.map Prod.snd, slot t' = slot t → t' = t) :
    Filled slot good (p.store slot w t v rest) := by
  have hv : good t v := h.atHand w t v rest hw
  refine ⟨h.atHand_move (by intro t' v' rest' hb; cases hb), ?_, ?_⟩
  · intro t' ht'
    rw [mem_stored_store] at ht'
    simp only [WorkPool.store]
    by_cases heq : slot t' = slot t
    · have htt : t' = t := ht'.elim (fun hold => hslot t' hold heq) id
      subst htt
      exact ⟨v, by rw [update_self], hv⟩
    · have hold : t' ∈ p.stored.map Prod.snd := by
        cases ht' with
        | inl hold => exact hold
        | inr hnew => exact absurd (congrArg slot hnew) heq
      rw [update_of_ne heq]
      exact h.memory t' hold
  · intro a v' ha
    simp only [WorkPool.store] at ha
    by_cases heq : a = slot t
    · exact ⟨t, mem_stored_store.mpr (.inr rfl), heq.symm⟩
    · rw [update_of_ne heq] at ha
      obtain ⟨t', ht', hslot'⟩ := h.written a v' ha
      exact ⟨t', mem_stored_store.mpr (.inl ht'), hslot'⟩

end Slots

/-! ## Workers that have stopped -/

section Stopped

variable {p q : WorkPool k τ β κ} {w : Fin k} {b : WorkerPoint τ β}

def stoppedWeight : WorkerPoint τ β → Nat
  | .stopped => 1
  | _ => 0

theorem stoppedWeight_eq_zero (hb : b ≠ .stopped) : stoppedWeight b = 0 := by
  cases b with
  | stopped => exact absurd rfl hb
  | idle => rfl
  | busy rest => rfl
  | storing t v rest => rfl

/-- How many workers have stopped. -/
def stoppedCount (p : WorkPool k τ β κ) : Nat := ∑ w, stoppedWeight (p.point w)

theorem stoppedCount_stop (hw : p.point w = .idle) : (p.stop w).stoppedCount = p.stoppedCount + 1 :=
  sum_update_in stoppedWeight (by simp [hw, stoppedWeight])

/-- A step within the loop stops nobody. -/
theorem stoppedCount_move (hq : q.point = update p.point w b) (hb : b ≠ .stopped)
    (hw : p.point w ≠ .stopped) : q.stoppedCount = p.stoppedCount := by
  rw [stoppedCount, hq]
  apply sum_update_same
  rw [stoppedWeight_eq_zero hb, stoppedWeight_eq_zero hw]

theorem stopped_of_move (hq : q.point = update p.point w b) (hb : b ≠ .stopped)
    {u : Fin k} (hu : q.point u = .stopped) : p.point u = .stopped := by
  rw [hq] at hu
  by_cases huw : u = w
  · subst huw
    rw [update_self] at hu
    exact absurd hu hb
  · rwa [update_of_ne huw] at hu

/-- While one runs, not all have stopped. -/
theorem stoppedCount_lt (hw : p.point w ≠ .stopped) : p.stoppedCount < k := by
  have hle : ∀ v ∈ Finset.univ, stoppedWeight (p.point v) ≤ 1 := by
    intro v _
    cases p.point v <;> simp [stoppedWeight]
  have hlt : stoppedWeight (p.point w) < 1 := by
    rw [stoppedWeight_eq_zero hw]
    exact Nat.one_pos
  have hsum : p.stoppedCount < ∑ _v : Fin k, 1 :=
    Finset.sum_lt_sum hle ⟨w, Finset.mem_univ w, hlt⟩
  simpa using hsum

end Stopped

/-! ## Work still to be done

Each step of a worker lowers `work`, except that a claim brings in a job; the
job's own weight is more than what the claim adds. A client that also weighs the
jobs not claimed yet gets a measure that every step lowers. -/

section Work

variable {p : WorkPool k τ β κ} {w : Fin k} {t : τ} {v : β} {rest : List τ}

/-- Two steps for each task, one to leave the job, one to stop. -/
def jobWeight (ts : List τ) : Nat := 2 * ts.length + 2

def pointWeight : WorkerPoint τ β → Nat
  | .idle => 1
  | .busy rest => jobWeight rest
  | .storing _ _ rest => jobWeight rest + 1
  | .stopped => 0

/-- The steps left to the workers. -/
def work (p : WorkPool k τ β κ) : Nat := ∑ w, pointWeight (p.point w)

theorem work_claim (tasks : Nat → List τ) (hw : p.point w = .idle) (j : Nat) :
    (p.claim tasks w j).work + 1 = p.work + jobWeight (tasks j) := by
  have hsum := sum_update (f := p.point) (w := w) (b := .busy (tasks j)) pointWeight
  rw [hw] at hsum
  exact hsum

theorem work_eval (hw : p.point w = .busy (t :: rest)) : (p.eval w t v rest).work + 1 = p.work :=
  sum_update_out pointWeight (by simp [hw, pointWeight, jobWeight]; omega)

theorem work_store [DecidableEq κ] (slot : τ → κ) (hw : p.point w = .storing t v rest) :
    (p.store slot w t v rest).work + 1 = p.work :=
  sum_update_out pointWeight (by simp [hw, pointWeight])

theorem work_finish (hw : p.point w = .busy []) : (p.finish w).work + 1 = p.work :=
  sum_update_out pointWeight (by simp [hw, pointWeight, jobWeight])

theorem work_stop (hw : p.point w = .idle) : (p.stop w).work + 1 = p.work :=
  sum_update_out pointWeight (by simp [hw, pointWeight])

end Work

end WorkPool

end HolLambdas
