import HolLambdas.ForkJoin
import HolLambdas.Kmeans.Scan
import Mathlib.Algebra.Field.Defs
import Mathlib.Algebra.BigOperators.Group.List.Basic
import Mathlib.Data.List.FinRange
import Mathlib.Algebra.BigOperators.Group.List.Lemmas
import Mathlib.Algebra.BigOperators.Group.Finset.Piecewise
import Mathlib.Algebra.Field.Rat

/-!
# The iteration of `kmeans_v2`

An iteration assigns each point to a centroid and then moves each centroid to the mean of its
points. The points are split among threads; each has an accumulator of its own for sums and
counts, and a flag for "some assignment changed", and they share the array of assignments. After
the join the accumulators are added up. The loop ends when nothing changed.

The arrays are flat, as in the source: column `d` of centroid `ci` is cell
`ci * natts_centroid + d`, and the accumulators are addressed by `ci * natts_point + d`. Here an
array is a function on all of `Nat`, and what is allocated is another matter (`Kmeans.Buffers`).
Numbers are exact. The compiled distance functions are a parameter; they are compiled anew in
each iteration and may depend on all of the current centroids.

`lloydStep` is one iteration without threads. Every interleaving of the threads does the same,
for every number of threads, so the runs agree (`run_eq_single`).
-/

namespace HolLambdas.Kmeans

variable {K α : Type}

/-! ## The call -/

/-- A call, after the two tables have been read. -/
structure Call (K α : Type) where
  num_points : Nat
  natts_point : Nat
  points : Nat → K
  num_centroids : Nat
  natts_centroid : Nat
  centroids : Nat → K
  maxit : Int
  DBL_MAX : α
  /-- The function compiled for a centroid of the table, applied to a point. -/
  dist : List (List K) → Nat → List K → Distance α

/-- `KMeansV2WorkItem`, the part that the thread changes. -/
structure Worker (K : Type) where
  coordsAgg : Nat → K
  assignCount : Nat → Nat
  changesMade : Bool

/-- The variables of the main loop. -/
structure Progress (K : Type) where
  centroids : Nat → K
  assignments : Nat → Int
  changed : Bool
  iter : Nat

namespace Call

section Definitions

variable (k : Call K α)

/-- The columns of a point. -/
def point (pi : Nat) : List K :=
  (List.range k.natts_point).map fun d => k.points (pi * k.natts_point + d)

/-- The rows of the centroid array. -/
def table (centroids : Nat → K) : List (List K) :=
  (List.range k.num_centroids).map fun ci =>
    (List.range k.natts_centroid).map fun d => centroids (ci * k.natts_centroid + d)

/-- `best_ci` after the scan. -/
def best [LinearOrder α] (centroids : Nat → K) (pi : Nat) : Nat :=
  nearest k.DBL_MAX
    ((List.range k.num_centroids).map fun ci => k.dist (k.table centroids) ci (k.point pi))

/-- `nthreads` after the two adjustments. -/
def threads (nthreads : Int) : Nat :=
  let nthreads : Int :=
    if nthreads > k.num_points ∧ k.num_points > 0 then k.num_points else nthreads
  (if nthreads < 1 then 1 else nthreads).toNat

/-- `start` of thread `t`, and `end` of the thread before. -/
def cut (n t : Nat) : Nat :=
  k.num_points * t / n

/-- The loop goes on while `pi < end && pi < num_points`. -/
def stop (n t : Nat) : Nat :=
  min (k.cut n (t + 1)) k.num_points

end Definitions

variable (k : Call K α)

include k

theorem point_getElem? {pi d : Nat} (hd : d < k.natts_point) :
    (k.point pi)[d]? = some (k.points (pi * k.natts_point + d)) := by
  simp [point, hd]

theorem point_length (pi : Nat) : (k.point pi).length = k.natts_point := by
  simp [point]

theorem cut_mono (n : Nat) : Monotone (k.cut n) :=
  fun _ _ h => Nat.div_le_div_right (Nat.mul_le_mul_left _ h)

theorem cut_zero (n : Nat) : k.cut n 0 = 0 := by
  simp [cut]

theorem cut_self {n : Nat} (hn : 0 < n) : k.cut n n = k.num_points :=
  Nat.mul_div_cancel _ hn

theorem stop_eq {n t : Nat} (ht : t < n) : k.stop n t = k.cut n (t + 1) := by
  have hle := k.cut_mono n (show t + 1 ≤ n from ht)
  rw [k.cut_self (by omega)] at hle
  exact Nat.min_eq_left hle

theorem threads_pos (nthreads : Int) : 0 < k.threads nthreads := by
  unfold threads
  dsimp only
  split <;> split <;> omega

end Call

section Iteration

variable [Field K]

/-- `coordsAgg[base + d] += p[d]` -/
def addRow (coordsAgg : Nat → K) (base : Nat) (p : List K) : Nat → K :=
  p.zipIdx.foldl
    (fun agg x => Function.update agg (base + x.2) (agg (base + x.2) + x.1)) coordsAgg

/-- The buffers of a thread at the start of an iteration. -/
def Worker.reset : Worker K :=
  { coordsAgg := fun _ => 0, assignCount := fun _ => 0, changesMade := false }

/-- What the loop of `kmeans_v2_worker` adds for a point that goes to `best_ci`. -/
def Worker.add (w : Worker K) (natts_point best_ci : Nat) (p : List K) (changes : Bool) :
    Worker K :=
  { coordsAgg := addRow w.coordsAgg (best_ci * natts_point) p
    assignCount := Function.update w.assignCount best_ci (w.assignCount best_ci + 1)
    changesMade := w.changesMade || changes }

/-- `total_count` -/
def totalCount {n : Nat} (ws : Fin n → Worker K) (ci : Nat) : Nat :=
  (List.finRange n).foldl (fun total t => total + (ws t).assignCount ci) 0

/-- `total_sum[d]` -/
def totalSum {n : Nat} (natts_point : Nat) (ws : Fin n → Worker K) (ci d : Nat) : K :=
  (List.finRange n).foldl (fun total t => total + (ws t).coordsAgg (ci * natts_point + d)) 0

/-- `changed` -/
def anyChanges {n : Nat} (ws : Fin n → Worker K) : Bool :=
  (List.finRange n).foldl (fun changed t => changed || (ws t).changesMade) false

namespace Call

variable (k : Call K α)

/-- What the threads do in an iteration. -/
def phase [LinearOrder α] (n : Nat) (centroids : Nat → K) : ForkJoin n Int (Worker K) where
  lo t := k.cut n t
  hi t := k.stop n t
  -- written only if it is something else
  out pi _ := k.best centroids pi
  acc pi assigned w :=
    w.add k.natts_point (k.best centroids pi) (k.point pi) (assigned ≠ k.best centroids pi)
  disjoint := by
    intro t u i ht ht' hu hu'
    rw [k.stop_eq t.isLt] at ht'
    rw [k.stop_eq u.isLt] at hu'
    exact Fin.ext (ForkJoin.between_disjoint (k.cut_mono n) ht ht' hu hu')

/-- The new centroid `ci`: its first `natts_point` columns are overwritten. -/
def setMean (count : Nat → Nat) (sum : Nat → Nat → K) (centroids : Nat → K) (ci : Nat) : Nat → K :=
  (List.range k.natts_point).foldl
    (fun centroids d =>
      Function.update centroids (ci * k.natts_centroid + d) (sum ci d / (count ci : K))) centroids

/-- The loop over the centroids after the join. -/
def updateCentroids (count : Nat → Nat) (sum : Nat → Nat → K) (centroids : Nat → K) : Nat → K :=
  (List.range k.num_centroids).foldl
    (fun centroids ci => if count ci > 0 then k.setMean count sum centroids ci else centroids)
    centroids

def begin : Progress K :=
  { centroids := k.centroids, assignments := fun _ => -1, changed := true, iter := 0 }

/-- After the join. -/
def afterJoin {n : Nat} (p : Progress K) (s : ForkJoin.State n Int (Worker K)) : Progress K :=
  { centroids := k.updateCentroids (totalCount s.loc) (totalSum k.natts_point s.loc) p.centroids
    assignments := s.slots
    changed := anyChanges s.loc
    iter := p.iter + 1 }

/-- An iteration: how things stand at its start, and what the threads have left when they are
joined. -/
structure Iteration (K : Type) (n : Nat) where
  start : Progress K
  joined : ForkJoin.State n Int (Worker K)

/-- The main loop from some iteration on, with the iterations that are made. -/
inductive Run [LinearOrder α] (n : Nat) :
    Progress K → List (Iteration K n) → Progress K → Prop
  | stop {p : Progress K} : ¬ ((p.iter : Int) < k.maxit ∧ p.changed = true) → Run n p [] p
  | next {p q : Progress K} {s : ForkJoin.State n Int (Worker K)} {log : List (Iteration K n)} :
      (p.iter : Int) < k.maxit → p.changed = true →
      Reachable (k.phase n p.centroids).step (fun _ _ => True)
        ((k.phase n p.centroids).init p.assignments Worker.reset) s →
      (k.phase n p.centroids).Final s →
      Run n (k.afterJoin p s) log q → Run n p (⟨p, s⟩ :: log) q

end Call

/-! ## What a thread accumulates -/

/-- Folding an addition. -/
theorem foldl_add {ι M : Type} [AddCommMonoid M] (f : ι → M) (l : List ι) (a : M) :
    l.foldl (fun total x => total + f x) a = a + (l.map f).sum := by
  induction l generalizing a with
  | nil => simp
  | cons x l ih => rw [List.foldl_cons, ih, List.map_cons, List.sum_cons, add_assoc]

theorem foldl_or {ι : Type} (f : ι → Bool) (l : List ι) (a : Bool) :
    l.foldl (fun found x => found || f x) a = (a || l.any f) := by
  induction l generalizing a with
  | nil => simp
  | cons x l ih => rw [List.foldl_cons, ih, List.any_cons, Bool.or_assoc]

theorem addRow_append (agg : Nat → K) (base : Nat) (p : List K) (x : K) :
    addRow agg base (p ++ [x]) = Function.update (addRow agg base p) (base + p.length)
      (addRow agg base p (base + p.length) + x) := by
  simp [addRow, List.zipIdx_append]

/-- Only the cells of the row change. -/
theorem addRow_apply (agg : Nat → K) (base : Nat) (p : List K) (i : Nat) :
    addRow agg base p i = agg i + (if base ≤ i then (p[i - base]?).getD 0 else 0) := by
  induction p using List.reverseRecOn with
  | nil => simp [addRow]
  | append_singleton p x ih =>
    rw [addRow_append]
    by_cases hi : i = base + p.length
    · subst hi
      rw [Function.update_self, ih]
      simp
    · rw [Function.update_of_ne hi, ih]
      by_cases hle : base ≤ i
      · rw [if_pos hle, if_pos hle]
        rcases Nat.lt_or_ge (i - base) p.length with hlt | hge
        · rw [List.getElem?_append_left hlt]
        · rw [List.getElem?_eq_none hge, List.getElem?_eq_none (by simp; omega)]
      · rw [if_neg hle, if_neg hle]

namespace Call

variable (k : Call K α)

/-- Rows of the same length do not overlap. -/
theorem addRow_cell (agg : Nat → K) (b pi ci : Nat) {d : Nat} (hd : d < k.natts_point) :
    addRow agg (b * k.natts_point) (k.point pi) (ci * k.natts_point + d) =
      agg (ci * k.natts_point + d) +
        (if b = ci then k.points (pi * k.natts_point + d) else 0) := by
  rw [addRow_apply]
  congr 1
  rcases Nat.lt_trichotomy b ci with h | h | h
  · -- the row of `b` ends before
    have hle : (b + 1) * k.natts_point ≤ ci * k.natts_point := Nat.mul_le_mul_right _ h
    rw [Nat.succ_mul] at hle
    rw [if_neg (by omega : b ≠ ci), if_pos (by omega), List.getElem?_eq_none]
    · rfl
    · rw [point_length]
      omega
  · subst h
    rw [if_pos rfl, if_pos (Nat.le_add_right _ _), Nat.add_sub_cancel_left, k.point_getElem? hd]
    rfl
  · have hle : (ci + 1) * k.natts_point ≤ b * k.natts_point := Nat.mul_le_mul_right _ h
    rw [Nat.succ_mul] at hle
    rw [if_neg (by omega : b ≠ ci), if_neg (by omega)]

/-- The part of a list of points that a centroid gets: how many, and the sum of a column. -/
def countOn (b : Nat → Nat) (l : List Nat) (ci : Nat) : Nat :=
  (l.map fun pi => if b pi = ci then 1 else 0).sum

def sumOn (b : Nat → Nat) (l : List Nat) (ci d : Nat) : K :=
  (l.map fun pi => if b pi = ci then k.points (pi * k.natts_point + d) else 0).sum

/-- Is one of the points assigned to something else? -/
def changesOn (assignments : Nat → Int) (b : Nat → Nat) (l : List Nat) : Bool :=
  l.any fun pi => assignments pi ≠ b pi

section Accumulate

variable (b : Nat → Nat) (assignments : Nat → Int) (l : List Nat)

/-- The loop of a thread over points. -/
def accumulate (w : Worker K) : Worker K :=
  l.foldl (fun w pi => w.add k.natts_point (b pi) (k.point pi) (assignments pi ≠ b pi)) w

theorem accumulate_assignCount (w : Worker K) (ci : Nat) :
    (k.accumulate b assignments l w).assignCount ci = w.assignCount ci + countOn b l ci := by
  induction l generalizing w with
  | nil => rfl
  | cons pi l ih =>
    rw [accumulate, List.foldl_cons, ← accumulate, ih, countOn, countOn, List.map_cons,
      List.sum_cons, ← add_assoc]
    congr 1
    by_cases h : b pi = ci
    · subst h
      simp [Worker.add]
    · simp [Worker.add, h, Function.update_of_ne (Ne.symm h)]

theorem accumulate_coordsAgg (w : Worker K) (ci : Nat) {d : Nat} (hd : d < k.natts_point) :
    (k.accumulate b assignments l w).coordsAgg (ci * k.natts_point + d) =
      w.coordsAgg (ci * k.natts_point + d) + k.sumOn b l ci d := by
  induction l generalizing w with
  | nil => simp [accumulate, sumOn]
  | cons pi l ih =>
    rw [accumulate, List.foldl_cons, ← accumulate, ih, sumOn, sumOn, List.map_cons,
      List.sum_cons, ← add_assoc]
    exact congrArg (· + _) (k.addRow_cell w.coordsAgg (b pi) pi ci hd)

theorem accumulate_changesMade (w : Worker K) :
    (k.accumulate b assignments l w).changesMade =
      (w.changesMade || changesOn assignments b l) := by
  induction l generalizing w with
  | nil => simp [accumulate, changesOn]
  | cons pi l ih =>
    rw [accumulate, List.foldl_cons, ← accumulate, ih, changesOn, changesOn, List.any_cons,
      ← Bool.or_assoc]
    rfl

end Accumulate

/-! ## One iteration without threads -/

/-- One iteration. -/
def lloydStep [LinearOrder α] (p : Progress K) : Progress K :=
  { centroids := k.updateCentroids (countOn (k.best p.centroids) (List.range k.num_points))
      (k.sumOn (k.best p.centroids) (List.range k.num_points)) p.centroids
    assignments := fun pi =>
      if pi < k.num_points then (k.best p.centroids pi : Int) else p.assignments pi
    changed := changesOn p.assignments (k.best p.centroids) (List.range k.num_points)
    iter := p.iter + 1 }

/-- At most `fuel` iterations. -/
def lloyd [LinearOrder α] : Nat → Progress K → Progress K
  | 0, p => p
  | fuel + 1, p => if p.changed then lloyd fuel (k.lloydStep p) else p

/-- How many iterations are left. -/
def left (p : Progress K) : Nat :=
  (k.maxit - p.iter).toNat

/-! ## The threads together -/

section Merge

variable [LinearOrder α] {n : Nat} (p : Progress K)

/-- The accumulators after the join. -/
def workers (n : Nat) (p : Progress K) (t : Fin n) : Worker K :=
  (k.phase n p.centroids).localAt p.assignments Worker.reset t ((k.phase n p.centroids).hi t)

theorem workers_eq (t : Fin n) :
    k.workers n p t = k.accumulate (k.best p.centroids) p.assignments
      (ForkJoin.between (k.cut n t) (k.cut n (t + 1))) Worker.reset := by
  rw [← k.stop_eq t.isLt]
  rfl

omit [Field K] [LinearOrder α] in
/-- The ranges of the threads, one after the other, are all the points. -/
theorem flatMap_threads (hn : 0 < n) :
    (List.finRange n).flatMap (fun t : Fin n => ForkJoin.between (k.cut n t) (k.cut n (t + 1))) =
      List.range k.num_points := by
  have hall := ForkJoin.flatMap_between (k.cut_mono n) (k.cut_zero n) n
  rwa [k.cut_self hn, ← List.map_coe_finRange_eq_range, List.flatMap_map] at hall

omit [Field K] [LinearOrder α] in
/-- A sum over the threads of sums over their points. -/
theorem sum_threads {M : Type} [AddCommMonoid M] (hn : 0 < n) (f : Nat → M) :
    ((List.finRange n).map fun t : Fin n =>
        ((ForkJoin.between (k.cut n t) (k.cut n (t + 1))).map f).sum).sum =
      ((List.range k.num_points).map f).sum := by
  rw [← k.flatMap_threads hn, List.map_flatMap, List.flatMap_def, List.sum_flatten, List.map_map]
  rfl

theorem totalCount_workers (hn : 0 < n) (ci : Nat) :
    totalCount (k.workers n p) ci =
      countOn (k.best p.centroids) (List.range k.num_points) ci := by
  rw [totalCount, foldl_add, zero_add, countOn, ← k.sum_threads hn]
  refine congrArg List.sum (List.map_congr_left fun t _ => ?_)
  rw [workers_eq, accumulate_assignCount]
  exact Nat.zero_add _

theorem totalSum_workers (hn : 0 < n) (ci : Nat) {d : Nat} (hd : d < k.natts_point) :
    totalSum k.natts_point (k.workers n p) ci d =
      k.sumOn (k.best p.centroids) (List.range k.num_points) ci d := by
  rw [totalSum, foldl_add, zero_add, sumOn, ← k.sum_threads hn]
  refine congrArg List.sum (List.map_congr_left fun t _ => ?_)
  rw [workers_eq, accumulate_coordsAgg _ _ _ _ _ _ hd]
  exact zero_add _

theorem anyChanges_workers (hn : 0 < n) :
    anyChanges (k.workers n p) =
      changesOn p.assignments (k.best p.centroids) (List.range k.num_points) := by
  rw [changesOn, ← k.flatMap_threads hn, List.any_flatMap, anyChanges, foldl_or, Bool.false_or]
  refine congrArg (fun f => List.any _ f) (funext fun t => ?_)
  rw [workers_eq, accumulate_changesMade]
  rfl

omit [LinearOrder α] in
/-- The update loop only reads the sums of the point's columns. -/
theorem updateCentroids_congr {count count' : Nat → Nat} {sum sum' : Nat → Nat → K}
    (hcount : ∀ ci, count ci = count' ci)
    (hsum : ∀ ci d, d < k.natts_point → sum ci d = sum' ci d) (centroids : Nat → K) :
    k.updateCentroids count sum centroids = k.updateCentroids count' sum' centroids := by
  refine List.foldl_ext _ _ _ fun centroids ci _ => ?_
  rw [hcount]
  split
  · refine List.foldl_ext _ _ _ fun centroids d hd => ?_
    rw [hcount, hsum ci d (List.mem_range.mp hd)]
  · rfl

/-- Whatever the order of the threads' steps, an iteration is `lloydStep`. -/
theorem afterJoin_eq (hn : 0 < n) {s : ForkJoin.State n Int (Worker K)}
    (hs : Reachable (k.phase n p.centroids).step (fun _ _ => True)
      ((k.phase n p.centroids).init p.assignments Worker.reset) s)
    (hfinal : (k.phase n p.centroids).Final s) :
    s.loc = k.workers n p ∧ k.afterJoin p s = k.lloydStep p := by
  have hout := ((k.phase n p.centroids).computes p.assignments Worker.reset).2 s hs hfinal
  obtain ⟨hslots, hloc⟩ := Prod.mk.inj hout
  have hloc : s.loc = k.workers n p := hloc
  refine ⟨hloc, ?_⟩
  have hslots : s.slots = fun pi =>
      if pi < k.num_points then (k.best p.centroids pi : Int) else p.assignments pi := by
    rw [hslots]
    funext pi
    have hin : (∃ t, (k.phase n p.centroids).lo t ≤ pi ∧ pi < (k.phase n p.centroids).hi t) ↔
        pi < k.num_points := by
      rw [← k.cut_self hn, ← ForkJoin.exists_between (k.cut_mono n) (k.cut_zero n)]
      refine exists_congr fun t => ?_
      rw [← k.stop_eq t.isLt]
      rfl
    simp only [ForkJoin.slotAfter, hin]
    rfl
  unfold afterJoin lloydStep
  rw [hslots, hloc, k.anyChanges_workers p hn]
  exact congrArg (fun c => Progress.mk c _ _ _)
    (k.updateCentroids_congr (k.totalCount_workers p hn)
      (fun ci d hd => k.totalSum_workers p hn ci hd) p.centroids)

end Merge

/-! ## Counts -/

/-- Each point is counted once. -/
theorem sum_countOn {b : Nat → Nat} {C : Nat} (l : List Nat) (h : ∀ pi ∈ l, b pi < C) :
    ∑ ci ∈ Finset.range C, countOn b l ci = l.length := by
  induction l with
  | nil => exact Finset.sum_eq_zero fun _ _ => rfl
  | cons pi l ih =>
    obtain ⟨hpi, hl⟩ := List.forall_mem_cons.mp h
    have hcons : ∀ ci, countOn b (pi :: l) ci = (if b pi = ci then 1 else 0) + countOn b l ci :=
      fun _ => rfl
    rw [Finset.sum_congr rfl fun ci _ => hcons ci, Finset.sum_add_distrib, ih hl, Finset.sum_ite_eq,
      if_pos (Finset.mem_range.mpr hpi), List.length_cons, Nat.add_comm]

variable [LinearOrder α]

omit [Field K] in
theorem best_lt {k : Call K α} (hC : 1 ≤ k.num_centroids) (centroids : Nat → K) (pi : Nat) :
    k.best centroids pi < k.num_centroids := by
  have h := nearest_lt k.DBL_MAX (show 1 ≤ ((List.range k.num_centroids).map fun ci =>
    k.dist (k.table centroids) ci (k.point pi)).length by simpa using hC)
  unfold best
  simpa using h

/-! ## Runs -/

theorem left_lloydStep {p : Progress K} (h : (p.iter : Int) < k.maxit) :
    k.left p = k.left (k.lloydStep p) + 1 := by
  unfold left lloydStep
  dsimp only
  omega

/-- Every run of the loop ends where the iterations without threads end, and in each iteration
the threads leave the accumulators that they have to leave. -/
theorem Run.eq_lloyd {n : Nat} (hn : 0 < n) {p q : Progress K}
    {log : List (Iteration K n)} (h : k.Run n p log q) :
    q = k.lloyd (k.left p) p ∧ ∀ it ∈ log, it.joined.loc = k.workers n it.start := by
  induction h with
  | @stop p hstop =>
    refine ⟨?_, fun it hit => by cases hit⟩
    cases hleft : k.left p with
    | zero => rfl
    | succ fuel =>
      have hlt : (p.iter : Int) < k.maxit := by
        unfold left at hleft
        omega
      rw [lloyd, if_neg fun hchanged => hstop ⟨hlt, hchanged⟩]
  | @next p q s log hlt hchanged hs hfinal _ ih =>
    obtain ⟨hloc, hafter⟩ := k.afterJoin_eq p hn hs hfinal
    rw [hafter] at ih
    refine ⟨?_, ?_⟩
    · rw [k.left_lloydStep hlt, lloyd, if_pos hchanged]
      exact ih.1
    · intro it hit
      rcases List.mem_cons.mp hit with rfl | hit
      · exact hloc
      · exact ih.2 it hit

/-- There is a run. -/
theorem Run.exists {n : Nat} (p : Progress K) : ∃ log q, k.Run n p log q := by
  induction hleft : k.left p using Nat.strongRecOn generalizing p with
  | _ m ih =>
    by_cases hgo : (p.iter : Int) < k.maxit ∧ p.changed = true
    · obtain ⟨hlt, hchanged⟩ := hgo
      obtain ⟨s, hs, hfinal⟩ :=
        ((k.phase n p.centroids).computes p.assignments Worker.reset).1 _ .init
      have hless : k.left (k.afterJoin p s) < m := by
        rw [← hleft]
        unfold left afterJoin
        dsimp only
        omega
      obtain ⟨log, q, hrun⟩ := ih _ hless (k.afterJoin p s) rfl
      exact ⟨⟨p, s⟩ :: log, q, .next hlt hchanged hs hfinal hrun⟩
    · exact ⟨[], p, .stop hgo⟩

/-- **The iteration does not depend on the number of threads.** There is a run with any number
of threads; every run ends with the centroids, the assignments and the number of iterations with
which every run with one thread ends; and in each iteration the counts of all threads add up to
the number of points. -/
theorem run_eq_single (hC : 1 ≤ k.num_centroids) (nthreads : Int) :
    (∃ log q, k.Run (k.threads nthreads) k.begin log q) ∧
      ∀ log q, k.Run (k.threads nthreads) k.begin log q →
        (∀ log₁ q₁, k.Run (k.threads 1) k.begin log₁ q₁ →
          q.centroids = q₁.centroids ∧ q.assignments = q₁.assignments ∧ q.iter = q₁.iter) ∧
        ∀ it ∈ log,
          ∑ ci ∈ Finset.range k.num_centroids, totalCount it.joined.loc ci = k.num_points := by
  refine ⟨Run.exists k k.begin, ?_⟩
  intro log q hrun
  obtain ⟨hq, hlog⟩ := Run.eq_lloyd k (k.threads_pos nthreads) hrun
  constructor
  · intro log₁ q₁ hrun₁
    obtain ⟨hq₁, _⟩ := Run.eq_lloyd k (k.threads_pos 1) hrun₁
    rw [hq, hq₁]
    exact ⟨rfl, rfl, rfl⟩
  · intro it hit
    rw [hlog it hit,
      Finset.sum_congr rfl fun ci _ => k.totalCount_workers it.start (k.threads_pos nthreads) ci,
      sum_countOn _ fun pi _ => best_lt hC it.start.centroids pi, List.length_range]

end Call

end Iteration

/-! ## Three points on a line -/

/-- The points 0, 1 and 5, the centroids 0 and 4, and the square of the difference. -/
def lineCall : Call ℚ ℚ where
  num_points := 3
  natts_point := 1
  points pi := [0, 1, 5].getD pi 0
  num_centroids := 2
  natts_centroid := 1
  centroids ci := [0, 4].getD ci 0
  maxit := 10
  DBL_MAX := 1000
  dist table ci p :=
    some (((table.getD ci []).getD 0 0 - p.getD 0 0) * ((table.getD ci []).getD 0 0 - p.getD 0 0))

theorem run_eq_single_line :
    ∃ log q, lineCall.Run (lineCall.threads 2) lineCall.begin log q ∧
      ∀ it ∈ log, ∑ ci ∈ Finset.range 2, totalCount it.joined.loc ci = 3 := by
  obtain ⟨⟨log, q, hrun⟩, hall⟩ := lineCall.run_eq_single (by decide) 2
  exact ⟨log, q, hrun, (hall log q hrun).2⟩

end HolLambdas.Kmeans
