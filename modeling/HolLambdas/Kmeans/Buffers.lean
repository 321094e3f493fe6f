import HolLambdas.Parallel.Buffers
import HolLambdas.Kmeans.Threads
import Mathlib.Tactic.Linarith

/-!
# The buffers of `kmeans_v2`

What is requested from the allocator, and each cell that is then addressed. The two tables are
counted in 64 bits, and the counts are stored in `int`s. `palloc` refuses more than
`MaxAllocSize` bytes, which ends the call with an error; after that nothing is addressed any
more. If everything is allocated, the products of the index computations are small enough for
the `int`s they are made in.

The numbers of columns of the two tables are never compared. The worker writes to the
accumulators of centroid 0 even if there is none, the update writes as many columns as a point
has, and before the first iteration the cluster of every point is -1. `buffersSafe_iff` says
when none of this shows. Two more sources of trouble are the `int`s: from `2 ^ 32` rows on, the
array may be too small for the rows that are copied into it.
-/

namespace HolLambdas.Kmeans

/-- The limit on the columns of a tuple. -/
def MaxTupleAttributeNumber : Nat := 1664

/-- `sizeof(KMeansV2WorkItem)` -/
def workItemSize : Nat := 88

inductive Buffer where
  | points
  | centroids
  | assignments
  | coordsAgg
  | assignCount
deriving DecidableEq, Repr

/-- `sizeof(Datum)`, `sizeof(float8)`, `sizeof(int)` -/
def Buffer.cellSize : Buffer → Nat
  | points => 8
  | centroids => 8
  | assignments => 4
  | coordsAgg => 8
  | assignCount => 4

/-- A cell that is read or written. -/
structure Access where
  buffer : Buffer
  index : Int
deriving DecidableEq, Repr

/-- The arguments of `kmeans_v2`. -/
structure Arguments (K α : Type) where
  /-- `tuplestore_tuple_count` of the points. -/
  pointTuples : Nat
  centroidTuples : Nat
  natts_point : Nat
  natts_centroid : Nat
  points : Nat → K
  centroids : Nat → K
  nthreads : Int
  maxit : Int
  DBL_MAX : α
  dist : List (List K) → Nat → List K → Distance α
  natts_point_le : natts_point ≤ MaxTupleAttributeNumber
  natts_centroid_le : natts_centroid ≤ MaxTupleAttributeNumber
  nthreads_int : IsInt32 nthreads

namespace Arguments

variable {K α : Type} (a : Arguments K α)

@[irreducible] def num_points : Int := wrap32 a.pointTuples

@[irreducible] def num_centroids : Int := wrap32 a.centroidTuples

/-- What the main loop works with. -/
def call : Call K α where
  num_points := a.num_points.toNat
  natts_point := a.natts_point
  points := a.points
  num_centroids := a.num_centroids.toNat
  natts_centroid := a.natts_centroid
  centroids := a.centroids
  maxit := a.maxit
  DBL_MAX := a.DBL_MAX
  dist := a.dist

theorem call_num_points : a.call.num_points = a.num_points.toNat := rfl

theorem call_num_centroids : a.call.num_centroids = a.num_centroids.toNat := rfl

def threads : Nat := a.call.threads a.nthreads

theorem threads_pos : 0 < a.threads := a.call.threads_pos a.nthreads

/-- The bytes requested for a buffer; the last two are requested for each thread. -/
def requested : Buffer → Nat
  | .points => toSize a.num_points * a.natts_point * 8 % 2 ^ 64
  | .centroids => toSize a.num_centroids * a.natts_centroid * 8 % 2 ^ 64
  | .assignments => toSize a.num_points * 4 % 2 ^ 64
  | .coordsAgg => toSize a.num_centroids * a.natts_point * 8 % 2 ^ 64
  | .assignCount => toSize a.num_centroids * 4 % 2 ^ 64

def Allocated (b : Buffer) : Prop :=
  a.requested b ≤ MaxAllocSize

/-- Every request is granted, those for `thread_args`, `workers` and `compiled_funcs` too. -/
structure Ready : Prop where
  buffers : ∀ b, a.Allocated b
  thread_args : a.threads * workItemSize ≤ MaxAllocSize
  workers : a.threads * 8 ≤ MaxAllocSize
  compiled_funcs : toSize a.num_centroids * 8 % 2 ^ 64 ≤ MaxAllocSize

/-- The cell lies in what was requested. -/
def Inside (x : Access) : Prop :=
  0 ≤ x.index ∧ (x.index + 1) * x.buffer.cellSize ≤ a.requested x.buffer

/-! ## The cells -/

/-- `memcpy` of rows to `base + (size_t) idx * natts`; `idx` is an `int`. -/
def copyLoop (b : Buffer) (tuples natts : Nat) : List Access :=
  (List.range tuples).flatMap fun idx : Nat => (List.range natts).map fun d =>
    ⟨b, ((toSize (wrap32 idx) * natts % 2 ^ 64 + d : Nat) : Int)⟩

/-- The columns of a point. -/
def pointCells (pi : Nat) : List Access :=
  (List.range a.natts_point).map fun d =>
    ⟨.points, ((pi * a.natts_point % 2 ^ 64 + d : Nat) : Int)⟩

/-- `coordsAgg[ci * natts_point + d]` -/
def aggCells (ci : Nat) : List Access :=
  (List.range a.natts_point).map fun d : Nat =>
    ⟨.coordsAgg, wrap32 (wrap32 (ci * a.natts_point) + d)⟩

/-- `centroids[ci * natts_centroid + d]` for `d < natts_point` -/
def updateCells (ci : Nat) : List Access :=
  (List.range a.natts_point).map fun d : Nat =>
    ⟨.centroids, wrap32 (wrap32 (ci * a.natts_centroid) + d)⟩

/-- The two `memset`s of a thread's buffers. -/
def resetCells : List Access :=
  (List.range (toSize a.num_centroids * a.natts_point)).map (fun i : Nat => ⟨.coordsAgg, i⟩) ++
    (List.range (toSize a.num_centroids)).map (fun i : Nat => ⟨.assignCount, i⟩)

section Accesses

variable [LinearOrder α]

/-- The worker's loop body for a point. -/
def pointAccesses (centroids : Nat → K) (pi : Nat) : List Access :=
  a.pointCells pi ++ ⟨.assignments, pi⟩ ::
    (a.aggCells (a.call.best centroids pi) ++ [⟨.assignCount, a.call.best centroids pi⟩])

/-- All threads. -/
def workerAccesses (centroids : Nat → K) : List Access :=
  (List.finRange a.threads).flatMap fun t : Fin a.threads =>
    (ForkJoin.between (a.call.cut a.threads t) (a.call.stop a.threads t)).flatMap
      (a.pointAccesses centroids)

variable [Field K]

/-- The merge, for each centroid. -/
def mergeAccesses (it : Call.Iteration K a.threads) : List Access :=
  (List.range a.call.num_centroids).flatMap fun ci : Nat =>
    ⟨.assignCount, (ci : Int)⟩ :: (a.aggCells ci ++
      (if totalCount it.joined.loc ci > 0 then a.updateCells ci else []))

def iterationAccesses (it : Call.Iteration K a.threads) : List Access :=
  a.resetCells ++ a.workerAccesses it.start.centroids ++ a.mergeAccesses it

/-- The output loop. -/
def outputAccesses : List Access :=
  (List.range a.call.num_points).flatMap fun pi : Nat => ⟨.assignments, pi⟩ :: a.pointCells pi

/-- No cell outside a buffer is addressed, the update of a centroid stays in its row, and every
cluster that is put out is that of a centroid. -/
structure BuffersSafe : Prop where
  readPoints : a.Allocated .points →
    ∀ x ∈ copyLoop .points a.pointTuples a.natts_point, a.Inside x
  readCentroids : a.Allocated .points → a.Allocated .centroids →
    ∀ x ∈ copyLoop .centroids a.centroidTuples a.natts_centroid, a.Inside x
  iterations : a.Ready → ∀ log q, a.call.Run a.threads a.call.begin log q → ∀ it ∈ log,
    ∀ x ∈ a.iterationAccesses it, a.Inside x
  rows : a.Ready → ∀ log q, a.call.Run a.threads a.call.begin log q → ∀ it ∈ log,
    ∀ ci < a.call.num_centroids, totalCount it.joined.loc ci > 0 → ∀ x ∈ a.updateCells ci,
      ((ci * a.natts_centroid : Nat) : Int) ≤ x.index ∧
        x.index < ((ci + 1) * a.natts_centroid : Nat)
  output : a.Ready → ∀ x ∈ a.outputAccesses, a.Inside x
  clusters : a.Ready → ∀ log q, a.call.Run a.threads a.call.begin log q →
    ∀ pi < a.call.num_points, 0 ≤ q.assignments pi ∧ q.assignments pi < a.num_centroids

end Accesses

/-! ## Sizes -/

theorem num_points_int : IsInt32 a.num_points := by
  unfold num_points
  exact isInt32_wrap32 _

theorem num_centroids_int : IsInt32 a.num_centroids := by
  unfold num_centroids
  exact isInt32_wrap32 _

theorem toSize_mul (x : Int) (c : Nat) :
    ((toSize x * c % 2 ^ 64 : Nat) : Int) = x * c % 2 ^ 64 := by
  have hcast : ((toSize x : Nat) : Int) = x % 2 ^ 64 :=
    Int.toNat_of_nonneg (Int.emod_nonneg _ (by decide))
  rw [Int.natCast_mod, Nat.cast_mul, hcast, Int.mul_emod, Nat.cast_pow, Nat.cast_ofNat,
    Int.emod_emod, ← Int.mul_emod]

/-- A negative count asks for far too much. -/
theorem nonneg_of_granted {x : Int} {c : Nat} (hx : IsInt32 x) (hc : 1 ≤ c) (hc' : c ≤ 16000)
    (h : toSize x * c % 2 ^ 64 ≤ MaxAllocSize) : 0 ≤ x := by
  by_contra hneg
  have hsize := toSize_mul x c
  unfold IsInt32 PG_INT32_MAX at hx
  unfold MaxAllocSize at h
  have hupper : x * c ≤ -1 := by nlinarith
  have hlower : -(2 ^ 31 * 16000) ≤ x * c := by nlinarith
  omega

/-- The number of cells of an array of rows. -/
theorem row_size_eq {x : Int} {natts : Nat} (hx : IsInt32 x) (h : 0 ≤ x)
    (hnatts : natts ≤ MaxTupleAttributeNumber) :
    toSize x * natts % 2 ^ 64 = x.toNat * natts := by
  rw [toSize_of_nonneg hx h]
  unfold IsInt32 PG_INT32_MAX at hx
  have hle : x.toNat * natts ≤ 2 ^ 31 * 1664 := Nat.mul_le_mul (by omega) hnatts
  exact Nat.mod_eq_of_lt (by omega)

/-- Its size in bytes. -/
theorem size_eq {x : Int} {natts : Nat} (hx : IsInt32 x) (h : 0 ≤ x)
    (hnatts : natts ≤ MaxTupleAttributeNumber) :
    toSize x * natts * 8 % 2 ^ 64 = x.toNat * natts * 8 := by
  have hrow := row_size_eq hx h hnatts
  rw [toSize_of_nonneg hx h] at hrow ⊢
  unfold IsInt32 PG_INT32_MAX at hx
  have hle : x.toNat * natts ≤ 2 ^ 31 * 1664 := Nat.mul_le_mul (by omega) hnatts
  exact Nat.mod_eq_of_lt (by omega)

/-- Copying a table in stays inside if there is nothing to copy or the count is an `int`. -/
theorem copyLoop_inside_iff {b : Buffer} {tuples natts : Nat} (hcell : b.cellSize = 8)
    (hreq : a.requested b = toSize (wrap32 tuples) * natts * 8 % 2 ^ 64)
    (hnatts : natts ≤ MaxTupleAttributeNumber) (halloc : a.Allocated b) :
    (∀ x ∈ copyLoop b tuples natts, a.Inside x) ↔ natts = 0 ∨ (tuples : Int) ≤ PG_INT32_MAX := by
  have hint := isInt32_wrap32 (tuples : Int)
  rcases Nat.eq_zero_or_pos natts with rfl | hpos
  · simp [copyLoop]
  have hnonneg : 0 ≤ wrap32 tuples := by
    unfold Allocated at halloc
    unfold MaxTupleAttributeNumber at hnatts
    rw [hreq, Nat.mul_assoc] at halloc
    exact nonneg_of_granted hint (by omega) (by omega) halloc
  rw [size_eq hint hnonneg hnatts] at hreq
  have hindex : ∀ {idx : Nat}, (idx : Int) ≤ PG_INT32_MAX →
      toSize (wrap32 idx) * natts % 2 ^ 64 = idx * natts := by
    intro idx hidx
    have hsize := row_size_eq (isInt32_wrap32 idx) (by rw [wrap32_natCast hidx]; omega) hnatts
    rw [wrap32_natCast hidx, Int.toNat_natCast] at hsize
    rw [wrap32_natCast hidx]
    exact hsize
  rw [or_iff_right (by omega : natts ≠ 0)]
  constructor
  · intro hinside
    by_contra hbig
    have hlt := toNat_wrap32_lt (n := tuples) (by omega)
    -- the row after the last one there is room for
    have hmem : (⟨b, ((toSize (wrap32 ((wrap32 tuples).toNat : Int)) * natts % 2 ^ 64 + 0 : Nat) :
        Int)⟩ : Access) ∈ copyLoop b tuples natts :=
      List.mem_flatMap.mpr ⟨_, List.mem_range.mpr hlt,
        List.mem_map.mpr ⟨0, List.mem_range.mpr hpos, rfl⟩⟩
    have hle := (hinside _ hmem).2
    rw [hindex (by rw [Int.toNat_of_nonneg hnonneg]; exact hint.2), hreq, hcell] at hle
    push_cast at hle
    omega
  · intro hsmall x hx
    obtain ⟨idx, hidx, hx⟩ := List.mem_flatMap.mp hx
    obtain ⟨d, hd, rfl⟩ := List.mem_map.mp hx
    have hidx := List.mem_range.mp hidx
    have hd := List.mem_range.mp hd
    have hrow : (idx + 1) * natts ≤ tuples * natts := Nat.mul_le_mul_right _ hidx
    rw [Nat.succ_mul] at hrow
    rw [hindex (by omega)]
    rw [wrap32_natCast hsmall, Int.toNat_natCast] at hreq
    refine ⟨by dsimp only; omega, ?_⟩
    rw [hreq, hcell]
    push_cast
    omega

/-- The sizes once everything is allocated. -/
structure Sizes : Prop where
  num_points : a.num_points = a.call.num_points
  num_centroids : a.num_centroids = a.call.num_centroids
  points : a.requested .points = a.call.num_points * a.natts_point * 8
  centroids : a.requested .centroids = a.call.num_centroids * a.natts_centroid * 8
  assignments : a.requested .assignments = a.call.num_points * 4
  coordsAgg : a.requested .coordsAgg = a.call.num_centroids * a.natts_point * 8
  assignCount : a.requested .assignCount = a.call.num_centroids * 4
  allocated : ∀ b, a.requested b ≤ MaxAllocSize

variable {a}

theorem Ready.sizes (h : a.Ready) : a.Sizes := by
  have hassign : toSize a.num_points * 4 % 2 ^ 64 ≤ MaxAllocSize := h.buffers .assignments
  have hpoints : 0 ≤ a.num_points :=
    nonneg_of_granted (c := 4) a.num_points_int (by omega) (by omega) hassign
  have hcentroids : 0 ≤ a.num_centroids :=
    nonneg_of_granted (c := 8) a.num_centroids_int (by omega) (by omega) h.compiled_funcs
  have hone : ∀ {x : Int}, IsInt32 x → 0 ≤ x → toSize x * 4 % 2 ^ 64 = x.toNat * 4 := by
    intro x hx hnonneg
    rw [toSize_of_nonneg hx hnonneg]
    unfold IsInt32 PG_INT32_MAX at hx
    omega
  refine ⟨?_, ?_, ?_, ?_, ?_, ?_, ?_, h.buffers⟩
  · rw [call_num_points, Int.toNat_of_nonneg hpoints]
  · rw [call_num_centroids, Int.toNat_of_nonneg hcentroids]
  · rw [call_num_points, requested, size_eq a.num_points_int hpoints a.natts_point_le]
  · rw [call_num_centroids, requested, size_eq a.num_centroids_int hcentroids a.natts_centroid_le]
  · rw [call_num_points, requested, hone a.num_points_int hpoints]
  · rw [call_num_centroids, requested, size_eq a.num_centroids_int hcentroids a.natts_point_le]
  · rw [call_num_centroids, requested, hone a.num_centroids_int hcentroids]

/-! ## Cells inside -/

section Cells

variable (h : a.Sizes)

/-- A cell of a buffer with exactly this many. -/
theorem inside_of_lt {b : Buffer} {i n : Nat} (hreq : a.requested b = n * b.cellSize) (hi : i < n) :
    a.Inside ⟨b, i⟩ := by
  refine ⟨by dsimp only; omega, ?_⟩
  dsimp only
  rw [hreq, Nat.cast_mul]
  exact mul_le_mul_of_nonneg_right (by omega) (by omega)

theorem row_lt {ci n natts d : Nat} (hci : ci < n) (hd : d < natts) :
    ci * natts + d < n * natts := by
  have hrow : (ci + 1) * natts ≤ n * natts := Nat.mul_le_mul_right _ hci
  rw [Nat.succ_mul] at hrow
  omega

/-- The index computations in `int`s are exact. -/
theorem intIndex_eq {n natts ci d : Nat} (hmax : n * natts * 8 ≤ MaxAllocSize)
    (hci : ci < n) (hd : d ≤ MaxTupleAttributeNumber) :
    wrap32 (wrap32 (ci * natts) + d) = ((ci * natts + d : Nat) : Int) := by
  have hle : ci * natts ≤ n * natts := Nat.mul_le_mul_right _ (Nat.le_of_lt hci)
  unfold MaxAllocSize at hmax
  unfold MaxTupleAttributeNumber at hd
  rw [← Nat.cast_mul, wrap32_natCast (by unfold PG_INT32_MAX; omega), ← Nat.cast_add,
    wrap32_natCast (by unfold PG_INT32_MAX; omega)]

include h

theorem pointCells_inside {pi : Nat} (hpi : pi < a.call.num_points) :
    ∀ x ∈ a.pointCells pi, a.Inside x := by
  intro x hx
  obtain ⟨d, hd, rfl⟩ := List.mem_map.mp hx
  have hcell := row_lt hpi (List.mem_range.mp hd)
  have hmax := h.allocated .points
  rw [h.points] at hmax
  unfold MaxAllocSize at hmax
  rw [Nat.mod_eq_of_lt (by omega)]
  exact inside_of_lt h.points hcell

theorem aggCells_inside {ci : Nat} (hci : ci < a.call.num_centroids) :
    ∀ x ∈ a.aggCells ci, a.Inside x := by
  intro x hx
  obtain ⟨d, hd, rfl⟩ := List.mem_map.mp hx
  have hd := List.mem_range.mp hd
  have hmax := h.allocated .coordsAgg
  have hnatts := a.natts_point_le
  rw [h.coordsAgg] at hmax
  rw [intIndex_eq hmax hci (by omega)]
  exact inside_of_lt h.coordsAgg (row_lt hci hd)

/-- The index of a cell that the update of a centroid writes. -/
theorem mem_updateCells {ci : Nat} (hci : ci < a.call.num_centroids) {x : Access} :
    x ∈ a.updateCells ci ↔
      ∃ d < a.natts_point, x = ⟨.centroids, ((ci * a.natts_centroid + d : Nat) : Int)⟩ := by
  have hmax := h.allocated .centroids
  have hnatts := a.natts_point_le
  rw [h.centroids] at hmax
  unfold updateCells
  rw [List.mem_map]
  constructor
  · rintro ⟨d, hd, rfl⟩
    have hd := List.mem_range.mp hd
    exact ⟨d, hd, by rw [intIndex_eq hmax hci (by omega)]⟩
  · rintro ⟨d, hd, rfl⟩
    exact ⟨d, List.mem_range.mpr hd, by rw [intIndex_eq hmax hci (by omega)]⟩

theorem resetCells_inside : ∀ x ∈ a.resetCells, a.Inside x := by
  have hC : toSize a.num_centroids = a.call.num_centroids := by
    rw [toSize_of_nonneg a.num_centroids_int (by rw [h.num_centroids]; omega), call_num_centroids]
  intro x hx
  unfold resetCells at hx
  rw [hC] at hx
  rcases List.mem_append.mp hx with hx | hx
  · obtain ⟨i, hi, rfl⟩ := List.mem_map.mp hx
    exact inside_of_lt h.coordsAgg (List.mem_range.mp hi)
  · obtain ⟨i, hi, rfl⟩ := List.mem_map.mp hx
    exact inside_of_lt h.assignCount (List.mem_range.mp hi)

theorem outputAccesses_inside : ∀ x ∈ a.outputAccesses, a.Inside x := by
  intro x hx
  obtain ⟨pi, hpi, hx⟩ := List.mem_flatMap.mp hx
  have hpi := List.mem_range.mp hpi
  rcases List.mem_cons.mp hx with rfl | hx
  · exact inside_of_lt h.assignments hpi
  · exact pointCells_inside h hpi x hx

end Cells

/-! ## Runs -/

section Runs

variable [LinearOrder α]

/-- The threads together go through all points. -/
theorem mem_workerAccesses {centroids : Nat → K} {x : Access} :
    x ∈ a.workerAccesses centroids ↔
      ∃ pi < a.call.num_points, x ∈ a.pointAccesses centroids pi := by
  have hranges : a.workerAccesses centroids =
      (List.range a.call.num_points).flatMap (a.pointAccesses centroids) := by
    rw [← a.call.flatMap_threads a.threads_pos, List.flatMap_assoc, workerAccesses]
    refine List.flatMap_congr fun t _ => ?_
    rw [a.call.stop_eq t.isLt]
  rw [hranges, List.mem_flatMap]
  exact exists_congr fun pi => and_congr_left' List.mem_range

variable [Field K] {log : List (Call.Iteration K a.threads)} {p q : Progress K}

/-- The counts after the join are those of the iteration without threads. -/
theorem totalCount_of_run (hrun : a.call.Run a.threads p log q) {it : Call.Iteration K a.threads}
    (hit : it ∈ log) (ci : Nat) :
    totalCount it.joined.loc ci =
      Call.countOn (a.call.best it.start.centroids) (List.range a.call.num_points) ci := by
  rw [(Call.Run.eq_lloyd a.call a.threads_pos hrun).2 it hit,
    a.call.totalCount_workers it.start a.threads_pos]

theorem countOn_pos {b : Nat → Nat} {l : List Nat} {ci : Nat} :
    Call.countOn b l ci > 0 ↔ ∃ pi ∈ l, b pi = ci := by
  induction l with
  | nil => simp [Call.countOn]
  | cons pi l ih =>
    have hcons : Call.countOn b (pi :: l) ci = (if b pi = ci then 1 else 0) + Call.countOn b l ci :=
      rfl
    rw [hcons]
    by_cases h : b pi = ci
    · simp only [h, if_true, List.mem_cons, exists_eq_or_imp, true_or, iff_true]
      omega
    · simp only [h, if_false, Nat.zero_add, ih, List.mem_cons, exists_eq_or_imp, false_or]

/-- If anything is to be done, there is a first iteration. -/
theorem first_iteration (hmaxit : 1 ≤ a.maxit) (hrun : a.call.Run a.threads a.call.begin log q) :
    ∃ s log', log = ⟨a.call.begin, s⟩ :: log' := by
  cases hrun with
  | stop hstop => exact absurd ⟨Int.lt_of_lt_of_le Int.one_pos hmaxit, rfl⟩ hstop
  | next _ _ _ _ _ => exact ⟨_, _, rfl⟩

/-- After an iteration every point is with a centroid. -/
theorem clusters_of_run (hC : 1 ≤ a.call.num_centroids) (hrun : a.call.Run a.threads p log q)
    (hstart : log ≠ [] ∨ ∀ pi < a.call.num_points,
      0 ≤ p.assignments pi ∧ p.assignments pi < a.call.num_centroids) :
    ∀ pi < a.call.num_points, 0 ≤ q.assignments pi ∧ q.assignments pi < a.call.num_centroids := by
  induction hrun with
  | stop => exact hstart.resolve_left fun h => h rfl
  | @next p q s log _ _ hs hfinal _ ih =>
    refine ih (.inr fun pi hpi => ?_)
    rw [(a.call.afterJoin_eq p a.threads_pos hs hfinal).2]
    have hbest := Call.best_lt hC p.centroids pi
    simp only [Call.lloydStep, if_pos hpi]
    omega

/-- Every cell of an iteration is inside if there are no points, or there is a centroid and
its row has room for the columns of a point. -/
theorem iterationAccesses_inside (h : a.Sizes) (hcond : a.call.num_points = 0 ∨
      1 ≤ a.call.num_centroids ∧ a.natts_point ≤ a.natts_centroid)
    (hrun : a.call.Run a.threads p log q) {it : Call.Iteration K a.threads} (hit : it ∈ log) :
    ∀ x ∈ a.iterationAccesses it, a.Inside x := by
  intro x hx
  rcases List.mem_append.mp hx with hx | hx
  · rcases List.mem_append.mp hx with hx | hx
    · exact resetCells_inside h x hx
    · obtain ⟨pi, hpi, hx⟩ := mem_workerAccesses.mp hx
      have hC : 1 ≤ a.call.num_centroids := (hcond.resolve_left (by omega)).1
      have hbest := Call.best_lt hC it.start.centroids pi
      rcases List.mem_append.mp hx with hx | hx
      · exact pointCells_inside h hpi x hx
      · rcases List.mem_cons.mp hx with rfl | hx
        · exact inside_of_lt h.assignments hpi
        · rcases List.mem_append.mp hx with hx | hx
          · exact aggCells_inside h hbest x hx
          · rw [List.mem_singleton] at hx
            rw [hx]
            exact inside_of_lt h.assignCount hbest
  · obtain ⟨ci, hci, hx⟩ := List.mem_flatMap.mp hx
    have hci := List.mem_range.mp hci
    rcases List.mem_cons.mp hx with rfl | hx
    · exact inside_of_lt h.assignCount hci
    · rcases List.mem_append.mp hx with hx | hx
      · exact aggCells_inside h hci x hx
      · split at hx
        · next hpos =>
          rw [totalCount_of_run hrun hit, countOn_pos] at hpos
          obtain ⟨pi, hpi, _⟩ := hpos
          have hpi := List.mem_range.mp hpi
          have hcols := (hcond.resolve_left (by omega)).2
          obtain ⟨d, hd, rfl⟩ := (mem_updateCells h hci).mp hx
          exact inside_of_lt h.centroids (row_lt hci (by omega))
        · cases hx

/-- What the main loop and the output need. -/
theorem BuffersSafe.loop (hsafe : a.BuffersSafe) (hready : a.Ready) :
    a.num_points = 0 ∨
      1 ≤ a.maxit ∧ 1 ≤ a.num_centroids ∧ a.natts_point ≤ a.natts_centroid := by
  have hsizes := hready.sizes
  rw [hsizes.num_points, hsizes.num_centroids]
  obtain ⟨log, q, hrun⟩ := Call.Run.exists (n := a.threads) a.call a.call.begin
  by_contra hcond
  push Not at hcond
  obtain ⟨hN, hcond⟩ := hcond
  have hN : 0 < a.call.num_points := by omega
  -- no iteration: the first point has no cluster
  have hmaxit : 1 ≤ a.maxit := by
    by_contra hmaxit
    have hstop : a.call.Run a.threads a.call.begin [] a.call.begin :=
      .stop fun hgo => hmaxit hgo.1
    exact absurd (hsafe.clusters hready [] _ hstop 0 hN).1 (by simp [Call.begin])
  obtain ⟨s, log', rfl⟩ := first_iteration hmaxit hrun
  -- no centroid: the first point is counted outside
  have hC : 1 ≤ a.call.num_centroids := by
    by_contra hC
    have hcounted : (⟨.assignCount, a.call.best a.call.begin.centroids 0⟩ : Access) ∈
        a.pointAccesses a.call.begin.centroids 0 := by
      simp [pointAccesses]
    have hworker := mem_workerAccesses.mpr ⟨0, hN, hcounted⟩
    have hinside := (hsafe.iterations hready _ q hrun _ List.mem_cons_self _
      (List.mem_append_left _ (List.mem_append_right _ hworker))).2
    rw [hsizes.assignCount] at hinside
    simp only [Buffer.cellSize] at hinside
    omega
  -- too few columns: the first one that the centroid does not have is in another row
  have hcols := hcond hmaxit (by omega)
  have hbest := Call.best_lt hC a.call.begin.centroids 0
  have hcount : totalCount s.loc (a.call.best a.call.begin.centroids 0) > 0 := by
    rw [totalCount_of_run hrun List.mem_cons_self, countOn_pos]
    exact ⟨0, List.mem_range.mpr hN, rfl⟩
  have hcell := (mem_updateCells hsizes hbest).mpr ⟨a.natts_centroid, hcols, rfl⟩
  have hrow := (hsafe.rows hready _ q hrun _ List.mem_cons_self _ hbest hcount _ hcell).2
  dsimp only at hrow
  rw [Nat.succ_mul] at hrow
  omega

/-- **Where everything is allocated, the buffers are safe exactly if there are no points, or
there is at least one iteration and at least one centroid, and a centroid has at least as many
columns as a point. Copying the tables in needs counts that are `int`s.** -/
theorem buffersSafe_iff (a : Arguments K α) :
    a.BuffersSafe ↔
      (a.Allocated .points → a.natts_point = 0 ∨ (a.pointTuples : Int) ≤ PG_INT32_MAX) ∧
      (a.Allocated .points → a.Allocated .centroids →
        a.natts_centroid = 0 ∨ (a.centroidTuples : Int) ≤ PG_INT32_MAX) ∧
      (a.Ready → a.num_points = 0 ∨
        1 ≤ a.maxit ∧ 1 ≤ a.num_centroids ∧ a.natts_point ≤ a.natts_centroid) := by
  have hpoints : a.Allocated .points → (_ ↔ _) :=
    a.copyLoop_inside_iff rfl (by unfold requested num_points; rfl) a.natts_point_le
  have hcentroids : a.Allocated .centroids → (_ ↔ _) :=
    a.copyLoop_inside_iff rfl (by unfold requested num_centroids; rfl) a.natts_centroid_le
  constructor
  · intro hsafe
    refine ⟨fun halloc => (hpoints halloc).mp (hsafe.readPoints halloc),
      fun halloc halloc' => (hcentroids halloc').mp (hsafe.readCentroids halloc halloc'),
      hsafe.loop⟩
  · rintro ⟨hread, hread', hloop⟩
    refine ⟨fun halloc => (hpoints halloc).mpr (hread halloc),
      fun halloc halloc' => (hcentroids halloc').mpr (hread' halloc halloc'), ?_, ?_, ?_, ?_⟩
    · intro hready log q hrun it hit
      have hsizes := hready.sizes
      refine iterationAccesses_inside hsizes ?_ hrun hit
      rcases hloop hready with hN | ⟨_, hC, hcols⟩
      · exact .inl (by rw [hsizes.num_points] at hN; omega)
      · exact .inr ⟨by rw [hsizes.num_centroids] at hC; omega, hcols⟩
    · intro hready log q hrun it hit ci hci hpos x hx
      have hsizes := hready.sizes
      rw [totalCount_of_run hrun hit, countOn_pos] at hpos
      obtain ⟨pi, hpi, _⟩ := hpos
      have hpi := List.mem_range.mp hpi
      have hN : a.num_points ≠ 0 := by
        rw [hsizes.num_points]
        omega
      obtain ⟨_, _, hcols⟩ := (hloop hready).resolve_left hN
      obtain ⟨d, hd, rfl⟩ := (mem_updateCells hsizes hci).mp hx
      dsimp only
      rw [Nat.succ_mul]
      omega
    · intro hready
      exact outputAccesses_inside hready.sizes
    · intro hready log q hrun pi hpi
      have hsizes := hready.sizes
      have hN : a.num_points ≠ 0 := by
        rw [hsizes.num_points]
        omega
      obtain ⟨hmaxit, hC, _⟩ := (hloop hready).resolve_left hN
      obtain ⟨s, log', rfl⟩ := first_iteration hmaxit hrun
      rw [hsizes.num_centroids] at hC ⊢
      exact clusters_of_run (by omega) hrun (.inl (List.cons_ne_nil _ _)) pi hpi

/-- A point, and no centroid. -/
def noCentroids : Arguments ℚ ℚ where
  pointTuples := 1
  centroidTuples := 0
  natts_point := 1
  natts_centroid := 1
  points _ := 0
  centroids _ := 0
  nthreads := 1
  maxit := 1
  DBL_MAX := 0
  dist _ _ _ := none
  natts_point_le := by decide
  natts_centroid_le := by decide
  nthreads_int := by decide

/-- The point is counted for centroid 0. -/
theorem noCentroids_not_safe : noCentroids.Ready ∧ ¬ noCentroids.BuffersSafe := by
  have hpoints : noCentroids.num_points = 1 := by
    unfold num_points
    decide
  have hcentroids : noCentroids.num_centroids = 0 := by
    unfold num_centroids
    decide
  have hthreads : noCentroids.threads = 1 := by
    unfold threads Call.threads
    rw [call_num_points, hpoints]
    rfl
  have hready : noCentroids.Ready := by
    refine ⟨?_, ?_, ?_, ?_⟩
    · intro b
      unfold Allocated requested
      rw [hpoints, hcentroids]
      cases b <;> decide
    · rw [hthreads]
      decide
    · rw [hthreads]
      decide
    · rw [hcentroids]
      decide
  refine ⟨hready, fun hsafe => ?_⟩
  rcases hsafe.loop hready with h | ⟨_, h, _⟩
  · rw [hpoints] at h
    cases h
  · rw [hcentroids] at h
    exact absurd h (by decide)

end Runs

end Arguments

end HolLambdas.Kmeans
