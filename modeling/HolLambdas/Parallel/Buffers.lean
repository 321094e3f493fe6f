import HolLambdas.MachineInt
import HolLambdas.Parallel.Jobs

/-!
# The buffers of `apply_mt`

`apply_mt` copies the data rows into a buffer of `N * C` cells and has its threads
write the results into one of `N * M` cells. It computes both products as `int`s
and only then converts them to a `Size`, and it uses `int` products again where
it copies the rows in and where it reads them for the output; the threads use 64
bits. All of this is written down here as the source has it: what is requested
from the allocator, and each cell that is then addressed.

The sizes are exact, and every cell lies in its buffer, if both products are
`int`s; beyond that the requests are already wrong (`buffersExact_iff`).
-/

namespace HolLambdas

/-- The dimensions of a call: `int`s, and such that the exact sizes are sizes one
could ask for. -/
structure MtShape where
  /-- `num_tuples_data` -/
  rows : Nat
  /-- `num_cols_data` -/
  cols : Nat
  /-- `num_tuples_lambda` -/
  lambdas : Nat
  nthreads : Int
  rows_le : (rows : Int) ≤ PG_INT32_MAX
  cols_le : (cols : Int) ≤ PG_INT32_MAX
  lambdas_le : (lambdas : Int) ≤ PG_INT32_MAX
  data_lt : rows * cols * 8 < 2 ^ 63
  result_lt : rows * lambdas * 8 < 2 ^ 63

inductive MtBuffer where
  | data
  | result
deriving DecidableEq, Repr

/-- A cell of one of the buffers that is read or written. -/
structure MtAccess where
  buffer : MtBuffer
  index : Int
deriving DecidableEq, Repr

namespace MtShape

variable (s : MtShape)

/-- `num_cols_data * num_tuples_data * sizeof(Datum)`: the first product is an `int`. -/
def mem_chunk_data_size : Nat := toSize (wrap32 (s.cols * s.rows)) * 8 % 2 ^ 64

def num_tuples_result : Int := wrap32 (s.rows * s.lambdas)

/-- `num_tuples_result * sizeof(Datum)` -/
def mem_chunk_result_size : Nat := toSize s.num_tuples_result * 8 % 2 ^ 64

/-- `more overhead than necessary`: at most as many threads as rows. -/
def threads : Int :=
  if (s.rows : Int) < s.nthreads ∧ 0 < s.rows then s.rows else s.nthreads

/-- The cells of the row that begins at `base`. -/
def rowCells (base : Int) : List MtAccess :=
  (List.range s.cols).map fun c => { buffer := .data, index := base + (c : Nat) }

/-- The copy loop: `mem_chunk_data + (idx_tup * num_cols_data)`. -/
def copyLoop : List MtAccess :=
  (List.range s.rows).flatMap fun idx_tup : Nat =>
    s.rowCells (wrap32 ((idx_tup : Int) * s.cols))

/-- `eval_lambda` for one lambda and one row. Its arithmetic is in 64 bits. -/
def evalLambda (t : Nat × Nat) : List MtAccess :=
  { buffer := .result, index := ((t.1 * s.rows + t.2) % 2 ^ 64 : Nat) } ::
    s.rowCells ((t.2 * s.cols % 2 ^ 64 : Nat) : Int)

/-- What the threads do, job by job. -/
def workers : List MtAccess :=
  (rowJobs s.rows s.lambdas s.threads.toNat).flatMap fun job =>
    (job.tasks s.rows).flatMap s.evalLambda

/-- The output loop: `mem_chunk_data + (i % num_tuples_data) * num_cols_data` and
`mem_chunk_result + i`. -/
def outputLoop : List MtAccess :=
  (List.range s.num_tuples_result.toNat).flatMap fun i =>
    { buffer := .result, index := (i : Nat) } ::
      s.rowCells (wrap32 ((i % s.rows : Nat) * s.cols))

/-- The bytes requested for a buffer. -/
def requested : MtBuffer → Nat
  | .data => s.mem_chunk_data_size
  | .result => s.mem_chunk_result_size

/-- The cell lies inside what was requested. -/
def Inside (a : MtAccess) : Prop :=
  0 ≤ a.index ∧ (a.index + 1) * 8 ≤ s.requested a.buffer

/-- What is asked for is the exact size, and no cell outside is addressed. -/
structure BuffersExact : Prop where
  data_size : s.mem_chunk_data_size = s.rows * s.cols * 8
  result_size : s.mem_chunk_result_size = s.rows * s.lambdas * 8
  copyLoop_inside : ∀ a ∈ s.copyLoop, s.Inside a
  workers_inside : ∀ a ∈ s.workers, s.Inside a
  outputLoop_inside : ∀ a ∈ s.outputLoop, s.Inside a

end MtShape

/-! ## The requests -/

/-- A product of 32 bits times the size of a `Datum` is the exact size only if
the product did not wrap. -/
theorem toSize_mul_eight_iff {n : Nat} (h : n * 8 < 2 ^ 63) :
    toSize (wrap32 n) * 8 % 2 ^ 64 = n * 8 ↔ (n : Int) ≤ PG_INT32_MAX := by
  constructor
  · intro heq
    by_contra hgt
    unfold toSize wrap32 at heq
    unfold PG_INT32_MAX at hgt
    omega
  · intro hle
    rw [wrap32_natCast hle]
    unfold toSize
    omega

namespace MtShape

variable {s : MtShape}

theorem mem_chunk_data_size_iff :
    s.mem_chunk_data_size = s.rows * s.cols * 8 ↔
      ((s.rows * s.cols : Nat) : Int) ≤ PG_INT32_MAX := by
  rw [← toSize_mul_eight_iff s.data_lt, mem_chunk_data_size, Nat.mul_comm s.rows s.cols,
    Nat.cast_mul]

theorem mem_chunk_result_size_iff :
    s.mem_chunk_result_size = s.rows * s.lambdas * 8 ↔
      ((s.rows * s.lambdas : Nat) : Int) ≤ PG_INT32_MAX := by
  rw [← toSize_mul_eight_iff s.result_lt, mem_chunk_result_size, num_tuples_result, Nat.cast_mul]

/-! ## The cells -/

/-- The cells of a row whose place is computed exactly. -/
theorem rowCells_inside (hdata : s.mem_chunk_data_size = s.rows * s.cols * 8) {i : Nat}
    (hi : i < s.rows) : ∀ a ∈ s.rowCells ((i * s.cols : Nat) : Int), s.Inside a := by
  intro a ha
  obtain ⟨c, hc, rfl⟩ := List.mem_map.mp ha
  have hc := List.mem_range.mp hc
  have hrow : i * s.cols + s.cols ≤ s.rows * s.cols := by
    rw [← Nat.succ_mul]
    exact Nat.mul_le_mul_right _ hi
  have hreq : s.requested .data = s.rows * s.cols * 8 := hdata
  refine ⟨by dsimp only; omega, ?_⟩
  dsimp only
  rw [hreq]
  omega

/-- The place of a row, computed as an `int`. -/
theorem rowBase_exact (hfit : ((s.rows * s.cols : Nat) : Int) ≤ PG_INT32_MAX) {i : Nat}
    (hi : i < s.rows) : wrap32 (i * s.cols) = ((i * s.cols : Nat) : Int) := by
  have hle : i * s.cols ≤ s.rows * s.cols := Nat.mul_le_mul_right _ (Nat.le_of_lt hi)
  rw [← Nat.cast_mul, wrap32_natCast (by omega)]

theorem result_inside (hresult : s.mem_chunk_result_size = s.rows * s.lambdas * 8) {i : Nat}
    (hi : i < s.rows * s.lambdas) : s.Inside { buffer := .result, index := (i : Nat) } := by
  have hreq : s.requested .result = s.rows * s.lambdas * 8 := hresult
  refine ⟨by dsimp only; omega, ?_⟩
  dsimp only
  rw [hreq]
  omega

/-- A thread evaluates a lambda there is on a row there is. -/
theorem mem_rowJobs_tasks {t : Nat × Nat} {job : WorkItem} {chunks : Nat}
    (hjob : job ∈ rowJobs s.rows s.lambdas chunks) (ht : t ∈ job.tasks s.rows) :
    t.1 < s.lambdas ∧ t.2 < s.rows := by
  obtain ⟨l, hl, hjob⟩ := List.mem_flatMap.mp hjob
  obtain ⟨c, _, rfl⟩ := List.mem_map.mp hjob
  obtain ⟨i, hi, rfl⟩ := List.mem_map.mp ht
  obtain ⟨j, hj, hi⟩ := List.mem_range'.mp hi
  exact ⟨List.mem_range.mp hl, by omega⟩

theorem evalLambda_inside (hdata : s.mem_chunk_data_size = s.rows * s.cols * 8)
    (hresult : s.mem_chunk_result_size = s.rows * s.lambdas * 8) {t : Nat × Nat}
    (ht : t.1 < s.lambdas ∧ t.2 < s.rows) : ∀ a ∈ s.evalLambda t, s.Inside a := by
  have hslot : t.1 * s.rows + t.2 < s.rows * s.lambdas := by
    have hle : (t.1 + 1) * s.rows ≤ s.lambdas * s.rows := Nat.mul_le_mul_right _ ht.1
    rw [Nat.succ_mul, Nat.mul_comm s.lambdas] at hle
    omega
  have hrow : t.2 * s.cols ≤ s.rows * s.cols := Nat.mul_le_mul_right _ (Nat.le_of_lt ht.2)
  have hd := s.data_lt
  have hr := s.result_lt
  intro a ha
  rcases List.mem_cons.mp ha with rfl | ha
  · rw [Nat.mod_eq_of_lt (by omega)]
    exact result_inside hresult hslot
  · rw [Nat.mod_eq_of_lt (by omega)] at ha
    exact rowCells_inside hdata ht.2 a ha

/-- **The sizes are exact and every cell lies in its buffer exactly if both
products are `int`s.** -/
theorem buffersExact_iff (s : MtShape) :
    s.BuffersExact ↔ ((s.rows * s.cols : Nat) : Int) ≤ PG_INT32_MAX ∧
      ((s.rows * s.lambdas : Nat) : Int) ≤ PG_INT32_MAX := by
  constructor
  · intro h
    exact ⟨mem_chunk_data_size_iff.mp h.data_size, mem_chunk_result_size_iff.mp h.result_size⟩
  · rintro ⟨hcols, hlambdas⟩
    have hdata := mem_chunk_data_size_iff.mpr hcols
    have hresult := mem_chunk_result_size_iff.mpr hlambdas
    refine ⟨hdata, hresult, ?_, ?_, ?_⟩
    · intro a ha
      obtain ⟨i, hi, ha⟩ := List.mem_flatMap.mp ha
      have hi := List.mem_range.mp hi
      rw [rowBase_exact hcols hi] at ha
      exact rowCells_inside hdata hi a ha
    · intro a ha
      obtain ⟨job, hjob, ha⟩ := List.mem_flatMap.mp ha
      obtain ⟨t, ht, ha⟩ := List.mem_flatMap.mp ha
      exact evalLambda_inside hdata hresult (mem_rowJobs_tasks hjob ht) a ha
    · intro a ha
      obtain ⟨i, hi, ha⟩ := List.mem_flatMap.mp ha
      have hi : i < s.rows * s.lambdas := by
        have hcount : s.num_tuples_result = ((s.rows * s.lambdas : Nat) : Int) := by
          rw [num_tuples_result, ← Nat.cast_mul, wrap32_natCast hlambdas]
        rw [List.mem_range, hcount, Int.toNat_natCast] at hi
        exact hi
      have hrow : i % s.rows < s.rows := by
        apply Nat.mod_lt
        exact Nat.pos_of_mul_pos_right (Nat.lt_of_le_of_lt (Nat.zero_le i) hi)
      rcases List.mem_cons.mp ha with rfl | ha
      · exact result_inside hresult hi
      · rw [rowBase_exact hcols hrow] at ha
        exact rowCells_inside hdata hrow a ha

/-- 65536 rows of one column, and as many lambdas. -/
def squareShape : MtShape where
  rows := 65536
  cols := 1
  lambdas := 65536
  nthreads := 1
  rows_le := by decide
  cols_le := by decide
  lambdas_le := by decide
  data_lt := by decide
  result_lt := by decide

/-- Nothing is requested for the `2 ^ 32` results, and the thread writes them. -/
theorem squareShape_result_overrun :
    squareShape.mem_chunk_result_size = 0 ∧
      squareShape.rows * squareShape.lambdas * 8 = 34359738368 ∧
      ∃ a ∈ squareShape.workers, ¬ squareShape.Inside a := by
  have hjob : { id_lambda := 0, start := 0, stop := 65536 } ∈
      rowJobs squareShape.rows squareShape.lambdas squareShape.threads.toNat := by
    refine List.mem_flatMap.mpr ⟨0, List.mem_range.mpr (by decide), ?_⟩
    exact List.mem_map.mpr ⟨0, List.mem_range.mpr (by decide), by decide⟩
  have htask : (0, 0) ∈ WorkItem.tasks squareShape.rows
      { id_lambda := 0, start := 0, stop := 65536 } :=
    List.mem_map.mpr ⟨0, List.mem_range'.mpr ⟨0, by decide, rfl⟩, rfl⟩
  refine ⟨by decide, by decide, { buffer := .result, index := 0 }, ?_, ?_⟩
  · exact List.mem_flatMap.mpr ⟨_, hjob, List.mem_flatMap.mpr ⟨_, htask, List.mem_cons_self⟩⟩
  · intro h
    exact absurd h.2 (by decide)

end MtShape

end HolLambdas
