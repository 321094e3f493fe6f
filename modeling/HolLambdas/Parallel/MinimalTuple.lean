import HolLambdas.Bytes
import HolLambdas.Parallel.Workers

/-!
# Finished tuples

Where every output column is 8 bytes wide, aligned to 8 and passed by value, the
workers of `apply_mt_pw` write minimal tuples and not results: the leader forms
one tuple of zeros with `heap_form_minimal_tuple`, hands its first 16 bytes out as
the head of every tuple, and a worker writes the head, the columns of the row and
the result, each tuple at a distance of the sample's length from the one before.

`heapFormMinimalTuple` is the real thing, for pass-by-value columns of any width
and alignment and with NULLs. On flat columns its result is a head that depends
on their number alone and the values one behind the other
(`heapFormMinimalTuple_flat`), and that is what lies in the block when the workers
are done, whatever the order of their stores, as long as the leader's counts and
allocations are those of the table (`flatBlock_formed_iff`).

A worker drops the null flag of a result and so does the other output path, which
calls `heap_form_minimal_tuple` with no column NULL: a result is a `Datum` here.
Addresses are numbers; a segment that exists ends below `2 ^ 64`.
-/

namespace HolLambdas

open Bytes ApplyPwCall

/-! ## `heap_form_minimal_tuple` -/

/-- `attalign`, as the number of bytes. -/
inductive TypAlign where
  | char
  | short
  | int
  | double
deriving DecidableEq, Repr

def TypAlign.bytes : TypAlign → Nat
  | char => 1
  | short => 2
  | int => 4
  | double => 8

/-- `attlen` of a pass-by-value type, `store_att_byval` knows no other. -/
inductive ByValLen where
  | one
  | two
  | four
  | eight
deriving DecidableEq, Repr

def ByValLen.bytes : ByValLen → Nat
  | one => 1
  | two => 2
  | four => 4
  | eight => 8

/-- A pass-by-value attribute. -/
structure ByValAttr where
  attlen : ByValLen
  attalign : TypAlign
deriving DecidableEq, Repr

/-- A column of a tuple to be formed, `none` for NULL. -/
abbrev Column := ByValAttr × Option UInt64

/-- `TYPEALIGN` -/
def typeAlign (a n : Nat) : Nat := (n + (a - 1)) / a * a

/-- `MAXALIGN` -/
def maxAlign (n : Nat) : Nat := typeAlign 8 n

/-- `MaxTupleAttributeNumber` -/
def maxTupleAttributeNumber : Nat := 1664

/-- `SizeofMinimalTupleHeader` -/
def sizeofMinimalTupleHeader : Nat := 15

/-- `MINIMAL_TUPLE_OFFSET` -/
def minimalTupleOffset : Nat := 8

inductive TupleError where
  /-- "number of columns (%d) exceeds limit (%d)" -/
  | tooManyColumns (n : Nat)
deriving DecidableEq, Repr

/-- `heap_compute_data_size`, from a length on. -/
def heapComputeDataSize : Nat → List Column → Nat
  | data_length, [] => data_length
  | data_length, (_, none) :: cols => heapComputeDataSize data_length cols
  | data_length, (att, some _) :: cols =>
    heapComputeDataSize (typeAlign att.attalign.bytes data_length + att.attlen.bytes) cols

/-- The data of `heap_fill_tuple`, from an address on. -/
def fillVals : Nat → List Column → List Store
  | _, [] => []
  | data, (_, none) :: cols => fillVals data cols
  | data, (att, some datum) :: cols =>
    let data := typeAlign att.attalign.bytes data
    ⟨data, leBytes att.attlen.bytes datum.toNat⟩ :: fillVals (data + att.attlen.bytes) cols

def hasNull (cols : List Column) : Bool := cols.any fun c => c.2.isNone

/-- `BITMAPLEN` -/
def bitmapLen (natts : Nat) : Nat := (natts + 7) / 8

/-- `t_bits`: one bit for each column, set if it is not NULL. -/
def nullBitmap (cols : List Column) : List UInt8 :=
  (List.range (bitmapLen cols.length)).map fun k =>
    UInt8.ofNat ((List.range 8).map fun j =>
      if (cols[8 * k + j]?).any fun c => c.2.isSome then 2 ^ j else 0).sum

/-- `t_len`, `t_infomask2`, `t_hoff` and `t_infomask`; the space is zeroed. -/
def tupleHeader (len natts hoff : Nat) (hasnull : Bool) : List Store :=
  [⟨0, leBytes 4 len⟩, ⟨10, leBytes 2 natts⟩, ⟨14, leBytes 1 (hoff + minimalTupleOffset)⟩,
    ⟨12, leBytes 2 (if hasnull then 1 else 0)⟩]

/-- `heap_form_minimal_tuple` -/
def heapFormMinimalTuple (cols : List Column) : Except TupleError (List UInt8) :=
  if maxTupleAttributeNumber < cols.length then .error (.tooManyColumns cols.length)
  else
    let hoff := maxAlign
      (sizeofMinimalTupleHeader + if hasNull cols then bitmapLen cols.length else 0)
    let len := hoff + heapComputeDataSize 0 cols
    let bits := if hasNull cols then [⟨sizeofMinimalTupleHeader, nullBitmap cols⟩] else []
    let tuple := runStores (fun _ => 0)
      (tupleHeader len cols.length hoff (hasNull cols) ++ (bits ++ fillVals hoff cols))
    .ok (load tuple 0 len)

/-! ## Flat columns -/

/-- 8 bytes, double-aligned: what the test for `result_flat` lets through. -/
def flatAttr : ByValAttr := ⟨.eight, .double⟩

/-- Columns of this kind, none of them NULL. -/
def flatColumns (values : List UInt64) : List Column := values.map fun v => (flatAttr, some v)

/-- `Datum`s as they lie in memory. -/
def datumBytes (values : List UInt64) : List UInt8 := values.flatMap fun v => leBytes 8 v.toNat

/-- The first 16 bytes of a tuple of `n` flat columns. -/
def flatHead (n : Nat) : List UInt8 :=
  load (runStores (fun _ => 0) (tupleHeader (16 + 8 * n) n 16 false)) 0 16

theorem length_datumBytes (values : List UInt64) :
    (datumBytes values).length = 8 * values.length := by
  simp [datumBytes, List.length_flatMap]
  omega

theorem typeAlign_eight_mul (a : Nat) : typeAlign 8 (8 * a) = 8 * a := by
  unfold typeAlign
  omega

theorem heapComputeDataSize_flat (a : Nat) (values : List UInt64) :
    heapComputeDataSize (8 * a) (flatColumns values) = 8 * a + 8 * values.length := by
  induction values generalizing a with
  | nil => rfl
  | cons v values ih =>
    show heapComputeDataSize (typeAlign 8 (8 * a) + 8) (flatColumns values) = _
    rw [typeAlign_eight_mul, ← Nat.mul_succ, ih, List.length_cons]
    omega

theorem hasNull_flat (values : List UInt64) : hasNull (flatColumns values) = false := by
  simp [hasNull, flatColumns]

theorem fillVals_flat_cons (a : Nat) (v : UInt64) (values : List UInt64) :
    fillVals (8 * a) (flatColumns (v :: values)) =
      ⟨8 * a, leBytes 8 v.toNat⟩ :: fillVals (8 * (a + 1)) (flatColumns values) := by
  show ⟨typeAlign 8 (8 * a), _⟩ :: fillVals (typeAlign 8 (8 * a) + 8) _ = _
  rw [typeAlign_eight_mul, Nat.mul_succ]
  rfl

theorem fillVals_flat_addr {a : Nat} {values : List UInt64} {s : Store}
    (hs : s ∈ fillVals (8 * a) (flatColumns values)) : 8 * a ≤ s.addr := by
  induction values generalizing a with
  | nil => cases hs
  | cons v values ih =>
    rw [fillVals_flat_cons] at hs
    rcases List.mem_cons.mp hs with rfl | hs
    · exact Nat.le_refl _
    · have := ih hs
      omega

/-- The values of flat columns lie one behind the other. -/
theorem load_fillVals_flat (mem : Memory) (a : Nat) (values : List UInt64) :
    load (runStores mem (fillVals (8 * a) (flatColumns values))) (8 * a) (8 * values.length) =
      datumBytes values := by
  induction values generalizing a mem with
  | nil => rfl
  | cons v values ih =>
    have hlen : 8 * (v :: values).length = 8 + 8 * values.length := by
      rw [List.length_cons]
      omega
    rw [fillVals_flat_cons, hlen, load_add]
    have hfirst : load (runStores (store mem (8 * a) (leBytes 8 v.toNat))
        (fillVals (8 * (a + 1)) (flatColumns values))) (8 * a) 8 = leBytes 8 v.toNat := by
      rw [load_runStores_apart fun s hs => Or.inl (fillVals_flat_addr hs)]
      simpa using load_store_self mem (8 * a) (leBytes 8 v.toNat)
    exact congrArg₂ (· ++ ·) hfirst (ih _ (a + 1))

/-- **A tuple of flat columns** is its head and its values. -/
theorem heapFormMinimalTuple_flat {values : List UInt64}
    (hn : values.length ≤ maxTupleAttributeNumber) :
    heapFormMinimalTuple (flatColumns values) =
      .ok (flatHead values.length ++ datumBytes values) := by
  have hlen : (flatColumns values).length = values.length := List.length_map ..
  have hsize : heapComputeDataSize 0 (flatColumns values) = 8 * values.length := by
    simpa using heapComputeDataSize_flat 0 values
  unfold heapFormMinimalTuple
  rw [if_neg (by omega), hasNull_flat, hlen, hsize]
  simp only [Bool.false_eq_true, if_false, Nat.add_zero, List.nil_append]
  have hhoff : maxAlign sizeofMinimalTupleHeader = 8 * 2 := rfl
  rw [hhoff, load_add, runStores_append, Nat.zero_add, load_fillVals_flat]
  rw [load_runStores_apart fun s hs => Or.inl (fillVals_flat_addr hs)]
  rfl

theorem length_flatHead (n : Nat) : (flatHead n).length = 16 := length_load _ _ _

/-- `t_len` of a tuple. -/
def tLen (tuple : List UInt8) : Nat := leValue (tuple.take 4)

theorem take_flatHead (n : Nat) : (flatHead n).take 4 = leBytes 4 (16 + 8 * n) := by
  have hsplit : flatHead n = load (runStores (fun _ => 0) (tupleHeader (16 + 8 * n) n 16 false)) 0 4
      ++ load (runStores (fun _ => 0) (tupleHeader (16 + 8 * n) n 16 false)) 4 12 := by
    rw [flatHead, ← load_add]
  have hapart : (tupleHeader (16 + 8 * n) n 16 false).Pairwise Store.Apart := by
    unfold tupleHeader Store.Apart Store.stop
    simp
  have hload : load (runStores (fun _ => 0) (tupleHeader (16 + 8 * n) n 16 false)) 0 4 =
      leBytes 4 (16 + 8 * n) := by
    simpa using load_runStores hapart List.mem_cons_self
  rw [hsplit, hload, List.take_left' (length_leBytes ..)]

/-! ## The block -/

/-- A call whose output columns are all flat. -/
structure FlatCall extends ApplyPwCall (List UInt64) UInt64 where
  cols : Nat
  rows_length : ∀ row ∈ rows, row.length = cols

namespace FlatCall

variable (call : FlatCall) (tups : Nat) (tupOut : List UInt8)

/-- The sample tuple of zeros. -/
def sample : Except TupleError (List UInt8) :=
  heapFormMinimalTuple (flatColumns (List.replicate (call.cols + 1) 0))

/-- `hdr->tup_head` -/
def tupHead : List UInt8 := tupOut.take 16

/-- `hdr->tup_len` -/
def tupLen : Nat := maxAlign (tLen tupOut)

/-- The data row with a given number. -/
def row (i : Nat) : List UInt64 := (call.rows[i]?).getD []

/-- `tups + (job->id_lambda * rows + i) * hdr->tup_len` -/
def entryAddr (t : Nat × Nat) : Nat := tups + call.slot t * tupLen tupOut

/-- What a worker writes for one lambda and one row. -/
def entryStores (t : Nat × Nat) : List Store :=
  let tup := call.entryAddr tups tupOut t
  [⟨tup, tupHead tupOut⟩, ⟨tup + 16, datumBytes (call.row t.2)⟩,
    ⟨tup + 16 + 8 * call.cols, leBytes 8 (call.loaded t.1 (call.row t.2)).toNat⟩]

/-- What the jobs write, job by job; without workers there is no block. -/
def blockStores : List Store :=
  if call.allocates ∧ call.launches then
    call.jobs.flatMap fun job =>
      (job.tasks call.num_tuples_data.toNat).flatMap (call.entryStores tups tupOut)
  else []

/-- A minimal tuple as the tuplestore takes it: `t_len` bytes. -/
def minimalTupleAt (mem : Memory) (a : Nat) : List UInt8 := load mem a (leValue (load mem a 4))

/-- `tuplestore_putblock`: the tuples of the block, `tup_len` bytes apart. -/
def flatOutput (mem : Memory) : List (List UInt8) :=
  if call.allocates ∧ call.launches then
    (List.range call.num_tuples_result.toNat).map fun i =>
      minimalTupleAt mem (tups + i * tupLen tupOut)
  else []

/-- The loop over `tuplestore_putvalues`: row `i % N` and cell `i` of the results,
which is where lambda `i / N` has stored its result for this row. -/
def putvaluesOutput : List (Except TupleError (List UInt8)) :=
  if call.allocates then
    (List.range call.num_tuples_result.toNat).map fun i =>
      let row := call.row (i % call.num_tuples_data.toNat)
      heapFormMinimalTuple (flatColumns
        (row ++ [call.loaded (i / call.num_tuples_data.toNat) row]))
  else []

variable {call} {tups : Nat} {tupOut : List UInt8}

/-- Head and length of the sample are those of every tuple of the type. -/
theorem sample_spec (h : call.sample = .ok tupOut) :
    call.cols + 1 ≤ maxTupleAttributeNumber ∧ tupHead tupOut = flatHead (call.cols + 1) ∧
      tupLen tupOut = 16 + 8 * (call.cols + 1) := by
  have hlen : (List.replicate (call.cols + 1) (0 : UInt64)).length = call.cols + 1 :=
    List.length_replicate
  have hn : call.cols + 1 ≤ maxTupleAttributeNumber := by
    by_contra hgt
    have htoo : maxTupleAttributeNumber <
        (flatColumns (List.replicate (call.cols + 1) 0)).length := by
      rw [flatColumns, List.length_map, hlen]
      omega
    unfold sample heapFormMinimalTuple at h
    rw [if_pos htoo] at h
    cases h
  have htuple : tupOut =
      flatHead (call.cols + 1) ++ datumBytes (List.replicate (call.cols + 1) 0) := by
    unfold sample at h
    rw [heapFormMinimalTuple_flat (by rw [hlen]; exact hn), hlen] at h
    exact (Except.ok.inj h).symm
  have hhead := length_flatHead (call.cols + 1)
  have hword : tupOut.take 4 = leBytes 4 (16 + 8 * (call.cols + 1)) := by
    rw [htuple, List.take_append_of_le_length (by omega), take_flatHead]
  refine ⟨hn, ?_, ?_⟩
  · rw [tupHead, htuple, List.take_left' hhead]
  · have hsmall : 16 + 8 * (call.cols + 1) < 256 ^ 4 := by
      unfold maxTupleAttributeNumber at hn
      omega
    rw [tupLen, tLen, hword, leValue_leBytes hsmall, maxAlign, typeAlign]
    omega

/-- The pairs that the leader's counts come to. -/
abbrev pairs (call : FlatCall) : List (Nat × Nat) :=
  allPairs call.num_tuples_lambda.toNat call.num_tuples_data.toNat

/-- The jobs write each entry once. -/
theorem blockStores_eq (hl : call.allocates = true ∧ call.launches = true) :
    call.blockStores tups tupOut = call.pairs.flatMap (call.entryStores tups tupOut) := by
  have hchunks : 1 ≤ call.chunks_per_lambda.toNat := by
    have := one_le_chunks call.toApplyPwCall
    omega
  rw [blockStores, if_pos hl, jobs, pairs, ← flatMap_tasks_rowJobs hchunks,
    List.flatMap_assoc]

theorem exists_pair_of_mem {s : Store} (hs : s ∈ call.blockStores tups tupOut) :
    (call.allocates = true ∧ call.launches = true) ∧
      ∃ t ∈ call.pairs, s ∈ call.entryStores tups tupOut t := by
  by_cases hl : call.allocates = true ∧ call.launches = true
  · rw [blockStores_eq hl] at hs
    exact ⟨hl, List.mem_flatMap.mp hs⟩
  · rw [blockStores, if_neg hl] at hs
    cases hs

/-- A row that is counted is there. -/
theorem row_length {t : Nat × Nat} (ht : t ∈ call.pairs) : (call.row t.2).length = call.cols := by
  have hle : call.num_tuples_data.toNat ≤ call.rows.length := toNat_wrap32_le _
  have hi : t.2 < call.rows.length := (mem_allPairs.mp ht).2.trans_le hle
  rw [row, List.getElem?_eq_getElem hi]
  exact call.rows_length _ (List.getElem_mem hi)

/-- A slot is that of a lambda and a row. -/
theorem resultSlot_divMod {rows lambdas i : Nat} (hi : i < rows * lambdas) :
    (i / rows, i % rows) ∈ allPairs lambdas rows ∧
      resultSlot rows (i / rows, i % rows) = i := by
  have hpos : 0 < rows := Nat.pos_of_mul_pos_right (Nat.lt_of_le_of_lt (Nat.zero_le i) hi)
  refine ⟨mem_allPairs.mpr ⟨Nat.div_lt_of_lt_mul hi, Nat.mod_lt i hpos⟩, ?_⟩
  rw [resultSlot, Nat.mul_comm]
  exact Nat.div_add_mod i rows

section Sample

variable (h : call.sample = .ok tupOut)

include h

/-- The three stores of an entry lie in the entry. -/
theorem mem_entryStores {t : Nat × Nat} (ht : t ∈ call.pairs) {s : Store}
    (hs : s ∈ call.entryStores tups tupOut t) :
    call.entryAddr tups tupOut t ≤ s.addr ∧
      s.stop ≤ call.entryAddr tups tupOut t + tupLen tupOut := by
  obtain ⟨_, hhead, hlen⟩ := sample_spec h
  have hrow := row_length ht
  unfold entryStores at hs
  simp only [List.mem_cons, List.not_mem_nil, or_false] at hs
  rcases hs with rfl | rfl | rfl
  · simp only [Store.stop, hhead, length_flatHead]
    omega
  · simp only [Store.stop, length_datumBytes, hrow]
    omega
  · simp only [Store.stop, length_leBytes]
    omega

/-- The tuple of a row and a result. -/
theorem heapForm_row {row : List UInt64} (hrow : row.length = call.cols) (v : UInt64) :
    heapFormMinimalTuple (flatColumns (row ++ [v])) =
      .ok (flatHead (call.cols + 1) ++ datumBytes (row ++ [v])) := by
  obtain ⟨hn, _, _⟩ := sample_spec h
  have hlen : (row ++ [v]).length = call.cols + 1 := by
    rw [List.length_append, hrow, List.length_singleton]
  rw [heapFormMinimalTuple_flat (by omega), hlen]

variable (hl : call.allocates = true ∧ call.launches = true)

include hl

/-- No two stores into the block meet. -/
theorem blockStores_apart : (call.blockStores tups tupOut).Pairwise Store.Apart := by
  rw [blockStores_eq hl]
  refine List.pairwise_flatMap.mpr ⟨fun t ht => ?_, ?_⟩
  · obtain ⟨_, hhead, hlen⟩ := sample_spec h
    have hrow := row_length ht
    unfold entryStores Store.Apart Store.stop
    simp [hhead, length_flatHead, length_datumBytes, hrow]
  · refine (nodup_allPairs _ _).imp_of_mem ?_
    intro t t' ht ht' hne s hs s' hs'
    obtain ⟨hs₁, hs₂⟩ := mem_entryStores h ht hs
    obtain ⟨hs₁', hs₂'⟩ := mem_entryStores h ht' hs'
    unfold entryAddr at hs₁ hs₂ hs₁' hs₂'
    unfold Store.Apart
    have hslots : call.slot t ≠ call.slot t' := fun heq =>
      hne (resultSlot_injective (mem_allPairs.mp ht).2 (mem_allPairs.mp ht').2 heq)
    -- different pairs have different slots, and slots are a whole tuple apart
    rcases Nat.lt_or_gt_of_ne hslots with hlt | hlt
    · have hmul := Nat.mul_le_mul_right (tupLen tupOut) (Nat.succ_le_of_lt hlt)
      rw [Nat.succ_mul] at hmul
      omega
    · have hmul := Nat.mul_le_mul_right (tupLen tupOut) (Nat.succ_le_of_lt hlt)
      rw [Nat.succ_mul] at hmul
      omega

/-- An entry of the block, when all stores were made. -/
theorem load_entry {order : List Store} (hperm : order.Perm (call.blockStores tups tupOut))
    (mem : Memory) {t : Nat × Nat} (ht : t ∈ call.pairs) :
    load (runStores mem order) (call.entryAddr tups tupOut t) (tupLen tupOut) =
      flatHead (call.cols + 1) ++
        datumBytes (call.row t.2 ++ [call.loaded t.1 (call.row t.2)]) := by
  obtain ⟨_, hhead, hlen⟩ := sample_spec h
  have hrow := row_length ht
  have hat : ∀ s ∈ call.entryStores tups tupOut t,
      load (runStores mem order) s.addr s.bytes.length = s.bytes := by
    intro s hs
    apply load_runStores_of_perm hperm (blockStores_apart h hl)
    rw [blockStores_eq hl]
    exact List.mem_flatMap.mpr ⟨t, ht, hs⟩
  unfold entryStores at hat
  simp only [List.forall_mem_cons, List.not_mem_nil, false_imp_iff, implies_true, and_true,
    hhead, length_flatHead, length_datumBytes, hrow, length_leBytes] at hat
  obtain ⟨hfirst, hcols, hresult⟩ := hat
  have hsplit : tupLen tupOut = 16 + 8 * call.cols + 8 := by omega
  rw [hsplit, load_add, load_add, hfirst, hcols, ← Nat.add_assoc, hresult, datumBytes, datumBytes,
    List.flatMap_append, List.append_assoc]
  simp

/-- The tuples the tuplestore takes from the block are those the other path forms. -/
theorem flatOutput_eq {order : List Store}
    (hperm : order.Perm (call.blockStores tups tupOut)) (mem : Memory) :
    (call.flatOutput tups tupOut (runStores mem order)).map .ok = call.putvaluesOutput := by
  obtain ⟨hdata, hlambda⟩ := launches_iff.mp hl.2
  rw [flatOutput, if_pos hl, putvaluesOutput, if_pos hl.1, List.map_map]
  refine List.map_congr_left fun i hi => ?_
  rw [List.mem_range, num_tuples_result,
    Int.toNat_mul (le_of_lt hdata) (le_of_lt hlambda)] at hi
  obtain ⟨ht, hslot⟩ := resultSlot_divMod hi
  have hentry := load_entry h hl hperm mem ht
  have hform := heapForm_row h (row_length ht)
    (call.loaded (i / call.num_tuples_data.toNat) (call.row (i % call.num_tuples_data.toNat)))
  unfold entryAddr slot at hentry
  rw [hslot] at hentry
  rw [← hentry] at hform
  -- the length in the entry is the length of the entry
  obtain ⟨hn, _, hlen⟩ := sample_spec h
  have hword : load (runStores mem order) (tups + i * tupLen tupOut) 4 =
      leBytes 4 (tupLen tupOut) := by
    have hsplit : tupLen tupOut = 4 + (12 + 8 * (call.cols + 1)) := by omega
    have htake := congrArg (List.take 4) hentry
    rw [hsplit, load_add, ← hsplit, List.take_left' (length_load ..),
      List.take_append_of_le_length (by rw [length_flatHead]; decide), take_flatHead,
      ← hlen] at htake
    exact htake
  have hsmall : tupLen tupOut < 256 ^ 4 := by
    unfold maxTupleAttributeNumber at hn
    omega
  show Except.ok (minimalTupleAt _ _) = _
  rw [minimalTupleAt, hword, leValue_leBytes hsmall]
  exact hform.symm

end Sample

/-! ## Where the block is not what it should be -/

/-- A store into the block ends before the last entry of the table, if not all rows are
counted. -/
theorem stop_le_last (h : call.sample = .ok tupOut)
    (hlarge : call.allocates = true → PG_INT32_MAX < (call.rows.length : Int)) {s : Store}
    (hs : s ∈ call.blockStores tups tupOut) :
    s.stop ≤ tups + ((call.lambdas - 1) * call.rows.length + (call.rows.length - 1)) *
      tupLen tupOut := by
  obtain ⟨hl, t, ht, hs⟩ := exists_pair_of_mem hs
  have hstop := (mem_entryStores h ht hs).2
  obtain ⟨hlambda, hdata⟩ := mem_allPairs.mp ht
  have hle : call.num_tuples_lambda.toNat ≤ call.lambdas := toNat_wrap32_le _
  have hlt : call.num_tuples_data.toNat < call.rows.length := toNat_wrap32_lt (hlarge hl.1)
  have hslot : call.slot t + 1 ≤
      (call.lambdas - 1) * call.rows.length + (call.rows.length - 1) := by
    have hmul : t.1 * call.num_tuples_data.toNat ≤ (call.lambdas - 1) * call.rows.length :=
      Nat.mul_le_mul (by omega) (by omega)
    unfold slot resultSlot
    omega
  have hmul := Nat.mul_le_mul_right (tupLen tupOut) hslot
  rw [Nat.succ_mul] at hmul
  unfold entryAddr at hstop
  omega

/-- The head of a tuple is not zero. -/
theorem load_ne_formed (h : call.sample = .ok tupOut) (a : Nat) (bytes : List UInt8) :
    load (fun _ => 0) a (tupLen tupOut) ≠ flatHead (call.cols + 1) ++ bytes := by
  intro heq
  obtain ⟨hn, _, hlen⟩ := sample_spec h
  have hsplit : tupLen tupOut = 4 + (12 + 8 * (call.cols + 1)) := by omega
  have htake := congrArg (List.take 4) heq
  rw [hsplit, load_add, List.take_left' (length_load ..),
    List.take_append_of_le_length (by rw [length_flatHead]; decide), take_flatHead] at htake
  have hvalue := congrArg leValue htake
  rw [leValue_leBytes (by unfold maxTupleAttributeNumber at hn; omega)] at hvalue
  have hzero : leValue (load (fun _ => 0) a 4) = 0 := rfl
  omega

theorem datumBytes_snoc_inj {row : List UInt64} {v w : UInt64}
    (h : datumBytes (row ++ [v]) = datumBytes (row ++ [w])) : v = w := by
  simp only [datumBytes, List.flatMap_append, List.flatMap_singleton, List.append_cancel_left_eq]
    at h
  have hvalue := congrArg leValue h
  rw [leValue_leBytes v.toNat_lt, leValue_leBytes w.toNat_lt] at hvalue
  exact UInt64.toNat_inj.mp hvalue

theorem exists_other (v : UInt64) : ∃ w, w ≠ v := by
  by_cases hv : v = 0
  · exact ⟨1, by rw [hv]; decide⟩
  · exact ⟨0, Ne.symm hv⟩

variable (call tups tupOut) in
/-- After the stores of all jobs, in any order, entry `l * N + i` of the block is the tuple
`heap_form_minimal_tuple` forms of row `i` and the result of lambda `l` for it, to the byte
and over the whole distance to the next entry; and both paths emit the same tuples. -/
def BlockFormed : Prop :=
  ∀ (order : List Store) (mem : Memory), order.Perm (call.blockStores tups tupOut) →
    (∀ l i row, l < call.lambdas → call.rows[i]? = some row →
      heapFormMinimalTuple (flatColumns (row ++ [call.eval call.mode l row])) =
        .ok (load (runStores mem order)
          (tups + (l * call.rows.length + i) * tupLen tupOut) (tupLen tupOut))) ∧
    (call.flatOutput tups tupOut (runStores mem order)).map .ok = call.putvaluesOutput

/-- With a table that is not empty, the rows are counted. -/
theorem BlockFormed.counted (hformed : call.BlockFormed tups tupOut)
    (h : call.sample = .ok tupOut) (hrows : call.rows ≠ []) (hlambdas : call.lambdas ≠ 0) :
    call.allocates = true ∧ (call.rows.length : Int) ≤ PG_INT32_MAX := by
  by_contra hbad
  push Not at hbad
  have hpos := List.length_pos_iff.mpr hrows
  obtain ⟨row, hrow⟩ : ∃ row, call.rows[call.rows.length - 1]? = some row :=
    ⟨_, List.getElem?_eq_getElem (by omega)⟩
  have hlast := (hformed _ (fun _ => 0) (List.Perm.refl _)).1 (call.lambdas - 1)
    (call.rows.length - 1) row (by omega) hrow
  rw [heapForm_row h (call.rows_length row (List.mem_of_getElem? hrow)),
    load_runStores_apart fun s hs => Or.inr (stop_le_last h hbad hs)] at hlast
  exact load_ne_formed h _ _ (Except.ok.inj hlast).symm

/-- A damaged lambda leaves its result in the block. -/
theorem BlockFormed.damaged_eq (hformed : call.BlockFormed tups tupOut)
    (h : call.sample = .ok tupOut) (hl : call.allocates = true ∧ call.launches = true)
    (hrows : (call.rows.length : Int) ≤ PG_INT32_MAX) {l : Nat} (hlt : l < call.lambdas)
    (hbad : ¬ PackIntact call.sizes call.lambdas l) {row : List UInt64}
    (hrow : call.rows[0]? = some row) : call.damaged l row = call.eval call.mode l row := by
  have hfit := (allocates_iff.mp hl.1).1
  have hn : call.num_tuples_data = call.rows.length := wrap32_natCast hrows
  have hm : call.num_tuples_lambda = call.lambdas := wrap32_natCast hfit
  have hpos : 0 < call.rows.length := (List.getElem?_eq_some_iff.mp hrow).1
  have ht : (l, 0) ∈ call.pairs := by
    rw [pairs, hn, hm]
    exact mem_allPairs.mpr ⟨hlt, hpos⟩
  have hentry := load_entry h hl (List.Perm.refl (call.blockStores tups tupOut)) (fun _ => 0) ht
  have hform := (hformed _ (fun _ => 0) (List.Perm.refl _)).1 l 0 row hlt hrow
  have hat : call.row 0 = row := by rw [FlatCall.row, hrow, Option.getD_some]
  have haddr : call.entryAddr tups tupOut (l, 0) =
      tups + (l * call.rows.length + 0) * tupLen tupOut := by
    rw [entryAddr, slot, hn, Int.toNat_natCast, resultSlot]
  rw [heapForm_row h (call.rows_length row (List.mem_of_getElem? hrow)), ← haddr, hentry, hat,
    Except.ok.injEq, List.append_cancel_left_eq] at hform
  have hloaded : call.loaded l row = call.damaged l row := by
    rw [loaded, hm, Int.toNat_natCast, if_neg hbad]
  rw [← hloaded]
  exact (datumBytes_snoc_inj hform).symm

/-- An empty table has no entries, and nothing is emitted for it. -/
theorem blockFormed_of_empty (hempty : call.rows = [] ∨ call.lambdas = 0) :
    call.BlockFormed tups tupOut := by
  have hl : ¬ call.launches = true := fun hl => by
    have hne := nonempty_of_launches hl
    exact hempty.elim hne.1 hne.2
  have hzero := num_tuples_result_of_empty hempty
  intro order mem _
  constructor
  · intro l i row hlt hrow
    rcases hempty with hrows | hlambdas
    · rw [hrows] at hrow
      cases hrow
    · omega
  · rw [flatOutput, if_neg (fun h => hl h.2), putvaluesOutput, hzero]
    exact (ite_self _).symm

/-- Counts that are those of the table, and lambdas that are loaded as they are. -/
theorem blockFormed_of_fits (h : call.sample = .ok tupOut)
    (hl : call.allocates = true ∧ call.launches = true)
    (hrows : (call.rows.length : Int) ≤ PG_INT32_MAX)
    (hload : ∀ l, call.loaded l = call.eval call.mode l) : call.BlockFormed tups tupOut := by
  have hn : call.num_tuples_data = call.rows.length := wrap32_natCast hrows
  have hm : call.num_tuples_lambda = call.lambdas :=
    wrap32_natCast (allocates_iff.mp hl.1).1
  intro order mem hperm
  refine ⟨?_, flatOutput_eq h hl hperm mem⟩
  intro l i row hlt hrow
  have ht : (l, i) ∈ call.pairs := by
    rw [pairs, hn, hm]
    exact mem_allPairs.mpr ⟨hlt, (List.getElem?_eq_some_iff.mp hrow).1⟩
  have hentry := load_entry h hl hperm mem ht
  have hat : call.row i = row := by rw [FlatCall.row, hrow, Option.getD_some]
  rw [entryAddr, slot, hn, Int.toNat_natCast, resultSlot, hat, hload] at hentry
  rw [heapForm_row h (call.rows_length row (List.mem_of_getElem? hrow)), hentry]

/-- **The workers write the tuples PostgreSQL would form**, once the sample tuple is formed
and whatever a worker makes of a damaged lambda, exactly if the table is empty, or its rows
and lambdas can be counted, the jobs allocated, and no lambda begins behind 4 GiB of
others. -/
theorem flatBlock_formed_iff (call : FlatCall) (h : call.sample = .ok tupOut)
    (hsizes : ∀ l, 0 < call.sizes l ∧ call.sizes l < 2 ^ 30) :
    (∀ damaged, { call with damaged }.BlockFormed tups tupOut) ↔
      call.rows = [] ∨ call.lambdas = 0 ∨
        ((call.rows.length : Int) ≤ PG_INT32_MAX ∧ (call.lambdas : Int) ≤ PG_INT32_MAX ∧
          24 * call.num_jobs ≤ MaxAllocSize ∧
          packedSize call.sizes (call.lambdas - 1) < 2 ^ 32) := by
  constructor
  · intro hformed
    by_contra hcond
    push Not at hcond
    obtain ⟨hrows, hlambdas, hpack⟩ := hcond
    obtain ⟨halloc, hfit⟩ := (hformed call.damaged).counted h hrows hlambdas
    obtain ⟨hfitl, hjobs⟩ := allocates_iff.mp halloc
    obtain ⟨l, hlt, hbad⟩ := exists_damaged (fun l _ => hsizes l) (hpack hfit hfitl hjobs)
    obtain ⟨row, hrow⟩ : ∃ row, call.rows[0]? = some row :=
      ⟨_, List.getElem?_eq_getElem (List.length_pos_iff.mpr hrows)⟩
    obtain ⟨v, hv⟩ := exists_other (call.eval call.mode l row)
    have hl : call.launches = true := by
      by_contra hl
      have hempty := ApplyPwCall.CountsFit.empty_of_not_launches (.inr (.inr hfit)) halloc hl
      exact hempty.elim hrows hlambdas
    have hsame : { call with damaged := fun _ _ => v }.damaged l row = call.eval call.mode l row :=
      (hformed fun _ _ => v).damaged_eq h ⟨halloc, hl⟩ hfit hlt hbad hrow
    exact hv hsame
  · intro hcond damaged
    by_cases hempty : call.rows = [] ∨ call.lambdas = 0
    · exact blockFormed_of_empty hempty
    · obtain ⟨hrows, hlambdas, hjobs, hpack⟩ := or_assoc.mpr hcond |>.resolve_left hempty
      have halloc : { call with damaged }.allocates = true :=
        allocates_iff.mpr ⟨hlambdas, hjobs⟩
      have hl : { call with damaged }.launches = true := by
        by_contra hl
        exact hempty (ApplyPwCall.CountsFit.empty_of_not_launches (.inr (.inr hrows)) halloc hl)
      exact blockFormed_of_fits h ⟨halloc, hl⟩ hrows (loaded_of_lt hlambdas hpack)

/-- `n` rows of one column and two lambdas. -/
def twoLambdas (n : Nat) : FlatCall where
  cols := 1
  rows := List.replicate n [5]
  rows_length := by simp
  lambdas := 2
  eval _ l row := row.foldl UInt64.add (UInt64.ofNat l)
  mode := .checked
  nworkers := 4
  result_flat := true
  garbage := [0]
  sizes := fun _ => 100
  damaged := fun _ _ => 0

/-- The tuple of two zeros: 32 bytes, 2 attributes, data from byte 24 of a full
tuple on. -/
def twoZeros : List UInt8 :=
  [32, 0, 0, 0, 0, 0, 0, 0, 0, 0, 2, 0, 0, 0, 24, 0] ++ List.replicate 16 0

/-- The second lambda on the second row, `(5, 6)`, after the stores of the four
jobs were made in reverse. -/
theorem flatBlock_formed_iff_twoRows :
    ((twoLambdas 2).sample = .ok twoZeros ∧
      ∀ l, 0 < (twoLambdas 2).sizes l ∧ (twoLambdas 2).sizes l < 2 ^ 30) ∧
      load (runStores (fun _ => 255) ((twoLambdas 2).blockStores 64 twoZeros).reverse)
          (64 + (1 * 2 + 1) * 32) 32 =
        [32, 0, 0, 0, 0, 0, 0, 0, 0, 0, 2, 0, 0, 0, 24, 0] ++
          [5, 0, 0, 0, 0, 0, 0, 0] ++ [6, 0, 0, 0, 0, 0, 0, 0] := by
  have hsample : (twoLambdas 2).sample = .ok twoZeros := by rfl
  have hsizes : ∀ l, 0 < (twoLambdas 2).sizes l ∧ (twoLambdas 2).sizes l < 2 ^ 30 := by
    simp [twoLambdas]
  refine ⟨⟨hsample, hsizes⟩, ?_⟩
  have hformed : (twoLambdas 2).BlockFormed 64 twoZeros :=
    (flatBlock_formed_iff (twoLambdas 2) hsample hsizes).mpr
      (.inr (.inr ⟨by decide, by decide, by decide, by decide⟩)) fun _ _ => 0
  have hblock := (hformed _ (fun _ => 255) (List.reverse_perm _)).1 1 1 [5] (by decide) rfl
  exact (Except.ok.inj hblock).symm.trans rfl

/-- With 2^31 rows the leader counts a negative number: there is no block. -/
theorem flatBlock_ignores_rows :
    (twoLambdas 2147483648).sample = .ok twoZeros ∧
      (twoLambdas 2147483648).rows.length = 2147483648 ∧
      (twoLambdas 2147483648).blockStores 64 twoZeros = [] ∧
      ¬ (twoLambdas 2147483648).BlockFormed 64 twoZeros := by
  have hsample : (twoLambdas 2147483648).sample = .ok twoZeros := by rfl
  have hlength : (twoLambdas 2147483648).rows.length = 2147483648 := List.length_replicate
  have hlaunches : (twoLambdas 2147483648).launches = false := by
    rw [← Bool.not_eq_true, launches_iff, num_tuples_data, hlength]
    exact fun h => absurd h.1 (by decide)
  refine ⟨hsample, hlength, if_neg (fun h => by simp [hlaunches] at h), ?_⟩
  intro hformed
  have hrows : (twoLambdas 2147483648).rows ≠ [] := by
    rw [← List.length_pos_iff, hlength]
    decide
  have hfit := (hformed.counted hsample hrows (by decide)).2
  rw [hlength] at hfit
  exact absurd hfit (by decide)

end FlatCall

end HolLambdas
