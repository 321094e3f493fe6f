import HolLambdas.Bytes
import HolLambdas.Arrays.ArrayType

/-!
# The bytes of a copied array

`copyArray` once more, with the bytes it moves. The last `memcpy` starts at the elements and takes
the size of the whole array, header included, so it reads that much more than there is and writes
beyond the chunk. It does so for every array, and before the callers do anything with the copy.
-/

namespace HolLambdas.Arrays

open Bytes

inductive CopyError where
  /-- "invalid memory alloc request size %zu" -/
  | tooLarge
  | readOutside
  | writeOutside
deriving DecidableEq, Repr

/-- `memcpy` between two blocks, which the source does not check. -/
def memcpy (dst : List UInt8) (pos : Nat) (src : List UInt8) (start len : Nat) :
    Except CopyError (List UInt8) :=
  if src.length < start + len then .error .readOutside
  else if dst.length < pos + len then .error .writeOutside
  else .ok (dst.take pos ++ (src.drop start).take len ++ dst.drop (pos + len))

theorem memcpy_ok (dst : List UInt8) (pos : Nat) (src : List UInt8) (start len : Nat)
    (hsrc : start + len ≤ src.length) (hdst : pos + len ≤ dst.length) :
    ∃ ret, memcpy dst pos src start len = .ok ret ∧ ret.length = dst.length := by
  refine ⟨_, by rw [memcpy, if_neg (by omega), if_neg (by omega)], ?_⟩
  simp only [List.length_append, List.length_take, List.length_drop]
  omega

/-! ## Arrays -/

/-- `ARR_DATA_OFFSET`: with nulls there is a bitmap before the elements. -/
def arrDataOffset (ndim nitems : Nat) : Option (List Bool) → Nat
  | none => arrOverheadNonulls ndim
  | some _ => (16 + 8 * ndim + (nitems + 7) / 8 + 7) / 8 * 8

/-- The number of elements that are there: those that are not null. -/
def storedItems (nitems : Nat) : Option (List Bool) → Nat
  | none => nitems
  | some nulls => nulls.count false

/-- An array of `float8` as PostgreSQL stores it. -/
structure ArrayDatum where
  dims : List Nat
  lbound : List Int
  nitems : Nat
  nulls : Option (List Bool)
  bytes : List UInt8
  nitems_eq : arrayGetNItems dims = .ok nitems
  nulls_length : ∀ l, nulls = some l → l.length = nitems
  varsize : bytes.length = arrDataOffset dims.length nitems nulls + 8 * storedItems nitems nulls

namespace ArrayDatum

/-- `isScalar`, where there is a lower bound. -/
def isScalar (d : ArrayDatum) : Bool := d.lbound.head? = some (-1)

def dataOffset (d : ArrayDatum) : Nat := arrDataOffset d.dims.length d.nitems d.nulls

/-- The size of the copy, which has no bitmap. -/
def nbytes (d : ArrayDatum) : Nat := d.nitems * 8 + arrOverheadNonulls d.dims.length

theorem storedItems_le (d : ArrayDatum) : storedItems d.nitems d.nulls ≤ d.nitems := by
  cases h : d.nulls with
  | none => exact Nat.le_refl _
  | some l => exact d.nulls_length l h ▸ List.count_le_length

theorem header_le (d : ArrayDatum) : 16 + 8 * d.dims.length ≤ d.bytes.length := by
  rw [d.varsize]
  cases d.nulls with
  | none =>
    rw [arrDataOffset, arrOverheadNonulls]
    omega
  | some l =>
    rw [arrDataOffset]
    omega

end ArrayDatum

/-! ## The copy -/

def FLOAT8OID : Nat := 701

/-- `vl_len_`, `ndim`, `dataoffset` and `elemtype` of the copy. -/
def arrayHeader (nbytes ndim : Nat) : List UInt8 :=
  leBytes 4 (nbytes * 4) ++ leBytes 4 ndim ++ leBytes 4 0 ++ leBytes 4 FLOAT8OID

/-- `copyArray`, byte by byte. -/
def copyArrayBytes (d : ArrayDatum) : Except CopyError (List UInt8) := do
  let ndim := d.dims.length
  if MaxAllocSize < d.nbytes then throw .tooLarge
  let ret ← memcpy (List.replicate d.nbytes 0) 0 (arrayHeader d.nbytes ndim) 0 16
  let ret ← memcpy ret 16 d.bytes 16 (4 * ndim)
  let ret ← memcpy ret (16 + 4 * ndim) d.bytes (16 + 4 * ndim) (4 * ndim)
  memcpy ret (arrOverheadNonulls ndim) d.bytes d.dataOffset d.nbytes

/-- The last `memcpy` always leaves the array that it reads. -/
theorem copyArrayBytes_eq (d : ArrayDatum) : copyArrayBytes d =
    .error (if MaxAllocSize < d.nbytes then .tooLarge else .readOutside) := by
  have hheader := d.header_le
  have hoverhead : 16 + 8 * d.dims.length ≤ arrOverheadNonulls d.dims.length := by
    unfold arrOverheadNonulls
    omega
  have hnbytes : d.nbytes = d.nitems * 8 + arrOverheadNonulls d.dims.length := rfl
  unfold copyArrayBytes
  by_cases hsize : MaxAllocSize < d.nbytes
  · rw [if_pos hsize, if_pos hsize]
    rfl
  · have hzeros : (List.replicate d.nbytes (0 : UInt8)).length = d.nbytes := List.length_replicate
    obtain ⟨ret, hret, hlen⟩ := memcpy_ok (List.replicate d.nbytes 0) 0
      (arrayHeader d.nbytes d.dims.length) 0 16 (by simp [arrayHeader]) (by omega)
    obtain ⟨ret', hret', hlen'⟩ := memcpy_ok ret 16 d.bytes 16 (4 * d.dims.length) (by omega)
      (by omega)
    obtain ⟨ret'', hret'', _⟩ := memcpy_ok ret' (16 + 4 * d.dims.length) d.bytes
      (16 + 4 * d.dims.length) (4 * d.dims.length) (by omega) (by omega)
    -- the bytes after the elements' start are those of the elements only
    have hbeyond : d.bytes.length < d.dataOffset + d.nbytes := by
      have hstored := d.storedItems_le
      rw [d.varsize, ArrayDatum.dataOffset]
      omega
    rw [if_neg hsize, if_neg hsize]
    show (memcpy _ _ _ _ _ >>= _) = _
    rw [hret, ok_bind, hret', ok_bind, hret'', ok_bind, memcpy, if_pos hbeyond]

/-- The copy stays in bounds and has the sizes, the lower bounds and the elements of the array. -/
def CopiesInBounds (d : ArrayDatum) : Prop :=
  ∃ ret, copyArrayBytes d = .ok ret ∧
    (ret.drop 16).take (8 * d.dims.length) = (d.bytes.drop 16).take (8 * d.dims.length) ∧
      (ret.drop (arrOverheadNonulls d.dims.length)).take (8 * d.nitems) =
        (d.bytes.drop d.dataOffset).take (8 * d.nitems)

/-- `matrix_add_internal`, with what `matrix_add_inplace` does to the copy. -/
def matrixAddInternalBytes (inplace : List UInt8 → ArrayDatum → Except CopyError (List UInt8))
    (matA matB : ArrayDatum) : Except CopyError (List UInt8) := do
  inplace (← copyArrayBytes matA) matB

/-- `matrix_elem_mult`, with the loop on the copy and the routine for two arrays. -/
def matrixElemMultBytes (scale : List UInt8 → List UInt8 → Except CopyError (List UInt8))
    (general : ArrayDatum → ArrayDatum → Except CopyError (List UInt8)) (a b : ArrayDatum) :
    Except CopyError (List UInt8) := do
  if a.isScalar then
    let elem := (a.bytes.drop a.dataOffset).take 8
    return ← scale elem (← copyArrayBytes b)
  if b.isScalar then
    let elem := (b.bytes.drop b.dataOffset).take 8
    return ← scale elem (← copyArrayBytes a)
  general a b

/-- **Copies leave their bounds**, all of them, and with them the routines that start with a copy,
whatever these do afterwards. -/
theorem copies_leave_bounds (a b : ArrayDatum) :
    ¬ CopiesInBounds a ∧ (∀ inplace ret, matrixAddInternalBytes inplace a b ≠ .ok ret) ∧
      (a.isScalar ∨ b.isScalar →
        ∀ scale general ret, matrixElemMultBytes scale general a b ≠ .ok ret) := by
  have hcopy : ∀ (d : ArrayDatum) (f : List UInt8 → Except CopyError (List UInt8)) ret,
      (copyArrayBytes d >>= f) ≠ .ok ret := by
    intro d f ret h
    rw [copyArrayBytes_eq] at h
    cases h
  refine ⟨?_, fun inplace => hcopy a fun ret => inplace ret b, ?_⟩
  · rintro ⟨ret, hret, -⟩
    rw [copyArrayBytes_eq] at hret
    cases hret
  · intro h scale general
    unfold matrixElemMultBytes
    by_cases ha : a.isScalar
    · rw [if_pos ha]
      exact hcopy b _
    · rw [if_neg ha, if_pos (h.resolve_left ha)]
      exact hcopy a _

/-- A scalar: a header of 24 bytes and one element. -/
def scalarDatum : ArrayDatum where
  dims := [1]
  lbound := [-1]
  nitems := 1
  nulls := none
  bytes := List.replicate 32 0
  nitems_eq := by decide
  nulls_length := nofun
  varsize := by decide

theorem copies_leave_bounds_scalar :
    scalarDatum.isScalar ∧
      ∀ ret, matrixElemMultBytes (fun _ ret => .ok ret) (fun a _ => .ok a.bytes) scalarDatum
        scalarDatum ≠ .ok ret :=
  ⟨by decide, (copies_leave_bounds scalarDatum scalarDatum).2.2 (.inl (by decide)) _ _⟩

theorem copyArrayBytes_scalarDatum : copyArrayBytes scalarDatum = .error .readOutside := by
  decide

end HolLambdas.Arrays
