import HolLambdas.Bytes
import HolLambdas.Parallel.Pack

/-!
# The pack of lambdas, byte by byte

`LambdaPack` is a header of two words, an array of `uint32` offsets and the
serialized lambdas, raw and one behind the other. The leader of `apply_mt_pw`
sizes the region in 64 bits and fills it with `packStores`; a worker takes
lambda `l` out again by reading the number of lambdas, the offset and the length
word of the varlena there (`workerCopy`).

The offset of a lambda is the sum of the sizes before it, in 32 bits. As long as
no such sum reaches `2 ^ 32` no two stores meet, and a worker reads what the
leader wrote. Beyond that two lambdas lie over each other: `packSound_iff`.

Numbers are little-endian. The number of lambdas is an `int`; a list that does
not fit one is far beyond the bound for the offsets.
-/

namespace HolLambdas

open Bytes

/-- `VARSIZE`: the length word counts from its third bit. -/
def varsize (bytes : List UInt8) : Nat := leValue (bytes.take 4) / 4

/-- What `lambdaExprToSerialLambda` returns: a header of three words, then the
text, padded to a multiple of 4; `palloc0` bounds the size. -/
structure SerializedLambda where
  bytes : List UInt8
  header_le : 12 ≤ bytes.length
  aligned : 4 ∣ bytes.length
  length_lt : bytes.length < 2 ^ 30
  varsize_eq : varsize bytes = bytes.length

section Pack

variable (mem : Memory) (base : Nat) (serialized : List SerializedLambda)

/-- `sz` of lambda `l`. -/
def packSz (l : Nat) : Nat := (serialized[l]?).elim 0 fun s => varsize s.bytes % 2 ^ 32

def totalBlobSize : Nat := (serialized.map fun s => varsize s.bytes).sum

/-- `sizeof(LambdaPack) + num_tuples_lambda * sizeof(uint32) + total_blob_size` -/
def packSize : Nat := 8 + serialized.length * 4 + totalBlobSize serialized

/-- `lambda_pack_offsets` -/
def lambdaPackOffsets : Nat := base + 8

/-- `lambda_pack_blob`: it reads `num_lambdas`. -/
def lambdaPackBlob : Nat := lambdaPackOffsets base + 4 * leValue (load mem base 4)

/-- `num_lambdas` and `total_blob_size`. -/
def headerStores : List Store :=
  [⟨base, leBytes 4 serialized.length⟩, ⟨base + 4, leBytes 4 (totalBlobSize serialized)⟩]

/-- Where the leader copies lambda `l` to: `blob + cur_off`. -/
def packedAt (l : Nat) : Nat :=
  lambdaPackBlob (runStores mem (headerStores base serialized)) base +
    packOffset (packSz serialized) l

/-- The round of the copy loop for lambda `l`. -/
def copyStores (l : Nat) : List Store :=
  [⟨lambdaPackOffsets base + 4 * l, leBytes 4 (packOffset (packSz serialized) l)⟩,
    ⟨packedAt mem base serialized l,
      (serialized[l]?).elim [] fun s => s.bytes.take (packSz serialized l)⟩]

/-- All that the leader writes into the region. -/
def packStores : List Store :=
  headerStores base serialized ++
    (List.range serialized.length).flatMap (copyStores mem base serialized)

def packed : Memory := runStores mem (packStores mem base serialized)

end Pack

section Worker

variable (mem : Memory) (base : Nat)

/-- `ser_shm`, the address at which a worker reads lambda `l`. -/
def workerStart (l : Nat) : Nat :=
  lambdaPackBlob mem base + leValue (load mem (lambdaPackOffsets base + 4 * l) 4)

/-- The bytes a worker copies. -/
def workerCopy (l : Nat) : List UInt8 :=
  load mem (workerStart mem base l) (varsize (load mem (workerStart mem base l) 4))

end Worker

/-- What is wanted of the pack in the region from `base` on. -/
structure PackSound (mem : Memory) (base : Nat) (serialized : List SerializedLambda) : Prop where
  /-- A worker gets the lambda that was packed. -/
  decodes : ∀ l s, serialized[l]? = some s →
    workerCopy (packed mem base serialized) base l = s.bytes
  /-- It reads it from an aligned address. -/
  aligned : 8 ∣ base → ∀ l, l < serialized.length →
    4 ∣ workerStart (packed mem base serialized) base l
  /-- Nothing is written outside the region. -/
  inside : ∀ st ∈ packStores mem base serialized,
    base ≤ st.addr ∧ st.stop ≤ base + packSize serialized
  /-- No two lambdas overlap. -/
  apart : ∀ l l', l < l' → l' < serialized.length →
    packedAt mem base serialized l + packSz serialized l ≤ packedAt mem base serialized l' ∨
      packedAt mem base serialized l' + packSz serialized l' ≤ packedAt mem base serialized l

/-! ## Sizes -/

section Sizes

variable {mem : Memory} {base : Nat} {serialized : List SerializedLambda}

theorem packSz_eq {l : Nat} {s : SerializedLambda} (hs : serialized[l]? = some s) :
    packSz serialized l = s.bytes.length := by
  have hlt := s.length_lt
  rw [packSz, hs, Option.elim_some, s.varsize_eq, Nat.mod_eq_of_lt (by omega)]

theorem packSz_bounds {l : Nat} (hl : l < serialized.length) :
    12 ≤ packSz serialized l ∧ packSz serialized l < 2 ^ 30 ∧ 4 ∣ packSz serialized l := by
  rw [packSz_eq (List.getElem?_eq_getElem hl)]
  exact ⟨serialized[l].header_le, serialized[l].length_lt, serialized[l].aligned⟩

theorem copyBytes_eq {l : Nat} {s : SerializedLambda} (hs : serialized[l]? = some s) :
    ((serialized[l]?).elim [] fun s => s.bytes.take (packSz serialized l)) = s.bytes := by
  rw [packSz_eq hs, hs, Option.elim_some, List.take_length]

theorem packedSize_take {l : Nat} (hl : l ≤ serialized.length) :
    packedSize (packSz serialized) l =
      ((serialized.take l).map fun s => varsize s.bytes).sum := by
  induction l with
  | zero => rfl
  | succ l ih =>
    have hs := List.getElem?_eq_getElem (Nat.lt_of_succ_le hl)
    rw [packedSize_succ, ih (Nat.le_of_succ_le hl), packSz_eq hs, List.take_add_one, hs,
      ← serialized[l].varsize_eq]
    simp only [Option.toList_some, List.map_append, List.sum_append, List.map_cons, List.map_nil,
      List.sum_cons, List.sum_nil, Nat.add_zero]

/-- The sizes of the lambdas add up to the size of the blob. -/
theorem packedSize_length : packedSize (packSz serialized) serialized.length =
    totalBlobSize serialized := by
  rw [packedSize_take (Nat.le_refl _), List.take_length, totalBlobSize]

/-- The offsets and the last size stay within the blob, whether they wrap or not. -/
theorem packOffset_le {l : Nat} (hl : l < serialized.length) :
    packOffset (packSz serialized) l + packSz serialized l ≤ totalBlobSize serialized := by
  have hmod : packOffset (packSz serialized) l ≤ packedSize (packSz serialized) l := by
    rw [packOffset_eq]
    exact Nat.mod_le _ _
  have hmono := packedSize_mono (packSz serialized) (Nat.succ_le_of_lt hl)
  rw [packedSize_length, Nat.succ_eq_add_one, packedSize_succ] at hmono
  omega

theorem four_dvd_packOffset {l : Nat} (hl : l ≤ serialized.length) :
    4 ∣ packOffset (packSz serialized) l := by
  induction l with
  | zero => exact Nat.dvd_zero 4
  | succ l ih =>
    have hsz : 4 ∣ packSz serialized l := (packSz_bounds hl).2.2
    have hoff := ih (Nat.le_of_succ_le hl)
    rw [packOffset]
    omega

theorem twelve_mul_le_packedSize {l : Nat} (hl : l ≤ serialized.length) :
    12 * l ≤ packedSize (packSz serialized) l := by
  induction l with
  | zero => exact Nat.zero_le _
  | succ l ih =>
    have hsz : 12 ≤ packSz serialized l := (packSz_bounds hl).1
    have hle := ih (Nat.le_of_succ_le hl)
    rw [packedSize_succ]
    omega

end Sizes

/-! ## Without a wrap -/

section NoWrap

variable {mem : Memory} {base : Nat} {serialized : List SerializedLambda}

theorem headerStores_apart : (headerStores base serialized).Pairwise Store.Apart := by
  unfold headerStores Store.Apart Store.stop
  simp

/-- The blob begins behind the offsets. -/
theorem lambdaPackBlob_eq {mem' : Memory} (hlen : serialized.length < 2 ^ 32)
    (hload : load mem' base 4 = leBytes 4 serialized.length) :
    lambdaPackBlob mem' base = base + 8 + 4 * serialized.length := by
  rw [lambdaPackBlob, hload, leValue_leBytes (by omega), lambdaPackOffsets]

theorem packedAt_eq (hlen : serialized.length < 2 ^ 32) (l : Nat) :
    packedAt mem base serialized l =
      base + 8 + 4 * serialized.length + packOffset (packSz serialized) l := by
  have hload : load (runStores mem (headerStores base serialized)) base 4 =
      leBytes 4 serialized.length := by
    have hmem : ⟨base, leBytes 4 serialized.length⟩ ∈ headerStores base serialized :=
      List.mem_cons_self
    simpa using load_runStores headerStores_apart hmem
  rw [packedAt, lambdaPackBlob_eq hlen hload]

/-- The two stores of a round. -/
theorem mem_copyStores {l : Nat} (hl : l < serialized.length) {st : Store}
    (hst : st ∈ copyStores mem base serialized l) :
    (st.addr = base + 8 + 4 * l ∧ st.stop = base + 8 + 4 * l + 4) ∨
      (st.addr = packedAt mem base serialized l ∧
        st.stop = packedAt mem base serialized l + packSz serialized l) := by
  have hs := List.getElem?_eq_getElem hl
  rcases List.mem_cons.mp hst with rfl | hst
  · exact Or.inl ⟨rfl, by simp [Store.stop, lambdaPackOffsets]⟩
  · rw [List.mem_singleton] at hst
    subst hst
    refine Or.inr ⟨rfl, ?_⟩
    unfold Store.stop
    rw [copyBytes_eq hs, packSz_eq hs]

theorem mem_packStores_of_copyStores {l : Nat} (hl : l < serialized.length) {st : Store}
    (hst : st ∈ copyStores mem base serialized l) : st ∈ packStores mem base serialized :=
  List.mem_append_right _ (List.mem_flatMap.mpr ⟨l, List.mem_range.mpr hl, hst⟩)

variable (hfit : packedSize (packSz serialized) (serialized.length - 1) < 2 ^ 32)

include hfit

theorem length_lt_of_fit : serialized.length < 2 ^ 32 := by
  have hle := twelve_mul_le_packedSize (Nat.sub_le serialized.length 1)
  omega

/-- The lambdas lie one behind the other. -/
theorem packOffset_add_le {l l' : Nat} (hl : l < l') (hl' : l' < serialized.length) :
    packOffset (packSz serialized) l + packSz serialized l ≤ packOffset (packSz serialized) l' := by
  have hlast : packedSize (packSz serialized) l' ≤
      packedSize (packSz serialized) (serialized.length - 1) := packedSize_mono _ (by omega)
  have hnext := packedSize_mono (packSz serialized) (Nat.succ_le_of_lt hl)
  rw [Nat.succ_eq_add_one, packedSize_succ] at hnext
  rw [packOffset_of_lt (by omega), packOffset_of_lt (by omega)]
  exact hnext

/-- No two stores of the leader meet. -/
theorem packStores_apart : (packStores mem base serialized).Pairwise Store.Apart := by
  have hlen := length_lt_of_fit hfit
  refine List.pairwise_append.mpr ⟨headerStores_apart, List.pairwise_flatMap.mpr ⟨?_, ?_⟩, ?_⟩
  · -- the offset and the bytes of one lambda
    intro l hl
    have hl := List.mem_range.mp hl
    have hat : packedAt mem base serialized l = _ := packedAt_eq hlen l
    unfold copyStores Store.Apart Store.stop
    simp only [List.pairwise_cons, List.mem_singleton, forall_eq, List.not_mem_nil,
      false_imp_iff, implies_true, List.Pairwise.nil, and_true]
    left
    rw [hat, length_leBytes, lambdaPackOffsets]
    omega
  · -- those of two lambdas
    refine List.pairwise_lt_range.imp_of_mem fun {l l'} hl hl' hlt st hst st' hst' => ?_
    have hl := List.mem_range.mp hl
    have hl' := List.mem_range.mp hl'
    have hat : packedAt mem base serialized l = _ := packedAt_eq hlen l
    have hat' : packedAt mem base serialized l' = _ := packedAt_eq hlen l'
    have hoff := packOffset_add_le hfit hlt hl'
    unfold Store.Apart
    rcases mem_copyStores hl hst with ⟨ha, hs⟩ | ⟨ha, hs⟩ <;>
      rcases mem_copyStores hl' hst' with ⟨ha', hs'⟩ | ⟨ha', hs'⟩ <;> omega
  · -- the header and those of a lambda
    intro st hst st' hst'
    obtain ⟨l, hl, hst'⟩ := List.mem_flatMap.mp hst'
    have hl := List.mem_range.mp hl
    have hat : packedAt mem base serialized l = _ := packedAt_eq hlen l
    have hstop : st.stop ≤ base + 8 := by
      simp only [headerStores, List.mem_cons, List.not_mem_nil, or_false] at hst
      rcases hst with rfl | rfl
      · simp [Store.stop]
      · simp [Store.stop]
    left
    rcases mem_copyStores hl hst' with ⟨ha, _⟩ | ⟨ha, _⟩ <;> omega

/-- What was stored is there. -/
theorem load_packed {st : Store} (hst : st ∈ packStores mem base serialized) :
    load (packed mem base serialized) st.addr st.bytes.length = st.bytes :=
  load_runStores (packStores_apart hfit) hst

/-- A worker looks where the leader has copied the lambda to. -/
theorem workerStart_packed {l : Nat} (hl : l < serialized.length) :
    workerStart (packed mem base serialized) base l = packedAt mem base serialized l := by
  have hlen := length_lt_of_fit hfit
  have hcount : load (packed mem base serialized) base 4 = leBytes 4 serialized.length := by
    have hmem : ⟨base, leBytes 4 serialized.length⟩ ∈ packStores mem base serialized :=
      List.mem_append_left _ List.mem_cons_self
    simpa using load_packed hfit hmem
  have hoffset : load (packed mem base serialized) (lambdaPackOffsets base + 4 * l) 4 =
      leBytes 4 (packOffset (packSz serialized) l) := by
    have hmem : ⟨lambdaPackOffsets base + 4 * l, leBytes 4 (packOffset (packSz serialized) l)⟩ ∈
        packStores mem base serialized := mem_packStores_of_copyStores hl List.mem_cons_self
    simpa using load_packed hfit hmem
  have hlt : packOffset (packSz serialized) l < 256 ^ 4 := by
    rw [packOffset_eq]
    exact Nat.mod_lt _ (by decide)
  rw [workerStart, lambdaPackBlob_eq hlen hcount, hoffset, leValue_leBytes hlt, packedAt_eq hlen]

/-- A worker copies what the leader has copied. -/
theorem workerCopy_packed {l : Nat} {s : SerializedLambda} (hs : serialized[l]? = some s) :
    workerCopy (packed mem base serialized) base l = s.bytes := by
  have hl : l < serialized.length := (List.getElem?_eq_some_iff.mp hs).1
  have hbytes : load (packed mem base serialized) (packedAt mem base serialized l)
      s.bytes.length = s.bytes := by
    have hmem : ⟨packedAt mem base serialized l, s.bytes⟩ ∈ packStores mem base serialized := by
      apply mem_packStores_of_copyStores hl
      rw [copyStores, copyBytes_eq hs]
      exact List.mem_cons_of_mem _ List.mem_cons_self
    exact load_packed hfit hmem
  -- the length word is the beginning of these bytes
  have hword : load (packed mem base serialized) (packedAt mem base serialized l) 4 =
      s.bytes.take 4 := by
    have hle := s.header_le
    obtain ⟨n, hn⟩ : ∃ n, s.bytes.length = 4 + n := ⟨s.bytes.length - 4, by omega⟩
    rw [hn, load_add] at hbytes
    rw [← hbytes, List.take_append_of_le_length (by simp), List.take_of_length_le (by simp)]
  have hsize : varsize (s.bytes.take 4) = s.bytes.length := by
    rw [varsize, List.take_take, Nat.min_self]
    exact s.varsize_eq
  rw [workerCopy, workerStart_packed hfit hl, hword, hsize, hbytes]

/-- Every store stays in the region. -/
theorem packStores_inside {st : Store} (hst : st ∈ packStores mem base serialized) :
    base ≤ st.addr ∧ st.stop ≤ base + packSize serialized := by
  have hlen := length_lt_of_fit hfit
  unfold packSize
  rcases List.mem_append.mp hst with hst | hst
  · simp only [headerStores, List.mem_cons, List.not_mem_nil, or_false] at hst
    rcases hst with rfl | rfl
    · simp only [Store.stop, length_leBytes]
      omega
    · simp only [Store.stop, length_leBytes]
      omega
  · obtain ⟨l, hl, hst⟩ := List.mem_flatMap.mp hst
    have hl := List.mem_range.mp hl
    have hat : packedAt mem base serialized l = _ := packedAt_eq hlen l
    have hblob := packOffset_le hl
    rcases mem_copyStores hl hst with ⟨ha, hs⟩ | ⟨ha, hs⟩ <;> omega

end NoWrap

/-- **The pack is sound exactly if no offset wraps**, that is, if the sizes of all
lambdas but the last add up to less than 4 GiB. -/
theorem packSound_iff (mem : Memory) (base : Nat) (serialized : List SerializedLambda) :
    PackSound mem base serialized ↔
      packedSize (packSz serialized) (serialized.length - 1) < 2 ^ 32 := by
  constructor
  · intro h
    have hsizes : ∀ l, l < serialized.length →
        0 < packSz serialized l ∧ packSz serialized l < 2 ^ 30 := by
      intro l hl
      have hbounds := packSz_bounds hl
      exact ⟨by omega, hbounds.2.1⟩
    refine (packIntact_iff hsizes).mp fun l _ l' hlt hl' => ?_
    have hapart := h.apart l l' hlt hl'
    unfold packedAt at hapart
    omega
  · intro hfit
    have hlen := length_lt_of_fit hfit
    refine ⟨fun l s hs => workerCopy_packed hfit hs, fun hbase l hl => ?_,
      fun st hst => packStores_inside hfit hst, fun l l' hlt hl' => ?_⟩
    · have hoff := four_dvd_packOffset (Nat.le_of_lt hl)
      rw [workerStart_packed hfit hl, packedAt_eq hlen]
      omega
    · have hoff := packOffset_add_le hfit hlt hl'
      rw [packedAt_eq hlen, packedAt_eq hlen]
      omega

/-- The length word of 512 bytes, and zeros for the rest. -/
def halfKiBBytes : List UInt8 := leBytes 4 2048 ++ List.replicate 508 0

theorem length_halfKiBBytes : halfKiBBytes.length = 512 := by
  rw [halfKiBBytes, List.length_append, length_leBytes, List.length_replicate]

/-- A serialized lambda of 512 bytes. -/
def halfKiBLambda : SerializedLambda where
  bytes := halfKiBBytes
  header_le := by rw [length_halfKiBBytes]; decide
  aligned := by rw [length_halfKiBBytes]; decide
  length_lt := by rw [length_halfKiBBytes]; decide
  varsize_eq := by
    rw [length_halfKiBBytes, varsize, halfKiBBytes, List.take_left' (length_leBytes 4 2048),
      leValue_leBytes (by decide)]

theorem packSz_halfKiB {n l : Nat} (hl : l < n) :
    packSz (List.replicate n halfKiBLambda) l = 512 := by
  have hs : (List.replicate n halfKiBLambda)[l]? = some halfKiBLambda := by simp [hl]
  rw [packSz_eq hs]
  exact length_halfKiBBytes

theorem packedSize_halfKiB {n l : Nat} (hl : l ≤ n) :
    packedSize (packSz (List.replicate n halfKiBLambda)) l = 512 * l := by
  induction l with
  | zero => rfl
  | succ l ih =>
    rw [packedSize_succ, ih (Nat.le_of_succ_le hl), packSz_halfKiB hl, Nat.mul_succ]

/-- Of 8388609 such lambdas the first and the last are copied to one place. -/
theorem lastLambda_over_first :
    packedAt (fun _ => 0) 0 (List.replicate 8388609 halfKiBLambda) 8388608 =
        packedAt (fun _ => 0) 0 (List.replicate 8388609 halfKiBLambda) 0 ∧
      ¬ PackSound (fun _ => 0) 0 (List.replicate 8388609 halfKiBLambda) := by
  have hoffset : packOffset (packSz (List.replicate 8388609 halfKiBLambda)) 8388608 =
      packOffset (packSz (List.replicate 8388609 halfKiBLambda)) 0 := by
    rw [packOffset_eq, packedSize_halfKiB (by decide)]
    rfl
  have hsame : packedAt (fun _ => 0) 0 (List.replicate 8388609 halfKiBLambda) 8388608 =
      packedAt (fun _ => 0) 0 (List.replicate 8388609 halfKiBLambda) 0 := by
    rw [packedAt, hoffset, ← packedAt]
  refine ⟨hsame, fun h => ?_⟩
  have hfirst : packSz (List.replicate 8388609 halfKiBLambda) 0 = 512 := packSz_halfKiB (by decide)
  have hlast : packSz (List.replicate 8388609 halfKiBLambda) 8388608 = 512 :=
    packSz_halfKiB (by decide)
  have hapart := h.apart 0 8388608 (by decide) (by rw [List.length_replicate]; decide)
  rw [hsame, hfirst, hlast] at hapart
  omega

end HolLambdas
