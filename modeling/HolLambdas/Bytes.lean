import Mathlib.Data.List.Range
import Mathlib.Tactic.Ring

/-!
# Memory as bytes

A memory that is a function from addresses to bytes, stores of whole ranges, and
numbers in little-endian order. A program that fills a region is a list of
stores; what it leaves behind is easy to say as long as no two of them touch the
same bytes: every range then holds what was stored there, in whatever order the
stores were made (`load_runStores`).
-/

namespace HolLambdas.Bytes

/-! ## Little-endian numbers -/

/-- The lowest `w` bytes of a number, the lowest first. -/
def leBytes : (w : Nat) → Nat → List UInt8
  | 0, _ => []
  | w + 1, v => UInt8.ofNat v :: leBytes w (v / 256)

/-- The number that bytes stand for. -/
def leValue : List UInt8 → Nat
  | [] => 0
  | b :: bs => b.toNat + 256 * leValue bs

@[simp] theorem length_leBytes (w v : Nat) : (leBytes w v).length = w := by
  induction w generalizing v with
  | zero => rfl
  | succ w ih => rw [leBytes, List.length_cons, ih]

theorem leValue_leBytes {w v : Nat} (h : v < 256 ^ w) : leValue (leBytes w v) = v := by
  induction w generalizing v with
  | zero =>
    rw [Nat.pow_zero] at h
    rw [leBytes, leValue]
    omega
  | succ w ih =>
    have hdiv : v / 256 < 256 ^ w := by
      rw [Nat.pow_succ] at h
      exact Nat.div_lt_of_lt_mul (by omega)
    rw [leBytes, leValue, ih hdiv, UInt8.toNat_ofNat']
    omega

/-! ## Stores -/

abbrev Memory := Nat → UInt8

/-- Write bytes from an address on. -/
def store (mem : Memory) (a : Nat) (bs : List UInt8) : Memory :=
  fun x => if a ≤ x then (bs[x - a]?).getD (mem x) else mem x

/-- The `n` bytes from an address on. -/
def load (mem : Memory) (a n : Nat) : List UInt8 :=
  (List.range n).map fun i => mem (a + i)

@[simp] theorem length_load (mem : Memory) (a n : Nat) : (load mem a n).length = n := by
  simp [load]

theorem load_add (mem : Memory) (a m n : Nat) :
    load mem a (m + n) = load mem a m ++ load mem (a + m) n := by
  unfold load
  rw [List.range_add, List.map_append, List.map_map]
  simp [Function.comp_def, Nat.add_assoc]

theorem load_store_self (mem : Memory) (a : Nat) (bs : List UInt8) :
    load (store mem a bs) a bs.length = bs := by
  apply List.ext_getElem
  · simp
  · intro i hi hi'
    simp [load, store, hi']

theorem load_store_apart {mem : Memory} {a n b : Nat} {bs : List UInt8}
    (h : a + n ≤ b ∨ b + bs.length ≤ a) : load (store mem b bs) a n = load mem a n := by
  refine List.map_congr_left fun i hi => ?_
  have hi := List.mem_range.mp hi
  unfold store
  by_cases hb : b ≤ a + i
  · rw [if_pos hb, List.getElem?_eq_none (by omega)]
    rfl
  · rw [if_neg hb]

/-- A store: an address and the bytes written from there on. -/
structure Store where
  addr : Nat
  bytes : List UInt8
deriving DecidableEq, Repr

/-- The address behind the last byte. -/
def Store.stop (s : Store) : Nat := s.addr + s.bytes.length

/-- Two stores that touch no common byte. -/
def Store.Apart (s t : Store) : Prop := s.stop ≤ t.addr ∨ t.stop ≤ s.addr

theorem Store.Apart.symm {s t : Store} (h : s.Apart t) : t.Apart s := Or.symm h

/-- Stores one after the other. -/
def runStores (mem : Memory) (stores : List Store) : Memory :=
  stores.foldl (fun mem s => store mem s.addr s.bytes) mem

theorem runStores_append (mem : Memory) (ss ts : List Store) :
    runStores mem (ss ++ ts) = runStores (runStores mem ss) ts :=
  List.foldl_append

/-- A range that no store touches. -/
theorem load_runStores_apart {mem : Memory} {a n : Nat} {stores : List Store}
    (h : ∀ s ∈ stores, a + n ≤ s.addr ∨ s.stop ≤ a) :
    load (runStores mem stores) a n = load mem a n := by
  induction stores generalizing mem with
  | nil => rfl
  | cons s stores ih =>
    have hrest : ∀ t ∈ stores, a + n ≤ t.addr ∨ t.stop ≤ a := fun t ht =>
      h t (List.mem_cons_of_mem _ ht)
    exact (ih hrest).trans (load_store_apart (h s List.mem_cons_self))

/-- After stores that do not touch each other every range holds what was stored
there. -/
theorem load_runStores {mem : Memory} {stores : List Store}
    (hapart : stores.Pairwise Store.Apart) {s : Store} (hs : s ∈ stores) :
    load (runStores mem stores) s.addr s.bytes.length = s.bytes := by
  induction stores generalizing mem with
  | nil => cases hs
  | cons t stores ih =>
    obtain ⟨ht, hrest⟩ := List.pairwise_cons.mp hapart
    rcases List.mem_cons.mp hs with rfl | hs
    · exact (load_runStores_apart fun u hu => ht u hu).trans (load_store_self mem _ _)
    · exact ih hrest hs

/-- The order of the stores does not matter for this. -/
theorem load_runStores_of_perm {mem : Memory} {stores order : List Store}
    (hperm : order.Perm stores) (hapart : stores.Pairwise Store.Apart) {s : Store}
    (hs : s ∈ stores) : load (runStores mem order) s.addr s.bytes.length = s.bytes := by
  apply load_runStores _ (hperm.mem_iff.mpr hs)
  exact (hperm.pairwise_iff fun h => h.symm).mpr hapart

end HolLambdas.Bytes
