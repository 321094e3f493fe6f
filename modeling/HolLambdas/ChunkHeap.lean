import Mathlib.Data.List.Basic
import Mathlib.Data.List.Perm.Basic
import Mathlib.Data.Nat.Basic

/-!
# A heap of chunks

Memory as the chunks that are live, at their addresses. A chunk is an array of cells, one
`stride` apart. Removing a chunk that is not there is a fault, so a program whose runs do
not fault frees nothing twice; and what is left in the heap at the end of a run has not been
freed. An address may be given out again after its chunk is gone.

A client states what is live as a list of chunks up to order. `Live.remove` and `Live.load`
are then the rules for freeing and reading, `Live.alloc` the one for allocating.
-/

namespace HolLambdas

/-- A live chunk. `mine` says that the program has to free it. -/
structure Chunk (α : Type) where
  addr : Nat
  stride : Nat
  cells : List α
  mine : Bool
deriving DecidableEq, Repr

/-- The chunks that are allocated. -/
abbrev Heap (α : Type) := List (Chunk α)

namespace Chunk

variable {α : Type} {c : Chunk α}

/-- The end of the last cell. -/
def stop (c : Chunk α) : Nat := c.addr + c.cells.length * c.stride

/-- The cell that begins at an address. -/
def cellAt (c : Chunk α) (p : Nat) : Option α :=
  if c.addr ≤ p ∧ (p - c.addr) % c.stride = 0 then c.cells[(p - c.addr) / c.stride]? else none

/-- Two chunks begin at different addresses and do not overlap. -/
def Apart (c d : Chunk α) : Prop := c.addr ≠ d.addr ∧ (c.stop ≤ d.addr ∨ d.stop ≤ c.addr)

theorem Apart.symm {c d : Chunk α} (h : c.Apart d) : d.Apart c := ⟨h.1.symm, h.2.symm⟩

theorem cellAt_index (hstride : 0 < c.stride) {i : Nat} {t : α} (h : c.cells[i]? = some t) :
    c.cellAt (c.addr + i * c.stride) = some t := by
  have hdiff : c.addr + i * c.stride - c.addr = i * c.stride := Nat.add_sub_cancel_left _ _
  rw [cellAt, if_pos ⟨Nat.le_add_right _ _, by rw [hdiff, Nat.mul_mod_left]⟩, hdiff,
    Nat.mul_div_cancel _ hstride, h]

/-- A cell lies inside its chunk. -/
theorem cellAt_range (hstride : 0 < c.stride) {p : Nat} {t : α} (h : c.cellAt p = some t) :
    c.addr ≤ p ∧ p < c.stop := by
  unfold cellAt at h
  split at h
  · next hp =>
    have hlt := (List.getElem?_eq_some_iff.mp h).1
    have hmul : p - c.addr < c.cells.length * c.stride := (Nat.div_lt_iff_lt_mul hstride).mp hlt
    unfold stop
    omega
  · cases h

end Chunk

namespace Heap

variable {α : Type}

/-- Read the cell at an address, if it is in a chunk. -/
def load (h : Heap α) (p : Nat) : Option α := h.findSome? fun c => c.cellAt p

/-- Take out the chunk that begins at an address. -/
def remove (h : Heap α) (p : Nat) (mine : Bool) : Option (Heap α) :=
  if h.any fun c => c.addr == p && c.mine == mine then some (h.eraseP fun c => c.addr == p)
  else none

/-- The live chunks are these, in some order. -/
structure Live (h cs : Heap α) : Prop where
  perm : h.Perm cs
  apart : cs.Pairwise Chunk.Apart
  stride : ∀ c ∈ cs, 0 < c.stride

theorem live_nil : Live ([] : Heap α) [] := ⟨.refl _, .nil, nofun⟩

theorem Live.trans {h cs ds : Heap α} (hl : Live h cs) (hperm : cs.Perm ds) : Live h ds where
  perm := hl.perm.trans hperm
  apart := (hperm.pairwise_iff fun h => h.symm).mp hl.apart
  stride := fun c hc => hl.stride c (hperm.mem_iff.mpr hc)

theorem Live.self {h cs : Heap α} (hl : Live h cs) : h.Pairwise Chunk.Apart :=
  (hl.perm.pairwise_iff fun h => h.symm).mpr hl.apart

theorem Live.alloc {h cs : Heap α} (hl : Live h cs) (hstride : 0 < c.stride)
    (hfresh : ∀ d ∈ h, c.Apart d) : Live (c :: h) (c :: cs) where
  perm := hl.perm.cons c
  apart := List.pairwise_cons.mpr ⟨fun d hd => hfresh d (hl.perm.mem_iff.mpr hd), hl.apart⟩
  stride := by
    intro d hd
    rcases List.mem_cons.mp hd with rfl | hd
    · exact hstride
    · exact hl.stride d hd

/-- The cell at an address is the one of the chunk that has it. -/
theorem load_of_mem {h : Heap α} (hapart : h.Pairwise Chunk.Apart) (hstride : ∀ c ∈ h, 0 < c.stride)
    (hc : c ∈ h) {p : Nat} {t : α} (ht : c.cellAt p = some t) : h.load p = some t := by
  induction h with
  | nil => cases hc
  | cons d h ih =>
    rw [List.pairwise_cons] at hapart
    rw [load, List.findSome?_cons]
    rcases List.mem_cons.mp hc with rfl | hmem
    · rw [ht]
    · cases hd : d.cellAt p with
      | none =>
        exact ih hapart.2 (fun c hc => hstride c (List.mem_cons_of_mem d hc)) hmem
      | some u =>
        -- two chunks with a cell at one address are not apart
        have hcr := Chunk.cellAt_range (hstride c hc) ht
        have hdr := Chunk.cellAt_range (hstride d List.mem_cons_self) hd
        have hdc := (hapart.1 c hmem).2
        omega

theorem Live.load {h cs : Heap α} (hl : Live h cs) (hc : c ∈ cs) {p : Nat} {t : α}
    (ht : c.cellAt p = some t) : h.load p = some t :=
  load_of_mem hl.self (fun d hd => hl.stride d (hl.perm.mem_iff.mp hd)) (hl.perm.mem_iff.mpr hc) ht

theorem Live.remove {h cs : Heap α} (hl : Live h (c :: cs)) :
    ∃ h', h.remove c.addr c.mine = some h' ∧ Live h' cs := by
  have hmem : c ∈ h := hl.perm.mem_iff.mpr List.mem_cons_self
  have hany : (h.any fun d => d.addr == c.addr && d.mine == c.mine) = true :=
    List.any_eq_true.mpr ⟨c, hmem, by simp⟩
  obtain ⟨hhead, htail⟩ := List.pairwise_cons.mp hl.apart
  refine ⟨_, if_pos hany, ?_, htail, fun d hd => hl.stride d (List.mem_cons_of_mem c hd)⟩
  have hfirst : ∀ ds : Heap α, ds.Pairwise Chunk.Apart → c ∈ ds →
      ds.Perm (c :: ds.eraseP fun d => d.addr == c.addr) := by
    intro ds hds hc
    induction ds with
    | nil => cases hc
    | cons d ds ih =>
      rw [List.pairwise_cons] at hds
      rcases List.mem_cons.mp hc with rfl | hc
      · rw [List.eraseP_cons_of_pos (by simp)]
      · have hne := (hds.1 c hc).1
        rw [List.eraseP_cons_of_neg (by simpa using hne)]
        exact ((ih hds.2 hc).cons d).trans (.swap c d _)
  exact ((hfirst h hl.self hmem).symm.trans hl.perm).cons_inv

end Heap

end HolLambdas
