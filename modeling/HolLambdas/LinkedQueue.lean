import Mathlib.Data.List.Basic

/-!
# A singly linked queue

Cells on a heap, a pointer to the first and one to the last, and a count. Addresses are
positions in the list of the cells allocated so far; nothing is freed. `Queued` says which
cells, in which order, make up the queue: following the links from `head` meets them and
ends, and `tail` is the last. Entering a cell behind the tail appends it
(`Queued.enqueue`), removing the head leaves the rest (`Queued.dequeue`), and neither
changes what a cell carries. A queue may be unlinked on one side while cells that left it
still point into it; only the links of its own cells matter.
-/

namespace HolLambdas

/-- A node: where the next one is, and what it carries. -/
structure Cell (α : Type) where
  next : Option Nat
  data : α
deriving DecidableEq, Repr

/-- Pointers to the first and the last node. -/
structure LinkedQueue where
  head : Option Nat
  tail : Option Nat
  count : Nat
deriving DecidableEq, Repr

namespace LinkedQueue

variable {α : Type}

def empty : LinkedQueue where
  head := none
  tail := none
  count := 0

/-- `cell->next = n`. -/
def setNext (heap : List (Cell α)) (i n : Nat) : List (Cell α) :=
  heap.modify i fun c => { c with next := some n }

/-- The heap after the cell `n` is entered at the end. -/
def enqueueHeap (q : LinkedQueue) (heap : List (Cell α)) (n : Nat) : List (Cell α) :=
  match q.tail with
  | some t => setNext heap t n
  | none => heap

/-- Link a node behind the last one. -/
def enqueue (q : LinkedQueue) (n : Nat) : LinkedQueue where
  head := if q.tail = none then some n else q.head
  tail := some n
  count := q.count + 1

/-- The first cell, and the queue without it. -/
def dequeue (q : LinkedQueue) (heap : List (Cell α)) : Option (Nat × LinkedQueue) :=
  q.head.map fun n =>
    let head := (heap[n]?).bind Cell.next
    (n, { head, tail := if head = none then none else q.tail, count := q.count - 1 })

/-! ## Following the links -/

/-- From a pointer, the links lead through the given cells and end. -/
def Path (heap : List (Cell α)) : Option Nat → List Nat → Prop
  | p, [] => p = none
  | p, n :: l => p = some n ∧ ∃ c, heap[n]? = some c ∧ Path heap c.next l

/-- The cells of the queue, first to last. -/
structure Queued (heap : List (Cell α)) (q : LinkedQueue) (l : List Nat) : Prop where
  path : Path heap q.head l
  last : q.tail = l.getLast?
  count : q.count = l.length
  nodup : l.Nodup

theorem queued_empty (heap : List (Cell α)) : Queued heap empty [] :=
  ⟨rfl, rfl, rfl, List.nodup_nil⟩

variable {heap : List (Cell α)} {p : Option Nat} {l : List Nat} {q : LinkedQueue} {i n : Nat}
  {c : Cell α}

/-- A path depends on its own cells only. -/
theorem Path.congr {heap' : List (Cell α)} (h : Path heap p l)
    (hsame : ∀ i ∈ l, heap'[i]? = heap[i]?) : Path heap' p l := by
  induction l generalizing p with
  | nil => exact h
  | cons n l ih =>
    obtain ⟨hp, c, hc, hrest⟩ := h
    refine ⟨hp, c, ?_, ih hrest fun i hi => hsame i (List.mem_cons_of_mem n hi)⟩
    rw [hsame n List.mem_cons_self, hc]

theorem Queued.congr {heap' : List (Cell α)} (h : Queued heap q l)
    (hsame : ∀ i ∈ l, heap'[i]? = heap[i]?) : Queued heap' q l :=
  ⟨h.path.congr hsame, h.last, h.count, h.nodup⟩

theorem Path.lt_length (h : Path heap p l) (hi : i ∈ l) : i < heap.length := by
  induction l generalizing p with
  | nil => cases hi
  | cons n l ih =>
    obtain ⟨-, c, hc, hrest⟩ := h
    rcases List.mem_cons.mp hi with rfl | hi
    · exact (List.getElem?_eq_some_iff.mp hc).1
    · exact ih hrest hi

theorem Queued.head_eq_none_iff (h : Queued heap q l) : q.head = none ↔ l = [] := by
  cases l with
  | nil => exact iff_of_true h.path rfl
  | cons n l =>
    rw [h.path.1]
    exact iff_of_false (by simp) (by simp)

/-! ## What a change of a link leaves alone -/

theorem setNext_ne {j : Nat} (h : j ≠ i) : (setNext heap i n)[j]? = heap[j]? := by
  have hne : i ≠ j := fun heq => h heq.symm
  simp [setNext, hne]

theorem setNext_self (h : heap[i]? = some c) :
    (setNext heap i n)[i]? = some { c with next := some n } := by
  simp [setNext, h]

theorem map_data_setNext (heap : List (Cell α)) (i n : Nat) :
    (setNext heap i n).map Cell.data = heap.map Cell.data := by
  apply List.ext_getElem?
  intro j
  rw [List.getElem?_map, List.getElem?_map]
  by_cases hj : j = i
  · subst hj
    cases hc : heap[j]? with
    | none => simp [setNext, hc]
    | some c => rw [setNext_self hc]; rfl
  · rw [setNext_ne hj]

theorem map_data_enqueueHeap (q : LinkedQueue) (heap : List (Cell α)) (n : Nat) :
    (q.enqueueHeap heap n).map Cell.data = heap.map Cell.data := by
  unfold enqueueHeap
  split
  · exact map_data_setNext heap _ n
  · rfl

/-! ## The operations -/

/-- The last link of a path is made to lead to one more cell. -/
theorem Path.snoc {t : Nat} (hn : heap[n]? = some c) (hnext : c.next = none) (h : Path heap p l)
    (hlast : l.getLast? = some t) (hnodup : l.Nodup) (hfresh : n ∉ l) :
    Path (setNext heap t n) p (l ++ [n]) := by
  induction l generalizing p with
  | nil => cases hlast
  | cons m l ih =>
    obtain ⟨hp, d, hd, hrest⟩ := h
    obtain ⟨hm, hnodup⟩ := List.nodup_cons.mp hnodup
    cases l with
    | nil =>
      -- `m` is the tail: its link is the one that changes
      have hmt : m = t := Option.some.inj hlast
      subst hmt
      have hne : n ≠ m := fun heq => hfresh (heq ▸ List.mem_cons_self)
      refine ⟨hp, _, setNext_self hd, rfl, c, ?_, hnext⟩
      rw [setNext_ne hne, hn]
    | cons m' l' =>
      rw [List.getLast?_cons_cons] at hlast
      have hmt : m ≠ t := by
        rintro rfl
        exact hm (List.mem_of_getLast? hlast)
      refine ⟨hp, d, by rw [setNext_ne hmt, hd], ?_⟩
      exact ih hrest hlast hnodup fun hmem => hfresh (List.mem_cons_of_mem m hmem)

theorem Queued.enqueue (h : Queued heap q l) (hn : heap[n]? = some c) (hnext : c.next = none)
    (hfresh : n ∉ l) : Queued (q.enqueueHeap heap n) (q.enqueue n) (l ++ [n]) := by
  refine ⟨?_, ?_, ?_, ?_⟩
  · unfold enqueueHeap LinkedQueue.enqueue
    rw [h.last]
    cases hlast : l.getLast? with
    | none =>
      rw [List.getLast?_eq_none_iff] at hlast
      subst hlast
      exact ⟨rfl, c, hn, hnext⟩
    | some t => exact h.path.snoc hn hnext hlast h.nodup hfresh
  · rw [List.getLast?_concat]
    rfl
  · rw [List.length_append, ← h.count]
    rfl
  · refine List.nodup_append.mpr ⟨h.nodup, List.nodup_cons.mpr ⟨by simp, List.nodup_nil⟩, ?_⟩
    rintro a ha b hb rfl
    exact hfresh (List.mem_singleton.mp hb ▸ ha)

theorem Queued.dequeue {q' : LinkedQueue} (h : Queued heap q l)
    (hq : q.dequeue heap = some (n, q')) : ∃ l', l = n :: l' ∧ Queued heap q' l' := by
  cases l with
  | nil =>
    rw [LinkedQueue.dequeue, h.head_eq_none_iff.mpr rfl] at hq
    cases hq
  | cons m l =>
    obtain ⟨hp, c, hc, hrest⟩ := h.path
    rw [LinkedQueue.dequeue, hp, Option.map_some, hc] at hq
    cases hq
    refine ⟨l, rfl, hrest, ?_, ?_, (List.nodup_cons.mp h.nodup).2⟩
    · show (if c.next = none then none else q.tail) = l.getLast?
      rw [h.last]
      cases l with
      | nil => exact if_pos hrest
      | cons m' l' =>
        rw [if_neg (by rw [hrest.1]; simp), List.getLast?_cons_cons]
    · show q.count - 1 = l.length
      rw [h.count, List.length_cons, Nat.add_sub_cancel]

theorem Queued.dequeue_eq_none_iff (h : Queued heap q l) : q.dequeue heap = none ↔ l = [] := by
  rw [LinkedQueue.dequeue, Option.map_eq_none_iff, h.head_eq_none_iff]

end LinkedQueue

end HolLambdas
