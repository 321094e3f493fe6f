import HolLambdas.Runs
import Mathlib.Data.List.Range
import Mathlib.Data.Fintype.Basic
import Mathlib.Algebra.BigOperators.Group.Finset.Basic
import Mathlib.Algebra.Order.BigOperators.Group.Finset

/-!
# Threads over ranges

Each of `n` threads goes through a range of indices of its own. For an index it overwrites the
slot with that index, which all threads could see, and brings a local state up to date; both
may depend on what the slot held before. The ranges have no index in common. So every
interleaving of the threads' steps ends, and always in the same state (`computes`): in every
slot is what its one step put there, and every local state is the fold over the range.

The ranges are often the stretches between cuts `0 = cut 0 ≤ cut 1 ≤ … ≤ cut n`; one after the
other they are all the indices below the last cut (`flatMap_between`).
-/

namespace HolLambdas

/-- Thread `t` goes through the indices from `lo t` to `hi t`. -/
structure ForkJoin (n : Nat) (β L : Type) where
  lo : Fin n → Nat
  hi : Fin n → Nat
  /-- What becomes of a slot. -/
  out : Nat → β → β
  /-- What becomes of the local state. -/
  acc : Nat → β → L → L
  disjoint : ∀ t u i, lo t ≤ i → i < hi t → lo u ≤ i → i < hi u → t = u

namespace ForkJoin

variable {n : Nat} {β L : Type}

/-- The shared slots, and the place and the local state of each thread. -/
structure State (n : Nat) (β L : Type) where
  slots : Nat → β
  pos : Fin n → Nat
  loc : Fin n → L

variable (f : ForkJoin n β L) (slots : Nat → β) (loc : L)

def init : State n β L :=
  { slots, pos := f.lo, loc := fun _ => loc }

/-- Thread `t` does what it has to do for the index it is at. -/
def advance (s : State n β L) (t : Fin n) : State n β L :=
  { slots := Function.update s.slots (s.pos t) (f.out (s.pos t) (s.slots (s.pos t)))
    pos := Function.update s.pos t (s.pos t + 1)
    loc := Function.update s.loc t (f.acc (s.pos t) (s.slots (s.pos t)) (s.loc t)) }

def step (s : State n β L) (t : Fin n) : Option (State n β L) :=
  if s.pos t < f.hi t then some (f.advance s t) else none

/-- All threads have been joined. -/
def Final (s : State n β L) : Prop :=
  ∀ t, f.hi t ≤ s.pos t

/-- The indices of a thread up to a position. -/
def between (lo hi : Nat) : List Nat :=
  List.range' lo (hi - lo)

/-- What a thread has at a position. -/
def localAt (t : Fin n) (pos : Nat) : L :=
  (between (f.lo t) pos).foldl (fun l i => f.acc i (slots i) l) loc

/-- What a slot holds in the end. -/
def slotAfter (i : Nat) : β :=
  if ∃ t, f.lo t ≤ i ∧ i < f.hi t then f.out i (slots i) else slots i

theorem mem_between {lo hi i : Nat} : i ∈ between lo hi ↔ lo ≤ i ∧ i < hi := by
  rw [between, List.mem_range'_1]
  omega

theorem between_succ {lo hi : Nat} (h : lo ≤ hi) : between lo (hi + 1) = between lo hi ++ [hi] := by
  rw [between, between, show hi + 1 - lo = hi - lo + 1 by omega, List.range'_1_concat,
    show lo + (hi - lo) = hi by omega]

/-- How far the threads are says everything about the state. -/
structure Inv (s : State n β L) : Prop where
  lo_le : ∀ t, f.lo t ≤ s.pos t
  le_hi : ∀ t, s.pos t ≤ max (f.lo t) (f.hi t)
  loc : ∀ t, s.loc t = f.localAt slots loc t (s.pos t)
  done : ∀ t i, f.lo t ≤ i → i < s.pos t → s.slots i = f.out i (slots i)
  todo : ∀ i, (∀ t, f.lo t ≤ i → s.pos t ≤ i) → s.slots i = slots i

variable {f slots loc}

theorem inv_init : f.Inv slots loc (f.init slots loc) where
  lo_le _ := le_refl _
  le_hi _ := le_max_left _ _
  loc t := by
    simp only [init, localAt, between, Nat.sub_self]
    rfl
  done t i hlo hlt := absurd hlo (Nat.not_le_of_lt hlt)
  todo _ _ := rfl

section Advance

variable {s : State n β L} {t u : Fin n}

theorem step_eq_some {s' : State n β L} (h : f.step s t = some s') :
    s.pos t < f.hi t ∧ s' = f.advance s t := by
  unfold step at h
  split at h
  · exact ⟨‹_›, (Option.some.inj h).symm⟩
  · cases h

@[simp] theorem advance_pos_self : (f.advance s t).pos t = s.pos t + 1 := by simp [advance]

theorem advance_pos_ne (h : u ≠ t) : (f.advance s t).pos u = s.pos u := by simp [advance, h]

@[simp] theorem advance_loc_self :
    (f.advance s t).loc t = f.acc (s.pos t) (s.slots (s.pos t)) (s.loc t) := by
  simp [advance]

theorem advance_loc_ne (h : u ≠ t) : (f.advance s t).loc u = s.loc u := by simp [advance, h]

@[simp] theorem advance_slots_self :
    (f.advance s t).slots (s.pos t) = f.out (s.pos t) (s.slots (s.pos t)) := by
  simp [advance]

theorem advance_slots_ne {i : Nat} (h : i ≠ s.pos t) : (f.advance s t).slots i = s.slots i := by
  simp [advance, h]

/-- What another thread has passed is not where `t` is. -/
theorem Inv.ne_pos (h : f.Inv slots loc s) (hlt : s.pos t < f.hi t) (hut : u ≠ t) {i : Nat}
    (hlo : f.lo u ≤ i) (hpos : i < s.pos u) : i ≠ s.pos t := by
  rintro rfl
  have hle := h.le_hi u
  exact hut (f.disjoint u t _ hlo (by omega) (h.lo_le t) hlt)

/-- The slot that is next is as it was at first. -/
theorem Inv.slot_pos (h : f.Inv slots loc s) (hlt : s.pos t < f.hi t) :
    s.slots (s.pos t) = slots (s.pos t) := by
  refine h.todo _ fun u hu => ?_
  by_cases hut : u = t
  · rw [hut]
  · by_contra hpos
    exact h.ne_pos hlt hut hu (by omega) rfl

/-- **One step** of a thread. -/
theorem Inv.advance (h : f.Inv slots loc s) (hlt : s.pos t < f.hi t) :
    f.Inv slots loc (f.advance s t) := by
  have hlo := h.lo_le t
  refine ⟨?_, ?_, ?_, ?_, ?_⟩
  · intro u
    by_cases hut : u = t
    · subst hut
      rw [advance_pos_self]
      omega
    · rw [advance_pos_ne hut]
      exact h.lo_le u
  · intro u
    by_cases hut : u = t
    · subst hut
      rw [advance_pos_self]
      omega
    · rw [advance_pos_ne hut]
      exact h.le_hi u
  · intro u
    by_cases hut : u = t
    · subst hut
      rw [advance_loc_self, advance_pos_self, localAt, between_succ hlo, List.foldl_append, h.loc,
        h.slot_pos hlt]
      rfl
    · rw [advance_loc_ne hut, advance_pos_ne hut]
      exact h.loc u
  · intro u i hi hpos
    by_cases hut : u = t
    · subst hut
      rw [advance_pos_self] at hpos
      rcases Nat.lt_succ_iff_lt_or_eq.mp hpos with hpos | rfl
      · rw [advance_slots_ne (by omega)]
        exact h.done u i hi hpos
      · rw [advance_slots_self, h.slot_pos hlt]
    -- the slot written is in no other thread's range
    · rw [advance_pos_ne hut] at hpos
      rw [advance_slots_ne (h.ne_pos hlt hut hi hpos)]
      exact h.done u i hi hpos
  · intro i hi
    have hne : i ≠ s.pos t := by
      rintro rfl
      have := hi t hlo
      rw [advance_pos_self] at this
      omega
    rw [advance_slots_ne hne]
    refine h.todo i fun u hu => ?_
    have hpos := hi u hu
    by_cases hut : u = t
    · subst hut
      rw [advance_pos_self] at hpos
      omega
    · rwa [advance_pos_ne hut] at hpos

end Advance

theorem inv_of_reachable {s : State n β L}
    (h : Reachable f.step (fun _ _ => True) (f.init slots loc) s) : f.Inv slots loc s :=
  h.invariant inv_init fun _ _ _ hinv _ hs => by
    obtain ⟨hlt, rfl⟩ := step_eq_some hs
    exact hinv.advance hlt

theorem exists_step {s : State n β L} (h : ¬ f.Final s) : ∃ t s', f.step s t = some s' := by
  unfold Final at h
  push Not at h
  obtain ⟨t, ht⟩ := h
  exact ⟨t, _, if_pos ht⟩

/-- How much is to be done yet. -/
def remaining (f : ForkJoin n β L) (s : State n β L) : Nat :=
  ∑ t, (f.hi t - s.pos t)

theorem remaining_step {s s' : State n β L} {t : Fin n} (hs : f.step s t = some s') :
    f.remaining s' < f.remaining s := by
  obtain ⟨hlt, rfl⟩ := step_eq_some hs
  refine Finset.sum_lt_sum (fun u _ => ?_) ⟨t, Finset.mem_univ t, ?_⟩
  · by_cases hut : u = t
    · subst hut
      rw [advance_pos_self]
      omega
    · rw [advance_pos_ne hut]
  · rw [advance_pos_self]
    omega

/-- **Whatever the order of the steps, every run can be completed, and then the slots and the
local states are the same.** -/
theorem computes (f : ForkJoin n β L) (slots : Nat → β) (loc : L) :
    Computes f.step (f.init slots loc) f.Final (fun s => (s.slots, s.loc))
      (f.slotAfter slots, fun t => f.localAt slots loc t (f.hi t)) := by
  constructor
  · intro s _
    exact exists_final (I := fun _ => True) f.remaining
      (fun _ _ _ _ _ hs => ⟨trivial, remaining_step hs⟩)
      (fun s _ hfinal => by
        obtain ⟨t, s', hs⟩ := exists_step hfinal
        exact ⟨t, s', trivial, hs⟩) trivial
  · intro s hs hfinal
    have h := inv_of_reachable hs
    refine Prod.ext ?_ ?_
    · funext i
      dsimp only [slotAfter]
      split
      · next hin =>
        obtain ⟨t, hlo, hhi⟩ := hin
        exact h.done t i hlo (lt_of_lt_of_le hhi (hfinal t))
      · next hout =>
        refine h.todo i fun t hlo => ?_
        by_contra hpos
        have hle := h.le_hi t
        exact hout ⟨t, hlo, by omega⟩
    · funext t
      have hle := h.le_hi t
      have hge := hfinal t
      have hlo := h.lo_le t
      dsimp only
      rw [h.loc t]
      rcases Nat.lt_or_ge (f.lo t) (f.hi t) with hlt | hge'
      · rw [show s.pos t = f.hi t by omega]
      · -- an empty range
        rw [localAt, localAt, between, between, show s.pos t - f.lo t = 0 by omega,
          show f.hi t - f.lo t = 0 by omega]

/-! ## Ranges between cuts -/

section Cuts

variable {cut : Nat → Nat}

theorem between_append {a b c : Nat} (hab : a ≤ b) (hbc : b ≤ c) :
    between a b ++ between b c = between a c := by
  rw [between, between, between, show c - a = (b - a) + (c - b) by omega, ← List.range'_append_1,
    show a + (b - a) = b by omega]

/-- Put together, the ranges are all indices. -/
theorem flatMap_between (hcut : Monotone cut) (hzero : cut 0 = 0) (m : Nat) :
    (List.range m).flatMap (fun t => between (cut t) (cut (t + 1))) = List.range (cut m) := by
  induction m with
  | zero => rw [hzero]; rfl
  | succ m ih =>
    have hjoin := between_append (Nat.zero_le (cut m)) (hcut (Nat.le_succ m))
    rw [List.range_succ, List.flatMap_append, ih, List.flatMap_singleton, List.range_eq_range',
      List.range_eq_range']
    exact hjoin

theorem exists_between (hcut : Monotone cut) (hzero : cut 0 = 0) {i : Nat} {m : Nat} :
    (∃ t : Fin m, cut t ≤ i ∧ i < cut (t + 1)) ↔ i < cut m := by
  have hmem : i ∈ (List.range m).flatMap (fun t => between (cut t) (cut (t + 1))) ↔ i < cut m := by
    rw [flatMap_between hcut hzero, List.mem_range]
  rw [← hmem, List.mem_flatMap]
  constructor
  · rintro ⟨t, ht⟩
    exact ⟨t, List.mem_range.mpr t.isLt, mem_between.mpr ht⟩
  · rintro ⟨t, ht, hi⟩
    exact ⟨⟨t, List.mem_range.mp ht⟩, mem_between.mp hi⟩

/-- Two different ranges have no index in common. -/
theorem between_disjoint (hcut : Monotone cut) {t u i : Nat} (ht : cut t ≤ i)
    (ht' : i < cut (t + 1)) (hu : cut u ≤ i) (hu' : i < cut (u + 1)) : t = u := by
  rcases Nat.lt_trichotomy t u with h | h | h
  · have := hcut (show t + 1 ≤ u from h)
    omega
  · exact h
  · have := hcut (show u + 1 ≤ t from h)
    omega

end Cuts

end ForkJoin

end HolLambdas
