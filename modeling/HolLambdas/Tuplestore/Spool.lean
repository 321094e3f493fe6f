import HolLambdas.Tuplestore.Store

/-!
# What a tuplestore is for

A spool keeps the tuples in the order they were put, and cursors over them. It has no budget, no
file and no addresses: this is what a client of a tuplestore sees. A block is so many tuples.

Trimming removes nothing here. It only raises the floor below which no cursor may go any more,
which is what the store asks of its clients (`Spool.Allowed`).
-/

namespace HolLambdas

namespace Tuplestore

/-- At end of file, or before the tuple at `pos`. -/
structure Cursor where
  flags : ExecFlags
  eof : Bool
  pos : Nat
deriving DecidableEq, Repr

/-- `floor`: the tuples before it are given up. -/
structure Spool (α : Type) where
  tuples : List α
  floor : Nat
  cursors : Nat → Cursor
  count : Nat
  active : Nat

namespace Spool

variable {α : Type} {n : Nat}

abbrev current (a : Spool α) : Cursor := a.cursors a.active

def setCurrent (a : Spool α) (f : Cursor → Cursor) : Spool α :=
  { a with cursors := Function.update a.cursors a.active (f a.current) }

@[simp] theorem setCurrent_current (a : Spool α) (f : Cursor → Cursor) :
    (a.setCurrent f).current = f a.current := Function.update_self ..

@[simp] theorem setCurrent_tuples (a : Spool α) (f : Cursor → Cursor) :
    (a.setCurrent f).tuples = a.tuples := rfl

/-- The active cursor at end of file moves along with the tuples that are put, the others
stay where they are. -/
def put (a : Spool α) (t : α) : Spool α :=
  { a with
    tuples := a.tuples ++ [t]
    cursors := fun i =>
      if (a.cursors i).eof && i != a.active then
        { a.cursors i with eof := false, pos := a.tuples.length }
      else a.cursors i }

def puts (a : Spool α) (ts : List α) : Spool α := ts.foldl put a

/-- At the end a read sets `eof`. -/
def next (a : Spool α) : Spool α × Option α :=
  if a.current.eof then (a, none)
  else
    match a.tuples[a.current.pos]? with
    | some t => (a.setCurrent fun c => { c with pos := c.pos + 1 }, some t)
    | none => (a.setCurrent fun c => { c with eof := true }, none)

/-- The tuple before the one that was returned last. -/
def previous (a : Spool α) : Spool α × Option α :=
  let pos := if a.current.eof then a.tuples.length else a.current.pos - 1
  (a.setCurrent fun c => { c with eof := false, pos := pos },
    if pos = 0 then none else a.tuples[pos - 1]?)

def get (a : Spool α) (forward : Bool) : Spool α × Option α :=
  if forward then a.next else a.previous

/-- Skipping is reading, until nothing comes. -/
def skip (forward : Bool) : Nat → Spool α → Spool α × Bool
  | 0, a => (a, true)
  | n + 1, a =>
    if (a.get forward).2.isNone then ((a.get forward).1, false)
    else skip forward n (a.get forward).1

/-- Some cursor that is not the active one is at end of file. -/
def waiting (a : Spool α) : Bool :=
  (List.range a.count).any fun i => (a.cursors i).eof && i != a.active

def mayRewind (a : Spool α) : Bool := (orFlags a.count fun i => (a.cursors i).flags).rewind

/-- How far the cursor furthest back has come. -/
def oldest (a : Spool α) : Nat :=
  furthestBack a.count (fun i => (a.cursors i).eof) (fun i => (a.cursors i).pos) a.tuples.length

def trim (a : Spool α) : Spool α :=
  if a.mayRewind then a else { a with floor := max a.floor (a.oldest - 1) }

def clear (a : Spool α) : Spool α :=
  { a with
    tuples := []
    floor := 0
    cursors := fun i => { a.cursors i with eof := false, pos := 0 } }

def call (a : Spool α) : Call α → Spool α × List (Reply α)
  | .puttuple t => (a.put t, [])
  | .putblock ts _ _ => (a.puts ts, [])
  | .gettuple forward => ((a.get forward).1, [.tuple (a.get forward).2])
  | .skiptuples n forward => ((skip forward n a).1, [.flag (skip forward n a).2])
  | .selectReadPointer ptr => ({ a with active := ptr }, [])
  | .rescan => (a.setCurrent fun c => { c with eof := false, pos := 0 }, [])
  | .copyReadPointer srcptr destptr =>
    ({ a with cursors := Function.update a.cursors destptr (a.cursors srcptr) }, [])
  | .trim => (a.trim, [])
  | .clear => (a.clear, [])
  | .ateof => (a, [.flag a.current.eof])
  | .tupleCount => (a, [.count a.tuples.length])

def calls : Spool α → List (Call α) → Spool α × List (Reply α)
  | a, [] => (a, [])
  | a, c :: cs => ((calls (a.call c).1 cs).1, (a.call c).2 ++ (calls (a.call c).1 cs).2)

/-- An empty spool with one cursor for each set of flags. -/
def new (flags : List ExecFlags) : Spool α where
  tuples := []
  floor := 0
  cursors := fun i => ⟨flags.getD i ⟨false, false⟩, false, 0⟩
  count := flags.length
  active := 0

/-- `n` steps back from the active cursor stay above the trimmed tuples. -/
def CanGoBack (a : Spool α) (n : Nat) : Prop :=
  a.current.flags.backward = true ∧
  (a.floor = 0 ∨ a.floor + n < if a.current.eof then a.tuples.length + 1 else a.current.pos)

/-- What the store asks of a call, by its documentation and its assertions. -/
def Allowed (a : Spool α) : Call α → Prop
  | .putblock _ tuplen _ => 0 < tuplen
  | .gettuple forward => forward = false → a.CanGoBack 1
  | .skiptuples n forward => forward = false → a.CanGoBack n
  | .selectReadPointer ptr => ptr < a.count
  | .rescan => a.current.flags.rewind = true
  | .copyReadPointer srcptr destptr => srcptr < a.count ∧ destptr < a.count
  | .puttuple _ | .trim | .clear | .ateof | .tupleCount => True

/-- Each call is allowed where it comes. -/
def AllAllowed : Spool α → List (Call α) → Prop
  | _, [] => True
  | a, c :: cs => a.Allowed c ∧ AllAllowed (a.call c).1 cs

/-- Blocks are handed over only as a rule permits: it may depend on whether another cursor is at
end of file, and on the number of tuples. -/
def BlockRule (a : Spool α) (permitted : Bool → Nat → Prop) : Call α → Prop
  | .putblock ts _ _ => permitted a.waiting ts.length
  | _ => True

def KeepsBlockRule (permitted : Bool → Nat → Prop) : Spool α → List (Call α) → Prop
  | _, [] => True
  | a, c :: cs => a.BlockRule permitted c ∧ KeepsBlockRule permitted (a.call c).1 cs

/-! ## The invariant of spools -/

/-- No cursor is below the floor, and where there is one no cursor may rewind. -/
structure Sound (a : Spool α) : Prop where
  active_lt : a.active < a.count
  pos_le : ∀ i < a.count, (a.cursors i).eof = false → (a.cursors i).pos ≤ a.tuples.length
  floor_lt : a.floor ≠ 0 → a.floor < a.tuples.length
  floor_lt_pos : a.floor ≠ 0 → ∀ i < a.count, (a.cursors i).eof = false →
    a.floor < (a.cursors i).pos
  no_rewind : a.floor ≠ 0 → ∀ i < a.count, (a.cursors i).flags.rewind = false

theorem sound_new (first : ExecFlags) (others : List ExecFlags) :
    (new (first :: others) : Spool α).Sound where
  active_lt := Nat.succ_pos _
  pos_le := fun _ _ _ => Nat.zero_le _
  floor_lt := fun h => absurd rfl h
  floor_lt_pos := fun h => absurd rfl h
  no_rewind := fun h => absurd rfl h

variable {a : Spool α}

/-- A change of the active cursor that keeps it above the floor. -/
theorem Sound.setCurrent (h : a.Sound) (f : Cursor → Cursor)
    (hpos : (f a.current).eof = false → (f a.current).pos ≤ a.tuples.length)
    (hfloor : a.floor ≠ 0 → (f a.current).eof = false → a.floor < (f a.current).pos)
    (hflags : (f a.current).flags = a.current.flags) : (a.setCurrent f).Sound where
  active_lt := h.active_lt
  pos_le := by
    intro i hi
    by_cases hact : i = a.active
    · subst hact
      simpa [Spool.setCurrent] using hpos
    · simpa [Spool.setCurrent, hact] using h.pos_le i hi
  floor_lt := h.floor_lt
  floor_lt_pos := by
    intro h0 i hi
    by_cases hact : i = a.active
    · subst hact
      simpa [Spool.setCurrent] using hfloor h0
    · simpa [Spool.setCurrent, hact] using h.floor_lt_pos h0 i hi
  no_rewind := by
    intro h0 i hi
    by_cases hact : i = a.active
    · subst hact
      simpa [Spool.setCurrent, hflags] using h.no_rewind h0 _ hi
    · simpa [Spool.setCurrent, hact] using h.no_rewind h0 i hi

theorem Sound.put (h : a.Sound) (t : α) : (a.put t).Sound where
  active_lt := h.active_lt
  pos_le := by
    intro i hi heof
    have hle := h.pos_le i hi
    simp only [Spool.put, List.length_append, List.length_singleton] at heof ⊢
    split
    · simp
    · next hc =>
      rw [if_neg hc] at heof
      have := hle heof
      omega
  floor_lt := by
    intro h0
    have := h.floor_lt h0
    simp only [Spool.put, List.length_append, List.length_singleton]
    omega
  floor_lt_pos := by
    intro h0 i hi heof
    simp only [Spool.put] at heof ⊢
    split
    · exact h.floor_lt h0
    · next hc =>
      rw [if_neg hc] at heof
      exact h.floor_lt_pos h0 i hi heof
  no_rewind := by
    intro h0 i hi
    simp only [Spool.put]
    split
    · exact h.no_rewind h0 i hi
    · exact h.no_rewind h0 i hi

theorem Sound.puts (h : a.Sound) (ts : List α) : (a.puts ts).Sound := by
  induction ts generalizing a with
  | nil => exact h
  | cons t ts ih => exact ih (h.put t)

theorem Sound.next (h : a.Sound) : a.next.1.Sound := by
  unfold Spool.next
  by_cases heof : a.current.eof = true
  · rwa [if_pos heof]
  · rw [if_neg heof]
    rw [Bool.not_eq_true] at heof
    cases ht : a.tuples[a.current.pos]? with
    | none => exact h.setCurrent (fun c => { c with eof := true }) nofun (fun _ => nofun) rfl
    | some t =>
      have hlt := (List.getElem?_eq_some_iff.mp ht).1
      refine h.setCurrent (fun c => { c with pos := c.pos + 1 }) (fun _ => hlt) (fun h0 _ => ?_) rfl
      have := h.floor_lt_pos h0 _ h.active_lt heof
      exact Nat.lt_succ_of_lt this

theorem Sound.previous (h : a.Sound) (hback : a.CanGoBack 1) : a.previous.1.Sound := by
  have hfloor := hback.2
  have hle := h.pos_le _ h.active_lt
  refine h.setCurrent (fun c => { c with
    eof := false, pos := if a.current.eof then a.tuples.length else a.current.pos - 1 })
    (fun _ => ?_) (fun h0 _ => ?_) rfl
  · cases heof : a.current.eof with
    | true => exact Nat.le_refl _
    | false => exact Nat.le_trans (Nat.sub_le _ _) (hle heof)
  · have hlt := hfloor.resolve_left h0
    cases heof : a.current.eof with
    | true => exact h.floor_lt h0
    | false =>
      rw [heof, if_neg Bool.false_ne_true] at hlt
      exact Nat.lt_sub_of_add_lt hlt

theorem Sound.get (h : a.Sound) {forward : Bool} (hback : forward = false → a.CanGoBack 1) :
    (a.get forward).1.Sound := by
  cases forward with
  | true => exact h.next
  | false => exact h.previous (hback rfl)

theorem CanGoBack.one (h : a.CanGoBack (n + 1)) : a.CanGoBack 1 :=
  ⟨h.1, h.2.imp_right fun h => by omega⟩

/-- A step back leaves one step less to go. -/
theorem CanGoBack.previous (h : a.CanGoBack (n + 1)) : a.previous.1.CanGoBack n := by
  have hcur : a.previous.1.current = { a.current with
      eof := false, pos := if a.current.eof then a.tuples.length else a.current.pos - 1 } :=
    setCurrent_current ..
  refine ⟨by rw [hcur]; exact h.1, h.2.imp_right fun hlt => ?_⟩
  have hfloor : a.previous.1.floor = a.floor := rfl
  rw [hcur, hfloor, if_neg Bool.false_ne_true]
  cases heof : a.current.eof with
  | true =>
    rw [heof, if_pos rfl] at hlt
    exact Nat.lt_of_succ_lt_succ hlt
  | false =>
    rw [heof, if_neg Bool.false_ne_true] at hlt
    exact Nat.lt_sub_of_add_lt hlt

theorem Sound.skip (h : a.Sound) {forward : Bool} (hback : forward = false → a.CanGoBack n) :
    (skip forward n a).1.Sound := by
  induction n generalizing a with
  | zero => exact h
  | succ n ih =>
    have hget := h.get fun hf => (hback hf).one
    unfold Spool.skip
    split
    · exact hget
    · refine ih hget fun hf => ?_
      subst hf
      exact (hback rfl).previous

end Spool

theorem orFlags_succ (n : Nat) (flags : Nat → ExecFlags) :
    orFlags (n + 1) flags = (orFlags n flags).or (flags n) := by
  simp [orFlags, List.range_succ]

theorem orFlags_rewind {flags : Nat → ExecFlags} :
    (orFlags n flags).rewind = false ↔ ∀ i < n, (flags i).rewind = false := by
  induction n with
  | zero => exact ⟨fun _ _ h => absurd h (Nat.not_lt_zero _), fun _ => rfl⟩
  | succ n ih => rw [orFlags_succ, ExecFlags.or, Bool.or_eq_false_iff, ih, Nat.forall_lt_succ_right]

theorem orFlags_backward {flags : Nat → ExecFlags} :
    (orFlags n flags).backward = false ↔ ∀ i < n, (flags i).backward = false := by
  induction n with
  | zero => exact ⟨fun _ _ h => absurd h (Nat.not_lt_zero _), fun _ => rfl⟩
  | succ n ih => rw [orFlags_succ, ExecFlags.or, Bool.or_eq_false_iff, ih, Nat.forall_lt_succ_right]

theorem orFlags_congr {f g : Nat → ExecFlags} (h : ∀ i < n, f i = g i) :
    orFlags n f = orFlags n g := by
  induction n with
  | zero => rfl
  | succ n ih =>
    rw [orFlags_succ, orFlags_succ, ih fun i hi => h i (Nat.lt_succ_of_lt hi),
      h n (Nat.lt_succ_self n)]

section FurthestBack

variable {n : Nat} {eof eof' : Nat → Bool} {pos pos' : Nat → Nat} {count : Nat}

theorem furthestBack_succ : furthestBack (n + 1) eof pos count =
    if eof n then furthestBack n eof pos count
    else min (furthestBack n eof pos count) (pos n) := by
  simp [furthestBack, List.range_succ]

theorem furthestBack_le : furthestBack n eof pos count ≤ count := by
  induction n with
  | zero => exact Nat.le_refl _
  | succ n ih =>
    rw [furthestBack_succ]
    split
    · exact ih
    · exact Nat.le_trans (Nat.min_le_left _ _) ih

theorem furthestBack_le_pos {i : Nat} (hi : i < n) (heof : eof i = false) :
    furthestBack n eof pos count ≤ pos i := by
  induction n with
  | zero => exact absurd hi (Nat.not_lt_zero i)
  | succ n ih =>
    rw [furthestBack_succ]
    rcases Nat.lt_succ_iff_lt_or_eq.mp hi with hlt | rfl
    · split
      · exact ih hlt
      · exact Nat.le_trans (Nat.min_le_left _ _) (ih hlt)
    · rw [heof, if_neg Bool.false_ne_true]
      exact Nat.min_le_right _ _

theorem lt_furthestBack {m : Nat} (hcount : m < count)
    (hpos : ∀ i < n, eof i = false → m < pos i) : m < furthestBack n eof pos count := by
  induction n with
  | zero => exact hcount
  | succ n ih =>
    have hlt := ih fun i hi => hpos i (Nat.lt_succ_of_lt hi)
    rw [furthestBack_succ]
    cases heof : eof n with
    | true => exact hlt
    | false => exact Nat.lt_min.mpr ⟨hlt, hpos n (Nat.lt_succ_self n) heof⟩

/-- Positions that all differ by the same number. -/
theorem furthestBack_shift {base : Nat} (heof : ∀ i < n, eof i = eof' i)
    (hpos : ∀ i < n, eof' i = false → base + pos i = pos' i) :
    furthestBack n eof' pos' (base + count) = base + furthestBack n eof pos count := by
  induction n with
  | zero => rfl
  | succ n ih =>
    have hrec := ih (fun i hi => heof i (Nat.lt_succ_of_lt hi))
      fun i hi => hpos i (Nat.lt_succ_of_lt hi)
    rw [furthestBack_succ, furthestBack_succ, hrec, heof n (Nat.lt_succ_self n)]
    cases hn : eof' n with
    | true => rfl
    | false =>
      rw [← hpos n (Nat.lt_succ_self n) hn]
      exact Nat.add_min_add_left _ _ _

end FurthestBack

namespace Spool

variable {α : Type} {a : Spool α}

theorem Sound.trim (h : a.Sound) : a.trim.Sound := by
  unfold Spool.trim
  cases hrew : a.mayRewind with
  | true => exact h
  | false =>
    have hoff := orFlags_rewind.mp hrew
    have hcount : a.oldest ≤ a.tuples.length := furthestBack_le
    refine ⟨h.active_lt, h.pos_le, fun h0 => ?_, fun h0 i hi heof => ?_, fun _ => hoff⟩
    · have := h.floor_lt
      simp only [Bool.false_eq_true, if_false] at h0 ⊢
      omega
    · have hpos : a.oldest ≤ (a.cursors i).pos := furthestBack_le_pos hi heof
      have := fun h0 => h.floor_lt_pos h0 i hi heof
      simp only [Bool.false_eq_true, if_false] at h0 ⊢
      omega

/-- Allowed calls keep the invariant. -/
theorem Sound.call (h : a.Sound) {c : Call α} (hc : a.Allowed c) : (a.call c).1.Sound := by
  cases c with
  | puttuple t => exact h.put t
  | putblock ts tuplen owned => exact h.puts ts
  | gettuple forward => exact h.get hc
  | skiptuples n forward => exact h.skip hc
  | selectReadPointer ptr =>
    exact ⟨hc, h.pos_le, h.floor_lt, h.floor_lt_pos, h.no_rewind⟩
  | rescan =>
    have h0 : a.floor = 0 := by
      by_contra h0
      exact Bool.false_ne_true ((h.no_rewind h0 _ h.active_lt).symm.trans hc)
    exact h.setCurrent (fun c => { c with eof := false, pos := 0 }) (fun _ => Nat.zero_le _)
      (fun hne => absurd h0 hne) rfl
  | copyReadPointer srcptr destptr =>
    have hcopy : ∀ i < a.count, ∃ j < a.count,
        Function.update a.cursors destptr (a.cursors srcptr) i = a.cursors j := by
      intro i hi
      by_cases hd : i = destptr
      · exact ⟨srcptr, hc.1, by rw [hd, Function.update_self]⟩
      · exact ⟨i, hi, Function.update_of_ne hd _ _⟩
    refine ⟨h.active_lt, fun i hi => ?_, h.floor_lt, fun h0 i hi => ?_, fun h0 i hi => ?_⟩
    · obtain ⟨j, hj, heq⟩ := hcopy i hi
      simpa [Spool.call, heq] using h.pos_le j hj
    · obtain ⟨j, hj, heq⟩ := hcopy i hi
      simpa [Spool.call, heq] using h.floor_lt_pos h0 j hj
    · obtain ⟨j, hj, heq⟩ := hcopy i hi
      simpa [Spool.call, heq] using h.no_rewind h0 j hj
  | trim => exact h.trim
  | clear =>
    exact ⟨h.active_lt, fun _ _ _ => Nat.zero_le _, fun h0 => absurd rfl h0,
      fun h0 => absurd rfl h0, fun h0 => absurd rfl h0⟩
  | ateof | tupleCount => exact h

end Spool

end Tuplestore

end HolLambdas
