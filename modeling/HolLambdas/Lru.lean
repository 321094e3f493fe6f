import Mathlib.Data.List.Perm.Basic
import Mathlib.Logic.Function.Basic

/-!
# A hash table with an eviction list

The usual least-recently-used cache, at the level of the pointers it is made
of: entries live in a heap, a hash table refers to them by key, a list orders
them by use, and one more pointer remembers the entry used last. Entries are
*referenced*, not contained, so an eviction that forgets one of the three
references leaves a pointer to freed memory behind.

`Lru.WF` says that this never happens — what is live is what is listed, the
table has exactly one slot for each listed entry, and the remembered entry is
listed — together with the two facts a lookup rests on: keys are distinct, and
a slot carries the hash of its entry's key. Every operation keeps it
(`WF.touch`, `WF.evict`, `WF.makeRoom`, `WF.insert`, `WF.setLast`,
`WF.modify`), and each of these says what becomes of the live entries, which is
all a client needs in order to carry an invariant of its own about them.

An operation that would read through a dead pointer has no result (`none`).
-/

namespace HolLambdas

open Function

/-- A slot of the hash table. -/
structure LruSlot where
  hash : UInt32
  entry : Nat
deriving DecidableEq, Repr

/-- An entry: its key, the hash stored with it, and what the client keeps. -/
structure LruEntry (K E : Type) where
  hash : UInt32
  key : K
  val : E

/-- Entries in memory, a hash table of pointers to them, and a list by use. -/
structure Lru (K E : Type) where
  heap : Nat → Option (LruEntry K E)
  /-- The next address to be handed out. -/
  next : Nat
  table : List LruSlot
  /-- The entries, most recently used first. -/
  order : List Nat
  /-- The entry used last. -/
  last : Option Nat
  nentries : Nat
  evictions : Nat

namespace Lru

variable {K E : Type} [DecidableEq K]

/-! ## Operations -/

def empty : Lru K E :=
  { heap := fun _ => none, next := 0, table := [], order := [], last := none,
    nentries := 0, evictions := 0 }

/-- Does a slot hold the key `k` with hash `h`? -/
def slotIs (c : Lru K E) (h : UInt32) (k : K) (s : LruSlot) : Bool :=
  s.hash == h && ((c.heap s.entry).any fun x => decide (x.key = k))

def lookup (c : Lru K E) (h : UInt32) (k : K) : Option Nat :=
  (c.table.find? (c.slotIs h k)).map LruSlot.entry

/-- Move an entry to the head of the list. -/
def touch (c : Lru K E) (p : Nat) : Lru K E :=
  { c with order := p :: c.order.erase p }

/-- Unlink an entry everywhere and free it. -/
def remove (c : Lru K E) (p : Nat) (victim : LruEntry K E) : Lru K E :=
  { heap := update c.heap p none
    next := c.next
    table := c.table.eraseP (c.slotIs victim.hash victim.key)
    order := c.order.erase p
    last := if c.last = some p then none else c.last
    nentries := c.nentries - 1
    evictions := c.evictions + 1 }

/-- Remove the least recently used entry. -/
def evict (c : Lru K E) : Option (Lru K E) := do
  let p ← c.order.getLast?
  let victim ← c.heap p
  return c.remove p victim

/-- Evict while there are `size` entries or more, at most `rounds` times. -/
def makeRoom (size : Nat) : (rounds : Nat) → Lru K E → Option (Lru K E)
  | 0, c => some c
  | n + 1, c =>
    if 0 < c.nentries ∧ size ≤ c.nentries then c.evict.bind (makeRoom size n) else some c

/-- Allocate an entry, and enter it into the table and at the head of the list.
The table keeps the slot it has for an equal key. -/
def insert (c : Lru K E) (x : LruEntry K E) : Lru K E :=
  { c with
    heap := update c.heap c.next (some x)
    next := c.next + 1
    table := if (c.lookup x.hash x.key).isSome then c.table else ⟨x.hash, c.next⟩ :: c.table
    order := c.next :: c.order
    nentries := c.nentries + 1 }

def setLast (c : Lru K E) (p : Nat) : Lru K E :=
  { c with last := some p }

/-- Write the client's part of an entry. -/
def modify (c : Lru K E) (p : Nat) (x : LruEntry K E) (v : E) : Lru K E :=
  { c with heap := update c.heap p (some { x with val := v }) }

/-! ## Well-formedness -/

/-- The table, the list and the memory agree. -/
structure WF (hash : K → UInt32) (c : Lru K E) : Prop where
  /-- What is live is what is listed: no dangling pointer, no leak. -/
  live : ∀ p, p ∈ c.order ↔ ∃ x, c.heap p = some x
  nodup : c.order.Nodup
  slots : (c.table.map LruSlot.entry).Perm c.order
  slotHash : ∀ s ∈ c.table, ∀ x, c.heap s.entry = some x → s.hash = x.hash
  keyHash : ∀ p x, c.heap p = some x → x.hash = hash x.key
  keys : ∀ p q x y, c.heap p = some x → c.heap q = some y → x.key = y.key → p = q
  fresh : ∀ p ∈ c.order, p < c.next
  lastLive : ∀ p, c.last = some p → p ∈ c.order
  count : c.nentries = c.order.length

omit [DecidableEq K] in
theorem wf_empty (hash : K → UInt32) : WF hash (empty : Lru K E) where
  live p := by simp [empty]
  nodup := List.nodup_nil
  slots := List.Perm.refl _
  slotHash := by simp [empty]
  keyHash := by simp [empty]
  keys := by simp [empty]
  fresh := by simp [empty]
  lastLive := by simp [empty]
  count := rfl

namespace WF

variable {hash : K → UInt32} {c : Lru K E}

variable {p : Nat} {x : LruEntry K E}

omit [DecidableEq K] in
/-- Reading the heap after a freed entry. -/
private theorem update_none {heap : Nat → Option (LruEntry K E)} {q : Nat} :
    update heap p none q = some x ↔ q ≠ p ∧ heap q = some x := by
  by_cases hq : q = p
  · subst hq
    simp
  · simp [hq]

variable (hc : WF hash c)

include hc

omit [DecidableEq K] in
theorem mem_slot : p ∈ c.order ↔ ∃ s ∈ c.table, s.entry = p := by
  rw [← hc.slots.mem_iff, List.mem_map]

/-- In the table, the slot of a live entry is the one whose key is the entry's. -/
theorem slotIs_iff {s : LruSlot} (hs : s ∈ c.table) (hx : c.heap p = some x) :
    c.slotIs x.hash x.key s = true ↔ s.entry = p := by
  unfold slotIs
  constructor
  · intro h
    rw [Bool.and_eq_true, Option.any_eq_true] at h
    obtain ⟨_, y, hy, hkey⟩ := h
    exact hc.keys _ _ _ _ hy hx (of_decide_eq_true hkey)
  · intro h
    rw [h, hx, hc.slotHash s hs x (by rw [h]; exact hx)]
    simp

/-- A lookup finds a live entry with the key. -/
theorem lookup_some {k : K} (h : c.lookup (hash k) k = some p) :
    p ∈ c.order ∧ ∃ x, c.heap p = some x ∧ x.key = k := by
  obtain ⟨s, hs, hp⟩ := Option.map_eq_some_iff.mp h
  have hmem : s ∈ c.table := List.mem_of_find?_eq_some hs
  have hat := List.find?_some hs
  unfold slotIs at hat
  rw [Bool.and_eq_true, Option.any_eq_true] at hat
  obtain ⟨_, x, hx, hkey⟩ := hat
  rw [hp] at hx
  exact ⟨hc.mem_slot.mpr ⟨s, hmem, hp⟩, x, hx, of_decide_eq_true hkey⟩

/-- A lookup that finds nothing: no live entry has the key. -/
theorem lookup_none {k : K} (h : c.lookup (hash k) k = none) :
    ∀ p x, c.heap p = some x → x.key ≠ k := by
  intro p x hx hkey
  obtain ⟨s, hs, hp⟩ := hc.mem_slot.mp ((hc.live p).mpr ⟨x, hx⟩)
  unfold lookup at h
  rw [Option.map_eq_none_iff, List.find?_eq_none] at h
  apply h s hs
  have hat := (hc.slotIs_iff hs hx).mpr hp
  rw [hc.keyHash p x hx, hkey] at hat
  exact hat

/-! ## What the operations do to the live entries -/

omit [DecidableEq K] in
theorem touch (hp : p ∈ c.order) : WF hash (c.touch p) := by
  have hperm : (c.touch p).order.Perm c.order := (List.perm_cons_erase hp).symm
  exact
    { hc with
      live := fun q => by rw [hperm.mem_iff]; exact hc.live q
      nodup := hperm.nodup_iff.mpr hc.nodup
      slots := hc.slots.trans hperm.symm
      fresh := fun q hq => hc.fresh q (hperm.mem_iff.mp hq)
      lastLive := fun q hq => hperm.mem_iff.mpr (hc.lastLive q hq)
      count := by rw [hperm.length_eq]; exact hc.count }

omit [DecidableEq K] in
theorem setLast (hp : p ∈ c.order) : WF hash (c.setLast p) where
  __ := hc
  lastLive q hq := by
    cases hq
    exact hp

/-- Removing the slot of a live entry removes its pointer from the table. -/
theorem eraseP_entries (hx : c.heap p = some x) :
    (c.table.eraseP (c.slotIs x.hash x.key)).map LruSlot.entry =
      (c.table.map LruSlot.entry).erase p := by
  rw [List.erase_eq_eraseP, List.eraseP_map]
  have hcongr : ∀ l : List LruSlot, (∀ s ∈ l, s ∈ c.table) →
      l.eraseP (c.slotIs x.hash x.key) = l.eraseP ((fun q => p == q) ∘ LruSlot.entry) := by
    intro l
    induction l with
    | nil => intro _; rfl
    | cons s l ih =>
      intro hl
      have hs := hc.slotIs_iff (hl s (by simp)) hx
      by_cases he : s.entry = p
      · rw [List.eraseP_cons_of_pos (hs.mpr he), List.eraseP_cons_of_pos (by simp [he])]
      · rw [List.eraseP_cons_of_neg (fun h => he (hs.mp h)),
          List.eraseP_cons_of_neg (by simpa using Ne.symm he), ih fun t ht => hl t (by simp [ht])]
  rw [hcongr c.table fun s hs => hs]

theorem remove (hx : c.heap p = some x) : WF hash (c.remove p x) := by
  have hp : p ∈ c.order := (hc.live p).mpr ⟨x, hx⟩
  have hmem : ∀ q, q ∈ c.order.erase p ↔ q ≠ p ∧ q ∈ c.order := fun q =>
    hc.nodup.mem_erase_iff
  exact
    { live := fun q => by
        show q ∈ c.order.erase p ↔ ∃ y, update c.heap p none q = some y
        rw [hmem, hc.live]
        simp only [update_none, exists_and_left]
      nodup := hc.nodup.erase p
      slots := by
        show List.Perm (List.map _ (List.eraseP _ _)) _
        rw [hc.eraseP_entries hx]
        exact hc.slots.erase p
      slotHash := fun s hs y hy =>
        hc.slotHash s (List.mem_of_mem_eraseP hs) y (update_none.mp hy).2
      keyHash := fun q y hy => hc.keyHash q y (update_none.mp hy).2
      keys := fun q r y z hy hz => hc.keys q r y z (update_none.mp hy).2 (update_none.mp hz).2
      fresh := fun q hq => hc.fresh q ((hmem q).mp hq).2
      lastLive := fun q hq => by
        unfold Lru.remove at hq
        by_cases hl : c.last = some p
        · simp [hl] at hq
        · simp only [hl, if_false] at hq
          exact (hmem q).mpr ⟨fun h => hl (by rw [hq, h]), hc.lastLive q hq⟩
      count := by
        show c.nentries - 1 = (c.order.erase p).length
        rw [List.length_erase_of_mem hp, hc.count] }

/-- An eviction frees one entry and keeps the others. -/
theorem evict (hne : 0 < c.nentries) :
    ∃ c', c.evict = some c' ∧ WF hash c' ∧ c'.nentries + 1 = c.nentries ∧
      ∀ p x, c'.heap p = some x → c.heap p = some x := by
  have hcount := hc.count
  obtain ⟨p, hlast⟩ : ∃ p, c.order.getLast? = some p :=
    ⟨_, List.getLast?_eq_getLast_of_ne_nil (List.ne_nil_of_length_pos (by omega))⟩
  obtain ⟨x, hx⟩ := (hc.live p).mp (List.mem_of_getLast? hlast)
  refine ⟨c.remove p x, ?_, hc.remove hx, ?_, fun q y hy => (update_none.mp hy).2⟩
  · unfold Lru.evict
    rw [hlast]
    show (c.heap p).bind _ = _
    rw [hx]
    rfl
  · show c.nentries - 1 + 1 = c.nentries
    omega

/-- The eviction loop, given as many rounds as there are entries, ends with
room for one more. -/
theorem makeRoom (size : Nat) {rounds : Nat} (hrounds : c.nentries ≤ rounds) :
    ∃ c', c.makeRoom size rounds = some c' ∧ WF hash c' ∧
      (c'.nentries = 0 ∨ c'.nentries < size) ∧
      ∀ p x, c'.heap p = some x → c.heap p = some x := by
  induction rounds generalizing c with
  | zero => exact ⟨c, rfl, hc, Or.inl (by omega), fun _ _ h => h⟩
  | succ n ih =>
    unfold Lru.makeRoom
    by_cases hfull : 0 < c.nentries ∧ size ≤ c.nentries
    · obtain ⟨c₁, hev, hc₁, hcount, hsub₁⟩ := hc.evict hfull.1
      obtain ⟨c₂, hroom, hc₂, hend, hsub₂⟩ := ih hc₁ (by omega)
      refine ⟨c₂, ?_, hc₂, hend, fun p x hx => hsub₁ p x (hsub₂ p x hx)⟩
      rw [if_pos hfull, hev]
      exact hroom
    · exact ⟨c, if_neg hfull, hc, by omega, fun _ _ h => h⟩

omit [DecidableEq K] in
/-- The next address is not in use. -/
theorem next_dead : c.heap c.next = none := by
  cases h : c.heap c.next with
  | none => rfl
  | some x => exact absurd (hc.fresh c.next ((hc.live _).mpr ⟨x, h⟩)) (Nat.lt_irrefl _)

/-- Entering a new key. -/
theorem insert (hhash : x.hash = hash x.key) (hnew : ∀ p y, c.heap p = some y → y.key ≠ x.key) :
    WF hash (c.insert x) := by
  -- the entry goes to an address that nothing points to
  have hold : ∀ p y, update c.heap c.next (some x) p = some y ↔
      (p = c.next ∧ y = x) ∨ c.heap p = some y := by
    intro p y
    by_cases hp : p = c.next
    · subst hp
      rw [update_self, hc.next_dead]
      simp [eq_comm]
    · simp [hp]
  have hmiss : (c.lookup x.hash x.key).isSome = false := by
    rw [Option.isSome_eq_false_iff, Option.isNone_iff_eq_none]
    cases hl : c.lookup x.hash x.key with
    | none => rfl
    | some p =>
      rw [hhash] at hl
      obtain ⟨_, y, hy, hkey⟩ := hc.lookup_some hl
      exact absurd hkey (hnew p y hy)
  have htable : (c.insert x).table = ⟨x.hash, c.next⟩ :: c.table := by
    unfold Lru.insert
    rw [hmiss]
    rfl
  exact
    { live := fun p => by
        show p ∈ c.next :: c.order ↔ ∃ y, update c.heap c.next (some x) p = some y
        simp only [List.mem_cons, hold, hc.live]
        constructor
        · intro h
          rcases h with h | ⟨y, hy⟩
          · exact ⟨x, Or.inl ⟨h, rfl⟩⟩
          · exact ⟨y, Or.inr hy⟩
        · intro h
          obtain ⟨y, h | hy⟩ := h
          · exact Or.inl h.1
          · exact Or.inr ⟨y, hy⟩
      nodup := List.nodup_cons.mpr
        ⟨fun h => Nat.lt_irrefl _ (hc.fresh _ h), hc.nodup⟩
      slots := by
        rw [htable]
        exact hc.slots.cons c.next
      slotHash := fun s hs y hy => by
        rw [htable, List.mem_cons] at hs
        rcases (hold _ y).mp hy with ⟨he, rfl⟩ | hy'
        · rcases hs with rfl | hs
          · rfl
          · exact absurd (hc.mem_slot.mpr ⟨s, hs, he⟩) fun h => Nat.lt_irrefl _ (hc.fresh _ h)
        · rcases hs with rfl | hs
          · rw [hc.next_dead] at hy'
            cases hy'
          · exact hc.slotHash s hs y hy'
      keyHash := fun p y hy => by
        rcases (hold p y).mp hy with ⟨_, rfl⟩ | hy'
        · exact hhash
        · exact hc.keyHash p y hy'
      keys := fun p q y z hy hz hkey => by
        rcases (hold p y).mp hy with ⟨hp, rfl⟩ | hy' <;>
          rcases (hold q z).mp hz with ⟨hq, rfl⟩ | hz'
        · rw [hp, hq]
        · exact absurd hkey.symm (hnew q z hz')
        · exact absurd hkey (hnew p y hy')
        · exact hc.keys p q y z hy' hz' hkey
      fresh := fun p hp => by
        rcases List.mem_cons.mp hp with h | h
        · rw [h]
          exact Nat.lt_succ_self _
        · exact Nat.lt_succ_of_lt (hc.fresh p h)
      lastLive := fun p hp => List.mem_cons_of_mem _ (hc.lastLive p hp)
      count := by
        show c.nentries + 1 = (c.next :: c.order).length
        rw [hc.count, List.length_cons] }

omit [DecidableEq K] in
/-- Writing the client's part of a live entry. -/
theorem modify (hx : c.heap p = some x) (v : E) : WF hash (c.modify p x v) := by
  -- every live entry keeps its address, hash and key
  have hold : ∀ q y, (c.modify p x v).heap q = some y →
      ∃ z, c.heap q = some z ∧ z.hash = y.hash ∧ z.key = y.key := by
    intro q y hy
    change update c.heap p (some { x with val := v }) q = some y at hy
    by_cases hq : q = p
    · subst hq
      rw [update_self] at hy
      cases hy
      exact ⟨x, hx, rfl, rfl⟩
    · rw [update_of_ne hq] at hy
      exact ⟨y, hy, rfl, rfl⟩
  exact
    { hc with
      live := fun q => by
        rw [show (c.modify p x v).order = c.order from rfl, hc.live]
        constructor
        · intro h
          obtain ⟨y, hy⟩ := h
          by_cases hq : q = p
          · subst hq
            exact ⟨_, update_self ..⟩
          · exact ⟨y, by rw [← hy]; exact update_of_ne hq ..⟩
        · intro h
          obtain ⟨y, hy⟩ := h
          obtain ⟨z, hz, _⟩ := hold q y hy
          exact ⟨z, hz⟩
      slotHash := fun s hs y hy => by
        obtain ⟨z, hz, hh, _⟩ := hold _ y hy
        rw [← hh]
        exact hc.slotHash s hs z hz
      keyHash := fun q y hy => by
        obtain ⟨z, hz, hh, hk⟩ := hold q y hy
        rw [← hh, ← hk]
        exact hc.keyHash q z hz
      keys := fun q r y z hy hz hkey => by
        obtain ⟨y', hy', _, hky⟩ := hold q y hy
        obtain ⟨z', hz', _, hkz⟩ := hold r z hz
        exact hc.keys q r y' z' hy' hz' (by rw [hky, hkz, hkey]) }

end WF

end Lru

end HolLambdas
