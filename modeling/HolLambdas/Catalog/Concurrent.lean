import HolLambdas.Runs
import HolLambdas.Catalog.Intern

/-!
# Creating signatures from several transactions

`LambdaSigCreate` opens `pg_lambdasig` with an exclusive lock and closes it with
the same lock mode, which releases the lock at the end of the *call*. The row it
has inserted becomes visible to other transactions at the end of the
*transaction*. In between, another transaction can take the lock, and its scans
do not see the row: it picks the same `max(lamsigid) + 1`, its insertion waits
for the first transaction at the unique index, and raises when that commits.

The model is a step function over the shared table. A step is what one
transaction does without others coming in between: taking the lock, each of the
two scans, the insertion with its index checks, releasing the lock, committing,
aborting. The scans and the allocation are those of `Intern`, applied to the
rows the transaction sees.

`separated_run_collisionFree` is what the lock does achieve: as long as no call misses a key
while another transaction in progress has rows in the table, no insertion finds
a duplicate and no two calls of transactions that are not rolled back pick one
id for two keys. `uncommitted_row_collides` is the run that the lock does not
prevent.
-/

namespace HolLambdas.Catalog

open Function

inductive XactStatus where
  | running
  | committed
  | aborted
deriving DecidableEq, Repr

/-- Where a transaction stands in `LambdaSigCreate`. -/
inductive CallPoint where
  | outside
  /-- The table is open and locked. -/
  | opened (sigkey : List Char) (sigsrc : String)
  /-- The lookup has found no row. -/
  | missed (sigkey : List Char) (sigsrc : String)
  /-- `LambdaSigAllocateTypmod` has returned. -/
  | picked (sigkey : List Char) (sigsrc : String) (lamsigid : Int)
  /-- The result is known; `table_close` is next. -/
  | closing (lamsigid : Int)
deriving DecidableEq, Repr

/-- A tuple of the table with the transaction that inserted it. -/
structure StoredRow where
  xmin : Nat
  row : LambdaSigRow
deriving DecidableEq, Repr

/-- An id picked by a call. -/
structure Pick where
  xid : Nat
  sigkey : List Char
  lamsigid : Int
deriving DecidableEq, Repr

/-- The table with rows of all transactions, and the calls under way. -/
structure CatalogState where
  tuples : List StoredRow
  status : Nat → XactStatus
  point : Nat → CallPoint
  /-- The holder of the `ExclusiveLock`. -/
  lock : Option Nat
  /-- History: the ids picked so far. -/
  picks : List Pick
  /-- History: the transactions that ran into a unique violation. -/
  violations : List Nat

/-- What a transaction does next. -/
inductive CatalogAction where
  | openTable (x : Nat) (sigkey : List Char) (sigsrc : String)
  | lookup (x : Nat)
  | allocate (x : Nat)
  | insert (x : Nat) (oid : Oid)
  | closeTable (x : Nat)
  | commit (x : Nat)
  | abort (x : Nat)
deriving DecidableEq, Repr

/-- The outcome of a uniqueness check against an index. -/
inductive UniqueCheck where
  | free
  | duplicate
  /-- The inserter of an equal entry is still in progress. -/
  | wait
deriving DecidableEq, Repr

namespace CatalogState

/-- An empty table and no call under way. -/
def initial : CatalogState where
  tuples := []
  status _ := .running
  point _ := .outside
  lock := none
  picks := []
  violations := []

variable (s : CatalogState)

/-- The rows a scan of transaction `x` returns: its own and the committed ones. -/
def visible (x : Nat) : List LambdaSigRow :=
  (s.tuples.filter fun t => t.xmin = x ∨ s.status t.xmin = .committed).map StoredRow.row

def goTo (x : Nat) (p : CallPoint) : CatalogState :=
  { s with point := update s.point x p }

/-- A transaction is rolled back: its rows are dead and its locks released. -/
def rollback (x : Nat) : CatalogState :=
  { s with
    status := update s.status x .aborted
    point := update s.point x .outside
    lock := if s.lock = some x then none else s.lock }

/-- The check of one unique index when `x` inserts an entry equal to those of the
rows selected by `same`. -/
def uniqueCheck (x : Nat) (same : LambdaSigRow → Bool) : UniqueCheck :=
  if s.tuples.any fun t => same t.row && (t.xmin = x ∨ s.status t.xmin = .committed) then
    .duplicate
  else if s.tuples.any fun t => same t.row && (s.status t.xmin = .running) then .wait
  else .free

/-- The insertion of a row whose OID is new. The index on `lamsigid` comes before
the one on `lamsigkey`. A transaction that has to wait does not move. -/
def insertRow (x : Nat) (row : LambdaSigRow) : Option CatalogState :=
  match s.uniqueCheck x fun r => r.lamsigid = row.lamsigid with
  | .wait => none
  | .duplicate => some { s.rollback x with violations := s.violations ++ [x] }
  | .free =>
    match s.uniqueCheck x fun r => r.lamsigkey = row.lamsigkey with
    | .wait => none
    | .duplicate => some { s.rollback x with violations := s.violations ++ [x] }
    | .free => some { s.goTo x (.closing row.lamsigid) with tuples := s.tuples ++ [⟨x, row⟩] }

/-- One step of `LambdaSigCreate`, or the end of a transaction. -/
def step : CatalogAction → Option CatalogState
  | .openTable x sigkey sigsrc =>
    if s.status x = .running ∧ s.point x = .outside ∧ s.lock = none then
      some { s.goTo x (.opened sigkey sigsrc) with lock := some x }
    else none
  | .lookup x =>
    match s.point x with
    | .opened sigkey sigsrc =>
      let lamsigid := lambdaSigLookupTypmodByKeyInRelation (s.visible x) sigkey
      if lamsigid ≥ 0 then some (s.goTo x (.closing lamsigid))
      else some (s.goTo x (.missed sigkey sigsrc))
    | _ => none
  | .allocate x =>
    match s.point x with
    | .missed sigkey sigsrc =>
      match lambdaSigAllocateTypmod (s.visible x) with
      | .ok lamsigid =>
        some { s.goTo x (.picked sigkey sigsrc lamsigid) with
          picks := s.picks ++ [⟨x, sigkey, lamsigid⟩] }
      | .error _ => some (s.rollback x)
    | _ => none
  | .insert x oid =>
    match s.point x with
    | .picked sigkey sigsrc lamsigid =>
      -- `GetNewOidWithIndex` looks at uncommitted rows too
      if s.tuples.any fun t => t.row.oid = oid then none
      else s.insertRow x { oid, lamsigid, lamsigkey := sigkey, lamsigsrc := sigsrc }
    | _ => none
  | .closeTable x =>
    match s.point x with
    | .closing _ => some { s.goTo x .outside with lock := none }
    | _ => none
  | .commit x =>
    if s.status x = .running ∧ s.point x = .outside then
      some { s with status := update s.status x .committed }
    else none
  | .abort x => if s.status x = .running then some (s.rollback x) else none

/-- The condition under which the lock is enough: a call misses its key only
while no other transaction in progress has rows in the table. -/
def separated : CatalogAction → Bool
  | .lookup x =>
    match s.point x with
    | .opened sigkey _ =>
      decide (lambdaSigLookupTypmodByKeyInRelation (s.visible x) sigkey ≥ 0) ||
        s.tuples.all fun t => t.xmin = x ∨ s.status t.xmin ≠ .running
    | _ => true
  | _ => true

/-! ## The invariant -/

/-- No other transaction in progress has rows. -/
def Alone (x : Nat) : Prop :=
  ∀ t ∈ s.tuples, t.xmin = x ∨ s.status t.xmin ≠ .running

/-- A row that has not been rolled back. -/
def Live (t : StoredRow) : Prop :=
  s.status t.xmin ≠ .aborted

/-- What a transaction that is past its lookup relies on. -/
def PointInv (x : Nat) : CallPoint → Prop
  | .missed sigkey _ => s.Alone x ∧ ∀ t ∈ s.tuples, s.Live t → t.row.lamsigkey ≠ sigkey
  | .picked sigkey _ lamsigid =>
    (s.Alone x ∧ ∀ t ∈ s.tuples, s.Live t → t.row.lamsigkey ≠ sigkey) ∧
      (∀ t ∈ s.tuples, s.Live t → t.row.lamsigid ≠ lamsigid) ∧
      0 ≤ lamsigid ∧ lamsigid ≤ PG_INT32_MAX
  | _ => True

/-- A picked id is in a row, or about to be, or was given up. -/
def PickInv (p : Pick) : Prop :=
  s.status p.xid = .aborted ∨ (∃ sigsrc, s.point p.xid = .picked p.sigkey sigsrc p.lamsigid) ∨
    ∃ t ∈ s.tuples, t.xmin = p.xid ∧ t.row.lamsigid = p.lamsigid ∧ t.row.lamsigkey = p.sigkey

/-- What the lock keeps: an id stands for one key. -/
structure Inv : Prop where
  /-- A call under way holds the lock. -/
  holds : ∀ x, s.point x ≠ .outside → s.lock = some x ∧ s.status x = .running
  range : ∀ t ∈ s.tuples, 0 ≤ t.row.lamsigid ∧ t.row.lamsigid ≤ PG_INT32_MAX
  ids : ∀ t ∈ s.tuples, ∀ t' ∈ s.tuples, s.Live t → s.Live t' →
    t.row.lamsigid = t'.row.lamsigid → t.row.lamsigkey = t'.row.lamsigkey
  points : ∀ x, s.PointInv x (s.point x)
  picks : ∀ p ∈ s.picks, s.PickInv p
  violations : s.violations = []

theorem inv_initial : initial.Inv where
  holds x h := absurd rfl h
  range t h := by cases h
  ids t h := by cases h
  points x := trivial
  picks p h := by cases h
  violations := rfl

section Steps

variable {s}

variable {x : Nat} {s' : CatalogState} {sigkey : List Char} {sigsrc : String}

/-- Only one call is under way. -/
theorem Inv.others_outside (h : s.Inv) {y : Nat} (hx : s.point x ≠ .outside) (hy : y ≠ x) :
    s.point y = .outside := by
  by_contra hne
  have hlx := (h.holds x hx).1
  rw [(h.holds y hne).1] at hlx
  exact hy (Option.some.inj hlx)

/-- A transaction in a call moves on, possibly picking an id. -/
theorem Inv.move {p : CallPoint} (h : s.Inv) (hx : s.point x ≠ .outside)
    (htuples : s'.tuples = s.tuples) (hstatus : s'.status = s.status)
    (hpoint : s'.point = update s.point x p) (hlock : s'.lock = s.lock)
    (hviol : s'.violations = s.violations) (hp : s.PointInv x p)
    (hpicks : ∀ q ∈ s'.picks, s'.PickInv q) : s'.Inv := by
  have hsame : ∀ y q, s.PointInv y q → s'.PointInv y q := by
    intro y q hq
    cases q <;> simp only [PointInv, Alone, Live, htuples, hstatus] at hq ⊢ <;> exact hq
  refine
    { holds := fun y hy => ?_
      range := by rw [htuples]; exact h.range
      ids := by simp only [Live, htuples, hstatus]; exact h.ids
      points := fun y => ?_
      picks := hpicks
      violations := by rw [hviol]; exact h.violations }
  · rw [hlock, hstatus]
    by_cases hyx : y = x
    · rw [hyx]
      exact h.holds x hx
    · rw [hpoint, update_of_ne hyx] at hy
      exact h.holds y hy
  · rw [hpoint]
    by_cases hyx : y = x
    · rw [hyx, update_self]
      exact hsame x p hp
    · rw [update_of_ne hyx]
      exact hsame y _ (h.points y)

/-- Moving on keeps what is known of a picked id, unless the transaction was
about to insert it. -/
theorem PickInv.mono {p : Pick} (h : s.PickInv p)
    (hstatus : s.status p.xid = .aborted → s'.status p.xid = .aborted)
    (htuples : ∀ t ∈ s.tuples, t ∈ s'.tuples)
    (hpoint : ∀ sigsrc, s.point p.xid = .picked p.sigkey sigsrc p.lamsigid → s'.PickInv p) :
    s'.PickInv p := by
  rcases h with h | ⟨sigsrc, h⟩ | ⟨t, ht, h⟩
  · exact Or.inl (hstatus h)
  · exact hpoint sigsrc h
  · exact Or.inr (Or.inr ⟨t, htuples t ht, h⟩)

/-- The step of a transaction that is not about to insert a row keeps what is
known of the picked ids. -/
theorem Inv.picks_goTo (h : s.Inv) (s' : CatalogState) (x : Nat)
    (hx : ∀ sigkey sigsrc lamsigid, s.point x ≠ .picked sigkey sigsrc lamsigid)
    (hstatus : s'.status = s.status) (htuples : s'.tuples = s.tuples)
    (hpoint : ∀ y, y ≠ x → s'.point y = s.point y) {p : Pick} (hp : p ∈ s.picks) :
    s'.PickInv p := by
  refine (h.picks p hp).mono (fun ha => by rw [hstatus]; exact ha)
    (fun t ht => by rw [htuples]; exact ht) fun sigsrc hpt => ?_
  have hne : p.xid ≠ x := by
    intro he
    rw [he] at hpt
    exact hx _ _ _ hpt
  exact Or.inr (Or.inl ⟨sigsrc, by rw [hpoint _ hne]; exact hpt⟩)

/-- A transaction outside a call relies on nothing. -/
theorem pointInv_of_outside (hx : s.PointInv x (s.point x))
    (hout : ∀ y, y ≠ x → s.point y = .outside) (y : Nat) : s.PointInv y (s.point y) := by
  by_cases hyx : y = x
  · rw [hyx]
    exact hx
  · rw [hout y hyx]
    trivial

theorem Inv.openTable (h : s.Inv) (hrun : s.status x = .running) (hout : s.point x = .outside)
    (hfree : s.lock = none) :
    Inv { s.goTo x (.opened sigkey sigsrc) with lock := some x } := by
  have houtside : ∀ y, s.point y = .outside := by
    intro y
    by_contra hy
    rw [(h.holds y hy).1] at hfree
    cases hfree
  have hpoint : ∀ y, y ≠ x → (s.goTo x (.opened sigkey sigsrc)).point y = .outside := by
    intro y hy
    exact (update_of_ne hy ..).trans (houtside y)
  refine
    { holds := fun y hy => ?_
      range := h.range
      ids := h.ids
      points := fun y => ?_
      picks := fun p hp => ?_
      violations := h.violations }
  · by_cases hyx : y = x
    · rw [hyx]
      exact ⟨rfl, hrun⟩
    · exact absurd (hpoint y hyx) hy
  · refine pointInv_of_outside (x := x) ?_ hpoint y
    show PointInv _ x (update s.point x _ x)
    rw [update_self]
    trivial
  · refine h.picks_goTo { s.goTo x (.opened sigkey sigsrc) with lock := some x } x ?_ rfl rfl
      (fun y hy => ?_) hp
    · rw [hout]
      simp
    · exact update_of_ne hy ..

theorem Inv.closeTable {lamsigid : Int} (h : s.Inv) (hx : s.point x = .closing lamsigid) :
    Inv { s.goTo x .outside with lock := none } := by
  have houtside : ∀ y, (s.goTo x .outside).point y = .outside := by
    intro y
    by_cases hyx : y = x
    · rw [hyx]
      exact update_self ..
    · exact (update_of_ne hyx ..).trans (h.others_outside (by rw [hx]; simp) hyx)
  refine
    { holds := fun y hy => absurd (houtside y) hy
      range := h.range
      ids := h.ids
      points := fun y => ?_
      picks := fun p hp => ?_
      violations := h.violations }
  · show PointInv _ y ((s.goTo x .outside).point y)
    rw [houtside y]
    trivial
  · refine h.picks_goTo { s.goTo x .outside with lock := none } x ?_ rfl rfl (fun y hy => ?_) hp
    · rw [hx]
      simp
    · exact update_of_ne hy ..

/-- Nothing happens to a transaction but that it ends. -/
def EndsOnly (s s' : CatalogState) : Prop :=
  ∀ z, s'.status z = s.status z ∨ s.status z = .running ∧ s'.status z ≠ .running

theorem EndsOnly.of_update {st : XactStatus} (hrun : s.status x = .running) (hst : st ≠ .running)
    (hs' : s'.status = update s.status x st) : s.EndsOnly s' := by
  intro z
  rw [hs']
  by_cases hz : z = x
  · right
    rw [hz, update_self]
    exact ⟨hrun, hst⟩
  · exact Or.inl (update_of_ne hz ..)

theorem EndsOnly.aborted (h : s.EndsOnly s') {z : Nat} (hz : s.status z = .aborted) :
    s'.status z = .aborted := by
  rcases h z with he | ⟨hr, _⟩
  · rw [he, hz]
  · rw [hr] at hz
    cases hz

theorem EndsOnly.live (h : s.EndsOnly s') {t : StoredRow} (ht : s'.Live t) : s.Live t :=
  fun hab => ht (h.aborted hab)

theorem EndsOnly.alone (h : s.EndsOnly s') (htuples : s'.tuples = s.tuples) (ha : s.Alone x) :
    s'.Alone x := by
  intro t ht
  rw [htuples] at ht
  rcases ha t ht with hown | hrun
  · exact Or.inl hown
  · right
    rcases h t.xmin with he | ⟨_, he⟩
    · rw [he]
      exact hrun
    · exact he

/-- Transactions that end take nothing from those that are in a call. -/
theorem PointInv.of_endsOnly {p : CallPoint} (h : s.PointInv x p) (hends : s.EndsOnly s')
    (htuples : s'.tuples = s.tuples) : s'.PointInv x p := by
  cases p with
  | missed sigkey sigsrc =>
    exact ⟨hends.alone htuples h.1,
      fun t ht hl => h.2 t (by rw [← htuples]; exact ht) (hends.live hl)⟩
  | picked sigkey sigsrc lamsigid =>
    exact ⟨⟨hends.alone htuples h.1.1,
        fun t ht hl => h.1.2 t (by rw [← htuples]; exact ht) (hends.live hl)⟩,
      fun t ht hl => h.2.1 t (by rw [← htuples]; exact ht) (hends.live hl), h.2.2⟩
  | _ => trivial

/-- Dead rows do not count. -/
theorem Inv.rollback (h : s.Inv) (hrun : s.status x = .running) : (s.rollback x).Inv := by
  have hends : s.EndsOnly (s.rollback x) :=
    .of_update hrun (show XactStatus.aborted ≠ .running by decide) rfl
  refine
    { holds := fun y hy => ?_
      range := h.range
      ids := fun t ht t' ht' hl hl' => h.ids t ht t' ht' (hends.live hl) (hends.live hl')
      points := fun y => ?_
      picks := fun p hp => ?_
      violations := h.violations }
  · by_cases hyx : y = x
    · exact absurd (by rw [hyx]; exact update_self ..) hy
    · have hpt : s.point y ≠ .outside := by
        intro he
        exact hy ((update_of_ne hyx ..).trans he)
      obtain ⟨hlock, hst⟩ := h.holds y hpt
      refine ⟨?_, (update_of_ne hyx ..).trans hst⟩
      show (if s.lock = some x then none else s.lock) = some y
      rw [if_neg, hlock]
      rw [hlock]
      exact fun he => hyx (Option.some.inj he)
  · by_cases hyx : y = x
    · rw [hyx]
      show PointInv _ x (update s.point x _ x)
      rw [update_self]
      trivial
    · show PointInv _ y (update s.point x _ y)
      rw [update_of_ne hyx]
      exact (h.points y).of_endsOnly hends rfl
  · by_cases hpx : p.xid = x
    · left
      rw [hpx]
      exact update_self ..
    · refine (h.picks p hp).mono (fun ha => (update_of_ne hpx ..).trans ha)
        (fun _ ht => ht) fun sigsrc hpt => ?_
      exact Or.inr (Or.inl ⟨sigsrc, (update_of_ne hpx ..).trans hpt⟩)

theorem Inv.commit (h : s.Inv) (hrun : s.status x = .running) (hout : s.point x = .outside) :
    Inv { s with status := update s.status x .committed } := by
  have hends : s.EndsOnly { s with status := update s.status x .committed } :=
    .of_update hrun (show XactStatus.committed ≠ .running by decide) rfl
  refine
    { holds := fun y hy => ?_
      range := h.range
      ids := fun t ht t' ht' hl hl' => h.ids t ht t' ht' (hends.live hl) (hends.live hl')
      points := fun y => (h.points y).of_endsOnly hends rfl
      picks := fun p hp => (h.picks p hp).mono hends.aborted (fun _ ht => ht)
        fun sigsrc hpt => Or.inr (Or.inl ⟨sigsrc, hpt⟩)
      violations := h.violations }
  have hyx : y ≠ x := by
    intro he
    rw [he] at hy
    exact hy hout
  obtain ⟨hlock, hst⟩ := h.holds y hy
  exact ⟨hlock, (update_of_ne hyx ..).trans hst⟩

/-- A transaction that is alone sees every row that was not rolled back. -/
theorem Alone.visible (h : s.Alone x) {t : StoredRow} (ht : t ∈ s.tuples) (hl : s.Live t) :
    t.row ∈ s.visible x := by
  refine List.mem_map.mpr ⟨t, List.mem_filter.mpr ⟨ht, ?_⟩, rfl⟩
  rw [decide_eq_true_eq]
  rcases h t ht with hown | hrun
  · exact Or.inl hown
  · right
    cases hst : s.status t.xmin with
    | running => exact absurd hst hrun
    | committed => rfl
    | aborted => exact absurd hst hl

theorem Inv.visible_range (h : s.Inv) {r : LambdaSigRow} (hr : r ∈ s.visible x) :
    0 ≤ r.lamsigid ∧ r.lamsigid ≤ PG_INT32_MAX := by
  obtain ⟨t, ht, rfl⟩ := List.mem_map.mp hr
  exact h.range t (List.mem_filter.mp ht).1

/-- A miss means that no live row has the key: the caller is alone. -/
theorem Inv.lookup (h : s.Inv) (hx : s.point x = .opened sigkey sigsrc)
    (hsep : s.separated (.lookup x) = true) (hs : s.step (.lookup x) = some s') : s'.Inv := by
  have hne : s.point x ≠ .outside := by rw [hx]; simp
  have hpicks : ∀ p : CallPoint, ∀ q ∈ s.picks, (s.goTo x p).PickInv q := by
    intro p q hq
    refine h.picks_goTo (s.goTo x p) x ?_ rfl rfl (fun y hy => update_of_ne hy ..) hq
    rw [hx]
    simp
  simp only [CatalogState.step, hx] at hs
  simp only [separated, hx, Bool.or_eq_true, decide_eq_true_eq, List.all_eq_true] at hsep
  by_cases hfound : lambdaSigLookupTypmodByKeyInRelation (s.visible x) sigkey ≥ 0
  · rw [if_pos hfound] at hs
    cases hs
    exact h.move hne rfl rfl rfl rfl rfl trivial (hpicks _)
  · rw [if_neg hfound] at hs
    cases hs
    have halone : s.Alone x := hsep.resolve_left hfound
    refine h.move hne rfl rfl rfl rfl rfl ⟨halone, fun t ht hl hkey => ?_⟩ (hpicks _)
    -- the row would have been found, under an id that is not negative
    cases hfind : (s.visible x).find? fun r => r.lamsigkey = sigkey with
    | none => exact (lookup_none hfind).2 t.row (halone.visible ht hl) hkey
    | some r =>
      obtain ⟨hid, hr, _⟩ := lookup_some hfind
      rw [hid] at hfound
      exact hfound (h.visible_range hr).1

/-- The id picked is beyond those of all live rows. -/
theorem Inv.allocate (h : s.Inv) (hx : s.point x = .missed sigkey sigsrc)
    (hs : s.step (.allocate x) = some s') : s'.Inv := by
  have hne : s.point x ≠ .outside := by rw [hx]; simp
  have hpt := h.points x
  rw [hx] at hpt
  simp only [CatalogState.step, hx] at hs
  by_cases hmax : maxLamsigid (s.visible x) = PG_INT32_MAX
  · rw [lambdaSigAllocateTypmod, if_pos hmax] at hs
    cases hs
    exact h.rollback (h.holds x hne).2
  · obtain ⟨halloc, hlt, hrange⟩ :=
      lambdaSigAllocateTypmod_ok (fun r hr => (h.visible_range hr).2) hmax
    rw [halloc] at hs
    cases hs
    refine h.move hne rfl rfl rfl rfl rfl ⟨hpt, fun t ht hl => ?_, hrange⟩ ?_
    · exact (hlt t.row (hpt.1.visible ht hl)).ne
    · intro q hq
      rcases List.mem_append.mp hq with hq | hq
      · refine h.picks_goTo
          { s.goTo x (.picked sigkey sigsrc (maxLamsigid (s.visible x) + 1)) with
            picks := s.picks ++ [⟨x, sigkey, maxLamsigid (s.visible x) + 1⟩] }
          x ?_ rfl rfl (fun y hy => update_of_ne hy ..) hq
        rw [hx]
        simp
      · rw [List.mem_singleton.mp hq]
        exact Or.inr (Or.inl ⟨sigsrc, update_self ..⟩)

/-- A duplicate is a row of the transaction itself or a committed one. -/
theorem uniqueCheck_duplicate {same : LambdaSigRow → Bool} (h : s.uniqueCheck x same = .duplicate) :
    ∃ t ∈ s.tuples, same t.row = true ∧ (t.xmin = x ∨ s.status t.xmin = .committed) := by
  unfold uniqueCheck at h
  split at h
  · next hany =>
    obtain ⟨t, ht, hsame⟩ := List.any_eq_true.mp hany
    rw [Bool.and_eq_true, decide_eq_true_eq] at hsame
    exact ⟨t, ht, hsame⟩
  · split at h
    · cases h
    · cases h

/-- What no row that was not rolled back has is no duplicate. -/
theorem uniqueCheck_ne (same : LambdaSigRow → Bool) (hrun : s.status x = .running)
    (hsame : ∀ t ∈ s.tuples, s.Live t → same t.row ≠ true) :
    s.uniqueCheck x same ≠ .duplicate := by
  intro hdup
  obtain ⟨t, ht, heq, hown⟩ := uniqueCheck_duplicate hdup
  refine hsame t ht (fun hab => ?_) heq
  rcases hown with hown | hown
  · rw [hown, hrun] at hab
    cases hab
  · rw [hown] at hab
    cases hab

/-- The id and the key were free when they were picked, and nobody came between. -/
theorem Inv.insertRow (h : s.Inv) (row : LambdaSigRow)
    (hx : s.point x = .picked row.lamsigkey row.lamsigsrc row.lamsigid)
    (hs : s.insertRow x row = some s') : s'.Inv := by
  have hne : s.point x ≠ .outside := by rw [hx]; simp
  have hrun := (h.holds x hne).2
  have hpt := h.points x
  rw [hx] at hpt
  obtain ⟨⟨_, hkeys⟩, hids, hrange⟩ := hpt
  have hid := uniqueCheck_ne (fun r => r.lamsigid = row.lamsigid) hrun
    fun t ht hl heq => hids t ht hl (of_decide_eq_true heq)
  have hkey := uniqueCheck_ne (fun r => r.lamsigkey = row.lamsigkey) hrun
    fun t ht hl heq => hkeys t ht hl (of_decide_eq_true heq)
  unfold CatalogState.insertRow at hs
  split at hs
  · cases hs
  · next hdup => exact absurd hdup hid
  · split at hs
    · cases hs
    · next hdup => exact absurd hdup hkey
    · cases hs
      have houtside : ∀ y, y ≠ x → (s.goTo x (.closing row.lamsigid)).point y = .outside := by
        intro y hy
        exact (update_of_ne hy ..).trans (h.others_outside hne hy)
      -- the new row has the id and the key that no live row has
      refine
        { holds := fun y hy => ?_
          range := fun t ht => ?_
          ids := fun t ht t' ht' hl hl' heq => ?_
          points := fun y => ?_
          picks := fun p hp => ?_
          violations := h.violations }
      · by_cases hyx : y = x
        · rw [hyx]
          exact h.holds x hne
        · exact absurd (houtside y hyx) hy
      · rcases List.mem_append.mp ht with ht | ht
        · exact h.range t ht
        · rw [List.mem_singleton.mp ht]
          exact hrange
      · rcases List.mem_append.mp ht with ht | ht <;> rcases List.mem_append.mp ht' with ht' | ht'
        · exact h.ids t ht t' ht' hl hl' heq
        · rw [List.mem_singleton.mp ht'] at heq
          exact absurd heq (hids t ht hl)
        · rw [List.mem_singleton.mp ht] at heq
          exact absurd heq.symm (hids t' ht' hl')
        · rw [List.mem_singleton.mp ht, List.mem_singleton.mp ht']
      · refine pointInv_of_outside (x := x) ?_ ?_ y
        · show PointInv _ x (update s.point x _ x)
          rw [update_self]
          trivial
        · exact houtside
      · refine (h.picks p hp).mono (fun ha => ha) (fun t ht => List.mem_append_left _ ht)
          fun sigsrc hpicked => ?_
        by_cases hpx : p.xid = x
        · rw [hpx, hx] at hpicked
          injection hpicked with hk _ hi
          exact Or.inr (Or.inr ⟨⟨x, row⟩, by simp, hpx.symm, hi, hk⟩)
        · rw [h.others_outside hne hpx] at hpicked
          cases hpicked

/-- **One step** of a run in which every call that misses its key is alone. -/
theorem Inv.step {a : CatalogAction} (h : s.Inv) (hsep : s.separated a = true)
    (hs : s.step a = some s') : s'.Inv := by
  cases a with
  | openTable x sigkey sigsrc =>
    rw [CatalogState.step] at hs
    split at hs
    · next hok =>
      cases hs
      exact h.openTable hok.1 hok.2.1 hok.2.2
    · cases hs
  | lookup x =>
    cases hx : s.point x with
    | opened sigkey sigsrc => exact h.lookup hx hsep hs
    | _ => simp [CatalogState.step, hx] at hs
  | allocate x =>
    cases hx : s.point x with
    | missed sigkey sigsrc => exact h.allocate hx hs
    | _ => simp [CatalogState.step, hx] at hs
  | insert x oid =>
    cases hx : s.point x with
    | picked sigkey sigsrc lamsigid =>
      simp only [CatalogState.step, hx] at hs
      split at hs
      · cases hs
      · exact h.insertRow ⟨oid, lamsigid, sigkey, sigsrc⟩ hx hs
    | _ => simp [CatalogState.step, hx] at hs
  | closeTable x =>
    cases hx : s.point x with
    | closing lamsigid =>
      simp only [CatalogState.step, hx] at hs
      cases hs
      exact h.closeTable hx
    | _ => simp [CatalogState.step, hx] at hs
  | commit x =>
    rw [CatalogState.step] at hs
    split at hs
    · next hok =>
      cases hs
      exact h.commit hok.1 hok.2
    · cases hs
  | abort x =>
    rw [CatalogState.step] at hs
    split at hs
    · next hok =>
      cases hs
      exact h.rollback hok
    · cases hs

end Steps

/-- Two calls that picked one id, neither rolled back, picked it for one key. -/
theorem Inv.pick_unique {s : CatalogState} (h : s.Inv) {p q : Pick} (hp : p ∈ s.picks)
    (hq : q ∈ s.picks) (hpa : s.status p.xid ≠ .aborted) (hqa : s.status q.xid ≠ .aborted)
    (hid : p.lamsigid = q.lamsigid) : p.sigkey = q.sigkey := by
  -- a row against an id about to be inserted
  have hmixed : ∀ {p q : Pick}, p.lamsigid = q.lamsigid → s.status p.xid ≠ .aborted →
      (∃ t ∈ s.tuples, t.xmin = p.xid ∧ t.row.lamsigid = p.lamsigid ∧
        t.row.lamsigkey = p.sigkey) →
      (∃ sigsrc, s.point q.xid = .picked q.sigkey sigsrc q.lamsigid) → False := by
    intro p q hid hpa ⟨t, ht, hx, hi, _⟩ ⟨sigsrc, hpt⟩
    have hq := h.points q.xid
    rw [hpt] at hq
    refine hq.2.1 t ht ?_ (by rw [hi, hid])
    unfold Live
    rw [hx]
    exact hpa
  rcases h.picks p hp with hab | hpt | htup
  · exact absurd hab hpa
  · rcases h.picks q hq with hab | hpt' | htup'
    · exact absurd hab hqa
    · obtain ⟨sigsrc, hpt⟩ := hpt
      obtain ⟨sigsrc', hpt'⟩ := hpt'
      have hsame : q.xid = p.xid := by
        by_contra hne
        rw [h.others_outside (by rw [hpt]; simp) hne] at hpt'
        cases hpt'
      rw [hsame, hpt] at hpt'
      injection hpt'
    · exact (hmixed hid.symm hqa htup' hpt).elim
  · rcases h.picks q hq with hab | hpt' | htup'
    · exact absurd hab hqa
    · exact (hmixed hid hpa htup hpt').elim
    · obtain ⟨t, ht, hx, hi, hk⟩ := htup
      obtain ⟨t', ht', hx', hi', hk'⟩ := htup'
      rw [← hk, ← hk']
      refine h.ids t ht t' ht' ?_ ?_ (by rw [hi, hi', hid])
      · unfold Live
        rw [hx]
        exact hpa
      · unfold Live
        rw [hx']
        exact hqa

/-- The invariant holds in every state of a separated run. -/
theorem inv_of_separated {s : CatalogState}
    (h : Reachable step (fun s a => s.separated a = true) initial s) : s.Inv :=
  h.invariant inv_initial fun _ _ _ hi hsep hs => hi.step hsep hs

/-- **Creation without collisions.** In every state of every run in which a call
misses its key only while no other transaction in progress has rows in the
table, no insertion has raised a unique violation, and no two calls have picked
one id for two keys, unless one of them was rolled back. -/
theorem separated_run_collisionFree {s : CatalogState}
    (h : Reachable step (fun s a => s.separated a = true) initial s) :
    s.violations = [] ∧
      ∀ p ∈ s.picks, ∀ q ∈ s.picks, p.lamsigid = q.lamsigid → p.sigkey ≠ q.sigkey →
        s.status p.xid = .aborted ∨ s.status q.xid = .aborted := by
  have hinv := inv_of_separated h
  refine ⟨hinv.violations, fun p hp q hq hid hkey => ?_⟩
  by_contra hne
  rw [not_or] at hne
  exact hkey (hinv.pick_unique hp hq hne.1 hne.2 hid)

/-- Without rollbacks, an id that is picked twice is picked for one key. -/
theorem sigkey_eq_of_separated {s : CatalogState}
    (h : Reachable step (fun s a => s.separated a = true) initial s)
    (hno : ∀ x, s.status x ≠ .aborted) {p q : Pick} (hp : p ∈ s.picks) (hq : q ∈ s.picks)
    (hid : p.lamsigid = q.lamsigid) : p.sigkey = q.sigkey :=
  (inv_of_separated h).pick_unique hp hq (hno p.xid) (hno q.xid) hid

/-- A whole call of transaction `x`. -/
def createCall (x : Nat) (sigkey : String) (oid : Oid) : List CatalogAction :=
  [.openTable x sigkey.toList sigkey, .lookup x, .allocate x, .insert x oid, .closeTable x]

/-- Two transactions one after the other. -/
def serialCalls : List CatalogAction :=
  createCall 1 "()->23" 100 ++ [.commit 1] ++ createCall 2 "()->25" 101 ++ [.commit 2]

theorem separated_run_collisionFree_serial :
    ∃ s, runActions step separated serialCalls initial = some s ∧
      s.picks = [⟨1, "()->23".toList, 0⟩, ⟨2, "()->25".toList, 1⟩] ∧ s.violations = [] := by
  have hrun : ∃ s, runActions step separated serialCalls initial = some s ∧
      s.picks = [⟨1, "()->23".toList, 0⟩, ⟨2, "()->25".toList, 1⟩] := ⟨_, rfl, by decide⟩
  obtain ⟨s, hs, hpicks⟩ := hrun
  exact ⟨s, hs, hpicks, (separated_run_collisionFree (reachable_of_run .init hs)).1⟩

/-- **An uncommitted row collides.** Transaction 1 has inserted its row and
released the lock, but not committed. Transaction 2 does not see the row, picks
the same id for another key, waits, and raises when transaction 1 commits. -/
theorem uncommitted_row_collides :
    ∃ s, runActions step (fun _ _ => true)
        (createCall 1 "()->23" 100 ++
          [.openTable 2 "()->25".toList "()->25", .lookup 2, .allocate 2, .commit 1,
            .insert 2 101]) initial = some s ∧
      s.picks = [⟨1, "()->23".toList, 0⟩, ⟨2, "()->25".toList, 0⟩] ∧ s.violations = [2] :=
  ⟨_, rfl, by decide, by decide⟩

end CatalogState

end HolLambdas.Catalog
