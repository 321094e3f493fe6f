import HolLambdas.Catalog.SigKey
import HolLambdas.MachineInt
import Mathlib.Data.Finset.Card
import Mathlib.Data.Int.Interval

/-!
# Interning signatures in `pg_lambdasig`

A lambda column's typmod is the `lamsigid` of its signature's row. A signature
is entered on first use: validate it, look its key up, and if there is no row
for the key yet add one under `max(lamsigid) + 1`. Rows are never changed or
removed, so a typmod handed out keeps its meaning.

`SigTable` is what every state of one session satisfies, `create_cases` says
what one call can do, and `sessionInv_session` carries the invariant through a
session. The main result, `lambdaSig_interning`, collects what a user of typmods
relies on: they name signatures one to one, and they can be resolved.

The unique indexes of the table are part of the model: an insertion that would
duplicate an OID, an id or a key raises. That it never comes to that is a
consequence, not an assumption. For the OIDs it needs a count: there are at
most 2^31 rows, so a new OID can always be found. What can happen is that a row
is refused because it is too long: the table has no toast table, and the index
on the keys takes a third of a page for each. Which rows these are is a matter
of their compressed size, and a parameter here (`CatalogStorage`).
-/

namespace HolLambdas.Catalog

/-- A row of `pg_lambdasig`. -/
structure LambdaSigRow where
  oid : Oid
  lamsigid : Int
  lamsigkey : List Char
  lamsigsrc : String
deriving DecidableEq, Repr

/-- What the storage layer decides. -/
structure CatalogStorage where
  /-- `GetNewOidWithIndex`: an OID that is not in the index, while there is one. -/
  next : List Oid → Oid
  fresh : ∀ used : List Oid, used.length < 2 ^ 32 → next used ∉ used
  /-- The tuple fits a page of the table. -/
  rowFits : LambdaSigRow → Bool
  /-- The index tuple of a key fits a third of a page, `_bt_check_third_page`. -/
  keyFits : List Char → Bool

def CatalogStorage.fits (storage : CatalogStorage) (row : LambdaSigRow) : Bool :=
  storage.rowFits row && storage.keyFits row.lamsigkey

/-! ## The functions -/

/-- `LambdaSigLookupTypmodByKeyInRelation`: -1 if there is no row. -/
def lambdaSigLookupTypmodByKeyInRelation (rows : List LambdaSigRow) (sigkey : List Char) : Int :=
  match rows.find? fun r => r.lamsigkey = sigkey with
  | some r => r.lamsigid
  | none => -1

/-- The scan of `LambdaSigAllocateTypmod`. -/
def maxLamsigid (rows : List LambdaSigRow) : Int :=
  rows.foldl (fun maxid r => if r.lamsigid > maxid then r.lamsigid else maxid) (-1)

/-- `LambdaSigAllocateTypmod`. -/
def lambdaSigAllocateTypmod (rows : List LambdaSigRow) : Except SigError Int :=
  if maxLamsigid rows = PG_INT32_MAX then .error .tooMany
  else .ok (wrap32 (maxLamsigid rows + 1))

/-- `CatalogTupleInsert` into a table with its three unique indexes. -/
def catalogTupleInsert (storage : CatalogStorage) (rows : List LambdaSigRow)
    (row : LambdaSigRow) : Except SigError (List LambdaSigRow) :=
  if storage.rowFits row = false then .error .rowTooBig
  else if rows.any fun r => r.oid = row.oid then .error (.uniqueViolation "pg_lambdasig_oid_index")
  else if rows.any fun r => r.lamsigid = row.lamsigid then
    .error (.uniqueViolation "pg_lambdasig_sigid_index")
  else if rows.any fun r => r.lamsigkey = row.lamsigkey then
    .error (.uniqueViolation "pg_lambdasig_key_index")
  else if storage.keyFits row.lamsigkey = false then .error .indexRowSize
  else .ok (rows ++ [row])

section Functions

variable (pgType : Oid → Option PgType) (formatType : Oid → String) (storage : CatalogStorage)

/-- `LambdaSigCreate`: the typmod, and the table afterwards. -/
def lambdaSigCreate (rows : List LambdaSigRow) (sigkey : List Char) (sigsrc : String) :
    Except SigError (Int × List LambdaSigRow) :=
  if lambdaSigLookupTypmodByKeyInRelation rows sigkey ≥ 0 then
    .ok (lambdaSigLookupTypmodByKeyInRelation rows sigkey, rows)
  else do
    let lamsigid ← lambdaSigAllocateTypmod rows
    let oid := storage.next (rows.map LambdaSigRow.oid)
    let row := { oid, lamsigid, lamsigkey := sigkey, lamsigsrc := sigsrc }
    let rows' ← catalogTupleInsert storage rows row
    return (lamsigid, rows')

/-- `LambdaSigCreateFromSignature`. -/
def lambdaSigCreateFromSignature (rows : List LambdaSigRow) (sig : LambdaSignature) :
    Except SigError (Int × List LambdaSigRow) := do
  lambdaSigValidateSignature pgType sig
  lambdaSigCreate storage rows (lambdaSigAppendKey sig) (lambdaSigAppendSource formatType sig)

/-- `LambdaSigGetSignature`. -/
def lambdaSigGetSignature (rows : List LambdaSigRow) (typmod : Int) :
    Except SigError LambdaSignature :=
  if typmod < 0 then .error (.noStoredSignature typmod)
  else
    match rows.find? fun r => r.lamsigid = typmod with
    | none => .error (.lookupFailed typmod)
    | some r => lambdaSigParseKey r.lamsigkey (some r.lamsigsrc) pgType

/-- A session: the table, and the calls that returned with their typmods. -/
structure Session where
  rows : List LambdaSigRow
  returned : List (LambdaSignature × Int)

/-- One call in a session. A call that raises changes nothing. -/
def Session.call (s : Session) (sig : LambdaSignature) : Session :=
  match lambdaSigCreateFromSignature pgType formatType storage s.rows sig with
  | .ok r => { rows := r.2, returned := s.returned ++ [(sig, r.1)] }
  | .error _ => s

/-- A session that starts with an empty table. -/
def lambdaSigSession (calls : List LambdaSignature) : Session :=
  calls.foldl (Session.call pgType formatType storage) { rows := [], returned := [] }

end Functions

/-! ## One call -/

/-- What holds of the table in every state of a session. -/
structure SigTable (pgType : Oid → Option PgType) (rows : List LambdaSigRow) : Prop where
  oids : (rows.map LambdaSigRow.oid).Nodup
  ids : (rows.map LambdaSigRow.lamsigid).Nodup
  range : ∀ r ∈ rows, 0 ≤ r.lamsigid ∧ r.lamsigid ≤ PG_INT32_MAX
  keys : (rows.map LambdaSigRow.lamsigkey).Nodup
  valid : ∀ r ∈ rows, ∃ sig, r.lamsigkey = lambdaSigAppendKey sig ∧
    lambdaSigValidateSignature pgType sig = .ok ()

theorem sigTable_nil (pgType : Oid → Option PgType) : SigTable pgType [] where
  oids := List.nodup_nil
  ids := List.nodup_nil
  range r h := by cases h
  keys := List.nodup_nil
  valid r h := by cases h

/-- The scan finds the greatest id. -/
theorem scan_spec (rows : List LambdaSigRow) (start : Int) :
    let m := rows.foldl (fun maxid r => if r.lamsigid > maxid then r.lamsigid else maxid) start
    (∀ r ∈ rows, r.lamsigid ≤ m) ∧ start ≤ m ∧ (m = start ∨ ∃ r ∈ rows, r.lamsigid = m) := by
  induction rows generalizing start with
  | nil => exact ⟨by simp, Int.le_refl _, Or.inl rfl⟩
  | cons r rows ih =>
    obtain ⟨hle, hstart, hmem⟩ := ih (if r.lamsigid > start then r.lamsigid else start)
    dsimp only [List.foldl_cons] at hle hstart hmem ⊢
    by_cases h : r.lamsigid > start
    · rw [if_pos h] at hle hstart hmem ⊢
      refine ⟨fun x hx => ?_, by omega, Or.inr ?_⟩
      · rcases List.mem_cons.mp hx with rfl | hx
        · exact hstart
        · exact hle x hx
      · rcases hmem with hmem | ⟨x, hx, hmem⟩
        · exact ⟨r, List.mem_cons_self, hmem.symm⟩
        · exact ⟨x, List.mem_cons_of_mem _ hx, hmem⟩
    · rw [if_neg h] at hle hstart hmem ⊢
      refine ⟨fun x hx => ?_, hstart, ?_⟩
      · rcases List.mem_cons.mp hx with rfl | hx
        · omega
        · exact hle x hx
      · rcases hmem with hmem | ⟨x, hx, hmem⟩
        · exact Or.inl hmem
        · exact Or.inr ⟨x, List.mem_cons_of_mem _ hx, hmem⟩

/-- The scan returns an upper bound of the ids, and one of them or -1. -/
theorem maxLamsigid_spec (rows : List LambdaSigRow) :
    (∀ r ∈ rows, r.lamsigid ≤ maxLamsigid rows) ∧ -1 ≤ maxLamsigid rows ∧
      (maxLamsigid rows = -1 ∨ ∃ r ∈ rows, r.lamsigid = maxLamsigid rows) :=
  scan_spec rows (-1)

/-- Unless the last id is taken, the next one is above all others and does not wrap
around. -/
theorem lambdaSigAllocateTypmod_ok {rows : List LambdaSigRow}
    (hrange : ∀ r ∈ rows, r.lamsigid ≤ PG_INT32_MAX) (hmax : maxLamsigid rows ≠ PG_INT32_MAX) :
    lambdaSigAllocateTypmod rows = .ok (maxLamsigid rows + 1) ∧
      (∀ r ∈ rows, r.lamsigid < maxLamsigid rows + 1) ∧
      0 ≤ maxLamsigid rows + 1 ∧ maxLamsigid rows + 1 ≤ PG_INT32_MAX := by
  obtain ⟨hle, hlow, hmem⟩ := maxLamsigid_spec rows
  have hbound : maxLamsigid rows ≤ PG_INT32_MAX := by
    rcases hmem with hm | ⟨r, hr, hm⟩
    · rw [hm]
      decide
    · rw [← hm]
      exact hrange r hr
  refine ⟨?_, fun r hr => Int.lt_add_one_of_le (hle r hr), by omega, by omega⟩
  rw [lambdaSigAllocateTypmod, if_neg hmax, wrap32_of_isInt32 ⟨by omega, by omega⟩]

section OneCall

variable {pgType : Oid → Option PgType} {formatType : Oid → String} {storage : CatalogStorage}
variable {rows : List LambdaSigRow}

/-- There are at most as many rows as ids. -/
theorem SigTable.length_le (h : SigTable pgType rows) : rows.length ≤ 2 ^ 31 := by
  have hsub : (rows.map LambdaSigRow.lamsigid).toFinset ⊆ Finset.Icc 0 PG_INT32_MAX := by
    intro t ht
    obtain ⟨r, hr, rfl⟩ := List.mem_map.mp (List.mem_toFinset.mp ht)
    exact Finset.mem_Icc.mpr (h.range r hr)
  have hcard := Finset.card_le_card hsub
  rw [List.toFinset_card_of_nodup h.ids, List.length_map, Int.card_Icc] at hcard
  exact hcard

theorem lookup_some {sigkey : List Char} {r : LambdaSigRow}
    (h : rows.find? (fun r => r.lamsigkey = sigkey) = some r) :
    lambdaSigLookupTypmodByKeyInRelation rows sigkey = r.lamsigid ∧ r ∈ rows ∧
      r.lamsigkey = sigkey := by
  refine ⟨?_, List.mem_of_find?_eq_some h, by simpa using List.find?_some h⟩
  rw [lambdaSigLookupTypmodByKeyInRelation, h]

theorem lookup_none {sigkey : List Char} (h : rows.find? (fun r => r.lamsigkey = sigkey) = none) :
    lambdaSigLookupTypmodByKeyInRelation rows sigkey = -1 ∧
      ∀ r ∈ rows, r.lamsigkey ≠ sigkey := by
  refine ⟨?_, fun r hr => by simpa using List.find?_eq_none.mp h r hr⟩
  rw [lambdaSigLookupTypmodByKeyInRelation, h]

variable (storage) in
/-- A row that is new in all three indexes is entered, unless it is too long. -/
theorem catalogTupleInsert_fresh (row : LambdaSigRow) (hoid : row.oid ∉ rows.map LambdaSigRow.oid)
    (hid : row.lamsigid ∉ rows.map LambdaSigRow.lamsigid)
    (hkey : row.lamsigkey ∉ rows.map LambdaSigRow.lamsigkey) :
    catalogTupleInsert storage rows row = .ok (rows ++ [row]) ∨
      storage.fits row = false ∧ ∃ e, (e = .rowTooBig ∨ e = .indexRowSize) ∧
        catalogTupleInsert storage rows row = .error e := by
  have hany : ∀ {α : Type} [DecidableEq α] (f : LambdaSigRow → α), f row ∉ rows.map f →
      (rows.any fun r => f r = f row) = false := by
    intro α _ f hf
    rw [List.any_eq_false]
    intro r hr h
    exact hf (List.mem_map.mpr ⟨r, hr, of_decide_eq_true h⟩)
  cases hrow : storage.rowFits row <;> cases hindex : storage.keyFits row.lamsigkey <;>
    simp [catalogTupleInsert, CatalogStorage.fits, hrow, hindex, hany _ hoid, hany _ hid,
      hany _ hkey]

variable (h : SigTable pgType rows)

include h

/-- A row with a new OID, id and key. -/
theorem SigTable.append {row : LambdaSigRow} {sig : LambdaSignature}
    (hoid : row.oid ∉ rows.map LambdaSigRow.oid)
    (hid : row.lamsigid ∉ rows.map LambdaSigRow.lamsigid)
    (hrange : 0 ≤ row.lamsigid ∧ row.lamsigid ≤ PG_INT32_MAX)
    (hkey : row.lamsigkey ∉ rows.map LambdaSigRow.lamsigkey)
    (hsig : row.lamsigkey = lambdaSigAppendKey sig)
    (hvalid : lambdaSigValidateSignature pgType sig = .ok ()) :
    SigTable pgType (rows ++ [row]) := by
  have hnodup : ∀ {α : Type} (f : LambdaSigRow → α), (rows.map f).Nodup → f row ∉ rows.map f →
      ((rows ++ [row]).map f).Nodup := by
    intro α f hn hf
    rw [List.map_append]
    exact hn.append (List.nodup_singleton _) (by simpa using hf)
  exact
    { oids := hnodup _ h.oids hoid
      ids := hnodup _ h.ids hid
      range := fun r hr => by
        rcases List.mem_append.mp hr with hr | hr
        · exact h.range r hr
        · rw [List.mem_singleton.mp hr]
          exact hrange
      keys := hnodup _ h.keys hkey
      valid := fun r hr => by
        rcases List.mem_append.mp hr with hr | hr
        · exact h.valid r hr
        · rw [List.mem_singleton.mp hr]
          exact ⟨sig, hsig, hvalid⟩ }

variable (storage) in
/-- A valid signature whose key is not in the table, and ids left: it gets a row
of its own, unless that is too long. -/
theorem lambdaSigCreate_new {sig : LambdaSignature} (sigsrc : String)
    (hvalid : lambdaSigValidateSignature pgType sig = .ok ())
    (hfind : (rows.find? fun r => r.lamsigkey = lambdaSigAppendKey sig) = none)
    (hmax : maxLamsigid rows ≠ PG_INT32_MAX) :
    ∃ row, (row.lamsigkey = lambdaSigAppendKey sig ∧ row.lamsigsrc = sigsrc) ∧
      SigTable pgType (rows ++ [row]) ∧
      (lambdaSigCreate storage rows (lambdaSigAppendKey sig) sigsrc =
          .ok (row.lamsigid, rows ++ [row]) ∨
        storage.fits row = false ∧ ∃ e, (e = .rowTooBig ∨ e = .indexRowSize) ∧
          lambdaSigCreate storage rows (lambdaSigAppendKey sig) sigsrc = .error e) := by
  obtain ⟨hlookup, hnew⟩ := lookup_none hfind
  obtain ⟨halloc, hlt, hrange⟩ := lambdaSigAllocateTypmod_ok (fun r hr => (h.range r hr).2) hmax
  have hoid : storage.next (rows.map LambdaSigRow.oid) ∉ rows.map LambdaSigRow.oid := by
    apply storage.fresh
    have := h.length_le
    rw [List.length_map]
    omega
  have hid : maxLamsigid rows + 1 ∉ rows.map LambdaSigRow.lamsigid := by
    intro hin
    obtain ⟨r, hr, heq⟩ := List.mem_map.mp hin
    exact absurd heq (hlt r hr).ne
  have hkey : lambdaSigAppendKey sig ∉ rows.map LambdaSigRow.lamsigkey := by
    intro hin
    obtain ⟨r, hr, heq⟩ := List.mem_map.mp hin
    exact hnew r hr heq
  let row : LambdaSigRow := ⟨storage.next (rows.map LambdaSigRow.oid), maxLamsigid rows + 1,
    lambdaSigAppendKey sig, sigsrc⟩
  refine ⟨row, ⟨rfl, rfl⟩, h.append hoid hid hrange hkey rfl hvalid, ?_⟩
  rw [lambdaSigCreate, hlookup, if_neg (by decide), halloc, ok_bind]
  dsimp only
  rcases catalogTupleInsert_fresh storage row hoid hid hkey with
    hok | ⟨hfits, e, he, herr⟩
  · rw [hok]
    exact .inl rfl
  · rw [herr]
    exact .inr ⟨hfits, e, he, rfl⟩

variable (formatType storage) in
/-- **One call.** It raises because the signature is invalid, because the last id is
taken, or because the row is too long; it returns the id of the row it finds; or it
returns the id of the row it adds. -/
theorem create_cases (sig : LambdaSignature) :
    (∃ e, lambdaSigCreateFromSignature pgType formatType storage rows sig = .error e ∧
        lambdaSigValidateSignature pgType sig = .error e) ∨
      (lambdaSigCreateFromSignature pgType formatType storage rows sig = .error .tooMany ∧
        ∃ r ∈ rows, r.lamsigid = PG_INT32_MAX) ∨
      (∃ e row, lambdaSigCreateFromSignature pgType formatType storage rows sig = .error e ∧
        (e = .rowTooBig ∨ e = .indexRowSize) ∧ row.lamsigkey = lambdaSigAppendKey sig ∧
        row.lamsigsrc = lambdaSigAppendSource formatType sig ∧ storage.fits row = false) ∨
      ∃ row rows', lambdaSigCreateFromSignature pgType formatType storage rows sig =
          .ok (row.lamsigid, rows') ∧
        lambdaSigValidateSignature pgType sig = .ok () ∧
        row.lamsigkey = lambdaSigAppendKey sig ∧ row ∈ rows' ∧
        (rows' = rows ∨ rows' = rows ++ [row]) ∧ SigTable pgType rows' := by
  unfold lambdaSigCreateFromSignature
  cases hvalid : lambdaSigValidateSignature pgType sig with
  | error e => exact Or.inl ⟨e, rfl, rfl⟩
  | ok u =>
    right
    rw [ok_bind]
    cases hfind : rows.find? fun r => r.lamsigkey = lambdaSigAppendKey sig with
    | some r =>
      obtain ⟨hid, hr, hkey⟩ := lookup_some hfind
      rw [lambdaSigCreate, hid, if_pos (h.range r hr).1]
      exact Or.inr (Or.inr ⟨r, rows, rfl, rfl, hkey, hr, Or.inl rfl, h⟩)
    | none =>
      by_cases hmax : maxLamsigid rows = PG_INT32_MAX
      · left
        refine ⟨?_, ?_⟩
        · rw [lambdaSigCreate, (lookup_none hfind).1, if_neg (by decide), lambdaSigAllocateTypmod,
            if_pos hmax]
          rfl
        · rcases (maxLamsigid_spec rows).2.2 with hm | ⟨r, hr, hm⟩
          · rw [hmax] at hm
            exact absurd hm (by decide)
          · exact ⟨r, hr, by rw [hm, hmax]⟩
      · right
        obtain ⟨row, ⟨hkey, hsrc⟩, htable, hcall | ⟨hfits, e, he, hcall⟩⟩ :=
          lambdaSigCreate_new storage h (lambdaSigAppendSource formatType sig) hvalid hfind hmax
        · exact Or.inr ⟨row, rows ++ [row], hcall, rfl, hkey, by simp, Or.inr rfl, htable⟩
        · exact Or.inl ⟨e, row, hcall, he, hkey, hsrc, hfits⟩

/-- A stored signature can be resolved by its id. -/
theorem lambdaSigGetSignature_row {r : LambdaSigRow} (hr : r ∈ rows) {sig : LambdaSignature}
    (hkey : r.lamsigkey = lambdaSigAppendKey sig)
    (hvalid : lambdaSigValidateSignature pgType sig = .ok ()) :
    lambdaSigGetSignature pgType rows r.lamsigid = .ok sig := by
  have hfind : (rows.find? fun x => x.lamsigid = r.lamsigid) = some r := by
    cases hf : rows.find? fun x => x.lamsigid = r.lamsigid with
    | none =>
      have := List.find?_eq_none.mp hf r hr
      simp at this
    | some x =>
      have hx : x.lamsigid = r.lamsigid := by simpa using List.find?_some hf
      rw [List.inj_on_of_nodup_map h.ids (List.mem_of_find?_eq_some hf) hr hx]
  rw [lambdaSigGetSignature, if_neg (by have := (h.range r hr).1; omega), hfind]
  dsimp only
  rw [hkey, lambdaSigParseKey_key, hvalid]
  rfl

end OneCall

/-! ## A session -/

section Sessions

variable (pgType : Oid → Option PgType) (formatType : Oid → String) (storage : CatalogStorage)

/-- The table is in order, and each call that returned has its row in it. -/
structure SessionInv (s : Session) : Prop where
  table : SigTable pgType s.rows
  returned : ∀ c ∈ s.returned, lambdaSigValidateSignature pgType c.1 = .ok () ∧
    ∃ r ∈ s.rows, r.lamsigid = c.2 ∧ r.lamsigkey = lambdaSigAppendKey c.1

/-- One call keeps the invariant. -/
theorem SessionInv.call {s : Session} (h : SessionInv pgType s) (sig : LambdaSignature) :
    SessionInv pgType (s.call pgType formatType storage sig) := by
  unfold Session.call
  rcases create_cases formatType storage h.table sig with
    ⟨e, he, _⟩ | ⟨he, _⟩ | ⟨e, _, he, _⟩ | ⟨row, rows', hcall, hvalid, hkey, hrow, hrows, htable⟩
  · rw [he]
    exact h
  · rw [he]
    exact h
  · rw [he]
    exact h
  · rw [hcall]
    refine ⟨htable, fun c hc => ?_⟩
    rcases List.mem_append.mp hc with hc | hc
    · obtain ⟨hv, r, hr, hid, hk⟩ := h.returned c hc
      have hr' : r ∈ rows' := by
        rcases hrows with rfl | rfl
        · exact hr
        · exact List.mem_append_left _ hr
      exact ⟨hv, r, hr', hid, hk⟩
    · rw [List.mem_singleton.mp hc]
      exact ⟨hvalid, row, hrow, rfl, hkey⟩

/-- Every session keeps it. -/
theorem sessionInv_session (calls : List LambdaSignature) :
    SessionInv pgType (lambdaSigSession pgType formatType storage calls) := by
  have hrun : ∀ s, SessionInv pgType s →
      SessionInv pgType (calls.foldl (Session.call pgType formatType storage) s) := by
    induction calls with
    | nil => intro s hs; exact hs
    | cons sig calls ih => intro s hs; exact ih _ (hs.call pgType formatType storage sig)
  exact hrun _ ⟨sigTable_nil pgType, fun c hc => by cases hc⟩

/-- In a session, two calls got one typmod exactly if their signatures are
equal. -/
theorem returned_eq_iff {s : Session} (h : SessionInv pgType s) {c c' : LambdaSignature × Int}
    (hc : c ∈ s.returned) (hc' : c' ∈ s.returned) : c.2 = c'.2 ↔ c.1 = c'.1 := by
  obtain ⟨_, r, hr, hid, hkey⟩ := h.returned c hc
  obtain ⟨_, r', hr', hid', hkey'⟩ := h.returned c' hc'
  constructor
  · intro heq
    have hsame : r = r' := List.inj_on_of_nodup_map h.table.ids hr hr' (by rw [hid, hid', heq])
    subst hsame
    rw [hkey] at hkey'
    exact lambdaSigAppendKey_injective hkey'
  · intro heq
    have hsame : r = r' := List.inj_on_of_nodup_map h.table.keys hr hr' (by rw [hkey, hkey', heq])
    rw [← hid, ← hid', hsame]

/-- **Interning is one to one and only grows.** After any session from an empty
table: ids are distinct and not negative, keys are distinct, typmods and
signatures of the calls correspond, and typmods resolve to their signatures. The
next call leaves the rows in place, and fails only on an invalid signature, when
the last id is taken, or when the row for the signature is too long. -/
theorem lambdaSig_interning (calls : List LambdaSignature) :
    ((lambdaSigSession pgType formatType storage calls).rows.map LambdaSigRow.lamsigid).Nodup ∧
      (∀ r ∈ (lambdaSigSession pgType formatType storage calls).rows, 0 ≤ r.lamsigid) ∧
      ((lambdaSigSession pgType formatType storage calls).rows.map LambdaSigRow.lamsigkey).Nodup ∧
      (∀ c ∈ (lambdaSigSession pgType formatType storage calls).returned,
        ∀ c' ∈ (lambdaSigSession pgType formatType storage calls).returned,
          c.2 = c'.2 ↔ c.1 = c'.1) ∧
      (∀ c ∈ (lambdaSigSession pgType formatType storage calls).returned,
        lambdaSigGetSignature pgType (lambdaSigSession pgType formatType storage calls).rows c.2 =
          .ok c.1) ∧
      ∀ sig, (lambdaSigSession pgType formatType storage calls).rows <+:
          (lambdaSigSession pgType formatType storage (calls ++ [sig])).rows ∧
        ∀ e, lambdaSigCreateFromSignature pgType formatType storage
            (lambdaSigSession pgType formatType storage calls).rows sig = .error e →
          lambdaSigValidateSignature pgType sig = .error e ∨
            (e = .tooMany ∧ ∃ r ∈ (lambdaSigSession pgType formatType storage calls).rows,
              r.lamsigid = PG_INT32_MAX) ∨
            (e = .rowTooBig ∨ e = .indexRowSize) ∧ ∃ row : LambdaSigRow,
              row.lamsigkey = lambdaSigAppendKey sig ∧
              row.lamsigsrc = lambdaSigAppendSource formatType sig ∧
              storage.fits row = false := by
  have hinv := sessionInv_session pgType formatType storage calls
  refine ⟨hinv.table.ids, fun r hr => (hinv.table.range r hr).1, hinv.table.keys,
    fun c hc c' hc' => returned_eq_iff pgType hinv hc hc', fun c hc => ?_, fun sig => ⟨?_, ?_⟩⟩
  · obtain ⟨hvalid, r, hr, hid, hkey⟩ := hinv.returned c hc
    rw [← hid]
    exact lambdaSigGetSignature_row hinv.table hr hkey hvalid
  · have hstep : lambdaSigSession pgType formatType storage (calls ++ [sig]) =
        (lambdaSigSession pgType formatType storage calls).call pgType formatType storage sig := by
      simp [lambdaSigSession]
    rw [hstep, Session.call]
    rcases create_cases formatType storage hinv.table sig with
      ⟨e, he, _⟩ | ⟨he, _⟩ | ⟨e, _, he, _⟩ | ⟨row, rows', hcall, _, _, _, hrows, _⟩
    · rw [he]
    · rw [he]
    · rw [he]
    · rw [hcall]
      rcases hrows with rfl | rfl
      · exact List.prefix_refl _
      · exact List.prefix_append _ _
  · intro e he
    rcases create_cases formatType storage hinv.table sig with
      ⟨e', he', hbad⟩ | ⟨he', hfull⟩ | ⟨e', row, he', hlong, hrow⟩ | ⟨row, rows', hcall, _⟩
    · rw [he] at he'
      cases he'
      exact Or.inl hbad
    · rw [he] at he'
      cases he'
      exact Or.inr (Or.inl ⟨rfl, hfull⟩)
    · rw [he] at he'
      cases he'
      exact Or.inr (Or.inr ⟨hlong, row, hrow⟩)
    · rw [he] at hcall
      cases hcall

end Sessions

/-- The least unused OID, and no limit on rows. -/
def leastOid : CatalogStorage where
  next used := (((List.range (used.length + 1)).map UInt32.ofNat).find? (· ∉ used)).getD 0
  fresh used hlt := by
    have hex : (((List.range (used.length + 1)).map UInt32.ofNat).find? (· ∉ used)).isSome := by
      -- otherwise `used` would contain that many different OIDs
      rw [Option.isSome_iff_ne_none]
      intro hnone
      have hsub : (List.range (used.length + 1)).map UInt32.ofNat ⊆ used := by
        intro o ho
        simpa using List.find?_eq_none.mp hnone o ho
      have hnodup : ((List.range (used.length + 1)).map UInt32.ofNat).Nodup := by
        refine List.Nodup.map_on (fun a ha b hb hab => ?_) List.nodup_range
        have ha := List.mem_range.mp ha
        have hb := List.mem_range.mp hb
        have := congrArg UInt32.toNat hab
        simp only [UInt32.toNat_ofNat'] at this
        omega
      have := (hnodup.subperm hsub).length_le
      rw [List.length_map, List.length_range] at this
      omega
    obtain ⟨o, ho⟩ := Option.isSome_iff_exists.mp hex
    rw [ho]
    simpa using List.find?_some ho
  rowFits _ := true
  keyFits _ := true

/-- Every type exists, is defined and is no pseudo-type. -/
def plainTypes (_ : Oid) : Option PgType :=
  some ⟨"t", true, false⟩

/-- `(int4) → int4`, the documented signature, and the first one again. -/
def threeCalls : List LambdaSignature :=
  [⟨[.scalar 23], .scalar 23⟩, documentedSignature, ⟨[.scalar 23], .scalar 23⟩]

theorem lambdaSig_interning_threeCalls :
    (lambdaSigSession plainTypes (fun _ => "t") leastOid threeCalls).returned =
        [(⟨[.scalar 23], .scalar 23⟩, 0), (documentedSignature, 1),
          (⟨[.scalar 23], .scalar 23⟩, 0)] ∧
      lambdaSigGetSignature plainTypes
        (lambdaSigSession plainTypes (fun _ => "t") leastOid threeCalls).rows 1 =
          .ok documentedSignature := by
  have hreturned : (lambdaSigSession plainTypes (fun _ => "t") leastOid threeCalls).returned =
      [(⟨[.scalar 23], .scalar 23⟩, 0), (documentedSignature, 1),
        (⟨[.scalar 23], .scalar 23⟩, 0)] := by decide +kernel
  obtain ⟨_, _, _, _, hget, _⟩ :=
    lambdaSig_interning plainTypes (fun _ => "t") leastOid threeCalls
  exact ⟨hreturned, hget (documentedSignature, 1) (by rw [hreturned]; simp)⟩

/-! ## A row that is too long -/

theorem length_le_argsKey (ts : List LambdaSigType) : ts.length ≤ (argsKey false ts).length := by
  induction ts with
  | nil => exact Nat.le_refl 0
  | cons t ts ih =>
    simp only [argsKey, Bool.false_eq_true, if_false, List.length_append, List.length_cons]
    omega

/-- A key has a comma or a bracket for each argument. -/
theorem length_le_lambdaSigAppendKey (sig : LambdaSignature) :
    sig.argtypes.length ≤ (lambdaSigAppendKey sig).length := by
  unfold lambdaSigAppendKey
  cases sig.argtypes with
  | nil => exact Nat.zero_le _
  | cons t ts =>
    have := length_le_argsKey ts
    simp only [argsKey, List.length_append, List.length_cons]
    omega

theorem validateTypes_replicate {pgType : Oid → Option PgType} {t : LambdaSigType}
    (h : lambdaSigValidateType pgType t = .ok ()) (n : Nat) :
    lambdaSigValidateTypes pgType (List.replicate n t) = .ok () := by
  induction n with
  | zero => rfl
  | succ n ih => rw [List.replicate_succ, lambdaSigValidateTypes, h, ok_bind, ih]

/-- Pages of 8192 bytes and the best a compression can do: `lz4` and `pglz` write at least
one byte for 255. -/
def compressedPages : CatalogStorage :=
  { leastOid with
    rowFits := fun row => row.lamsigkey.length / 255 ≤ 8160
    keyFits := fun key => key.length / 255 ≤ 2704 }

/-- Three million arguments of type `int4`. -/
def longSignature : LambdaSignature :=
  ⟨List.replicate 3000000 (.scalar 23), .scalar 23⟩

/-- The signature is valid and the table is empty, and there is no row for it. -/
theorem longSignature_refused :
    lambdaSigValidateSignature plainTypes longSignature = .ok () ∧
      lambdaSigCreateFromSignature plainTypes (fun _ => "t") compressedPages [] longSignature =
        .error .rowTooBig := by
  have hvalid : lambdaSigValidateSignature plainTypes longSignature = .ok () := by
    rw [lambdaSigValidateSignature, longSignature, validateTypes_replicate rfl]
    rfl
  have hlength : 3000000 ≤ (lambdaSigAppendKey longSignature).length := by
    have := length_le_lambdaSigAppendKey longSignature
    rwa [longSignature, List.length_replicate] at this
  refine ⟨hvalid, ?_⟩
  have hlookup : lambdaSigLookupTypmodByKeyInRelation [] (lambdaSigAppendKey longSignature) = -1 :=
    rfl
  have halloc : lambdaSigAllocateTypmod [] = .ok 0 := by decide
  have hinsert : ∀ row : LambdaSigRow, row.lamsigkey = lambdaSigAppendKey longSignature →
      catalogTupleInsert compressedPages [] row = .error .rowTooBig := by
    intro row hkey
    have hrow : ¬ row.lamsigkey.length / 255 ≤ 8160 := by
      rw [hkey]
      omega
    exact if_pos (decide_eq_false hrow)
  rw [lambdaSigCreateFromSignature, hvalid, ok_bind, lambdaSigCreate, hlookup,
    if_neg (by decide), halloc, ok_bind]
  dsimp only
  rw [hinsert _ rfl]
  rfl

end HolLambdas.Catalog
