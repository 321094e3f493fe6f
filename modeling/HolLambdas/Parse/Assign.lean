import HolLambdas.Catalog.Intern
import HolLambdas.Parse.Insert

/-!
# Does a lambda column check the signature of what is inserted?

The type of every lambda is `lambda`; its signature is in the type modifier. A column has
the typmod of its declared signature, and so have the references to it; a partial
application has the typmod that `LambdaSigCreateFromSignature` gives to the residual
signature. The tests of partial application say of the target column that "a wrong one is
rejected".

An `INSERT` gives each expression to `transformAssignedExpr`, and that to
`coerce_to_target_type`. Types are compared there; for the typmod it looks for a length
coercion function, a cast from the type to itself, and `pg_cast` has none for `lambda`.
What is left is a `RelabelType`, which says that the expression has the typmod of the
column. So every lambda is accepted: `accepted_iff_fits`, where `Fits` does not mention
typmods, and the check is as it should be only where no typmod differs
(`insert_checks_signatures_iff`).

Collations are left out: they only decide if a relabelling of a relabelling is dropped.
-/

namespace HolLambdas.Parse.Assign

open HolLambdas.Scalar HolLambdas.Catalog

/-! ## Expressions and their types -/

/-- The nodes that assignment looks at or makes. -/
inductive SourceExpr where
  | var (vartype : Oid) (vartypmod : Int)
  | const (consttype : Oid) (consttypmod : Int)
  | callLambda (rettype : Oid) (rettypmod : Int)
  | setToDefault (typeId : Oid) (typeMod : Int)
  /-- Any other expression, with its type and typmod. -/
  | other (exprtype : Oid) (exprtypmod : Int)
  | collate (arg : SourceExpr) (collOid : Oid)
  | relabelType (arg : SourceExpr) (resulttype : Oid) (resulttypmod : Int)
  /-- A call of the function `funcid`, on the elements if `array`. -/
  | lengthCoercion (array : Bool) (funcid : Oid) (arg : SourceExpr) (type : Oid) (typmod : Int)
  /-- A `FieldStore` or `SubscriptingRef` that assigns a part of a column. -/
  | store (newval : SourceExpr) (type : Oid) (typmod : Int)
deriving DecidableEq, Repr

namespace SourceExpr

/-- `exprType`. -/
def exprType : SourceExpr → Oid
  | var t _ | const t _ | callLambda t _ | setToDefault t _ | other t _ => t
  | collate arg _ => arg.exprType
  | relabelType _ t _ | lengthCoercion _ _ _ t _ | store _ t _ => t

/-- `exprTypmod`. -/
def exprTypmod : SourceExpr → Int
  | var _ m | const _ m | callLambda _ m | setToDefault _ m | other _ m => m
  | collate arg _ => arg.exprTypmod
  | relabelType _ _ m | lengthCoercion _ _ _ _ m | store _ _ m => m

/-- The expression below the `CollateExpr`s at the top. -/
def stripCollate : SourceExpr → SourceExpr
  | collate arg _ => arg.stripCollate
  | e => e

/-- The expression below the `RelabelType`s at the top. -/
def stripRelabel : SourceExpr → SourceExpr
  | relabelType arg _ _ => arg.stripRelabel
  | e => e

/-- `strip_indirection`: what is assigned to the part. -/
def stripStore : SourceExpr → SourceExpr
  | store newval _ _ => newval.stripStore
  | e => e

end SourceExpr

/-! ## Coercion to a column -/

/-- What assignment asks the catalogs. `castfunc` is the function of the `pg_cast` row,
zero if there is no row or the row has none; `canCoerce` and `coerced` are about different
types. -/
structure AssignCatalog where
  canCoerce : (source target : Oid) → Bool
  coerced : (target : Oid) → (typmod : Int) → SourceExpr → SourceExpr
  elementType : Oid → Option Oid
  castfunc : (source target : Oid) → Oid
  isCollatable : Oid → Bool
  /-- `transformAssignmentIndirection`: the new value of a part of the column. -/
  assignPart : Attribute → List String → SourceExpr → Except ParseError SourceExpr

variable (cat : AssignCatalog)

/-- `find_typmod_coercion_function`: whether it works on elements, and the function. -/
def findTypmodCoercionFunction (typeId : Oid) : Option (Bool × Oid) :=
  let elem := cat.elementType typeId
  let castType := elem.getD typeId
  if cat.castfunc castType castType = 0 then none
  else some (elem.isSome, cat.castfunc castType castType)

/-- `applyRelabelType`. -/
def applyRelabelType (arg : SourceExpr) (rtype : Oid) (rtypmod : Int) : SourceExpr :=
  match arg.stripRelabel with
  | .const _ _ => .const rtype rtypmod
  | e => if e.exprType = rtype ∧ e.exprTypmod = rtypmod then e else .relabelType e rtype rtypmod

/-- `coerce_type_typmod`. -/
def coerceTypeTypmod (node : SourceExpr) (targetTypeId : Oid) (targetTypMod : Int) : SourceExpr :=
  if targetTypMod = node.exprTypmod then node
  else
    -- a negative typmod asks for no coercion
    match if targetTypMod < 0 then none else findTypmodCoercionFunction cat targetTypeId with
    | some (array, funcId) => .lengthCoercion array funcId node targetTypeId targetTypMod
    | none => applyRelabelType node targetTypeId targetTypMod

/-- `coerce_type`. -/
def coerceTo (node : SourceExpr) (inputTypeId targetTypeId : Oid) (targetTypMod : Int) :
    SourceExpr :=
  if targetTypeId = inputTypeId then node else cat.coerced targetTypeId targetTypMod node

/-- `coerce_to_target_type`. -/
def coerceToTargetType (expr : SourceExpr) (exprtype targettype : Oid) (targettypmod : Int) :
    Option SourceExpr :=
  if exprtype ≠ targettype ∧ cat.canCoerce exprtype targettype = false then none
  else
    let result := coerceTo cat expr.stripCollate exprtype targettype targettypmod
    let result := coerceTypeTypmod cat result targettype targettypmod
    match expr with
    | .collate _ collOid =>
      some (if cat.isCollatable targettype then .collate result collOid else result)
    | _ => some result

variable (tupdesc : List Attribute)

/-- A `DEFAULT` gets the type of its column. -/
def forColumn (a : Attribute) : SourceExpr → SourceExpr
  | .setToDefault _ _ => .setToDefault a.atttypid a.atttypmod
  | e => e

/-- `transformAssignedExpr`. -/
def transformAssignedExpr (col : ResTarget) (attrno : Nat) (e : SourceExpr) :
    Except ParseError SourceExpr :=
  match tupdesc[attrno - 1]? with
  | none => .error (.noSuchAttribute (attrno - 1))
  | some a =>
    if col.indirection ≠ [] then
      match e with
      | .setToDefault _ _ => .error .subfieldDefault
      | _ => do
        let newval ← cat.assignPart a col.indirection e
        return .store newval a.atttypid a.atttypmod
    else
      match coerceToTargetType cat (forColumn a e) (forColumn a e).exprType a.atttypid
        a.atttypmod with
      | some e' => .ok e'
      | none => .error (.datatypeMismatch col.name)

/-! ## The statement -/

/-- The loop of `transformInsertRow`. -/
def assignRow (strip : Bool) : List SourceExpr → List (ResTarget × Nat) →
    Except ParseError (List SourceExpr)
  | e :: exprs, (col, attrno) :: targets => do
    let e' ← transformAssignedExpr cat tupdesc col attrno e
    let rest ← assignRow strip exprs targets
    return (if strip then e'.stripStore else e') :: rest
  | _, _ => .ok []

/-- `transformInsertRow`. -/
def transformInsertRow (cols : List ResTarget) (targets : List (ResTarget × Nat)) (strip : Bool)
    (exprs : List SourceExpr) : Except ParseError (List SourceExpr) :=
  if exprs.length > targets.length then .error .moreExpressions
  else if cols ≠ [] ∧ exprs.length < targets.length then .error .moreTargetColumns
  else assignRow cat tupdesc strip exprs targets

/-- What is inserted, after transformation. The target list of a query is without its junk
entries, and `VALUES` has at least one row. -/
inductive InsertSource where
  | defaultValues
  | select (targetList : List SourceExpr)
  | values (row : List SourceExpr) (rows : List (List SourceExpr))

/-- An output of the query: a `Var`, except that untyped constants are copied. -/
def ofTargetEntry (e : SourceExpr) : SourceExpr :=
  match e with
  | .const t _ => if t = UNKNOWNOID then e else .var e.exprType e.exprTypmod
  | _ => .var e.exprType e.exprTypmod

/-- A column of the `VALUES` range table entry, which has the type of the first row's. -/
def valuesVar (e : SourceExpr) : SourceExpr :=
  .var e.exprType e.exprTypmod

/-- The rows of `VALUES` after the first, all as long as the first. -/
def assignRows (cols : List ResTarget) (targets : List (ResTarget × Nat))
    (sublistLength : Nat) : List (List SourceExpr) → Except ParseError (List (List SourceExpr))
  | [] => .ok []
  | row :: rows =>
    if sublistLength ≠ row.length then .error .valuesLength
    else do
      let row' ← transformInsertRow cat tupdesc cols targets true row
      let rows' ← assignRows cols targets sublistLength rows
      return row' :: rows'

/-- The source of the statement against its target columns. -/
def transformSource (cols : List ResTarget) (targets : List (ResTarget × Nat)) :
    InsertSource → Except ParseError (List SourceExpr)
  | .defaultValues => .ok []
  | .select targetList =>
    transformInsertRow cat tupdesc cols targets false (targetList.map ofTargetEntry)
  | .values row [] => transformInsertRow cat tupdesc cols targets false row
  | .values row (row₂ :: rows) => do
    let row' ← transformInsertRow cat tupdesc cols targets true row
    let _ ← assignRows cat tupdesc cols targets row.length (row₂ :: rows)
    transformInsertRow cat tupdesc cols targets false (row'.map valuesVar)

/-- `transformInsertStmt`. -/
def transformInsertStmt (cols : List ResTarget) (source : InsertSource) :
    Except ParseError (List SourceExpr) := do
  let targets ← checkInsertTargets tupdesc cols
  transformSource cat tupdesc cols targets source

/-! ## What is checked -/

/-- A lambda expression and a lambda column that it is assigned to as a whole. -/
structure LambdaPair (col : ResTarget) (attrno : Nat) (e : SourceExpr) (a : Attribute) : Prop where
  found : tupdesc[attrno - 1]? = some a
  whole : col.indirection = []
  column : a.atttypid = LAMBDAOID
  expr : e.exprType = LAMBDAOID

/-- An expression is a lambda for a lambda column, or assignable in its own way. -/
def TargetFits (col : ResTarget) (attrno : Nat) (e : SourceExpr) : Prop :=
  (∃ a, LambdaPair tupdesc col attrno e a) ∨
    ∃ e', transformAssignedExpr cat tupdesc col attrno e = .ok e'

/-- The expressions are as many as they may be, and each fits its column. -/
structure RowFits (cols : List ResTarget) (targets : List (ResTarget × Nat))
    (exprs : List SourceExpr) : Prop where
  length_le : exprs.length ≤ targets.length
  length_eq : cols ≠ [] → exprs.length = targets.length
  each : List.Forall₂ (fun e target => TargetFits cat tupdesc target.1 target.2 e) exprs
    (targets.take exprs.length)

/-- A statement on which nothing is wrong, apart from typmods of lambdas. Several rows of
`VALUES` are assigned twice, row by row and as columns of the first. -/
def SourceFits (cols : List ResTarget) (targets : List (ResTarget × Nat)) : InsertSource → Prop
  | .defaultValues => True
  | .select targetList => RowFits cat tupdesc cols targets (targetList.map ofTargetEntry)
  | .values row [] => RowFits cat tupdesc cols targets row
  | .values row (row₂ :: rows) =>
    RowFits cat tupdesc cols targets row ∧
      (∀ r ∈ row₂ :: rows, r.length = row.length ∧ RowFits cat tupdesc cols targets r) ∧
      ∀ row', transformInsertRow cat tupdesc cols targets true row = .ok row' →
        RowFits cat tupdesc cols targets (row'.map valuesVar)

def Fits (cols : List ResTarget) (source : InsertSource) : Prop :=
  ∃ targets, checkInsertTargets tupdesc cols = .ok targets ∧
    SourceFits cat tupdesc cols targets source

/-- The statement is analysed without an error. -/
def Accepted (cols : List ResTarget) (source : InsertSource) : Prop :=
  ∃ assigned, transformInsertStmt cat tupdesc cols source = .ok assigned

/-- The rows as written. -/
def InsertSource.rows : InsertSource → List (List SourceExpr)
  | defaultValues => []
  | select targetList => [targetList]
  | values row rows => row :: rows

/-- A lambda expression of known signature in some row, and the lambda column for it. -/
def AssignedLambda (cols : List ResTarget) (source : InsertSource) (e : SourceExpr)
    (a : Attribute) : Prop :=
  0 ≤ e.exprTypmod ∧ ∃ (targets : List (ResTarget × Nat)) (row : List SourceExpr) (p : Nat)
    (col : ResTarget) (attrno : Nat), checkInsertTargets tupdesc cols = .ok targets ∧
    row ∈ source.rows ∧ row[p]? = some e ∧ targets[p]? = some (col, attrno) ∧
    LambdaPair tupdesc col attrno e a

/-- Every lambda has the typmod of its column. -/
def TypmodsMatch (cols : List ResTarget) (source : InsertSource) : Prop :=
  ∀ e a, AssignedLambda tupdesc cols source e a → e.exprTypmod = a.atttypmod

/-- Of the statements that are in order otherwise, those are accepted that have the right
typmods. -/
def ChecksSignatures (cols : List ResTarget) (source : InsertSource) : Prop :=
  Accepted cat tupdesc cols source ↔
    Fits cat tupdesc cols source ∧ TypmodsMatch tupdesc cols source

/-! ## What is accepted -/

variable {cat tupdesc}

variable (cat) in
theorem exists_coerceToTargetType (e : SourceExpr) (t : Oid) (m : Int) :
    ∃ e', coerceToTargetType cat e t t m = some e' := by
  unfold coerceToTargetType
  rw [if_neg fun h => h.1 rfl]
  split
  · exact ⟨_, rfl⟩
  · exact ⟨_, rfl⟩

/-- Types are equal and typmods are not compared. -/
theorem LambdaPair.accepted {col : ResTarget} {attrno : Nat} {e : SourceExpr} {a : Attribute}
    (h : LambdaPair tupdesc col attrno e a) :
    ∃ e', transformAssignedExpr cat tupdesc col attrno e = .ok e' := by
  have htype : (forColumn a e).exprType = a.atttypid := by
    unfold forColumn
    split
    · rfl
    · rw [h.expr, h.column]
  obtain ⟨e', he'⟩ := exists_coerceToTargetType cat (forColumn a e) a.atttypid a.atttypmod
  refine ⟨e', ?_⟩
  unfold transformAssignedExpr
  rw [h.found]
  simp only [h.whole, ne_eq, not_true_eq_false, if_false, htype, he']

theorem targetFits_iff {col : ResTarget} {attrno : Nat} {e : SourceExpr} :
    TargetFits cat tupdesc col attrno e ↔
      ∃ e', transformAssignedExpr cat tupdesc col attrno e = .ok e' := by
  constructor
  · rintro (⟨a, ha⟩ | h)
    · exact ha.accepted
    · exact h
  · intro h
    exact Or.inr h

variable {targets : List (ResTarget × Nat)} {cols : List ResTarget}

theorem assignRow_iff {strip : Bool} {exprs : List SourceExpr}
    (hle : exprs.length ≤ targets.length) :
    (∃ row, assignRow cat tupdesc strip exprs targets = .ok row) ↔
      List.Forall₂ (fun e target => TargetFits cat tupdesc target.1 target.2 e) exprs
        (targets.take exprs.length) := by
  induction exprs generalizing targets with
  | nil => exact iff_of_true ⟨[], rfl⟩ .nil
  | cons e exprs ih =>
    obtain _ | ⟨⟨col, attrno⟩, targets⟩ := targets
    · cases hle
    rw [List.length_cons, List.take_succ_cons, List.forall₂_cons, targetFits_iff,
      ← ih (Nat.le_of_succ_le_succ hle), assignRow]
    constructor
    · rintro ⟨row, hrow⟩
      obtain ⟨e', he', hrow⟩ := bind_eq_ok.mp hrow
      obtain ⟨rest, hrest, -⟩ := bind_eq_ok.mp hrow
      exact ⟨⟨e', he'⟩, rest, hrest⟩
    · rintro ⟨⟨e', he'⟩, rest, hrest⟩
      rw [he', ok_bind, hrest]
      exact ⟨_, rfl⟩

/-- A row is accepted exactly if each expression can be assigned. -/
theorem transformInsertRow_iff (strip : Bool) {exprs : List SourceExpr} :
    (∃ row, transformInsertRow cat tupdesc cols targets strip exprs = .ok row) ↔
      RowFits cat tupdesc cols targets exprs := by
  unfold transformInsertRow
  split
  · next hgt =>
    refine iff_of_false ?_ fun h => absurd h.length_le (Nat.not_le.mpr hgt)
    rintro ⟨row, hrow⟩
    cases hrow
  · next hle =>
    have hle := Nat.not_lt.mp hle
    split
    · next hfew =>
      refine iff_of_false ?_ fun h => absurd (h.length_eq hfew.1) (Nat.ne_of_lt hfew.2)
      rintro ⟨row, hrow⟩
      cases hrow
    · next hfew =>
      rw [assignRow_iff hle]
      constructor
      · intro heach
        refine ⟨hle, fun hcols => ?_, heach⟩
        by_contra hne
        exact hfew ⟨hcols, Nat.lt_of_le_of_ne hle hne⟩
      · exact RowFits.each

theorem assignRows_iff {n : Nat} {rows : List (List SourceExpr)} :
    (∃ rows', assignRows cat tupdesc cols targets n rows = .ok rows') ↔
      ∀ row ∈ rows, row.length = n ∧ RowFits cat tupdesc cols targets row := by
  induction rows with
  | nil => exact iff_of_true ⟨[], rfl⟩ fun row hrow => nomatch hrow
  | cons row rows ih =>
    rw [List.forall_mem_cons, ← ih, assignRows]
    split
    · next hne =>
      refine iff_of_false ?_ fun h => hne h.1.1.symm
      rintro ⟨rows', hrows⟩
      cases hrows
    · next heq =>
      rw [not_not] at heq
      rw [← transformInsertRow_iff true]
      constructor
      · rintro ⟨rows', hrows⟩
        obtain ⟨row', hrow, hrows⟩ := bind_eq_ok.mp hrows
        obtain ⟨rest, hrest, -⟩ := bind_eq_ok.mp hrows
        exact ⟨⟨heq.symm, row', hrow⟩, rest, hrest⟩
      · rintro ⟨⟨-, row', hrow⟩, rest, hrest⟩
        rw [hrow, ok_bind, hrest]
        exact ⟨_, rfl⟩

theorem transformSource_iff {source : InsertSource} :
    (∃ assigned, transformSource cat tupdesc cols targets source = .ok assigned) ↔
      SourceFits cat tupdesc cols targets source := by
  cases source with
  | defaultValues => exact iff_of_true ⟨[], rfl⟩ trivial
  | select targetList => exact transformInsertRow_iff false
  | values row rows =>
    cases rows with
    | nil => exact transformInsertRow_iff false
    | cons row₂ rows =>
      rw [SourceFits, ← assignRows_iff, transformSource]
      constructor
      · rintro ⟨assigned, h⟩
        obtain ⟨row', hrow, h⟩ := bind_eq_ok.mp h
        obtain ⟨rows', hrows, h⟩ := bind_eq_ok.mp h
        refine ⟨(transformInsertRow_iff true).mp ⟨row', hrow⟩, ⟨rows', hrows⟩, ?_⟩
        intro row'' hrow''
        rw [hrow] at hrow''
        cases hrow''
        exact (transformInsertRow_iff false).mp ⟨assigned, h⟩
      · rintro ⟨hfits, ⟨rows', hrows⟩, hvars⟩
        obtain ⟨row', hrow⟩ := (transformInsertRow_iff true).mpr hfits
        obtain ⟨assigned, h⟩ := (transformInsertRow_iff false).mpr (hvars row' hrow)
        rw [hrow, ok_bind, hrows, ok_bind]
        exact ⟨assigned, h⟩

/-- Whether a statement is accepted has nothing to do with typmods of lambdas. -/
theorem accepted_iff_fits {source : InsertSource} :
    Accepted cat tupdesc cols source ↔ Fits cat tupdesc cols source := by
  constructor
  · rintro ⟨assigned, h⟩
    obtain ⟨targets, htargets, h⟩ := bind_eq_ok.mp h
    exact ⟨targets, htargets, transformSource_iff.mp ⟨assigned, h⟩⟩
  · rintro ⟨targets, htargets, hfits⟩
    obtain ⟨assigned, h⟩ := transformSource_iff.mpr hfits
    exact ⟨assigned, by rw [transformInsertStmt, htargets, ok_bind, h]⟩

variable (cat tupdesc) in
/-- Signatures are checked exactly in those statements where there is nothing to reject:
something else is wrong, or every lambda has the typmod of its column. -/
theorem insert_checks_signatures_iff (cols : List ResTarget) (source : InsertSource) :
    ChecksSignatures cat tupdesc cols source ↔
      (Fits cat tupdesc cols source → TypmodsMatch tupdesc cols source) := by
  rw [ChecksSignatures, accepted_iff_fits]
  exact iff_self_and

/-! ## Residuals -/

section Residual

variable (coercible : Oid → Oid → Bool)
variable (pgType : Oid → Option PgType) (formatType : Oid → String) (storage : CatalogStorage)

/-- A partial application of a column with signature `sig`: it has the typmod of the
residual signature. -/
def partialApplication (s : Session) (sig : LambdaSignature) (fargs : List CallArg) :
    Option (SourceExpr × Session) :=
  match parseColumnCall coercible (some sig) fargs with
  | .ok c =>
    match c.rettype with
    | .func heldtypes rettype =>
      match lambdaSigCreateFromSignature pgType formatType storage s.rows ⟨heldtypes, rettype⟩ with
      | .ok r =>
        some (.callLambda LAMBDAOID r.1, s.call pgType formatType storage ⟨heldtypes, rettype⟩)
      | .error _ => none
    | .scalar _ => none
  | .error _ => none

variable {coercible pgType formatType storage}

/-- A partial application has the typmod of a column, in the session where the column was
declared, exactly if the residual signature is the column's. -/
theorem partialApplication_typmod_eq_iff {s s' : Session} (hs : SessionInv pgType s)
    {S C : LambdaSignature} {t : Int} (hC : (C, t) ∈ s.returned) {fargs : List CallArg}
    {e : SourceExpr}
    (h : partialApplication coercible pgType formatType storage s S fargs = some (e, s')) :
    e.exprType = LAMBDAOID ∧ ∃ c heldtypes rettype,
      parseColumnCall coercible (some S) fargs = .ok c ∧ c.rettype = .func heldtypes rettype ∧
        (e.exprTypmod = t ↔ (⟨heldtypes, rettype⟩ : LambdaSignature) = C) := by
  unfold partialApplication at h
  split at h
  · next c hc =>
    split at h
    · next heldtypes rettype hret =>
      split at h
      · next r hr =>
        cases h
        refine ⟨rfl, c, heldtypes, rettype, hc, hret, ?_⟩
        have hinv := hs.call pgType formatType storage ⟨heldtypes, rettype⟩
        have hreturned : (s.call pgType formatType storage ⟨heldtypes, rettype⟩).returned =
            s.returned ++ [(⟨heldtypes, rettype⟩, r.1)] := by
          rw [Session.call, hr]
        -- both typmods were returned in the session after the call
        have hresidual : ((⟨heldtypes, rettype⟩ : LambdaSignature), r.1) ∈
            (s.call pgType formatType storage ⟨heldtypes, rettype⟩).returned := by
          rw [hreturned]
          exact List.mem_append_right _ List.mem_cons_self
        have hcolumn : (C, t) ∈
            (s.call pgType formatType storage ⟨heldtypes, rettype⟩).returned := by
          rw [hreturned]
          exact List.mem_append_left _ hC
        exact returned_eq_iff pgType hinv hresidual hcolumn
      · cases h
    · cases h
  · cases h

end Residual

/-! ## `INSERT INTO t SELECT b.fn(_, 2.0) FROM b`

The column of `t` has signature `(bool) → bool`, `fn` has `(int4, int4) → int4`. -/

section Example

/-- No coercion between different types, no length coercion, no parts. -/
def plainCatalog : AssignCatalog where
  canCoerce _ _ := false
  coerced _ _ e := e
  elementType _ := none
  castfunc _ _ := 0
  isCollatable _ := false
  assignPart a _ _ := .error (.datatypeMismatch a.attname)

def unaryColumn : List Attribute :=
  [⟨"fn", false, LAMBDAOID, 0⟩]

/-- The session that has declared the column. -/
def columnSession : Session :=
  lambdaSigSession plainTypes (fun _ => "t") leastOid [⟨[.scalar BOOLOID], .scalar BOOLOID⟩]

/-- `fn(_, 2.0)`, after its residual signature was interned. -/
def heldCall : Option (SourceExpr × Session) :=
  partialApplication (fun _ _ => false) plainTypes (fun _ => "t") leastOid columnSession
    ⟨[.scalar INT4OID, .scalar INT4OID], .scalar INT4OID⟩ [.hole, .expr ⟨INT4OID, none⟩]

theorem partialApplication_typmod_heldCall :
    ∃ e s', heldCall = some (e, s') ∧ e.exprTypmod ≠ 0 := by
  have hcolumn : (⟨[.scalar BOOLOID], .scalar BOOLOID⟩, 0) ∈ columnSession.returned := by
    decide +kernel
  obtain ⟨⟨e, s'⟩, h⟩ := Option.isSome_iff_exists.mp (show heldCall.isSome = true by decide +kernel)
  obtain ⟨_, _, _, _, hc, hret, hiff⟩ :=
    partialApplication_typmod_eq_iff (sessionInv_session ..) hcolumn h
  cases hc
  cases hret
  exact ⟨e, s', h, fun h0 => nomatch hiff.mp h0⟩

/-- The residual has signature `(int4) → int4` and another typmod than the column; it is
relabelled and inserted. -/
theorem insert_ignores_signature :
    columnSession.returned = [(⟨[.scalar BOOLOID], .scalar BOOLOID⟩, 0)] ∧
      heldCall.map Prod.fst = some (.callLambda LAMBDAOID 1) ∧
      transformInsertStmt plainCatalog unaryColumn [] (.select [.callLambda LAMBDAOID 1]) =
        .ok [.relabelType (.var LAMBDAOID 1) LAMBDAOID 0] ∧
      ¬ ChecksSignatures plainCatalog unaryColumn [] (.select [.callLambda LAMBDAOID 1]) := by
  have haccepted : transformInsertStmt plainCatalog unaryColumn []
      (.select [.callLambda LAMBDAOID 1]) = .ok [.relabelType (.var LAMBDAOID 1) LAMBDAOID 0] := rfl
  refine ⟨by decide +kernel, by decide +kernel, haccepted, ?_⟩
  intro hchecks
  have hmatch := (hchecks.mp ⟨_, haccepted⟩).2 (.callLambda LAMBDAOID 1) ⟨"fn", false, LAMBDAOID, 0⟩
  have heq := hmatch ⟨by decide, _, _, 0, ⟨"fn", []⟩, 1, rfl, List.mem_singleton.mpr rfl, rfl, rfl,
    ⟨rfl, rfl, rfl, rfl⟩⟩
  cases heq

end Example

end HolLambdas.Parse.Assign
