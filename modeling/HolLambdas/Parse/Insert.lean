import HolLambdas.Fuel
import HolLambdas.Parse.Transform

/-!
# Which column a lambda literal is typed against

`INSERT INTO t (cols) VALUES (items), …`. A literal among the items is typed
against a column of `t` and assigned to a column of `t`, and the two are
computed in different places.

* `transformExpressionList` counts the items as it transforms them and takes the
  count as an index into the attributes of `t`. An item `x.*` expands to several
  expressions and is not counted.
* `checkInsertTargets` makes the list of target attributes — those the column
  list names, or all that are not dropped — and `transformInsertRow` pairs it
  with the expressions, after expansion.

`insert_literal_signature` says what each of them comes to, and when they agree.
-/

namespace HolLambdas.Parse

open HolLambdas.Scalar

/-! ## The target table -/

/-- The fields of a `pg_attribute` row that are consulted. -/
structure Attribute where
  attname : String
  attisdropped : Bool
  atttypid : Oid
  atttypmod : Int
deriving DecidableEq, Repr

/-- `LambdaSigGetSignature`; `store` is `pg_lambdasig`. -/
def lambdaSigGetSignature (store : Int → Option LambdaSignature) (typmod : Int) :
    Except ParseError LambdaSignature :=
  if typmod < 0 then .error (.noStoredSignature typmod)
  else match store typmod with
    | some sig => .ok sig
    | none => .error (.lookupFailed typmod)

/-- The signature of the attribute with index `attno`, counted from zero. -/
def attributeSignature (store : Int → Option LambdaSignature) (tupdesc : List Attribute)
    (attno : Nat) : Except ParseError LambdaSignature :=
  match tupdesc[attno]? with
  | some a => lambdaSigGetSignature store a.atttypmod
  | none => .error (.noSuchAttribute attno)

/-- A column of the column list, with the subfields or subscripts behind it. -/
structure ResTarget where
  name : String
  indirection : List String
deriving DecidableEq, Repr

/-- `attnameAttNum`, counted from one. -/
def attnameAttNum (tupdesc : List Attribute) (name : String) : Option Nat :=
  (tupdesc.findIdx? fun a => a.attname == name && !a.attisdropped).map (· + 1)

/-- The target list of an `INSERT` without a column list: the attributes that are
not dropped. The first attribute has index `i`. -/
def defaultTargets (i : Nat) : List Attribute → List (ResTarget × Nat)
  | [] => []
  | a :: as =>
    if a.attisdropped then defaultTargets (i + 1) as
    else (⟨a.attname, []⟩, i + 1) :: defaultTargets (i + 1) as

/-- The loop over a column list. A column may be given in parts, but not both in
parts and as a whole, nor twice as a whole. -/
def checkTargets (tupdesc : List Attribute) (wholecols partialcols : List Nat) :
    List ResTarget → Except ParseError (List (ResTarget × Nat))
  | [] => .ok []
  | col :: cols =>
    match attnameAttNum tupdesc col.name with
    | none => .error (.undefinedColumn col.name)
    | some attrno =>
      if col.indirection = [] then
        if attrno ∈ wholecols ∨ attrno ∈ partialcols then .error (.duplicateColumn col.name)
        else (⟨col, attrno⟩ :: ·) <$> checkTargets tupdesc (attrno :: wholecols) partialcols cols
      else if attrno ∈ wholecols then .error (.duplicateColumn col.name)
      else (⟨col, attrno⟩ :: ·) <$> checkTargets tupdesc wholecols (attrno :: partialcols) cols

/-- `checkInsertTargets`: the target columns with their attribute numbers. -/
def checkInsertTargets (tupdesc : List Attribute) (cols : List ResTarget) :
    Except ParseError (List (ResTarget × Nat)) :=
  if cols = [] then .ok (defaultTargets 0 tupdesc) else checkTargets tupdesc [] [] cols

/-! ## Rows -/

/-- An item of a `VALUES` row. Of what is neither a star, a lambda literal nor
`DEFAULT`, only the type matters; a star expands into expressions of the given
types. -/
inductive ValuesItem (V : Type) where
  | star (types : List Oid)
  | setToDefault
  | lambdaExpr (l : LambdaLiteral V)
  | other (exprtype : Oid)
deriving Repr

/-- A transformed expression of a row. -/
inductive RowExpr (F V : Type) where
  | setToDefault
  | lambdaConst (le : LambdaExpr F V)
  | other (exprtype : Oid)
deriving Repr

variable {F V : Type}
variable {out : List (List (Nat × RowExpr F V))} {rows : List (List (ValuesItem V))}

section Insert

variable (cat : ParserCatalog F V) (store : Int → Option LambdaSignature)
variable (tupdesc : List Attribute)
-- whether an expression of a type can be assigned to a part of an attribute
variable (assignable : Oid → List String → Oid → Bool)

/-- `transformExpressionList`; `ctr` items have been counted so far. -/
def transformExpressionList (ctr : Nat) :
    List (ValuesItem V) → Except ParseError (List (RowExpr F V))
  | [] => .ok []
  | .star types :: items => do
    let rest ← transformExpressionList ctr items
    return types.map .other ++ rest
  | .setToDefault :: items => do
    let rest ← transformExpressionList (ctr + 1) items
    return .setToDefault :: rest
  | .lambdaExpr l :: items => do
    -- `targetattno` of the literal's context is the count
    let le ← transformLambdaExpr cat (attributeSignature store tupdesc ctr) l
    let rest ← transformExpressionList (ctr + 1) items
    return .lambdaConst le :: rest
  | .other t :: items => do
    let rest ← transformExpressionList (ctr + 1) items
    return .other t :: rest

/-- `transformAssignedExpr`, the checks. -/
def transformAssignedExpr (col : ResTarget) (attrno : Nat) (e : RowExpr F V) :
    Except ParseError Unit :=
  match tupdesc[attrno - 1]? with
  | none => .error (.noSuchAttribute (attrno - 1))
  | some a =>
    match e with
    | .setToDefault => if col.indirection = [] then .ok () else .error .subfieldDefault
    | .lambdaConst _ =>
      if assignable a.atttypid col.indirection LAMBDAOID then .ok ()
      else .error (.datatypeMismatch col.name)
    | .other t =>
      if assignable a.atttypid col.indirection t then .ok ()
      else .error (.datatypeMismatch col.name)

/-- The loop of `transformInsertRow`: each expression with the number of the
attribute it is assigned to. -/
def assignRow : List (RowExpr F V) → List (ResTarget × Nat) →
    Except ParseError (List (Nat × RowExpr F V))
  | e :: exprs, (col, attrno) :: targets => do
    transformAssignedExpr tupdesc assignable col attrno e
    let rest ← assignRow exprs targets
    return (attrno, e) :: rest
  | _, _ => .ok []

/-- `transformInsertRow`. -/
def transformInsertRow (cols : List ResTarget) (targets : List (ResTarget × Nat))
    (exprs : List (RowExpr F V)) : Except ParseError (List (Nat × RowExpr F V)) :=
  if exprs.length > targets.length then .error .moreExpressions
  else if cols ≠ [] ∧ exprs.length < targets.length then .error .moreTargetColumns
  else assignRow tupdesc assignable exprs targets

/-- The loop over the rows; all of them must expand to the same length. -/
def transformValuesLists (cols : List ResTarget) (targets : List (ResTarget × Nat))
    (sublistLength : Option Nat) :
    List (List (ValuesItem V)) → Except ParseError (List (List (Nat × RowExpr F V)))
  | [] => .ok []
  | row :: rows => do
    let exprs ← transformExpressionList cat store tupdesc 0 row
    if sublistLength.any (· ≠ exprs.length) then .error .valuesLength
    else
      let assigned ← transformInsertRow tupdesc assignable cols targets exprs
      let rest ← transformValuesLists cols targets (some (sublistLength.getD exprs.length)) rows
      return assigned :: rest

/-- `transformInsertStmt` on `VALUES` rows: for each row the expressions with the
attribute numbers they are assigned to. -/
def transformInsertStmt (cols : List ResTarget) (rows : List (List (ValuesItem V))) :
    Except ParseError (List (List (Nat × RowExpr F V))) := do
  let targets ← checkInsertTargets tupdesc cols
  transformValuesLists cat store tupdesc assignable cols targets none rows

end Insert

/-! ## Counting items -/

namespace ValuesItem

/-- The items that are counted: all but the stars. -/
def counted : List (ValuesItem V) → Nat
  | [] => 0
  | star _ :: items => counted items
  | _ :: items => counted items + 1

/-- The expressions the items expand to. -/
def width : List (ValuesItem V) → Nat
  | [] => 0
  | star types :: items => types.length + width items
  | _ :: items => width items + 1

theorem counted_le_width : ∀ items : List (ValuesItem V), counted items ≤ width items
  | [] => Nat.le_refl 0
  | star types :: items => by
    have ih := counted_le_width items
    simp only [counted, width]
    omega
  | setToDefault :: items => Nat.succ_le_succ (counted_le_width items)
  | lambdaExpr _ :: items => Nat.succ_le_succ (counted_le_width items)
  | other _ :: items => Nat.succ_le_succ (counted_le_width items)

/-- The two counts agree when no star expands to anything. -/
theorem width_eq_counted_iff : ∀ items : List (ValuesItem V),
    width items = counted items ↔ ∀ types, star types ∈ items → types = []
  | [] => by simp [width, counted]
  | star types :: items => by
    have hle := counted_le_width items
    have ih := width_eq_counted_iff items
    simp only [width, counted, List.mem_cons, star.injEq]
    constructor
    · intro h types' hmem
      rcases hmem with rfl | hmem
      · exact List.length_eq_zero_iff.mp (by omega)
      · exact ih.mp (by omega) types' hmem
    · intro h
      rw [h types (.inl rfl), ih.mpr fun types' hmem => h types' (.inr hmem)]
      exact Nat.zero_add _
  | setToDefault :: items => by simp [width, counted, width_eq_counted_iff items]
  | lambdaExpr _ :: items => by simp [width, counted, width_eq_counted_iff items]
  | other _ :: items => by simp [width, counted, width_eq_counted_iff items]

end ValuesItem

section Insert

variable {cat : ParserCatalog F V} {store : Int → Option LambdaSignature}
variable {tupdesc : List Attribute} {assignable : Oid → List String → Oid → Bool}

variable {exprs : List (RowExpr F V)} {j attrno p k : Nat} {col : ResTarget}
  {targets : List (ResTarget × Nat)} {cols : List ResTarget} {row : List (ValuesItem V)}
  {as : List Attribute}

/-- A literal is typed against the attribute whose index is the number of counted
items before it, and its place in the row is the width of what is before it. -/
theorem transformExpressionList_lambda {ctr : Nat} {items : List (ValuesItem V)}
    {l : LambdaLiteral V} (h : transformExpressionList cat store tupdesc ctr items = .ok exprs)
    (hj : items[j]? = some (.lambdaExpr l)) :
    ∃ le, transformLambdaExpr cat
        (attributeSignature store tupdesc (ctr + ValuesItem.counted (items.take j))) l = .ok le ∧
      exprs[ValuesItem.width (items.take j)]? = some (.lambdaConst le) := by
  induction items generalizing ctr exprs j with
  | nil => simp at hj
  | cons item items ih =>
    cases j with
    | zero =>
      cases hj
      obtain ⟨le, hle, h⟩ := bind_eq_ok.mp h
      obtain ⟨rest, _, h⟩ := bind_eq_ok.mp h
      cases h
      exact ⟨le, hle, rfl⟩
    | succ j =>
      have hj' : items[j]? = some (.lambdaExpr l) := hj
      cases item with
      | star types =>
        obtain ⟨rest, hrest, h⟩ := bind_eq_ok.mp h
        cases h
        obtain ⟨le, hle, hget⟩ := ih hrest hj'
        refine ⟨le, hle, ?_⟩
        have hlen : (types.map (RowExpr.other (F := F) (V := V))).length = types.length :=
          List.length_map ..
        rw [List.take_succ_cons, ValuesItem.width, ← hget, ← hlen, List.getElem?_append_right
          (Nat.le_add_right ..), Nat.add_sub_cancel_left]
      | setToDefault =>
        obtain ⟨rest, hrest, h⟩ := bind_eq_ok.mp h
        cases h
        obtain ⟨le, hle, hget⟩ := ih hrest hj'
        rw [Nat.add_right_comm] at hle
        exact ⟨le, hle, hget⟩
      | lambdaExpr l' =>
        obtain ⟨le', _, h⟩ := bind_eq_ok.mp h
        obtain ⟨rest, hrest, h⟩ := bind_eq_ok.mp h
        cases h
        obtain ⟨le, hle, hget⟩ := ih hrest hj'
        rw [Nat.add_right_comm] at hle
        exact ⟨le, hle, hget⟩
      | other t =>
        obtain ⟨rest, hrest, h⟩ := bind_eq_ok.mp h
        cases h
        obtain ⟨le, hle, hget⟩ := ih hrest hj'
        rw [Nat.add_right_comm] at hle
        exact ⟨le, hle, hget⟩

theorem exists_attribute_of_assigned {e : RowExpr F V} {u : Unit}
    (h : transformAssignedExpr tupdesc assignable col attrno e = .ok u) :
    ∃ a, tupdesc[attrno - 1]? = some a := by
  unfold transformAssignedExpr at h
  split at h
  next => cases h
  next a ha => exact ⟨a, ha⟩

/-- An expression of an accepted row is assigned to the target at its place, and
the target is an attribute of the table. -/
theorem assignRow_getElem? {assigned : List (Nat × RowExpr F V)} {e : RowExpr F V}
    (h : assignRow tupdesc assignable exprs targets = .ok assigned)
    (hlen : exprs.length ≤ targets.length) (hp : exprs[p]? = some e) :
    ∃ col attrno a, targets[p]? = some (col, attrno) ∧ assigned[p]? = some (attrno, e) ∧
      tupdesc[attrno - 1]? = some a := by
  induction exprs generalizing targets assigned p with
  | nil => simp at hp
  | cons e' exprs ih =>
    cases targets with
    | nil => simp at hlen
    | cons target targets =>
      obtain ⟨col, attrno⟩ := target
      obtain ⟨_, hassign, h⟩ := bind_eq_ok.mp h
      obtain ⟨rest, hrest, h⟩ := bind_eq_ok.mp h
      cases h
      cases p with
      | zero =>
        cases hp
        obtain ⟨a, ha⟩ := exists_attribute_of_assigned hassign
        exact ⟨col, attrno, a, rfl, rfl, ha⟩
      | succ p =>
        have hp' : exprs[p]? = some e := hp
        obtain ⟨col', attrno', a, htarget, hget, ha⟩ := ih hrest (by simpa using hlen) hp'
        exact ⟨col', attrno', a, htarget, hget, ha⟩

/-- What was done for one row of an accepted statement. -/
theorem transformValuesLists_row {len : Option Nat} {r : Nat}
    (h : transformValuesLists cat store tupdesc assignable cols targets len rows = .ok out)
    (hr : rows[r]? = some row) :
    ∃ exprs assigned, transformExpressionList cat store tupdesc 0 row = .ok exprs ∧
      transformInsertRow tupdesc assignable cols targets exprs = .ok assigned ∧
      out[r]? = some assigned := by
  induction rows generalizing len out r with
  | nil => simp at hr
  | cons row' rows ih =>
    obtain ⟨exprs, hexprs, h⟩ := bind_eq_ok.mp h
    split at h
    next => cases h
    next =>
      obtain ⟨assigned, hassigned, h⟩ := bind_eq_ok.mp h
      obtain ⟨rest, hrest, h⟩ := bind_eq_ok.mp h
      cases h
      cases r with
      | zero =>
        cases hr
        exact ⟨exprs, assigned, hexprs, hassigned, rfl⟩
      | succ r =>
        have hr' : rows[r]? = some row := hr
        obtain ⟨exprs', assigned', hexprs', hassigned', hget⟩ := ih hrest hr'
        exact ⟨exprs', assigned', hexprs', hassigned', hget⟩

theorem transformInsertRow_inv {assigned : List (Nat × RowExpr F V)}
    (h : transformInsertRow tupdesc assignable cols targets exprs = .ok assigned) :
    exprs.length ≤ targets.length ∧ assignRow tupdesc assignable exprs targets = .ok assigned := by
  unfold transformInsertRow at h
  split at h
  next => cases h
  next hlen =>
    split at h
    next => cases h
    next => exact ⟨by omega, h⟩

/-! ## The target attribute -/

/-- The index of the attribute that has `p` attributes before it that are not
dropped, and is not dropped itself. -/
def liveAttribute : List Attribute → Nat → Option Nat
  | [], _ => none
  | a :: as, p =>
    if a.attisdropped then (liveAttribute as p).map (· + 1)
    else match p with
      | 0 => some 0
      | p + 1 => (liveAttribute as p).map (· + 1)

/-- The index of the attribute an `INSERT` assigns its expression number `p` to. -/
def targetAttribute (tupdesc : List Attribute) (cols : List ResTarget) (p : Nat) : Option Nat :=
  if cols = [] then liveAttribute tupdesc p
  else cols[p]?.bind fun col =>
    tupdesc.findIdx? fun a => a.attname == col.name && !a.attisdropped

theorem defaultTargets_getElem? {i : Nat} (h : (defaultTargets i as)[p]? = some (col, attrno)) :
    ∃ k, liveAttribute as p = some k ∧ attrno = i + k + 1 := by
  induction as generalizing i p with
  | nil => simp [defaultTargets] at h
  | cons a as ih =>
    unfold defaultTargets at h
    unfold liveAttribute
    split at h
    next hd =>
      obtain ⟨k, hk, rfl⟩ := ih h
      rw [if_pos hd, hk]
      exact ⟨k + 1, rfl, by omega⟩
    next hd =>
      rw [if_neg hd]
      cases p with
      | zero =>
        cases h
        exact ⟨0, rfl, rfl⟩
      | succ p =>
        obtain ⟨k, hk, rfl⟩ := ih h
        simp only [hk]
        exact ⟨k + 1, rfl, by omega⟩

/-- A target is the attribute that its column name stands for. -/
theorem checkTargets_getElem? {wholecols partialcols : List Nat}
    (h : checkTargets tupdesc wholecols partialcols cols = .ok targets)
    (hp : targets[p]? = some (col, attrno)) :
    cols[p]? = some col ∧ attnameAttNum tupdesc col.name = some attrno := by
  induction cols generalizing wholecols partialcols targets p with
  | nil =>
    cases h
    simp at hp
  | cons col' cols ih =>
    -- whichever check was made, the rest of the list was checked after it
    have hrest : ∃ whole part rest attrno', attnameAttNum tupdesc col'.name = some attrno' ∧
        checkTargets tupdesc whole part cols = .ok rest ∧ targets = (col', attrno') :: rest := by
      unfold checkTargets at h
      split at h
      next => cases h
      next attrno' hattr =>
        split at h
        next =>
          split at h
          next => cases h
          next =>
            obtain ⟨rest, hrest, rfl⟩ := map_eq_ok.mp h
            exact ⟨_, _, rest, attrno', hattr, hrest, rfl⟩
        next =>
          split at h
          next => cases h
          next =>
            obtain ⟨rest, hrest, rfl⟩ := map_eq_ok.mp h
            exact ⟨_, _, rest, attrno', hattr, hrest, rfl⟩
    obtain ⟨whole, part, rest, attrno', hattr, hrest, rfl⟩ := hrest
    cases p with
    | zero =>
      cases hp
      exact ⟨rfl, hattr⟩
    | succ p => exact ih hrest hp

/-- The target list is the one `targetAttribute` describes. -/
theorem checkInsertTargets_getElem? (h : checkInsertTargets tupdesc cols = .ok targets)
    (hp : targets[p]? = some (col, attrno)) :
    ∃ k, targetAttribute tupdesc cols p = some k ∧ attrno = k + 1 := by
  unfold checkInsertTargets at h
  unfold targetAttribute
  split at h
  next hcols =>
    cases h
    rw [if_pos hcols]
    obtain ⟨k, hk, rfl⟩ := defaultTargets_getElem? hp
    exact ⟨k, hk, by omega⟩
  next hcols =>
    rw [if_neg hcols]
    obtain ⟨hcol, hattr⟩ := checkTargets_getElem? h hp
    obtain ⟨k, hk, rfl⟩ := Option.map_eq_some_iff.mp hattr
    exact ⟨k, by rw [hcol]; exact hk, rfl⟩

theorem le_of_liveAttribute (h : liveAttribute as p = some k) : p ≤ k := by
  induction as generalizing p k with
  | nil => cases h
  | cons a as ih =>
    unfold liveAttribute at h
    split at h
    next =>
      obtain ⟨k', hk', rfl⟩ := Option.map_eq_some_iff.mp h
      exact Nat.le_succ_of_le (ih hk')
    next =>
      cases p with
      | zero => exact Nat.zero_le k
      | succ p =>
        obtain ⟨k', hk', rfl⟩ := Option.map_eq_some_iff.mp h
        exact Nat.succ_le_succ (ih hk')

/-- Without a column list, expression `p` reaches an attribute of index `n ≤ p`
only as the plain position: nothing dropped up to it, and `p = n`. -/
theorem liveAttribute_eq_iff {n : Nat} (hn : n ≤ p) (h : liveAttribute as p = some k) :
    k = n ↔ p = n ∧ ∀ a ∈ as.take (n + 1), a.attisdropped = false := by
  induction as generalizing p n k with
  | nil => cases h
  | cons a as ih =>
    unfold liveAttribute at h
    rw [List.take_succ_cons]
    split at h
    next hd =>
      obtain ⟨k', hk', rfl⟩ := Option.map_eq_some_iff.mp h
      have hle := le_of_liveAttribute hk'
      constructor
      · intro heq
        omega
      · rintro ⟨_, hlive⟩
        rw [hlive a (List.mem_cons_self ..)] at hd
        cases hd
    next hd =>
      have ha : a.attisdropped = false := by simpa using hd
      cases p with
      | zero =>
        cases h
        obtain rfl := Nat.le_zero.mp hn
        simp [ha]
      | succ p =>
        obtain ⟨k', hk', rfl⟩ := Option.map_eq_some_iff.mp h
        cases n with
        | zero =>
          constructor
          · intro heq
            cases heq
          · rintro ⟨heq, _⟩
            cases heq
        | succ n =>
          have ih := ih (Nat.le_of_succ_le_succ hn) hk'
          simp only [Nat.add_right_cancel_iff, List.mem_cons, forall_eq_or_imp, ha, true_and]
          exact ih

/-! ## When the two agree -/

/-- The literal at item `j` of a row goes to the attribute whose index is the
number of counted items before it. Without a column list: no star before it
expands to anything, and no attribute up to that index is dropped. With one: the
column at the literal's place is that attribute. -/
def InPlace (tupdesc : List Attribute) (cols : List ResTarget) (row : List (ValuesItem V))
    (j : Nat) : Prop :=
  let before := row.take j
  if cols = [] then
    (∀ types, ValuesItem.star types ∈ before → types = []) ∧
      ∀ a ∈ tupdesc.take (ValuesItem.counted before + 1), a.attisdropped = false
  else
    ∃ col, cols[ValuesItem.width before]? = some col ∧
      tupdesc.findIdx? (fun a => a.attname == col.name && !a.attisdropped) =
        some (ValuesItem.counted before)

theorem targetAttribute_eq_iff
    (h : targetAttribute tupdesc cols (ValuesItem.width (row.take j)) = some k) :
    k = ValuesItem.counted (row.take j) ↔ InPlace tupdesc cols row j := by
  unfold targetAttribute at h
  unfold InPlace
  split at h
  next hcols =>
    rw [liveAttribute_eq_iff (ValuesItem.counted_le_width _) h,
      ValuesItem.width_eq_counted_iff]
    simp only [hcols, if_true]
  next hcols =>
    obtain ⟨col, hcol, hidx⟩ := Option.bind_eq_some_iff.mp h
    simp only [hcols, if_false, hcol, Option.some.injEq, exists_eq_left', hidx]

/-- The literal's target is another attribute than the one it is typed against,
but the two carry the same signature. -/
def SameSignatureElsewhere (store : Int → Option LambdaSignature) (tupdesc : List Attribute)
    (cols : List ResTarget) (row : List (ValuesItem V)) (j : Nat) : Prop :=
  ∃ k a b, targetAttribute tupdesc cols (ValuesItem.width (row.take j)) = some k ∧
    k ≠ ValuesItem.counted (row.take j) ∧
    tupdesc[ValuesItem.counted (row.take j)]? = some a ∧ tupdesc[k]? = some b ∧
    lambdaSigGetSignature store a.atttypmod = lambdaSigGetSignature store b.atttypmod

/-- What an accepted `INSERT` did with a literal: the signature it was resolved
with, its place in the row, and the attribute it was assigned to. -/
theorem insert_literal {r : Nat} {l : LambdaLiteral V}
    (h : transformInsertStmt cat store tupdesc assignable cols rows = .ok out)
    (hr : rows[r]? = some row) (hj : row[j]? = some (.lambdaExpr l)) :
    ∃ assigned attrno le k b, out[r]? = some assigned ∧
      assigned[ValuesItem.width (row.take j)]? = some (attrno, .lambdaConst le) ∧
      transformLambdaExpr cat
        (attributeSignature store tupdesc (ValuesItem.counted (row.take j))) l = .ok le ∧
      targetAttribute tupdesc cols (ValuesItem.width (row.take j)) = some k ∧ attrno = k + 1 ∧
      tupdesc[k]? = some b := by
  obtain ⟨targets, htargets, h⟩ := bind_eq_ok.mp h
  obtain ⟨exprs, assigned, hexprs, hassigned, hout⟩ := transformValuesLists_row h hr
  obtain ⟨le, hle, hplace⟩ := transformExpressionList_lambda hexprs hj
  obtain ⟨hlen, hrow⟩ := transformInsertRow_inv hassigned
  obtain ⟨col, attrno, b, htarget, hget, hb⟩ := assignRow_getElem? hrow hlen hplace
  obtain ⟨k, hk, rfl⟩ := checkInsertTargets_getElem? htargets htarget
  rw [Nat.zero_add] at hle
  exact ⟨assigned, k + 1, le, k, b, hout, hget, hle, hk, rfl, hb⟩

theorem attributeSignature_of_getElem? {a : Attribute} (h : tupdesc[k]? = some a) :
    attributeSignature store tupdesc k = lambdaSigGetSignature store a.atttypmod := by
  unfold attributeSignature
  rw [h]

/-- Looking up an attribute past the last one is no lookup in `pg_lambdasig`. -/
theorem lambdaSigGetSignature_ne_noSuchAttribute {typmod : Int} :
    lambdaSigGetSignature store typmod ≠ .error (.noSuchAttribute k) := by
  unfold lambdaSigGetSignature
  intro h
  split at h
  next => cases h
  next => split at h <;> cases h

/-- The signature is right in place, or by coincidence. -/
theorem attributeSignature_eq_iff {b : Attribute}
    (hk : targetAttribute tupdesc cols (ValuesItem.width (row.take j)) = some k)
    (hb : tupdesc[k]? = some b) :
    attributeSignature store tupdesc (ValuesItem.counted (row.take j)) =
        attributeSignature store tupdesc k ↔
      InPlace tupdesc cols row j ∨ SameSignatureElsewhere store tupdesc cols row j := by
  rw [← targetAttribute_eq_iff hk]
  constructor
  · intro heq
    by_cases hkn : k = ValuesItem.counted (row.take j)
    · exact .inl hkn
    · rw [attributeSignature_of_getElem? hb] at heq
      cases ha : tupdesc[ValuesItem.counted (row.take j)]? with
      | none =>
        unfold attributeSignature at heq
        rw [ha] at heq
        exact absurd heq.symm lambdaSigGetSignature_ne_noSuchAttribute
      | some a =>
        rw [attributeSignature_of_getElem? ha] at heq
        exact .inr ⟨k, a, b, hk, hkn, ha, hb, heq⟩
  · rintro (hkn | ⟨k', a, b', hk', _, ha, hb', heq⟩)
    · rw [hkn]
    · rw [hk] at hk'
      cases hk'
      rw [hb] at hb'
      cases hb'
      rw [attributeSignature_of_getElem? ha, attributeSignature_of_getElem? hb, heq]

/-- **The column a literal is typed against.** In an accepted `INSERT`, a literal
is resolved with the signature of the attribute whose index is the number of
items before it, stars not counted. That is the signature of the attribute it is
assigned to exactly if the literal stands in place, or if the attribute it goes
to happens to have the same signature. -/
theorem insert_literal_signature {cols : List ResTarget} {rows : List (List (ValuesItem V))}
    {r j : Nat} {row : List (ValuesItem V)} {l : LambdaLiteral V}
    (h : transformInsertStmt cat store tupdesc assignable cols rows = .ok out)
    (hr : rows[r]? = some row) (hj : row[j]? = some (.lambdaExpr l)) :
    ∃ assigned attrno le, out[r]? = some assigned ∧
      assigned[ValuesItem.width (row.take j)]? = some (attrno, .lambdaConst le) ∧
      transformLambdaExpr cat
        (attributeSignature store tupdesc (ValuesItem.counted (row.take j))) l = .ok le ∧
      targetAttribute tupdesc cols (ValuesItem.width (row.take j)) = some (attrno - 1) ∧
      (attributeSignature store tupdesc (ValuesItem.counted (row.take j)) =
          attributeSignature store tupdesc (attrno - 1) ↔
        InPlace tupdesc cols row j ∨ SameSignatureElsewhere store tupdesc cols row j) := by
  obtain ⟨assigned, attrno, le, k, b, hout, hget, hle, hk, hattrno, hb⟩ :=
    insert_literal h hr hj
  refine ⟨assigned, attrno, le, hout, hget, hle, ?_⟩
  rw [hattrno, Nat.add_sub_cancel]
  exact ⟨hk, attributeSignature_eq_iff hk hb⟩

end Insert

/-! ## Two lambda columns

A table with a column `f` of signature `(int4) → int4` and a column `p` of
signature `(bool) → bool`. -/

def twoColumns : List Attribute :=
  [⟨"f", false, LAMBDAOID, 0⟩, ⟨"p", false, LAMBDAOID, 1⟩]

def twoSignatures : Int → Option LambdaSignature
  | 0 => some ⟨[.scalar INT4OID], .scalar INT4OID⟩
  | 1 => some ⟨[.scalar BOOLOID], .scalar BOOLOID⟩
  | _ => none

/-- A value goes to a column of its own type. -/
def sameType (attrtype : Oid) (indirection : List String) (exprtype : Oid) : Bool :=
  indirection.isEmpty && attrtype == exprtype

/-- `λ(x)(x)`. -/
def identityLiteral : LambdaLiteral Int :=
  ⟨["x"], .columnRef ["x"]⟩

/-- The identity as it is stored when `x` is taken to be of type `t`. -/
def identityLambda (t : Oid) : LambdaExpr ArithFunc Int :=
  { scalarLambda ["x"] t (.param 0 t) with rettypmod := 0 }

/-- `INSERT INTO t (p, f) VALUES (DEFAULT, λ(x)(x))`: the literal goes to `f` and is
resolved with the signature of `p`. -/
theorem insert_literal_signature_identity :
    transformInsertStmt arithParser twoSignatures twoColumns sameType [⟨"p", []⟩, ⟨"f", []⟩]
        [[.setToDefault, .lambdaExpr identityLiteral]] =
          .ok [[(2, .setToDefault), (1, .lambdaConst (identityLambda BOOLOID))]] ∧
      ¬ (InPlace twoColumns [⟨"p", []⟩, ⟨"f", []⟩]
          [.setToDefault, .lambdaExpr identityLiteral] 1 ∨
        SameSignatureElsewhere twoSignatures twoColumns [⟨"p", []⟩, ⟨"f", []⟩]
          [.setToDefault, .lambdaExpr identityLiteral] 1) := by
  have h : transformInsertStmt arithParser twoSignatures twoColumns sameType
      [⟨"p", []⟩, ⟨"f", []⟩] [[.setToDefault, .lambdaExpr identityLiteral]] =
        .ok [[(2, .setToDefault), (1, .lambdaConst (identityLambda BOOLOID))]] := rfl
  obtain ⟨assigned, attrno, le, hout, hget, _, _, hiff⟩ :=
    insert_literal_signature (r := 0) (j := 1) h rfl rfl
  cases hout
  cases hget
  refine ⟨h, fun hplace => absurd (hiff.mpr hplace) ?_⟩
  decide

/-- **With a column list the wrong column is consulted.** `INSERT INTO t (p) VALUES
(λ(x)(x))` assigns the literal to `p`, and resolves `x` with the signature of
`f`: the value stored in `p` reads a `bool` argument as `int4`. -/
theorem column_list_misresolves :
    transformInsertStmt arithParser twoSignatures twoColumns sameType [⟨"p", []⟩]
        [[.lambdaExpr identityLiteral]] = .ok [[(2, .lambdaConst (identityLambda INT4OID))]] ∧
      transformLambdaExpr arithParser (attributeSignature twoSignatures twoColumns (2 - 1))
        identityLiteral = .ok (identityLambda BOOLOID) ∧
      attributeSignature twoSignatures twoColumns 0 ≠
        attributeSignature twoSignatures twoColumns (2 - 1) := by
  refine ⟨rfl, rfl, ?_⟩
  decide

end HolLambdas.Parse
