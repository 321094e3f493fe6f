import HolLambdas.Parse.Assign
import HolLambdas.Parse.Calls
import HolLambdas.Scalar.Renumber

/-!
# Does a residual fit the signature of its call?

A call with holes is counted in four ways. `ParseFuncOrColumn` records the positions of the
holes as a set over the call, collects the declared types there into the residual signature
and interns it; `LambdaSigNarrow` makes a signature from a mask; the executor spreads the
filled values over the mother's positions with a cursor; and `lambda_partial_apply` numbers
the held inputs anew. Nothing is carried from one count to the next but the set.

They agree where the mother has as many inputs as its signature says (`residual_matches`).
The parser does not make sure of that; what it does make sure of is that a body refers to
the literal's own names only, and so every stored lambda is closed (`Stored.closed`): inlined
into another, none of its references can be taken for one of the mother's.
-/

namespace HolLambdas.Parse

open HolLambdas.Scalar HolLambdas.Scalar.Expr HolLambdas.Catalog

variable {F V : Type}

/-! ## `LambdaSigNarrow` -/

/-- The errors of `LambdaSigNarrow`. -/
inductive NarrowError where
  /-- "cannot narrow a null lambda signature" -/
  | nullSignature
  /-- "lambda signature has %d arguments, narrow mask has %d" -/
  | maskLength (arguments mask : Nat)
deriving DecidableEq, Repr

/-- The entries that are flagged in `keep`. -/
def keepFlagged {α : Type} : List Bool → List α → List α
  | b :: keep, x :: xs => if b then x :: keepFlagged keep xs else keepFlagged keep xs
  | _, _ => []

/-- `LambdaSigNarrow`, the mask as a list. -/
def lambdaSigNarrow (sig : Option LambdaSignature) (keep : List Bool) :
    Except NarrowError LambdaSignature :=
  match sig with
  | none => .error .nullSignature
  | some sig =>
    if keep.length ≠ sig.argtypes.length then
      .error (.maskLength sig.argtypes.length keep.length)
    else .ok ⟨keepFlagged keep sig.argtypes, sig.rettype⟩

/-! ## Holes -/

/-- The mask of the holes of a call. -/
def holeMask (fargs : List CallArg) : List Bool :=
  fargs.map fun arg => decide (arg = .hole)

/-- The positions of the holes, in order. -/
def holePositions (fargs : List CallArg) : List Nat :=
  (List.range fargs.length).filter fun p => decide (fargs[p]? = some .hole)

theorem keepFlagged_holeMask {α : Type} {held : Nat → Bool} :
    ∀ {fargs : List CallArg} {xs : List α} {p : Nat}, fargs.length = xs.length →
      (∀ i, held (p + i) = true ↔ fargs[i]? = some .hole) →
      keepFlagged (holeMask fargs) xs = selectFrom held p xs
  | [], [], _, _, _ => rfl
  | arg :: fargs, x :: xs, p, hlen, hheld => by
    have hfirst : held p = decide (arg = .hole) := by
      have := hheld 0
      rw [Bool.eq_iff_iff, decide_eq_true_eq]
      simpa using this
    have hrest : ∀ i, held (p + 1 + i) = true ↔ fargs[i]? = some .hole := by
      intro i
      have := hheld (i + 1)
      rwa [List.getElem?_cons_succ, ← Nat.add_assoc, Nat.add_right_comm] at this
    have hlen' : fargs.length = xs.length := by simpa using hlen
    rw [selectFrom, hfirst, ← keepFlagged_holeMask hlen' hrest]
    rfl

theorem filter_range' (want : Nat → Bool) : ∀ n p : Nat,
    (List.range' p n).filter want = selectFrom want p (List.range' p n)
  | 0, _ => rfl
  | n + 1, p => by
    rw [List.range'_succ, List.filter_cons, selectFrom, filter_range' want n (p + 1)]

section ColumnCall

variable {coercible : Oid → Oid → Bool}

/-- The types that the loop collects are those at the holes. -/
theorem parseColumnArguments_heldtypes : ∀ {fargs : List CallArg} {σs : List LambdaSigType}
    {i : Nat} {filled : List QueryExpr} {held : List Nat} {heldtypes : List LambdaSigType},
    parseColumnArguments coercible i fargs σs = .ok (filled, held, heldtypes) →
      heldtypes = keepFlagged (holeMask fargs) σs
  | [], _, _, _, _, _, h => by
    cases h
    rfl
  | arg :: fargs, [], _, _, _, _, h => by
    cases arg with
    | hole =>
      cases h
      rfl
    | expr e =>
      cases h
      rfl
  | .hole :: fargs, σ :: σs, i, _, _, _, h => by
    obtain ⟨⟨filled', held', types'⟩, hrest, h⟩ := bind_eq_ok.mp h
    cases h
    rw [parseColumnArguments_heldtypes hrest]
    rfl
  | .expr e :: fargs, σ :: σs, i, _, _, _, h => by
    obtain ⟨e', _, h⟩ := bind_eq_ok.mp h
    obtain ⟨⟨filled', held', types'⟩, hrest, h⟩ := bind_eq_ok.mp h
    cases h
    rw [parseColumnArguments_heldtypes hrest]
    rfl

variable {S : LambdaSignature} {fargs : List CallArg} {c : CallLambdaExpr}

variable (h : parseColumnCall coercible (some S) fargs = .ok c)

include h

/-- A call with a hole has a signature for its type, the narrowed one. -/
theorem parseColumnCall_rettype (hhole : CallArg.hole ∈ fargs) :
    lambdaSigNarrow (some S) (holeMask fargs) =
        .ok ⟨keepFlagged (holeMask fargs) S.argtypes, S.rettype⟩ ∧
      c.rettype = .func (keepFlagged (holeMask fargs) S.argtypes) S.rettype := by
  obtain ⟨hlen, -⟩ := parseColumnCall_inv h
  obtain ⟨p, hp, hget⟩ := List.getElem_of_mem hhole
  have hheld : c.held p = true := (held_iff h p).mpr (List.getElem?_eq_some_iff.mpr ⟨hp, hget⟩)
  have hne : c.heldargs ≠ [] := List.ne_nil_of_mem (of_decide_eq_true hheld)
  refine ⟨if_neg (by simp [holeMask, hlen]), ?_⟩
  unfold parseColumnCall at h
  dsimp only at h
  rw [if_neg (by omega)] at h
  obtain ⟨⟨args, heldargs, heldtypes⟩, hargs, h⟩ := bind_eq_ok.mp h
  split at h
  · cases h
    rw [parseColumnArguments_heldtypes hargs]
  · next hnil =>
    split at h
    · cases h
    · cases h
      exact absurd hne hnil

/-- The `k`-th hole is the position with slot `k`. -/
theorem holePositions_newidx {p : Nat} (hp : c.held p = true) :
    (holePositions fargs)[newidx c.held p]? = some p := by
  have hlt : p < fargs.length := by
    have := (held_iff h p).mp hp
    exact (List.getElem?_eq_some_iff.mp this).1
  have hwant : (fun p => decide (fargs[p]? = some CallArg.hole)) = c.held := by
    funext q
    rw [Bool.eq_iff_iff, decide_eq_true_eq, held_iff h]
  rw [holePositions, hwant, List.range_eq_range', filter_range', newidx_eq]
  refine selectFrom_getElem? ?_ (by rwa [Nat.zero_add])
  rw [← List.range_eq_range', List.getElem?_range hlt]

theorem held_of_holePositions {k p : Nat} (hk : (holePositions fargs)[k]? = some p) :
    c.held p = true := by
  have hmem : p ∈ holePositions fargs := List.mem_of_getElem? hk
  rw [held_iff h]
  exact of_decide_eq_true (List.mem_filter.mp hmem).2

theorem newidx_of_holePositions {k p : Nat} (hk : (holePositions fargs)[k]? = some p) :
    newidx c.held p = k := by
  have hnodup : (holePositions fargs).Nodup := List.nodup_range.filter _
  have hslot := holePositions_newidx h (held_of_holePositions h hk)
  obtain ⟨hlt, -⟩ := List.getElem?_eq_some_iff.mp hslot
  exact (List.getElem?_inj hlt hnodup).mp (hslot.trans hk.symm)

end ColumnCall

/-! ## Stored lambdas -/

section Stored

variable {cat : ParserCatalog F V} {sig : Except ParseError LambdaSignature}
variable {argnames : List String} {P : Nat → Prop}

theorem listIndex_lt {names : List String} {name : String} {idx : Nat}
    (h : listIndex names name = some idx) : idx < names.length :=
  (List.findIdx?_eq_some_iff_getElem.mp h).1

theorem coerceType_over {ctx : CoercionContext} {actual target : Oid} {e e' : Expr F V}
    (h : coerceType cat ctx actual target e = .ok e') (hover : e.Over P) : e'.Over P := by
  obtain ⟨_, rfl⟩ | ⟨v, v', rfl, _, rfl⟩ | ⟨f, _, rfl⟩ := coerceType_cases h
  · exact hover
  · trivial
  · exact ⟨hover, trivial⟩

theorem makeFnArguments_over {declared : List Oid} {es es' : List (Expr F V)}
    (h : makeFnArguments cat declared es = .ok es') (hover : OverArgs P es) : OverArgs P es' := by
  induction es generalizing declared es' with
  | nil =>
    cases h
    trivial
  | cons e es ih =>
    obtain ⟨e', he, h⟩ := bind_eq_ok.mp h
    obtain ⟨es'', hes, h⟩ := bind_eq_ok.mp h
    cases h
    exact ⟨coerceType_over he hover.1, ih hes hover.2⟩

theorem overArgs_of_forall₂ {raws : List (RawExpr V)} {es : List (Expr F V)}
    (h : List.Forall₂ (fun raw e => transformExpr cat sig argnames raw = .ok e) raws es)
    (ih : ∀ raw ∈ raws, ∀ e, transformExpr cat sig argnames raw = .ok e → e.Over P) :
    OverArgs P es := by
  induction h with
  | nil => trivial
  | cons he _ ihs =>
    exact ⟨ih _ List.mem_cons_self _ he, ihs fun raw hraw => ih raw (List.mem_cons_of_mem _ hraw)⟩

/-- A transformed body refers to the inputs that have names. -/
theorem transformExpr_over {raw : RawExpr V} {e : Expr F V}
    (h : transformExpr cat sig argnames raw = .ok e) : e.Over (· < argnames.length) := by
  induction raw using RawExpr.induction generalizing e with
  | aConst t v =>
    cases h
    trivial
  | columnRef fields =>
    obtain ⟨varName, idx, S, σ, rfl, hidx, -, -, rfl⟩ := lambdaColumnRefHook_inv h
    exact listIndex_lt hidx
  | funcCall funcname raws ih =>
    obtain ⟨args, hargs, hcall⟩ := transformExpr_funcCall_inv h
    have hover := overArgs_of_forall₂ hargs fun raw hraw _ => ih raw hraw
    cases hcall with
    | coercion _ hcoerce => exact coerceType_over hcoerce hover.1
    | input hname _ _ _ hcoerce =>
      obtain ⟨name, _, hidx⟩ := Option.bind_eq_some_iff.mp hname
      exact ⟨listIndex_lt hidx, makeFnArguments_over hcoerce hover⟩
    | function _ _ hcoerce => exact makeFnArguments_over hcoerce hover
  | aExpr opname raws ih =>
    obtain ⟨operands, f, args, hargs, _, hcoerce, rfl⟩ := transformExpr_aExpr_inv h
    exact makeFnArguments_over hcoerce (overArgs_of_forall₂ hargs fun raw hraw _ => ih raw hraw)
  | caseExpr c r d ihc ihr ihd =>
    obtain ⟨c', r', d', c'', r'', d'', t, hc, hr, hd, hc', hcommon, rfl⟩ :=
      transformExpr_caseExpr_inv h
    obtain ⟨_, hd', hr'⟩ := coerceToCommonType_inv hcommon
    exact ⟨coerceType_over hc' (ihc hc), coerceType_over hr' (ihr hr), coerceType_over hd' (ihd hd)⟩
  | coalesceExpr a b iha ihb =>
    obtain ⟨a', b', a'', b'', t, ha, hb, hcommon, rfl⟩ := transformExpr_coalesceExpr_inv h
    obtain ⟨_, ha', hb'⟩ := coerceToCommonType_inv hcommon
    exact ⟨coerceType_over ha' (iha ha), coerceType_over hb' (ihb hb)⟩
  | lambdaExpr _ _ _ => cases h

/-- The lambdas that can be in a column: literals that were accepted there, and residuals of
lambdas that can be in one. -/
inductive Stored (cat : ParserCatalog F V) (rt : Runtime F V (Except LambdaError)) :
    LambdaExpr F V → Prop
  | literal {sig : Except ParseError LambdaSignature} {l : LambdaLiteral V} {le : LambdaExpr F V}
      (accepted : transformLambdaExpr cat sig l = .ok le) : Stored cat rt le
  | residual {fuel : Nat} {repr : LambdaRepr} {mother le : LambdaExpr F V} {held : Nat → Bool}
      {args : List (Option (Datum F V))} (stored : Stored cat rt mother)
      (passed : ∀ repr le, some (.lambda repr le) ∈ args → Stored cat rt le)
      (built : execPartialApply cat.toProcCatalog rt fuel (some (.lambda repr mother)) held args =
        .ok (some (.lambda .serialized le))) : Stored cat rt le

theorem Stored.closed {rt : Runtime F V (Except LambdaError)} {le : LambdaExpr F V}
    (h : Stored cat rt le) : le.Closed := by
  induction h with
  | literal accepted =>
    obtain ⟨hnames, hbody, -⟩ := transformLambdaExpr_inv accepted
    unfold LambdaExpr.Closed LambdaHeader.nargs
    rw [hnames]
    exact transformExpr_over hbody
  | residual _ _ built ihm ihargs =>
    obtain ⟨vals, baked, folded, -, -, -, hover, heq⟩ := execPartialApply_inv ihm ihargs built
    cases heq
    exact residualLambda_closed hover

end Stored

/-! ## The residual and its signature -/

section Residual

variable {cat : ParserCatalog F V} {rt : Runtime F V (Except LambdaError)}
variable {coercible : Oid → Oid → Bool}
variable {pgType : Oid → Option PgType} {formatType : Oid → String} {storage : CatalogStorage}

/-- The typmod of a partial application resolves to the type of the call. -/
theorem partialApplication_interned {s s' : Session} (hs : SessionInv pgType s)
    {S T : LambdaSignature} {fargs : List CallArg} {c : CallLambdaExpr} {e : Assign.SourceExpr}
    (hc : parseColumnCall coercible (some S) fargs = .ok c)
    (hret : c.rettype = .func T.argtypes T.rettype)
    (h : Assign.partialApplication coercible pgType formatType storage s S fargs = some (e, s')) :
    e.exprType = LAMBDAOID ∧
      Catalog.lambdaSigGetSignature pgType s'.rows e.exprTypmod = .ok T := by
  unfold Assign.partialApplication at h
  simp only [hc, hret] at h
  split at h
  · next r hr =>
    cases h
    refine ⟨rfl, ?_⟩
    have hinv := hs.call pgType formatType storage T
    have hreturned : (T, r.1) ∈ (s.call pgType formatType storage T).returned := by
      rw [Session.call, hr]
      exact List.mem_append_right _ List.mem_cons_self
    obtain ⟨hvalid, row, hrow, hid, hkey⟩ := hinv.returned _ hreturned
    have htypmod : row.lamsigid = r.1 := hid
    rw [Assign.SourceExpr.exprTypmod, ← htypmod]
    exact lambdaSigGetSignature_row hinv.table hrow hkey hvalid
  · cases h

/-- **The residual fits the signature of the call.** Let a call with at least one hole be
accepted on a column of signature `S`, and let the column hold a stored lambda with as many
names as `S` has arguments.

* The signature that the parser interns, and to which the typmod of the call resolves, is
  `S` narrowed to the holes.
* The residual has as many names as that signature has arguments, and its `k`-th name is the
  mother's at the `k`-th hole.
* The body is the mother's with the filled arguments put in, folded, and each remaining
  reference renumbered from its position to its slot; what is remaining are references of
  the mother, so one to slot `k` comes from one to the `k`-th hole. -/
theorem residual_matches {calls : List LambdaSignature} {s' : Session} {S : LambdaSignature}
    {fargs : List CallArg} {c : CallLambdaExpr} {e : Assign.SourceExpr}
    (hc : parseColumnCall coercible (some S) fargs = .ok c) (hhole : CallArg.hole ∈ fargs)
    (hintern : Assign.partialApplication coercible pgType formatType storage
      (lambdaSigSession pgType formatType storage calls) S fargs = some (e, s'))
    {mother : LambdaExpr F V} (hm : Stored cat rt mother)
    (hnames : mother.argnames.length = S.argtypes.length)
    {fuel : Nat} {repr : LambdaRepr} {args : List (Option (Datum F V))}
    (hargs : ∀ repr le, some (.lambda repr le) ∈ args → Stored cat rt le)
    {residual : LambdaExpr F V}
    (hbuilt : execPartialApply cat.toProcCatalog rt fuel (some (.lambda repr mother)) c.held args =
      .ok (some (.lambda .serialized residual))) :
    (∃ T, lambdaSigNarrow (some S) (holeMask fargs) = .ok T ∧
      c.rettype = .func T.argtypes T.rettype ∧
      Catalog.lambdaSigGetSignature pgType s'.rows e.exprTypmod = .ok T ∧
      residual.argnames.length = T.argtypes.length) ∧
    (∀ k p : Nat, (holePositions fargs)[k]? = some p →
      ∃ name, mother.argnames[p]? = some name ∧ residual.argnames[k]? = some name) ∧
    (∃ vals baked folded, spreadFilled c.held 0 mother.nargs args = .ok vals ∧
      bakedBody fuel mother c.held vals = .ok baked ∧
      evalConstExpressions cat.toProcCatalog rt baked = .ok folded ∧
      residual.expr = folded.renumber (newidx c.held) ∧
      ∀ ref ∈ folded.references, c.held ref.index = true ∧ mother.expr.mentions ref.index = true) ∧
    ∀ ref ∈ residual.expr.references, ∃ p, (holePositions fargs)[ref.index]? = some p ∧
      mother.expr.mentions p = true := by
  obtain ⟨hlen, -⟩ := parseColumnCall_inv hc
  obtain ⟨hnarrow, hret⟩ := parseColumnCall_rettype hc hhole
  obtain ⟨vals, baked, folded, hvals, hbaked, hfolded, hover, heq⟩ :=
    execPartialApply_inv hm.closed (fun repr le hle => (hargs repr le hle).closed) hbuilt
  cases heq
  refine ⟨⟨_, hnarrow, hret, ?_, ?_⟩, fun k p hk => ?_, ⟨vals, baked, folded, hvals, hbaked,
    hfolded, rfl, fun ref href => ?_⟩, fun ref href => ?_⟩
  · exact (partialApplication_interned (sessionInv_session pgType formatType storage calls) hc hret
      hintern).2
  · -- both lists are what a selection by the same positions leaves
    have hkeep := keepFlagged_holeMask hlen (p := 0) fun i => by rw [Nat.zero_add, held_iff hc i]
    rw [hkeep]
    exact selectFrom_length_eq hnames
  · have hp := held_of_holePositions hc hk
    have hlt : p < mother.nargs := by
      have := (List.getElem?_eq_some_iff.mp ((held_iff hc p).mp hp)).1
      unfold LambdaHeader.nargs
      omega
    refine ⟨_, List.getElem?_eq_getElem hlt, ?_⟩
    rw [← newidx_of_holePositions hc hk]
    exact argnames_newidx hp hlt
  · have href' := hover.references ref href
    exact ⟨href'.1, href'.2.1⟩
  · have hslots : (folded.renumber (newidx c.held)).Over fun k =>
        ∃ p, (holePositions fargs)[k]? = some p ∧ mother.expr.mentions p = true :=
      hover.renumber fun p hp => ⟨p, holePositions_newidx hc hp.1, hp.2.1⟩
    exact hslots.references ref href

end Residual

/-! ### `fn(succ, _)`, where `fn` is `λ(f, h)(h(f))` -/

def passLiteral : LambdaLiteral Int :=
  ⟨["f", "h"], .funcCall ["h"] [.columnRef ["f"]]⟩

def succLiteral : LambdaLiteral Int :=
  ⟨["y"], .aExpr "+" [.columnRef ["y"], .aConst INT4OID (some 1)]⟩

def passCallArgs : List CallArg :=
  [.expr ⟨LAMBDAOID, some successorSignature⟩, .hole]

def passCall : CallLambdaExpr where
  args := [⟨LAMBDAOID, some successorSignature⟩]
  heldargs := [1]
  rettype := .func [.func [.func [.scalar INT4OID] (.scalar INT4OID)] (.scalar INT4OID)]
    (.scalar INT4OID)

/-- `λ(h)(h(λ(y)(y + 1)))`. -/
def passedSuccLambda : LambdaExpr ArithFunc Int :=
  { scalarLambda ["h"] INT4OID (.lfa ["h"] INT4OID 0 [succLambda.toExpr]) with lambdatypmod := -1 }

theorem passLambda_stored : Stored arithParser arithTotalRuntime passLambda :=
  have haccepted : transformLambdaExpr arithParser (.ok passSignature) passLiteral =
    .ok passLambda := rfl
  .literal haccepted

theorem succLambda_stored : Stored arithParser arithTotalRuntime succLambda :=
  have haccepted : transformLambdaExpr arithParser (.ok successorSignature) succLiteral =
    .ok succLambda := rfl
  .literal haccepted

theorem residual_matches_pass :
    holePositions passCallArgs = [1] ∧
    ∃ e s', Assign.partialApplication (fun _ _ => false) plainTypes (fun _ => "t") leastOid
        (lambdaSigSession plainTypes (fun _ => "t") leastOid [passSignature]) passSignature
        passCallArgs = some (e, s') ∧
      execPartialApply arithCatalog arithTotalRuntime 1 (some (.lambda .serialized passLambda))
        passCall.held [some (.lambda .serialized succLambda)] =
          .ok (some (.lambda .serialized passedSuccLambda)) ∧
      (∃ T, lambdaSigNarrow (some passSignature) [false, true] = .ok T ∧
        Catalog.lambdaSigGetSignature plainTypes s'.rows e.exprTypmod = .ok T ∧
        passedSuccLambda.argnames.length = T.argtypes.length) ∧
      ∀ ref ∈ passedSuccLambda.expr.references, ∃ p,
        (holePositions passCallArgs)[ref.index]? = some p ∧ passLambda.expr.mentions p = true := by
  have hc : parseColumnCall (fun _ _ => false) (some passSignature) passCallArgs = .ok passCall :=
    rfl
  have hsome : (Assign.partialApplication (fun _ _ => false) plainTypes (fun _ => "t") leastOid
      (lambdaSigSession plainTypes (fun _ => "t") leastOid [passSignature]) passSignature
      passCallArgs).isSome = true := by decide +kernel
  obtain ⟨⟨e, s'⟩, hintern⟩ := Option.isSome_iff_exists.mp hsome
  have hargs : ∀ repr le, some (.lambda repr le) ∈
      ([some (.lambda .serialized succLambda)] : List (Option (Datum ArithFunc Int))) →
        Stored arithParser arithTotalRuntime le := by
    intro repr le hle
    cases List.mem_singleton.mp hle
    exact succLambda_stored
  have hbuilt : execPartialApply arithCatalog arithTotalRuntime 1
      (some (.lambda .serialized passLambda)) passCall.held
      [some (.lambda .serialized succLambda)] =
        .ok (some (.lambda .serialized passedSuccLambda)) := rfl
  obtain ⟨⟨T, hnarrow, -, hresolved, hlen⟩, -, -, hrefs⟩ :=
    residual_matches hc (by decide) hintern passLambda_stored rfl hargs hbuilt
  exact ⟨by decide, e, s', hintern, hbuilt, ⟨T, hnarrow, hresolved, hlen⟩, hrefs⟩

end HolLambdas.Parse
