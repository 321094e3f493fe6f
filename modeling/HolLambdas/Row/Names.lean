import HolLambdas.Scalar.Flatten
import HolLambdas.Parse.RowContext
import HolLambdas.Row.Meaning

/-!
# Are function inputs bound by name?

In the body of a row-context lambda `b.f` is a name, but what the injector gets is a
position, and it reads the lambda from that position of the row that the subquery
delivers. Three positions are involved: where `b` declares `f`, where the subquery
has a column of that name, and where the injector looks. A call takes the first, a
reference the second, and the injector reads the declared columns and the row's
values in parallel.

So everything fits together as long as the declaration lists the columns where the
subquery has them, which nothing checks: `boundByName_iff`.
-/

namespace HolLambdas.Row

open Scalar Parse

variable {F V : Type}

/-! ## Positions -/

namespace RowHeader

/-- Where `f` is declared, row and column counted from 1. -/
def declaredPosition (h : RowHeader) (b f : String) : Option (Nat × Nat) :=
  (listIndex h.argnames b).bind fun i =>
    (h.argtypes[i]?).bind fun params =>
      (params.findIdx? fun param => param.name = f).map fun j => (i + 1, j + 1)

/-- Where the subquery of row `b` has its column `f`. -/
def columnPosition (h : RowHeader) (b f : String) : Option (Nat × Nat) :=
  (listIndex h.argnames b).bind fun i =>
    (h.argTypesTupDesc[i]?).bind fun desc =>
      (desc.findIdx? fun attr => attr.attname = f).map fun j => (i + 1, j + 1)

/-- The input `f` of row `b` is declared as a function. -/
def IsFunctionInput (h : RowHeader) (b f : String) : Prop :=
  ∃ p k σs ρ, h.declaredPosition b f = some (p, k) ∧
    column h.sigtypes p k = some (.func σs ρ)

/-- The lambda in the subquery's column `f`, for the current rows. -/
def columnLambda (h : RowHeader) (innerLambdas : List (List (Option (Datum F V))))
    (b f : String) : Option (LambdaExpr F V) :=
  (h.columnPosition b f).bind fun pk => tupleLambda innerLambdas pk.1 pk.2

/-- The ids that a call of `b.f` gets. -/
def callIds (h : RowHeader) (b f : String) : Option (Nat × Nat) :=
  (matchingLambdaInput h b f).map fun found => (found.1 + 1, found.2.1 + 1)

end RowHeader

/-- A call of `b.f` and a reference to it both get the ids `p` and `k`, and at these
the injector finds the lambda in the subquery's column `f`. -/
structure BoundByName (F V : Type) (h : RowHeader) (b f : String) (p k : Nat) : Prop where
  call : h.callIds b f = some (p, k)
  reference : ∃ t, lambdaColumnRefHook h [b, f] = .ok (.lfa [b, f] t p k [] : RowBody F V)
  substituted : ∀ (innerLambdas : List (List (Option (Datum F V)))) (args : MotherArgs F V),
    injectorArgs innerLambdas h.sigtypes = .ok args →
    ∃ le, h.columnLambda innerLambdas b f = some le ∧
      ∀ perr ferr, motherArg perr ferr args p k = .ok (some (embedLambda le))

/-! ## Which subquery a row gets -/

/-- The cursor is at the subquery whose number is the number of aliases so far, or
stays at the last. -/
def SubtableCursor.InStep (nltis : Nat) (c : SubtableCursor) : Prop :=
  c.subtableInfo = min c.argCounter (nltis - 1)

theorem SubtableCursor.InStep.next {nltis : Nat} {c : SubtableCursor} (hc : c.InStep nltis) :
    (c.next nltis).InStep nltis := by
  unfold InStep at hc
  unfold InStep SubtableCursor.next
  by_cases hlt : c.argCounter < nltis - 1
  · simp only [hlt, if_true]
    omega
  · simp only [hlt, if_false]
    omega

/-- The cursor that a call has after `n` aliases of its lambdas. -/
theorem SubtableCursor.inStep_iterate (nltis n : Nat) :
    ((SubtableCursor.next nltis)^[n] ⟨0, 0⟩).InStep nltis := by
  induction n with
  | zero => exact (Nat.zero_min _).symm
  | succ n ih =>
    rw [Function.iterate_succ_apply']
    exact ih.next

/-- The `i`-th row of a lambda gets the subquery that follows those of the rows before
it, as long as there is one. -/
theorem assignTupDescs_getElem {ltiList : List TupleDesc} {names : List String} {c : SubtableCursor}
    {argCheckList : List String} {descs : List TupleDesc} (hc : c.InStep ltiList.length)
    (hok : assignTupDescs ltiList c argCheckList names = .ok descs) {i : Nat}
    (hi : i < names.length) :
    descs[i]? = ltiList[min (c.argCounter + i) (ltiList.length - 1)]? := by
  induction names generalizing c argCheckList descs i with
  | nil => cases hi
  | cons name names ih =>
    rw [assignTupDescs] at hok
    split at hok
    · cases hok
    split at hok
    · cases hok
    next desc hdesc =>
    obtain ⟨descs', hdescs, hok⟩ := bind_eq_ok.mp hok
    cases hok
    cases i with
    | zero =>
      have hsub : c.subtableInfo = min c.argCounter (ltiList.length - 1) := hc
      rw [List.getElem?_cons_zero, ← hdesc, hsub, Nat.add_zero]
    | succ i =>
      have hnext : (c.next ltiList.length).argCounter = c.argCounter + 1 := rfl
      rw [List.getElem?_cons_succ, ih hc.next hdescs (Nat.lt_of_succ_lt_succ hi), hnext,
        Nat.add_assoc, Nat.add_comm 1 i]

/-! ## The loops over columns -/

/-- A loop that counts up to the first element with `p` stops at its position. -/
theorem loop_position {α : Type} {p : α → Prop} [DecidablePred p]
    {loop : Nat → List α → Option (Nat × α)} (hnil : ∀ n, loop n [] = none)
    (hcons : ∀ n x xs, loop n (x :: xs) = if p x then some (n, x) else loop (n + 1) xs)
    (n : Nat) (xs : List α) :
    (loop n xs).map Prod.fst = (xs.findIdx? fun x => p x).map (· + n) := by
  induction xs generalizing n with
  | nil => rw [hnil]; rfl
  | cons x xs ih =>
    rw [hcons, List.findIdx?_cons]
    by_cases hx : p x
    · simp [hx]
    · simp [hx, ih, Function.comp_def, Nat.add_comm, Nat.add_left_comm]

theorem findInputParam_eq (field : String) (n : Nat) (params : List LambdaInputParam) :
    (findInputParam field n params).map Prod.fst =
      (params.findIdx? fun param => param.name = field).map (· + n) :=
  loop_position (fun _ => rfl) (fun _ _ _ => rfl) n params

theorem findAttribute_eq (colName : String) (n : Nat) (desc : TupleDesc) :
    (findAttribute colName n desc).map Prod.fst =
      (desc.findIdx? fun attr => attr.attname = colName).map (· + n) :=
  loop_position (fun _ => rfl) (fun _ _ _ => rfl) n desc

theorem callIds_eq (h : RowHeader) (b f : String) : h.callIds b f = h.declaredPosition b f := by
  unfold RowHeader.callIds RowHeader.declaredPosition matchingLambdaInput
  cases hb : listIndex h.argnames b with
  | none => rfl
  | some i =>
    simp only [Option.bind_some]
    cases hi : h.argtypes[i]? with
    | none => rfl
    | some params =>
      have hloop := findInputParam_eq f 0 params
      simp only [Nat.add_zero, Option.map_id'] at hloop
      simp only [Option.bind_some, ← hloop, Option.map_map]
      rfl

variable {h : RowHeader} {e : RowBody F V} {b f : String} {p k : Nat} {cat : ParserCatalog F V}

/-- A reference becomes an alias or a field, at the position of its column. -/
theorem lambdaColumnRefHook_ok {fields : List String} (hok : lambdaColumnRefHook h fields = .ok e) :
    ∃ b f p k, fields = [b, f] ∧ h.columnPosition b f = some (p, k) ∧
      ((∃ t, e = .lfa [b, f] t p k []) ∨ ∃ t, e = .field p k t) := by
  unfold lambdaColumnRefHook at hok
  split at hok
  next rowAlias colName =>
    split at hok
    · cases hok
    next idx1 hidx =>
    split at hok
    · cases hok
    next desc hdesc =>
    split at hok
    · cases hok
    next attr hattr =>
    split at hok
    · cases hok
    next argType _ =>
    have hpos : h.columnPosition rowAlias colName = some (idx1 + 1, attr.1 + 1) := by
      have hloop := findAttribute_eq colName 0 desc
      simp only [hattr, Nat.add_zero, Option.map_some, Option.map_id'] at hloop
      simp only [RowHeader.columnPosition, hidx, hdesc, Option.bind_some, ← hloop,
        Option.map_some]
    refine ⟨rowAlias, colName, _, _, rfl, hpos, ?_⟩
    split at hok
    · cases hok
      exact .inl ⟨_, rfl⟩
    · cases hok
      exact .inr ⟨_, rfl⟩
  · cases hok

/-- Where the alias is found, its row is the first that `get_input_param_from_name`
looks into. -/
theorem findSome_of_listIndex {rows : List (String × List LambdaInputParam)}
    {pred : LambdaInputParam → Bool} {i : Nat} {params : List LambdaInputParam}
    {param : LambdaInputParam} (hi : listIndex (rows.map Prod.fst) b = some i)
    (hrow : (rows.map Prod.snd)[i]? = some params) (hfind : params.find? pred = some param) :
    (rows.findSome? fun row => if row.1 = b then row.2.find? pred else none) = some param := by
  induction rows generalizing i with
  | nil => cases hi
  | cons row rows ih =>
    rw [List.findSome?_cons]
    simp only [listIndex, List.map_cons, List.findIdx?_cons] at hi
    by_cases hname : row.1 = b
    · simp only [hname, beq_self_eq_true, if_true, Option.some.injEq] at hi
      subst hi
      simp only [List.map_cons, List.getElem?_cons_zero, Option.some.injEq] at hrow
      rw [if_pos hname, hrow, hfind]
    · rw [if_neg (by simpa using hname)] at hi
      obtain ⟨j, hj, rfl⟩ := Option.map_eq_some_iff.mp hi
      rw [if_neg hname]
      exact ih hj (by simpa using hrow)

/-- A function input is found by `get_input_param_from_name`. -/
theorem getInputParamFromName_of_isFunctionInput (hfun : h.IsFunctionInput b f) :
    ∃ param, getInputParamFromName h b f = some param ∧ param.type.isFunction = true := by
  obtain ⟨p, k, σs, ρ, hdecl, hcol⟩ := hfun
  obtain ⟨i, hi, hrest⟩ := Option.bind_eq_some_iff.mp hdecl
  obtain ⟨params, hparams, hrest⟩ := Option.bind_eq_some_iff.mp hrest
  obtain ⟨j, hj, heq⟩ := Option.map_eq_some_iff.mp hrest
  cases heq
  obtain ⟨hlt, hname, hbefore⟩ := List.findIdx?_eq_some_iff_getElem.mp hj
  have hfind : params.find? (fun param => param.name = f) = some params[j] :=
    List.find?_eq_some_iff_getElem.mpr ⟨hname, j, hlt, rfl, fun m hm => by simpa using hbefore m hm⟩
  refine ⟨params[j], findSome_of_listIndex hi hparams hfind, ?_⟩
  have hrow : h.sigtypes[i]? = some (params.map LambdaInputParam.type) := by
    simp [RowHeader.sigtypes, hparams]
  have htype : column h.sigtypes (i + 1) (j + 1) = some params[j].type :=
    column_succ hrow (by simp [hlt])
  rw [htype] at hcol
  rw [Option.some.inj hcol]
  rfl

theorem lambdaColumnRefHook_of_columnPosition (hpos : h.columnPosition b f = some (p, k))
    (hfun : h.IsFunctionInput b f) :
    ∃ t, lambdaColumnRefHook h [b, f] = .ok (.lfa [b, f] t p k [] : RowBody F V) := by
  obtain ⟨param, hparam, hisfun⟩ := getInputParamFromName_of_isFunctionInput hfun
  obtain ⟨i, hi, hrest⟩ := Option.bind_eq_some_iff.mp hpos
  obtain ⟨desc, hdesc, hrest⟩ := Option.bind_eq_some_iff.mp hrest
  obtain ⟨j, hj, heq⟩ := Option.map_eq_some_iff.mp hrest
  cases heq
  have hloop := findAttribute_eq f 0 desc
  rw [hj] at hloop
  obtain ⟨attr, hattr, hfst⟩ := Option.map_eq_some_iff.mp hloop
  refine ⟨param.rettype, ?_⟩
  simp only [lambdaColumnRefHook, hi, hdesc, hattr, hparam, hisfun, if_true, hfst, Nat.add_zero]

/-! ## The aliases of a body -/

mutual

/-- Every call of a function input and every reference to one, with its name and ids. -/
def RowBody.aliases : RowBody F V → List (List String × Nat × Nat)
  | .const _ _ => []
  | .field _ _ _ => []
  | .func _ args => aliasesArgs args
  | .caseWhen _ c r d => c.aliases ++ r.aliases ++ d.aliases
  | .coalesce _ a b => a.aliases ++ b.aliases
  | .lfa name _ p k args => (name, p, k) :: aliasesArgs args

def RowBody.aliasesArgs : List (RowBody F V) → List (List String × Nat × Nat)
  | [] => []
  | e :: es => e.aliases ++ aliasesArgs es

end

theorem coercedRow_aliases {ctx : CoercionContext} {actual target : Oid} {e' : RowBody F V}
    (hok : coercedRow cat ctx actual target e = some e') :
    e'.aliases = e.aliases := by
  have hcast : ∀ {x : Option F}, x.map (fun f => RowBody.func f [e]) = some e' →
      e'.aliases = e.aliases := by
    intro x hx
    obtain ⟨f, _, rfl⟩ := Option.map_eq_some_iff.mp hx
    simp [RowBody.aliases, RowBody.aliasesArgs]
  unfold coercedRow at hok
  split at hok
  next t v =>
    split at hok
    · obtain ⟨v', _, rfl⟩ := Option.map_eq_some_iff.mp hok
      rfl
    · exact hcast hok
  · exact hcast hok

theorem coerceRow_aliases {ctx : CoercionContext} {actual target : Oid} {e' : RowBody F V}
    (hok : coerceRow cat ctx actual target e = .ok e') :
    e'.aliases = e.aliases := by
  unfold coerceRow at hok
  split at hok
  · cases hok
    rfl
  split at hok
  next e'' he =>
    cases hok
    exact coercedRow_aliases he
  · cases hok

theorem makeRowFnArguments_aliases :
    ∀ {declared : List Oid} {es es' : List (RowBody F V)},
      makeRowFnArguments cat declared es = .ok es' →
      RowBody.aliasesArgs es' = RowBody.aliasesArgs es
  | _, [], es', hok => by
    cases hok
    rfl
  | declared, e :: es, es', hok => by
    obtain ⟨e₁, he, hok⟩ := bind_eq_ok.mp hok
    obtain ⟨es₁, hes, hok⟩ := bind_eq_ok.mp hok
    cases hok
    rw [RowBody.aliasesArgs, RowBody.aliasesArgs, coerceRow_aliases he,
      makeRowFnArguments_aliases hes]

theorem withoutHoles_ok {err : RowParseError} :
    ∀ {fargs : List (Option (RowBody F V))} {es : List (RowBody F V)},
      withoutHoles err fargs = .ok es → fargs = es.map some
  | [], es, hok => by
    cases hok
    rfl
  | none :: _, es, hok => by cases hok
  | some e :: fargs, es, hok => by
    obtain ⟨es', hes, hok⟩ := bind_eq_ok.mp hok
    cases hok
    rw [withoutHoles_ok hes]
    rfl

/-- The ids are those of a call or those of a reference. -/
def Resolved (h : RowHeader) (x : List String × Nat × Nat) : Prop :=
  ∃ b f, x.1 = [b, f] ∧ (h.callIds b f = some x.2 ∨ h.columnPosition b f = some x.2)

section Resolved

variable {cat : ParserCatalog F V} {h : RowHeader}

/-- All aliases among the arguments of a call are resolved, holes aside. -/
def ArgsResolved (h : RowHeader) (fargs : List (Option (RowBody F V))) : Prop :=
  ∀ e, some e ∈ fargs → ∀ x ∈ e.aliases, Resolved h x

variable {fargs : List (Option (RowBody F V))} {e : RowBody F V}

theorem ArgsResolved.of_withoutHoles {err : RowParseError} {es : List (RowBody F V)}
    (hargs : ArgsResolved h fargs)
    (hok : withoutHoles err fargs = .ok es) : ∀ x ∈ RowBody.aliasesArgs es, Resolved h x := by
  rw [withoutHoles_ok hok] at hargs
  clear hok
  induction es with
  | nil =>
    intro x hx
    cases hx
  | cons e es ih =>
    intro x hx
    rcases List.mem_append.mp hx with he | hes
    · exact hargs e (by simp) x he
    · exact ih (fun e' he' => hargs e' (by simp_all)) x hes

theorem lambdaColumnRefHook_resolved {fields : List String}
    (hok : lambdaColumnRefHook h fields = .ok e) : ∀ x ∈ e.aliases, Resolved h x := by
  intro x hx
  obtain ⟨b, f, p, k, rfl, hpos, ⟨t, rfl⟩ | ⟨t, rfl⟩⟩ := lambdaColumnRefHook_ok hok
  · simp only [RowBody.aliases, RowBody.aliasesArgs, List.mem_singleton] at hx
    subst hx
    exact ⟨b, f, rfl, .inr hpos⟩
  · cases hx

theorem parseRowInput_resolved {b f : String} {found : Nat × Nat × LambdaInputParam}
    (hfound : matchingLambdaInput h b f = some found) (hargs : ArgsResolved h fargs)
    (hok : parseRowInput cat [b, f] found fargs = .ok e) : ∀ x ∈ e.aliases, Resolved h x := by
  obtain ⟨es, hes, hok⟩ := bind_eq_ok.mp hok
  have hres := hargs.of_withoutHoles hes
  split at hok
  · cases hok
  split at hok
  · cases hok
  next target e' =>
    rw [coerceRow_aliases hok]
    simpa [RowBody.aliasesArgs] using hres
  next =>
    obtain ⟨es', hes', hok⟩ := bind_eq_ok.mp hok
    cases hok
    intro x hx
    rcases List.mem_cons.mp hx with rfl | hx
    · exact ⟨b, f, rfl, .inl (by rw [RowHeader.callIds, hfound]; rfl)⟩
    · rw [makeRowFnArguments_aliases hes'] at hx
      exact hres x hx

theorem parseRowFunction_resolved {funcname : List String} (hargs : ArgsResolved h fargs)
    (hok : parseRowFunction cat funcname fargs = .ok e) : ∀ x ∈ e.aliases, Resolved h x := by
  obtain ⟨es, hes, hok⟩ := bind_eq_ok.mp hok
  have hres := hargs.of_withoutHoles hes
  split at hok
  · cases hok
  next target e' =>
    rw [coerceRow_aliases hok]
    simpa [RowBody.aliasesArgs] using hres
  next =>
    obtain ⟨es', hes', hok⟩ := bind_eq_ok.mp hok
    cases hok
    rw [RowBody.aliases, makeRowFnArguments_aliases hes']
    exact hres
  · cases hok

theorem parseRowFuncOrColumn_resolved {funcname : List String} (hargs : ArgsResolved h fargs)
    (hok : parseRowFuncOrColumn cat h funcname fargs = .ok e) :
    ∀ x ∈ e.aliases, Resolved h x := by
  unfold parseRowFuncOrColumn at hok
  split at hok
  · split at hok
    next found hfound => exact parseRowInput_resolved hfound hargs hok
    · exact parseRowFunction_resolved hargs hok
  · exact parseRowFunction_resolved hargs hok

mutual

/-- Every alias of an analysed body is resolved in one of the two ways. -/
theorem transformRowExpr_resolved : ∀ {raw : RawExpr V} {e : RowBody F V},
    transformRowExpr cat h raw = .ok e → ∀ x ∈ e.aliases, Resolved h x
  | .aConst t v, e, hok => by
    cases hok
    intro x hx
    cases hx
  | .columnRef fields, e, hok => lambdaColumnRefHook_resolved hok
  | .funcCall funcname args, e, hok => by
    obtain ⟨fargs, hfargs, hok⟩ := bind_eq_ok.mp hok
    exact parseRowFuncOrColumn_resolved (transformRowFuncArgs_resolved hfargs) hok
  | .aExpr opname args, e, hok => by
    obtain ⟨operands, hoperands, hok⟩ := bind_eq_ok.mp hok
    have hres := transformRowExprs_resolved hoperands
    unfold makeRowOp at hok
    split at hok
    · cases hok
    obtain ⟨es', hes', hok⟩ := bind_eq_ok.mp hok
    cases hok
    rw [RowBody.aliases, makeRowFnArguments_aliases hes']
    exact hres
  | .caseExpr c r d, e, hok => by
    obtain ⟨c₁, hc, hok⟩ := bind_eq_ok.mp hok
    obtain ⟨c₂, hc', hok⟩ := bind_eq_ok.mp hok
    obtain ⟨r₁, hr, hok⟩ := bind_eq_ok.mp hok
    obtain ⟨d₁, hd, hok⟩ := bind_eq_ok.mp hok
    obtain ⟨t, _, hok⟩ := bind_eq_ok.mp hok
    obtain ⟨d₂, hd', hok⟩ := bind_eq_ok.mp hok
    obtain ⟨r₂, hr', hok⟩ := bind_eq_ok.mp hok
    cases hok
    intro x hx
    simp only [RowBody.aliases, coerceRow_aliases hc', coerceRow_aliases hr',
      coerceRow_aliases hd', List.mem_append] at hx
    rcases hx with (hx | hx) | hx
    · exact transformRowExpr_resolved hc x hx
    · exact transformRowExpr_resolved hr x hx
    · exact transformRowExpr_resolved hd x hx
  | .coalesceExpr a b, e, hok => by
    obtain ⟨a₁, ha, hok⟩ := bind_eq_ok.mp hok
    obtain ⟨b₁, hb, hok⟩ := bind_eq_ok.mp hok
    obtain ⟨t, _, hok⟩ := bind_eq_ok.mp hok
    obtain ⟨a₂, ha', hok⟩ := bind_eq_ok.mp hok
    obtain ⟨b₂, hb', hok⟩ := bind_eq_ok.mp hok
    cases hok
    intro x hx
    simp only [RowBody.aliases, coerceRow_aliases ha', coerceRow_aliases hb',
      List.mem_append] at hx
    rcases hx with hx | hx
    · exact transformRowExpr_resolved ha x hx
    · exact transformRowExpr_resolved hb x hx
  | .lambdaExpr _ _, e, hok => by cases hok

theorem transformRowExprs_resolved : ∀ {raws : List (RawExpr V)} {es : List (RowBody F V)},
    transformRowExprs cat h raws = .ok es → ∀ x ∈ RowBody.aliasesArgs es, Resolved h x
  | [], es, hok => by
    cases hok
    intro x hx
    cases hx
  | raw :: raws, es, hok => by
    obtain ⟨e₁, he, hok⟩ := bind_eq_ok.mp hok
    obtain ⟨es₁, hes, hok⟩ := bind_eq_ok.mp hok
    cases hok
    intro x hx
    rcases List.mem_append.mp hx with hx | hx
    · exact transformRowExpr_resolved he x hx
    · exact transformRowExprs_resolved hes x hx

theorem transformRowFuncArgs_resolved : ∀ {raws : List (RawExpr V)}
    {fargs : List (Option (RowBody F V))}, transformRowFuncArgs cat h raws = .ok fargs →
      ArgsResolved h fargs
  | [], fargs, hok => by
    cases hok
    intro e he
    cases he
  | raw :: raws, fargs, hok => by
    simp only [transformRowFuncArgs] at hok
    split at hok
    · obtain ⟨es₁, hes, hok⟩ := bind_eq_ok.mp hok
      cases hok
      intro e he
      exact transformRowFuncArgs_resolved hes e (by simpa using he)
    · obtain ⟨e₁, he₁, hok⟩ := bind_eq_ok.mp hok
      obtain ⟨es₁, hes, hok⟩ := bind_eq_ok.mp hok
      cases hok
      intro e he
      rcases List.mem_cons.mp he with he | he
      · cases he
        exact transformRowExpr_resolved he₁
      · exact transformRowFuncArgs_resolved hes e he

end

end Resolved

/-! ## The result -/

/-- One function input: it is bound by name if the subquery has the column where it
is declared. -/
theorem boundByName_of_position (hdecl : h.declaredPosition b f = some (p, k))
    (hcol : h.columnPosition b f = some (p, k))
    (hfun : h.IsFunctionInput b f) : BoundByName F V h b f p k where
  call := by rw [callIds_eq, hdecl]
  reference := lambdaColumnRefHook_of_columnPosition hcol hfun
  substituted innerLambdas args hargs := by
    obtain ⟨p', k', σs, ρ, hdecl', htype⟩ := hfun
    rw [hdecl] at hdecl'
    cases hdecl'
    obtain ⟨le, hle, harg⟩ := motherArg_of_injectorArgs hargs htype
    exact ⟨le, by rw [RowHeader.columnLambda, hcol]; exact hle, harg⟩

theorem BoundByName.positions_eq (hbound : BoundByName F V h b f p k) :
    h.declaredPosition b f = h.columnPosition b f := by
  obtain ⟨t, href⟩ := hbound.reference
  obtain ⟨b', f', p', k', hname, hpos, ⟨t', heq⟩ | ⟨t', heq⟩⟩ := lambdaColumnRefHook_ok href
  · cases hname
    cases heq
    rw [← callIds_eq, hbound.call, hpos]
  · cases heq

/-- **Binding by name.** In an accepted lambda, every call of a function input and every
reference to one is bound by name exactly if each function input the body uses is
declared at the position its column has in the subquery. -/
theorem boundByName_iff {cat : ParserCatalog F V} {ltiList : List TupleDesc} {c : SubtableCursor}
    {l : RowLiteral V} {lambda : RowLambda F V}
    (haccepted : transformRowLambda cat ltiList c l = .ok lambda) :
    (∀ b f p k, ([b, f], p, k) ∈ lambda.expr.aliases → lambda.IsFunctionInput b f →
        BoundByName F V lambda.toRowHeader b f p k) ↔
      ∀ b f p k, ([b, f], p, k) ∈ lambda.expr.aliases → lambda.IsFunctionInput b f →
        lambda.declaredPosition b f = lambda.columnPosition b f := by
  obtain ⟨descs, _, hok⟩ := bind_eq_ok.mp haccepted
  obtain ⟨expr, hexpr, hok⟩ := bind_eq_ok.mp hok
  cases hok
  constructor
  · intro hbound b f p k hmem hfun
    exact (hbound b f p k hmem hfun).positions_eq
  · intro hpos b f p k hmem hfun
    have heq := hpos b f p k hmem hfun
    obtain ⟨b', f', hname, hids⟩ := transformRowExpr_resolved hexpr _ hmem
    cases hname
    rw [callIds_eq] at hids
    rcases hids with hdecl | hcol
    · exact boundByName_of_position hdecl (by rw [← heq]; exact hdecl) hfun
    · exact boundByName_of_position (by rw [heq]; exact hcol) hcol hfun

/-! The lambda `lambda(a:[x:int], b:[f:(int, int -> int), g:(int, int -> int)]) b.f(a.x, a.x)`,
over a subquery with the columns `f`, `g` and over one that has them the other way round.
The column `f` holds `λ(y, z) y / z`, the column `g` holds `λ(y, z) y + z`. -/

def intFunction : LambdaSigType :=
  .func [.scalar INT4OID, .scalar INT4OID] (.scalar INT4OID)

def callLiteral : RowLiteral Int where
  rows := [("a", [⟨"x", .scalar INT4OID⟩]), ("b", [⟨"f", intFunction⟩, ⟨"g", intFunction⟩])]
  expr := .funcCall ["b", "f"] [.columnRef ["a", "x"], .columnRef ["a", "x"]]

def dataDesc : TupleDesc :=
  subqueryDesc [⟨"x", INT4OID, -1⟩]

def functionsDesc : TupleDesc :=
  subqueryDesc [⟨"f", LAMBDAOID, -1⟩, ⟨"g", LAMBDAOID, -1⟩]

def swappedDesc : TupleDesc :=
  subqueryDesc [⟨"g", LAMBDAOID, -1⟩, ⟨"f", LAMBDAOID, -1⟩]

/-- After a lambda with one row, both rows of the next one get the second of two
subqueries. -/
theorem assignTupDescs_getElem_again :
    [functionsDesc, functionsDesc][1]? = [dataDesc, functionsDesc][min (1 + 1) 1]? := by
  have hc : ((SubtableCursor.next 2)^[1] ⟨0, 0⟩).InStep [dataDesc, functionsDesc].length :=
    SubtableCursor.inStep_iterate 2 1
  have hok : assignTupDescs [dataDesc, functionsDesc] ((SubtableCursor.next 2)^[1] ⟨0, 0⟩) []
      ["a", "b"] = .ok [functionsDesc, functionsDesc] := rfl
  exact assignTupDescs_getElem hc hok (i := 1) (by decide)

def callBody : RowBody ArithFunc Int :=
  .lfa ["b", "f"] INT4OID 2 1 [.field 1 1 INT4OID, .field 1 1 INT4OID]

def calledLambda (desc : TupleDesc) : RowLambda ArithFunc Int where
  rows := callLiteral.rows
  argTypesTupDesc := [dataDesc, desc]
  expr := callBody

theorem callLiteral_accepted :
    transformRowLambda arithParser [dataDesc, functionsDesc] ⟨0, 0⟩ callLiteral =
      .ok (calledLambda functionsDesc) := by
  rfl

theorem callLiteral_swapped_accepted :
    transformRowLambda arithParser [dataDesc, swappedDesc] ⟨0, 0⟩ callLiteral =
      .ok (calledLambda swappedDesc) := by
  rfl

theorem boundByName_iff_sameOrder :
    transformRowLambda arithParser [dataDesc, functionsDesc] ⟨0, 0⟩ callLiteral =
        .ok (calledLambda functionsDesc) ∧
      ∀ b f p k, ([b, f], p, k) ∈ (calledLambda functionsDesc).expr.aliases →
        (calledLambda functionsDesc).IsFunctionInput b f →
        BoundByName ArithFunc Int (calledLambda functionsDesc).toRowHeader b f p k := by
  refine ⟨callLiteral_accepted, (boundByName_iff callLiteral_accepted).mpr ?_⟩
  intro b f p k hmem _
  have hone : ([b, f], p, k) = (["b", "f"], 2, 1) := by
    simpa [calledLambda, callBody, RowBody.aliases, RowBody.aliasesArgs] using hmem
  cases hone
  rfl

/-- `λ(y, z) f(y, z)`. -/
def binaryLambda (f : ArithFunc) : LambdaExpr ArithFunc Int :=
  scalarLambda ["y", "z"] INT4OID (.func f [.param 0 INT4OID, .param 1 INT4OID])

def swappedTuples : List (List (Option (Datum ArithFunc Int))) :=
  [[some (.atom 5)],
    [some (.lambda .serialized (binaryLambda .plus)),
      some (.lambda .serialized (binaryLambda .divide))]]

/-- The call of `b.f` gets the position where `f` is declared and the body of the lambda
in column `g`; a reference to `b.f` would get another position. -/
theorem call_takes_declared_position :
    transformRowLambda arithParser [dataDesc, swappedDesc] ⟨0, 0⟩ callLiteral =
        .ok (calledLambda swappedDesc) ∧
      (["b", "f"], 2, 1) ∈ (calledLambda swappedDesc).expr.aliases ∧
      (calledLambda swappedDesc).IsFunctionInput "b" "f" ∧
      lambdaColumnRefHook (calledLambda swappedDesc).toRowHeader ["b", "f"] =
        .ok (.lfa ["b", "f"] INT4OID 2 2 [] : RowBody ArithFunc Int) ∧
      (calledLambda swappedDesc).columnLambda swappedTuples "b" "f" = some (binaryLambda .divide) ∧
      Settles (fun n => lambdaInjector n (calledLambda swappedDesc).sigtypes callBody swappedTuples)
        (.func (.op .plus) [.func (.field 1 1 INT4OID) [], .func (.field 1 1 INT4OID) []]) := by
  refine ⟨callLiteral_swapped_accepted, by simp [calledLambda, callBody, RowBody.aliases], ?_, rfl,
    rfl, settles_const rfl⟩
  exact ⟨2, 1, [.scalar INT4OID, .scalar INT4OID], .scalar INT4OID, rfl, rfl⟩

end HolLambdas.Row
