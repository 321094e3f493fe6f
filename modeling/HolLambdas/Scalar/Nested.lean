import HolLambdas.Scalar.SiteTree

/-!
# Nested calls and their callers

An expression with lambda calls is evaluated twice: by `execQuery`, which writes arguments,
parameter arrays and caches in place and swaps `ecxt_param_exec_vals` around each body, and by
`evalCalling`, which passes a row and a frame and writes nothing. Whenever the first returns,
the second returns the same values (`nested_calls_undisturbed`).

The argument is one of frames. What the steps of an expression state write to is their own call
sites and what is below them (`Ran`), and what is running, and the parameter array in use, is
outside of that (`Ready`). A body is one level below the call site that runs it, so `Ready`
holds there again; this is where the tree of expression states is needed. The calls are nested
to any depth, so the step of a call is first assumed to be right (`CallSpec`) and then shown to
be, by induction on the depth.
-/

namespace HolLambdas.Scalar

variable {F V B : Type}

/-! ## The evaluator that passes environments -/

section Pure

variable (cat : ProcCatalog F) (rt : Runtime F V (Except LambdaError))
variable (store : LambdaStorage F V B) (fuel : Nat)

/-- What a lambda call returns, by the values of its callee and its arguments. -/
def applyCall (heldargs : List Nat) (st : CallLambdaExprState F V) :
    Except LambdaError (Option (Datum F V)) :=
  if heldargs ≠ [] then
    execPartialApply cat rt fuel st.lambdaValue (fun p => decide (p ∈ heldargs)) st.argvalues
  else execEvalCallLambdaExpr cat rt false fuel st

mutual

/-- The value of an expression on a row and in a frame. Nothing is written. -/
def evalCalling (row frame : List (Option (Datum F V))) :
    CallingExpr F V B → Except LambdaError (Option (Datum F V))
  | .const _ v => pure (v.map store.datum)
  | .var k _ => readParam row k
  | .param k _ => readParam frame k
  | .func f args => do
    let vs ← evalCallingList row frame args
    match atoms? vs with
    | some as => do
      let v ← callFunction cat rt f as
      pure (v.map .atom)
    | none => throw .wrongKind
  | .caseWhen _ c r d => do
    let v ← evalCalling row frame c
    if datumHolds rt.isTrue v then evalCalling row frame r else evalCalling row frame d
  | .coalesce _ a b => do
    let v ← evalCalling row frame a
    if v.isSome then pure v else evalCalling row frame b
  | .callLambda fn heldargs _ args => do
    let lambdaValue ← evalCalling row frame fn
    let argvalues ← evalCallingList row frame args
    applyCall cat rt fuel heldargs
      { lambdaValue, argTypes := args.map (CallingExpr.exprType cat), argvalues }
  | .lambdaNode hd e => pure (some (.lambda .node { toLambdaHeader := hd, expr := e }))

def evalCallingList (row frame : List (Option (Datum F V))) :
    List (CallingExpr F V B) → Except LambdaError (List (Option (Datum F V)))
  | [] => pure []
  | e :: es => do
    let v ← evalCalling row frame e
    let vs ← evalCallingList row frame es
    pure (v :: vs)

end

variable {cat rt store fuel}

theorem exprType_ofBody (e : Expr F V) :
    (CallingExpr.ofBody e : CallingExpr F V B).exprType cat = e.exprType cat := by
  cases e <;> rfl

theorem exprType_ofBodies (es : List (Expr F V)) :
    (CallingExpr.ofBodies es : List (CallingExpr F V B)).map (CallingExpr.exprType cat) =
      es.map (Expr.exprType cat) := by
  induction es with
  | nil => rfl
  | cons e es ih => rw [CallingExpr.ofBodies, List.map_cons, List.map_cons, ih, exprType_ofBody]

mutual

/-- A body is evaluated as the executor's model has it. -/
theorem evalCalling_ofBody {row frame : List (Option (Datum F V))} : ∀ e : Expr F V,
    evalCalling cat rt store fuel row frame (.ofBody e) =
      execExprWith cat rt (execEvalCallLambdaExpr cat rt false fuel) frame e
  | .const _ v => by cases v <;> rfl
  | .param _ _ => rfl
  | .func f args => by
    rw [CallingExpr.ofBody, evalCalling, execExprWith]
    exact congrArg (· >>= _) (evalCallingList_ofBodies args)
  | .caseWhen t c r d => by
    rw [CallingExpr.ofBody, evalCalling, execExprWith, evalCalling_ofBody c, evalCalling_ofBody r,
      evalCalling_ofBody d]
  | .coalesce t a b => by
    rw [CallingExpr.ofBody, evalCalling, execExprWith, evalCalling_ofBody a, evalCalling_ofBody b]
  | .lfa name t k args => by
    rw [CallingExpr.ofBody, evalCalling, execExprWith, evalCallingList_ofBodies args,
      exprType_ofBodies]
    rfl
  | .lambda _ _ => rfl

theorem evalCallingList_ofBodies {row frame : List (Option (Datum F V))} :
    ∀ es : List (Expr F V),
      evalCallingList cat rt store fuel row frame (CallingExpr.ofBodies es) =
        execArgsWith cat rt (execEvalCallLambdaExpr cat rt false fuel) frame es
  | [] => rfl
  | e :: es => by
    rw [CallingExpr.ofBodies, evalCallingList, execArgsWith, evalCalling_ofBody e,
      evalCallingList_ofBodies es]

end

end Pure

/-! ## Activations -/

/-- A running activation of a call site, with the parameter array that it found and what was in
it. -/
structure Activation (V B : Type) where
  site : Nat
  params : ParamArray
  vals : List (Slot V B)

/-- The log is one of properly nested activations, of which those in the list are running, the
innermost first. A call site is entered only if none of its activations is running; and when
an activation ends it is the innermost one, and the parameter array is the one that it found,
with the same values in it. -/
inductive Nested : List (CallEvent V B) → List (Activation V B) → Prop
  | nil : Nested [] []
  | enter {log : List (CallEvent V B)} {st : List (Activation V B)} {i : Nat} {params : ParamArray}
      {vals : List (Slot V B)} (nested : Nested log st) (idle : ∀ a ∈ st, a.site ≠ i) :
      Nested (log ++ [.enter i params vals]) (⟨i, params, vals⟩ :: st)
  | leave {log : List (CallEvent V B)} {st : List (Activation V B)} {i : Nat} {params : ParamArray}
      {vals : List (Slot V B)} (nested : Nested log (⟨i, params, vals⟩ :: st)) :
      Nested (log ++ [.leave i params vals]) st

/-! ## Evaluation in a memory context -/

open HolLambdas.Scalar.ExprSteps (sitesList)

/-- The parameter array is that of the query, or of a call site that is not among `K` and at
most as deep as `cxt`. -/
def ParamsOutside (cxt : MemoryContext) (K : List Nat) (m : Machine F V B) : Prop :=
  ∀ i, m.paramExecVals = .site i →
    i ∉ K ∧ ∃ σ, m.sites i = some σ ∧ σ.info.cxt.length ≤ cxt.length

theorem ParamsOutside.mono {cxt : MemoryContext} {K₁ K₂ : List Nat} {m : Machine F V B}
    (h : ParamsOutside cxt K₂ m) (hsub : K₁ ⊆ K₂) : ParamsOutside cxt K₁ m :=
  fun i hi => ⟨fun hmem => (h i hi).1 (hsub hmem), (h i hi).2⟩

section Spec

variable (cat : ProcCatalog F) (rt : Runtime F V (Except LambdaError)) (store : SerialStorage F V B)

/-- The steps with call sites `K` in `cxt` can be run: what is running is at most as deep, and
is none of them. -/
structure Ready (cxt : MemoryContext) (K : List Nat) (st : List (Activation V B))
    (m : Machine F V B) : Prop where
  inv : Inv cat rt store m
  nested : Nested m.log st
  running : ∀ a ∈ st, a.site ∉ K ∧
    ∃ σ, m.sites a.site = some σ ∧ σ.info.cxt.length ≤ cxt.length
  params : ParamsOutside cxt K m

/-- They were run: what they may not touch is as before, and so are the running activations and
the parameter array. -/
structure Ran (cxt : MemoryContext) (K : List Nat) (st : List (Activation V B))
    (m m' : Machine F V B) : Prop where
  inv : Inv cat rt store m'
  frame : Frame cxt K m m'
  nested : Nested m'.log st
  params : m'.paramExecVals = m.paramExecVals

variable {cat rt store} {cxt : MemoryContext} {K K₁ K₂ : List Nat} {st : List (Activation V B)}
variable {m m₁ m' : Machine F V B}

theorem Ready.mono (h : Ready cat rt store cxt K₂ st m) (hsub : K₁ ⊆ K₂) :
    Ready cat rt store cxt K₁ st m where
  inv := h.inv
  nested := h.nested
  running a ha := ⟨fun hmem => (h.running a ha).1 (hsub hmem), (h.running a ha).2⟩
  params := h.params.mono hsub

variable {i : Nat} {σ : CallSite F V B} {s : ExprSteps F V B} {e : CallingExpr F V B}

theorem Frame.depth_le (h : Frame cxt K m m')
    (hi : ∃ σ, m.sites i = some σ ∧ σ.info.cxt.length ≤ cxt.length) :
    ∃ σ, m'.sites i = some σ ∧ σ.info.cxt.length ≤ cxt.length := by
  obtain ⟨σ, hσ, hle⟩ := hi
  obtain ⟨ρ, hρ, hinfo⟩ := Machine.info_eq_some.mp (h.infos i σ hσ hle)
  exact ⟨ρ, hρ, hinfo ▸ hle⟩

theorem Ran.paramsOutside (h : Ran cat rt store cxt K st m m') (hout : ParamsOutside cxt K₁ m) :
    ParamsOutside cxt K₁ m' := by
  intro i hi
  rw [h.params] at hi
  exact ⟨(hout i hi).1, h.frame.depth_le (hout i hi).2⟩

/-- Other steps of the same expression state can be run next. -/
theorem Ran.ready (h : Ran cat rt store cxt K st m m') (hr : Ready cat rt store cxt K₁ st m) :
    Ready cat rt store cxt K₁ st m' where
  inv := h.inv
  nested := h.nested
  running a ha := ⟨(hr.running a ha).1, h.frame.depth_le (hr.running a ha).2⟩
  params := h.paramsOutside hr.params

theorem Ran.refl (h : Ready cat rt store cxt K st m) (K₁ : List Nat) :
    Ran cat rt store cxt K₁ st m m :=
  ⟨h.inv, .refl .., h.nested, rfl⟩

theorem Ran.mono (h : Ran cat rt store cxt K₁ st m m') (hsub : K₁ ⊆ K₂) :
    Ran cat rt store cxt K₂ st m m' :=
  ⟨h.inv, h.frame.mono hsub, h.nested, h.params⟩

theorem Ran.trans (h₁ : Ran cat rt store cxt K st m m₁) (h₂ : Ran cat rt store cxt K st m₁ m') :
    Ran cat rt store cxt K st m m' :=
  ⟨h₂.inv, h₁.frame.trans h₂.frame, h₂.nested, h₂.params.trans h₁.params⟩

theorem Ran.append (h₁ : Ran cat rt store cxt K₁ st m m₁) (h₂ : Ran cat rt store cxt K₂ st m₁ m') :
    Ran cat rt store cxt (K₁ ++ K₂) st m m' :=
  (h₁.mono (List.subset_append_left ..)).trans (h₂.mono (List.subset_append_right ..))

/-- The values that parameters are read from have not changed. -/
theorem params_eq (hout : ParamsOutside cxt K m) (hframe : Frame cxt K m m')
    (hparams : m'.paramExecVals = m.paramExecVals) (queryParams : List (Slot V B)) :
    m'.params queryParams = m.params queryParams := by
  unfold Machine.params
  rw [hparams]
  cases harray : m.paramExecVals with
  | query => rfl
  | site i =>
    obtain ⟨hmem, σ, hσ, hle⟩ := hout i harray
    simp only [hσ, hframe.site_eq hσ hmem hle]

theorem Ran.params_eq (h : Ran cat rt store cxt K st m m') (hr : Ready cat rt store cxt K st m)
    (queryParams : List (Slot V B)) : m'.params queryParams = m.params queryParams :=
  Scalar.params_eq hr.params h.frame h.params queryParams

/-! ## Values -/

/-- The values that slots stand for. -/
def SerialStorage.values (store : SerialStorage F V B) (vs : List (Slot V B)) :
    List (Option (Datum F V)) :=
  vs.map (Option.map store.datum)

theorem rawAtoms?_eq (vs : List (Slot V B)) : rawAtoms? vs = atoms? (store.values vs) := by
  induction vs with
  | nil => rfl
  | cons v vs ih =>
    rcases v with _ | (a | b)
    · simp only [rawAtoms?, ih]
      rfl
    · simp only [rawAtoms?, ih]
      rfl
    · rfl

theorem slotHolds_eq (isTrue : V → Bool) (v : Slot V B) :
    slotHolds isTrue v = datumHolds isTrue (v.map store.datum) := by
  rcases v with _ | (a | b) <;> rfl

theorem readParam_values {vs : List (Slot V B)} {k : Nat} {v : Slot V B} (h : vs[k]? = some v) :
    (readParam (store.values vs) k : Except LambdaError _) = .ok (v.map store.datum) := by
  unfold readParam SerialStorage.values
  rw [List.getElem?_map, h]
  rfl

/-! ## The steps -/

variable (cat rt store) in
/-- The step of a lambda call returns what the call returns on the values in the slots of the
call site, and touches that call site and what is below it only. -/
def CallSpec (fuel : Nat) (call : Nat → Run F V B (Slot V B)) : Prop :=
  ∀ (i : Nat) (m m' : Machine F V B) (σ : CallSite F V B) (st : List (Activation V B))
    (v : Slot V B), m.sites i = some σ → Ready cat rt store σ.info.cxt [] st m →
    call i m = .ok (v, m') →
      Ran cat rt store σ.info.cxt [i] st m m' ∧
        applyCall cat rt fuel σ.info.heldargs
          { lambdaValue := σ.lambdaValue.map store.datum
            argTypes := σ.info.argTypes
            argvalues := store.values σ.argvalues } = .ok (v.map store.datum)

/-- A call site that is none of those run, and not deeper, is as it was. -/
theorem Ran.site_eq (h : Ran cat rt store cxt K st m m') (hi : m.sites i = some σ) (hmem : i ∉ K)
    (hcxt : σ.info.cxt = cxt) : m'.sites i = some σ :=
  h.frame.site_eq hi hmem (by rw [hcxt])

/-- The slots of a call site are written by the steps that run. -/
theorem Ran.putSlots {σ' : CallSite F V B} (hr : Ready cat rt store cxt K st m)
    (hi : m.sites i = some σ) (hinfo : σ'.info = σ.info) (hcache : σ'.cache = σ.cache) :
    Ran cat rt store cxt [i] st m (m.putSite i σ') :=
  ⟨hr.inv.putSlots hi hinfo hcache, .putSite hi hinfo, hr.nested, rfl⟩

/-- The call sites are the same. -/
structure SameSites (m m' : Machine F V B) : Prop where
  sites : m'.sites = m.sites
  next : m'.next = m.next

theorem SameSites.info_eq (h : SameSites m m') : m'.info = m.info := by
  unfold Machine.info
  rw [h.sites]

theorem SameSites.inv (h : SameSites m m') (hinv : Inv cat rt store m) : Inv cat rt store m' := by
  refine ⟨fun i σ hi => ?_, fun i σ hi => ?_, fun i σ p x hi hx => ?_⟩
  · rw [h.sites] at hi
    rw [h.next]
    exact hinv.fresh i σ hi
  · rw [h.sites] at hi
    exact hinv.wf i σ hi
  · rw [h.sites] at hi
    rw [h.info_eq]
    exact hinv.entries i σ p x hi hx

theorem SameSites.frame (h : SameSites m m') : Frame cxt K m m' where
  others j σ hj _ _ := by rwa [h.sites]
  infos j σ hj _ := by
    rw [h.info_eq]
    exact Machine.info_eq_some.mpr ⟨σ, hj, rfl⟩

/-- The log is one event longer. -/
structure Logged (event : CallEvent V B) (m m' : Machine F V B) : Prop extends SameSites m m' where
  params : m'.paramExecVals = m.paramExecVals
  log : m'.log = m.log ++ [event]

theorem logEvent_spec {ectx : EContext V B} {event : ParamArray → List (Slot V B) → CallEvent V B}
    {u : Unit} (h : logEvent ectx event m = .ok (u, m')) :
    Logged (event m.paramExecVals (m.params ectx.queryParams)) m m' := by
  cases h
  exact ⟨⟨rfl, rfl⟩, rfl, rfl⟩

theorem setParamExecVals_spec {params : ParamArray} {u : Unit}
    (h : setParamExecVals params m = .ok (u, m')) :
    SameSites m m' ∧ m'.paramExecVals = params ∧ m'.log = m.log := by
  cases h
  exact ⟨⟨rfl, rfl⟩, rfl, rfl⟩

theorem Logged.params_eq {event : CallEvent V B} (h : Logged event m m')
    (queryParams : List (Slot V B)) : m'.params queryParams = m.params queryParams := by
  unfold Machine.params
  rw [h.params, h.sites]

theorem Logged.paramsOutside {event : CallEvent V B} (h : Logged event m m')
    (hout : ParamsOutside cxt K m) : ParamsOutside cxt K m' := by
  intro i hi
  rw [h.params] at hi
  rw [h.sites]
  exact hout i hi

/-- A call site of the steps is entered. -/
theorem Ready.enter {params : ParamArray} {vals : List (Slot V B)}
    (h : Ready cat rt store cxt (i :: K) st m) (hi : m.sites i = some σ) (hcxt : σ.info.cxt = cxt)
    (hmem : i ∉ K) (hlog : Logged (.enter i params vals) m m') :
    Ready cat rt store cxt K (⟨i, params, vals⟩ :: st) m' where
  inv := hlog.inv h.inv
  nested := by
    rw [hlog.log]
    exact .enter h.nested fun a ha heq => (h.running a ha).1 (heq ▸ List.mem_cons_self)
  running a ha := by
    rw [hlog.sites]
    rcases List.mem_cons.mp ha with rfl | ha
    · exact ⟨hmem, σ, hi, Nat.le_of_eq (by rw [hcxt])⟩
    · exact ⟨fun hK => (h.running a ha).1 (List.mem_cons_of_mem _ hK), (h.running a ha).2⟩
  params := hlog.paramsOutside (h.params.mono (List.subset_cons_self ..))

/-- A call site of the steps is left, with the parameter array that it found. -/
theorem Ran.activation {m₂ : Machine F V B} {queryParams : List (Slot V B)}
    (henter : Logged (.enter i m.paramExecVals (m.params queryParams)) m m₁)
    (hout : ParamsOutside cxt K m)
    (hran : Ran cat rt store cxt K (⟨i, m.paramExecVals, m.params queryParams⟩ :: st) m₁ m₂)
    (hleave : Logged (.leave i m₂.paramExecVals (m₂.params queryParams)) m₂ m') :
    Ran cat rt store cxt K st m m' := by
  have hvals : m₂.params queryParams = m.params queryParams := by
    rw [Scalar.params_eq (henter.paramsOutside hout) hran.frame hran.params, henter.params_eq]
  rw [hvals, hran.params, henter.params] at hleave
  refine ⟨hleave.inv hran.inv, ?_, ?_, ?_⟩
  · exact henter.frame.trans (hran.frame.trans hleave.frame)
  · rw [hleave.log]
    exact .leave hran.nested
  · rw [hleave.params, hran.params, henter.params]

variable (cat rt store) (ectx : EContext V B) (call : Nat → Run F V B (Slot V B)) (fuel : Nat)

/-- What the steps of an expression do where they are loaded: they keep to their own call sites,
and their value is that of the expression. -/
def StepsSpec (cxt : MemoryContext) (s : ExprSteps F V B) : Prop :=
  ∀ {e : CallingExpr F V B} {m m' : Machine F V B} {st : List (Activation V B)} {v : Slot V B},
    Loaded cat m.info cxt s e → s.sites.Nodup → Ready cat rt store cxt s.sites st m →
    execSteps cat rt ectx call s m = .ok (v, m') →
    Ran cat rt store cxt s.sites st m m' ∧
      evalCalling cat rt store.toLambdaStorage fuel (store.values ectx.row)
        (store.values (m.params ectx.queryParams)) e = .ok (v.map store.datum)

/-- The same for the arguments of a call site: they are in its slots, from slot `j` on, and the
slots before are as they were. -/
def SiteArgsSpec (cxt : MemoryContext) (i : Nat) (ss : List (ExprSteps F V B)) : Prop :=
  ∀ {es : List (CallingExpr F V B)} {m m' : Machine F V B} {st : List (Activation V B)}
    {σ : CallSite F V B} {j : Nat} {u : Unit},
    LoadedList cat m.info cxt ss es → (sitesList ss).Nodup → i ∉ sitesList ss →
    Ready cat rt store cxt (sitesList ss) st m → ParamsOutside cxt (i :: sitesList ss) m →
    m.sites i = some σ → σ.info.cxt = cxt → j + ss.length = σ.info.argTypes.length →
    execSiteArgs cat rt ectx call i j ss m = .ok (u, m') →
    Ran cat rt store cxt (i :: sitesList ss) st m m' ∧
      ∃ vs σ', evalCallingList cat rt store.toLambdaStorage fuel (store.values ectx.row)
          (store.values (m.params ectx.queryParams)) es = .ok (store.values vs) ∧
        m'.sites i = some σ' ∧ σ'.info = σ.info ∧ σ'.lambdaValue = σ.lambdaValue ∧
        σ'.argvalues = σ.argvalues.take j ++ vs

variable {cat rt store ectx call fuel}

theorem StepsSpec.caseWhen {c r d : ExprSteps F V B}
    (ihc : StepsSpec cat rt store ectx call fuel cxt c)
    (ihr : StepsSpec cat rt store ectx call fuel cxt r)
    (ihd : StepsSpec cat rt store ectx call fuel cxt d) :
    StepsSpec cat rt store ectx call fuel cxt (.caseWhen c r d) := by
  rintro _ m m' st v ⟨t, c', r', d', rfl, hlc, hlr, hld⟩ hnodup hr h
  obtain ⟨w, m₁, hw, h⟩ := run_bind_eq_ok.mp h
  obtain ⟨hnc, hnrd, -⟩ := List.nodup_append.mp hnodup
  obtain ⟨hnr, hnd, -⟩ := List.nodup_append.mp hnrd
  have hr₁ := hr.mono (List.subset_append_left ..)
  obtain ⟨hran₁, heval₁⟩ := ihc hlc hnc hr₁ hw
  have hrest := hran₁.ready (hr.mono (List.subset_append_right ..))
  rw [evalCalling, heval₁, ok_bind, ← slotHolds_eq]
  by_cases hholds : slotHolds rt.isTrue w = true
  · rw [if_pos hholds] at h ⊢
    obtain ⟨hran₂, heval₂⟩ := ihr (hran₁.frame.loaded hlr) hnr
      (hrest.mono (List.subset_append_left ..)) h
    rw [hran₁.params_eq hr₁] at heval₂
    exact ⟨hran₁.append (hran₂.mono (List.subset_append_left ..)), heval₂⟩
  · rw [if_neg hholds] at h ⊢
    obtain ⟨hran₂, heval₂⟩ := ihd (hran₁.frame.loaded hld) hnd
      (hrest.mono (List.subset_append_right ..)) h
    rw [hran₁.params_eq hr₁] at heval₂
    exact ⟨hran₁.append (hran₂.mono (List.subset_append_right ..)), heval₂⟩

theorem StepsSpec.coalesce {a b : ExprSteps F V B}
    (iha : StepsSpec cat rt store ectx call fuel cxt a)
    (ihb : StepsSpec cat rt store ectx call fuel cxt b) :
    StepsSpec cat rt store ectx call fuel cxt (.coalesce a b) := by
  rintro _ m m' st v ⟨t, a', b', rfl, hla, hlb⟩ hnodup hr h
  obtain ⟨w, m₁, hw, h⟩ := run_bind_eq_ok.mp h
  obtain ⟨hna, hnb, -⟩ := List.nodup_append.mp hnodup
  have hr₁ := hr.mono (List.subset_append_left ..)
  obtain ⟨hran₁, heval₁⟩ := iha hla hna hr₁ hw
  rw [evalCalling, heval₁, ok_bind, Option.isSome_map]
  by_cases hsome : w.isSome = true
  · rw [if_pos hsome] at h ⊢
    cases run_pure_eq_ok.mp h
    exact ⟨hran₁.mono (List.subset_append_left ..), rfl⟩
  · rw [if_neg hsome] at h ⊢
    obtain ⟨hran₂, heval₂⟩ := ihb (hran₁.frame.loaded hlb) hnb
      (hran₁.ready (hr.mono (List.subset_append_right ..))) h
    rw [hran₁.params_eq hr₁] at heval₂
    exact ⟨hran₁.append hran₂, heval₂⟩

/-- A call: the lambda is evaluated into its slot, the arguments into theirs, and then the call
site runs. None of the three touches what the others have left. -/
theorem StepsSpec.callLambda {fn : ExprSteps F V B} {ss : List (ExprSteps F V B)}
    (hcall : CallSpec cat rt store fuel call) (ihfn : StepsSpec cat rt store ectx call fuel cxt fn)
    (ihargs : SiteArgsSpec cat rt store ectx call fuel cxt i ss) :
    StepsSpec cat rt store ectx call fuel cxt (.callLambda i fn ss) := by
  rintro _ m m' st v ⟨fn', held, t, args, rfl, hi, hlfn, hlss⟩ hnodup hr h
  obtain ⟨σ, hσ, hinfo⟩ := Machine.info_eq_some.mp hi
  have hcxt : σ.info.cxt = cxt := by rw [hinfo]
  obtain ⟨hmem, hnodup⟩ := List.nodup_cons.mp hnodup
  obtain ⟨hnfn, hnss, -⟩ := List.nodup_append.mp hnodup
  obtain ⟨u, m₁, henter, h⟩ := run_bind_eq_ok.mp h
  have henter := logEvent_spec henter
  have hr₁ := hr.enter hσ hcxt hmem henter
  have hσ₁ : m₁.sites i = some σ := by rw [henter.sites, hσ]
  have hout₁ := henter.paramsOutside hr.params
  have hsubfn : fn.sites ⊆ i :: (fn.sites ++ sitesList ss) :=
    fun j hj => List.mem_cons_of_mem _ (List.mem_append_left _ hj)
  have hsubss : i :: sitesList ss ⊆ i :: (fn.sites ++ sitesList ss) :=
    List.cons_subset_cons _ (List.subset_append_right ..)
  have hsubi : [i] ⊆ i :: (fn.sites ++ sitesList ss) :=
    List.cons_subset_cons _ (List.nil_subset _)
  -- the called lambda
  obtain ⟨w, m₂, hw, h⟩ := run_bind_eq_ok.mp h
  rw [← henter.info_eq] at hlfn hlss
  have hrfn := hr₁.mono (List.subset_append_left ..)
  obtain ⟨hran₂, heval₂⟩ := ihfn hlfn hnfn hrfn hw
  have hσ₂ := hran₂.site_eq hσ₁ (fun hi => hmem (List.mem_append_left _ hi)) hcxt
  rw [getSite_bind hσ₂, putSite_bind] at h
  have hput : Ran cat rt store cxt [i] _ m₂ (m₂.putSite i { σ with lambdaValue := w }) :=
    .putSlots (hran₂.ready hr₁) hσ₂ rfl rfl
  have hran₃ := (hran₂.mono hsubfn).trans (hput.mono hsubi)
  -- the arguments
  obtain ⟨u', m₄, hargs, h⟩ := run_bind_eq_ok.mp h
  have hlen : 0 + ss.length = σ.info.argTypes.length := by
    rw [hinfo, hlss.length_eq, Nat.zero_add, List.length_map]
  obtain ⟨hran, vs, σ₄, heval₄, hσ₄, hinfo₄, hvalue, hvs⟩ :=
    ihargs (hran₃.frame.loadedList hlss) hnss
      (fun hi => hmem (List.mem_append_right _ hi))
      ((hran₃.ready hr₁).mono (List.subset_append_right ..))
      ((hran₃.paramsOutside hout₁).mono hsubss) (Function.update_self ..) hcxt hlen hargs
  have hran₄ := hran₃.trans (hran.mono hsubss)
  -- the call
  obtain ⟨r, m₅, hr', h⟩ := run_bind_eq_ok.mp h
  have hcxt₄ : σ₄.info.cxt = cxt := by rw [hinfo₄, hcxt]
  have hrcall := (hran₄.ready hr₁).mono (List.nil_subset _)
  rw [← hcxt₄] at hrcall
  obtain ⟨hrancall, heval₅⟩ := hcall i m₄ m₅ σ₄ _ r hσ₄ hrcall hr'
  rw [hcxt₄] at hrancall
  have hran₅ := hran₄.trans (hrancall.mono hsubi)
  obtain ⟨u'', m₆, hleave, h⟩ := run_bind_eq_ok.mp h
  cases run_pure_eq_ok.mp h
  refine ⟨.activation henter hr.params hran₅ (logEvent_spec hleave), ?_⟩
  rw [params_eq hout₁ hran₃.frame hran₃.params, henter.params_eq] at heval₄
  rw [henter.params_eq] at heval₂
  rw [evalCalling, heval₂, ok_bind, heval₄, ok_bind]
  rw [hinfo₄, hinfo, hvalue, hvs] at heval₅
  exact heval₅

mutual

/-- Running steps is evaluating the expression, if calls are what they should be. -/
theorem execSteps_spec (hcall : CallSpec cat rt store fuel call) :
    ∀ {s : ExprSteps F V B}, StepsSpec cat rt store ectx call fuel cxt s
  | .const c, _, m, m', st, v, ⟨t, rfl⟩, _, hr, h => by
    cases run_pure_eq_ok.mp h
    exact ⟨.refl hr _, rfl⟩
  | .var k, _, m, m', st, v, ⟨t, rfl⟩, _, hr, h => by
    cases hk : ectx.row[k]? with
    | none =>
      simp only [execSteps, hk] at h
      cases h
    | some w =>
      simp only [execSteps, hk] at h
      cases run_pure_eq_ok.mp h
      exact ⟨.refl hr _, readParam_values hk⟩
  | .param k, _, m, m', st, v, ⟨t, rfl⟩, _, hr, h => by
    obtain ⟨m₀, m₁, hget, h⟩ := run_bind_eq_ok.mp h
    cases hget
    cases hk : (m.params ectx.queryParams)[k]? with
    | none =>
      rw [hk] at h
      cases h
    | some w =>
      rw [hk] at h
      cases run_pure_eq_ok.mp h
      exact ⟨.refl hr _, readParam_values hk⟩
  | .func f ss, _, m, m', st, v, ⟨args, rfl, hload⟩, hnodup, hr, h => by
    obtain ⟨vs, m₁, hvs, h⟩ := run_bind_eq_ok.mp h
    obtain ⟨hran, heval⟩ := execStepsList_spec hcall hload hnodup hr hvs
    rw [evalCalling, heval, ok_bind, ← rawAtoms?_eq]
    cases has : rawAtoms? vs with
    | none =>
      rw [has] at h
      cases h
    | some as =>
      rw [has] at h
      obtain ⟨a, m₂, hraise, h⟩ := run_bind_eq_ok.mp h
      obtain ⟨hcalled, rfl⟩ := raise_eq_ok.mp hraise
      cases run_pure_eq_ok.mp h
      refine ⟨hran, ?_⟩
      dsimp only
      rw [hcalled, ok_bind]
      cases a <;> rfl
  | .caseWhen _ _ _, _, _, _, _, _, hload, hnodup, hr, h =>
    StepsSpec.caseWhen (execSteps_spec hcall) (execSteps_spec hcall) (execSteps_spec hcall) hload
      hnodup hr h
  | .coalesce _ _, _, _, _, _, _, hload, hnodup, hr, h =>
    StepsSpec.coalesce (execSteps_spec hcall) (execSteps_spec hcall) hload hnodup hr h
  | .callLambda _ _ _, _, _, _, _, _, hload, hnodup, hr, h =>
    StepsSpec.callLambda hcall (execSteps_spec hcall) (execSiteArgs_spec hcall) hload hnodup hr h
  | .lambdaNode, _, _, _, _, _, _, _, _, h => by cases h

theorem execStepsList_spec (hcall : CallSpec cat rt store fuel call) :
    ∀ {ss : List (ExprSteps F V B)} {es : List (CallingExpr F V B)} {m m' : Machine F V B}
      {st : List (Activation V B)} {vs : List (Slot V B)}, LoadedList cat m.info cxt ss es →
      (sitesList ss).Nodup → Ready cat rt store cxt (sitesList ss) st m →
      execStepsList cat rt ectx call ss m = .ok (vs, m') →
      Ran cat rt store cxt (sitesList ss) st m m' ∧
        evalCallingList cat rt store.toLambdaStorage fuel (store.values ectx.row)
          (store.values (m.params ectx.queryParams)) es = .ok (store.values vs)
  | [], _, m, m', st, vs, rfl, _, hr, h => by
    cases run_pure_eq_ok.mp h
    exact ⟨.refl hr _, rfl⟩
  | s :: ss, _, m, m', st, vs, ⟨e, es, rfl, hs, hss⟩, hnodup, hr, h => by
    obtain ⟨w, m₁, hw, h⟩ := run_bind_eq_ok.mp h
    obtain ⟨ws, m₂, hws, h⟩ := run_bind_eq_ok.mp h
    cases run_pure_eq_ok.mp h
    obtain ⟨hn₁, hn₂, -⟩ := List.nodup_append.mp hnodup
    have hr₁ := hr.mono (List.subset_append_left ..)
    obtain ⟨hran₁, heval₁⟩ := execSteps_spec hcall hs hn₁ hr₁ hw
    have hr₂ := hran₁.ready (hr.mono (List.subset_append_right ..))
    obtain ⟨hran₂, heval₂⟩ := execStepsList_spec hcall (hran₁.frame.loadedList hss) hn₂ hr₂ hws
    refine ⟨hran₁.append hran₂, ?_⟩
    rw [hran₁.params_eq hr₁] at heval₂
    rw [evalCallingList, heval₁, ok_bind, heval₂]
    rfl

/-- The arguments go into the slots of the call site. -/
theorem execSiteArgs_spec (hcall : CallSpec cat rt store fuel call) :
    ∀ {i : Nat} {ss : List (ExprSteps F V B)}, SiteArgsSpec cat rt store ectx call fuel cxt i ss
  | _, [], _, m, m', st, σ, j, u, rfl, _, _, hr, _, hσ, _, hj, h => by
    cases run_pure_eq_ok.mp h
    refine ⟨.refl hr _, [], σ, rfl, hσ, rfl, rfl, ?_⟩
    rw [List.append_nil, List.take_of_length_le]
    rw [σ.argvalues_length, ← hj, List.length_nil, Nat.add_zero]
  | i, s :: ss, _, m, m', st, σ, j, u, ⟨e, es, rfl, hs, hss⟩, hnodup, hmem, hr, hout, hσ, hcxt, hj,
      h => by
    obtain ⟨w, m₁, hw, h⟩ := run_bind_eq_ok.mp h
    obtain ⟨hn₁, hn₂, -⟩ := List.nodup_append.mp hnodup
    have hr₁ := hr.mono (List.subset_append_left ..)
    obtain ⟨hran₁, heval₁⟩ := execSteps_spec hcall hs hn₁ hr₁ hw
    have hσ₁ := hran₁.site_eq hσ (fun hi => hmem (List.mem_append_left _ hi)) hcxt
    rw [getSite_bind hσ₁, putSite_bind] at h
    have hlength : (σ.argvalues.set j w).length = σ.info.argTypes.length := by
      rw [List.length_set, σ.argvalues_length]
    have hput : Ran cat rt store cxt [i] st m₁ (m₁.putSite i
        { σ with argvalues := σ.argvalues.set j w, argvalues_length := hlength }) :=
      .putSlots (hran₁.ready hr) hσ₁ rfl rfl
    have hsub₁ : s.sites ⊆ i :: sitesList (s :: ss) :=
      fun k hk => List.mem_cons_of_mem _ (List.mem_append_left _ hk)
    have hsub₂ : i :: sitesList ss ⊆ i :: sitesList (s :: ss) :=
      List.cons_subset_cons _ (List.subset_append_right ..)
    have hran₂ := (hran₁.mono hsub₁).trans (hput.mono (List.cons_subset_cons _ (List.nil_subset _)))
    obtain ⟨hran₃, vs, σ', heval₃, hσ', hinfo, hvalue, hvs⟩ :=
      execSiteArgs_spec hcall (hran₂.frame.loadedList hss) hn₂
        (fun hi => hmem (List.mem_append_right _ hi))
        ((hran₂.ready hr).mono (List.subset_append_right ..))
        ((hran₂.paramsOutside hout).mono hsub₂) (Function.update_self ..) hcxt
        (by rw [← hj, List.length_cons]; omega) h
    refine ⟨hran₂.trans (hran₃.mono hsub₂), w :: vs, σ', ?_, hσ', hinfo, hvalue, ?_⟩
    · rw [params_eq hout hran₂.frame hran₂.params] at heval₃
      rw [evalCallingList, heval₁, ok_bind, heval₃]
      rfl
    · have hlt : j < σ.argvalues.length := by
        rw [σ.argvalues_length, ← hj, List.length_cons]
        omega
      rw [hvs]
      rw [List.take_add_one, List.take_set_of_le (Nat.le_refl _), List.getElem?_set_self hlt]
      simp

end

/-! ## The call -/

/-- Steps that were loaded deeper have other call sites. -/
theorem Loaded.notMem_of_depth_lt (h : Loaded cat m.info cxt s e) (hi : m.sites i = some σ)
    (hlt : σ.info.cxt.length < cxt.length) : i ∉ s.sites := by
  intro hmem
  obtain ⟨si, hsi, hcxt⟩ := h.info_of_mem i hmem
  obtain ⟨ρ, hρ, rfl⟩ := Machine.info_eq_some.mp hsi
  rw [hi] at hρ
  cases hρ
  rw [hcxt] at hlt
  exact Nat.lt_irrefl _ hlt

/-- What a body touches is below the call site. -/
theorem Frame.ofBody {p : Nat} (h : Frame (cxt ++ [(i, p)]) s.sites m m')
    (hload : Loaded cat m.info (cxt ++ [(i, p)]) s e) :
    Frame cxt [i] m m' where
  others j σ hj _ hbelow := by
    refine h.others j σ hj (fun hmem => hbelow ?_) fun hdeep => hbelow ?_
    · obtain ⟨si, hsi, hcxt⟩ := hload.info_of_mem j hmem
      obtain ⟨ρ, hρ, rfl⟩ := Machine.info_eq_some.mp hsi
      rw [hj] at hρ
      cases hρ
      exact ⟨i, List.mem_singleton.mpr rfl, p, hcxt ▸ List.prefix_refl _⟩
    · obtain ⟨k, -, p', hprefix⟩ := hdeep
      exact ⟨i, List.mem_singleton.mpr rfl, p, (List.prefix_append ..).trans hprefix⟩
  infos j σ hj hle := h.infos j σ hj (by
    rw [List.length_append]
    omega)

/-- The body was found, and the parameter array of the call site is in place. -/
theorem Ready.install {c : Option (SiteCache F V B)} (hr : Ready cat rt store σ.info.cxt [] st m)
    (hkept : Kept cat rt store i σ m m₁) (hi : m₁.sites i = some { σ with cache := c })
    (hsame : SameSites (m₁.putSite i { σ with cache := c, lambdaParams := σ.argvalues }) m')
    (hparams : m'.paramExecVals = .site i) (hlog : m'.log = m₁.log) :
    Ready cat rt store σ.info.cxt [] st m' ∧ Frame σ.info.cxt [i] m m' ∧
      m'.sites i = some { σ with cache := c, lambdaParams := σ.argvalues } ∧ m'.info = m₁.info := by
  have hput : Frame σ.info.cxt [i] m₁
      (m₁.putSite i { σ with cache := c, lambdaParams := σ.argvalues }) := .putSite hi rfl
  have hframe : Frame σ.info.cxt [i] m m' := (hkept.frame.trans hput).trans hsame.frame
  have hi' : m'.sites i = some { σ with cache := c, lambdaParams := σ.argvalues } := by
    rw [hsame.sites]
    exact Function.update_self ..
  refine ⟨⟨hsame.inv (hkept.inv.putSlots hi rfl rfl), ?_, fun a ha => ?_, fun j hj => ?_⟩, hframe,
    hi', hsame.info_eq.trans (info_putSite hi rfl)⟩
  · rw [hlog, hkept.log]
    exact hr.nested
  · exact ⟨List.not_mem_nil, hframe.depth_le (hr.running a ha).2⟩
  · rw [hparams] at hj
    cases hj
    exact ⟨List.not_mem_nil, _, hi', Nat.le_refl _⟩

/-- A partial application is serialized. -/
theorem execPartialApply_repr {lambdaValue : Option (Datum F V)} {held : Nat → Bool}
    {args : List (Option (Datum F V))} {d : Datum F V}
    (h : execPartialApply cat rt fuel lambdaValue held args = .ok (some d)) :
    ∃ le, d = .lambda .serialized le := by
  rcases lambdaValue with _ | (a | ⟨repr, mother⟩)
  · cases h
  · cases h
  · obtain ⟨_, _, h⟩ := bind_eq_ok.mp h
    obtain ⟨_, _, h⟩ := bind_eq_ok.mp h
    obtain ⟨_, _, h⟩ := bind_eq_ok.mp h
    obtain ⟨_, _, h⟩ := bind_eq_ok.mp h
    cases h
    exact ⟨_, rfl⟩

/-- A call that is no partial application, by the body of the called lambda. -/
theorem execEvalCallLambdaExpr_body {n : Nat} {b : B} {argTypes : List Oid}
    {argvalues : List (Option (Datum F V))} {v : Option (Datum F V)}
    (hdetoast : rt.detoast (store.decode b).1 = .ok ())
    (hnargs : (store.decode b).2.nargs ≤ argvalues.length)
    (heval : execExprWith cat rt (execEvalCallLambdaExpr cat rt false n) argvalues
      (store.decode b).2.expr = .ok v) :
    execEvalCallLambdaExpr cat rt false (n + 1)
      { lambdaValue := some (store.datum (.lambda b)), argTypes, argvalues } = .ok v := by
  rw [LambdaStorage.datum, execEvalCallLambdaExpr]
  dsimp only
  rw [hdetoast, ok_bind, lambdaCacheBuild_eq_ok.mpr ⟨hnargs, rfl⟩, ok_bind]
  exact heval

/-- The body runs one level below the call site, on the arguments in its slots. -/
theorem execBody_spec {n p : Nat} {tree : Expr F V} {v : Slot V B}
    (hcall : CallSpec cat rt store n call) (hi : m.sites i = some σ)
    (hr : Ready cat rt store σ.info.cxt [] st m) (hparams : m.paramExecVals = .site i)
    (hargs : σ.lambdaParams = σ.argvalues)
    (hload : Loaded cat m.info (σ.info.cxt ++ [(i, p)]) s (.ofBody tree)) (hnodup : s.sites.Nodup)
    (h : execSteps cat rt ectx call s m = .ok (v, m')) :
    Ran cat rt store σ.info.cxt [i] st m m' ∧
      execExprWith cat rt (execEvalCallLambdaExpr cat rt false n) (store.values σ.argvalues) tree =
        .ok (v.map store.datum) := by
  have hdeeper : ∀ {c : MemoryContext}, c.length ≤ σ.info.cxt.length →
      c.length < (σ.info.cxt ++ [(i, p)]).length := by
    intro c hc
    rw [List.length_append]
    exact Nat.lt_succ_of_le hc
  have hready : Ready cat rt store (σ.info.cxt ++ [(i, p)]) s.sites st m := by
    refine ⟨hr.inv, hr.nested, fun a ha => ?_, fun j hj => ?_⟩
    · obtain ⟨-, ρ, hρ, hle⟩ := hr.running a ha
      exact ⟨hload.notMem_of_depth_lt hρ (hdeeper hle), ρ, hρ, Nat.le_of_lt (hdeeper hle)⟩
    · rw [hparams] at hj
      cases hj
      have hle := Nat.le_refl σ.info.cxt.length
      exact ⟨hload.notMem_of_depth_lt hi (hdeeper hle), σ, hi, Nat.le_of_lt (hdeeper hle)⟩
  obtain ⟨hran, heval⟩ := execSteps_spec hcall hload hnodup hready h
  refine ⟨⟨hran.inv, hran.frame.ofBody hload, hran.nested, hran.params⟩, ?_⟩
  have hvals : m.params ectx.queryParams = σ.argvalues := by
    unfold Machine.params
    simp only [hparams, hi, Option.map_some, Option.getD_some, hargs]
  rw [hvals, evalCalling_ofBody] at heval
  exact heval

variable [DecidableEq B]

/-- `ExecEvalCallLambdaExpr`, by induction on how deep the calls are nested. -/
theorem execCallSite_spec (ectx : EContext V B) : ∀ n : Nat,
    CallSpec cat rt store n (execCallSite cat rt ectx store n)
  | 0 => by
    intro i m m' σ st v _ _ h
    cases h
  | n + 1 => by
    intro i m m' σ st v hi hr h
    rw [execCallSite, getSite_bind hi] at h
    rcases hv : σ.lambdaValue with _ | (a | b)
    · -- a NULL lambda
      rw [hv] at h
      cases run_pure_eq_ok.mp h
      refine ⟨.refl hr _, ?_⟩
      unfold applyCall
      split <;> rfl
    · rw [hv] at h
      cases h
    · rw [hv] at h
      dsimp only at h
      by_cases hheld : σ.info.heldargs ≠ []
      · -- a partial application does not touch the memory
        rw [if_pos hheld] at h
        obtain ⟨d, m₁, hraise, h⟩ := run_bind_eq_ok.mp h
        obtain ⟨happly, rfl⟩ := raise_eq_ok.mp hraise
        have hvalue : applyCall cat rt (n + 1) σ.info.heldargs
            { lambdaValue := some (store.datum (.lambda b)), argTypes := σ.info.argTypes,
              argvalues := store.values σ.argvalues } = .ok d := (if_pos hheld).trans happly
        cases d with
        | none =>
          cases run_pure_eq_ok.mp h
          exact ⟨.refl hr _, hvalue⟩
        | some d =>
          obtain ⟨residual, rfl⟩ := execPartialApply_repr happly
          obtain ⟨bytes, m₂, hraise', h⟩ := run_bind_eq_ok.mp h
          obtain ⟨hbytes, rfl⟩ := raise_eq_ok.mp hraise'
          cases run_pure_eq_ok.mp h
          refine ⟨.refl hr _, hvalue.trans ?_⟩
          have hdatum : store.datum (.lambda bytes) = Datum.lambda .serialized residual := by
            rw [LambdaStorage.datum, store.decode_serialize residual bytes hbytes]
          rw [Option.map_some, hdatum]
      -- a full call: find the body, install the parameters, run, restore them
      · rw [if_neg hheld] at h
        obtain ⟨s, m₁, hbody, h⟩ := run_bind_eq_ok.mp h
        obtain ⟨hkept, hdetoast, hnargs, p, hload, hnodup⟩ := siteBody_spec hr.inv hi hbody
        obtain ⟨c, hi₁⟩ := hkept.site
        rw [getSite_bind hi₁, putSite_bind] at h
        obtain ⟨m₀, m₂, hget, h⟩ := run_bind_eq_ok.mp h
        cases hget
        obtain ⟨u, m₃, hset, h⟩ := run_bind_eq_ok.mp h
        obtain ⟨w, m₄, hexec, h⟩ := run_bind_eq_ok.mp h
        obtain ⟨u', m₅, hreset, h⟩ := run_bind_eq_ok.mp h
        cases run_pure_eq_ok.mp h
        obtain ⟨hsame₃, hparams₃, hlog₃⟩ := setParamExecVals_spec hset
        obtain ⟨hsame₅, hparams₅, hlog₅⟩ := setParamExecVals_spec hreset
        obtain ⟨hr₃, hframe₃, hi₃, hinfo₃⟩ := hr.install hkept hi₁ hsame₃ hparams₃ hlog₃
        rw [← hinfo₃] at hload
        obtain ⟨hran, heval⟩ := execBody_spec (execCallSite_spec ectx n) hi₃ hr₃ hparams₃ rfl hload
          hnodup hexec
        refine ⟨⟨hsame₅.inv hran.inv, ?_, ?_, ?_⟩, ?_⟩
        · exact (hframe₃.trans hran.frame).trans hsame₅.frame
        · rw [hlog₅]
          exact hran.nested
        · rw [hparams₅]
          exact hkept.params
        · have hlength : (store.decode b).2.nargs ≤ (store.values σ.argvalues).length := by
            rw [SerialStorage.values, List.length_map, σ.argvalues_length]
            exact hnargs
          exact (if_neg hheld).trans (execEvalCallLambdaExpr_body hdetoast hlength heval)

/-! ## The rows -/

/-- One row after another, each with no activation running. -/
theorem execRows_spec {fuel : Nat} (hnodup : s.sites.Nodup) :
    ∀ {rows : List (EContext V B)} {m m' : Machine F V B}
      {vs : List (Slot V B)}, Loaded cat m.info [] s e → Ready cat rt store [] s.sites [] m →
      m.paramExecVals = .query → execRows cat rt store fuel s rows m = .ok (vs, m') →
      List.Forall₂ (fun ectx v => evalCalling cat rt store.toLambdaStorage fuel
          (store.values ectx.row) (store.values ectx.queryParams) e = .ok (v.map store.datum))
        rows vs ∧
        Ready cat rt store [] s.sites [] m' ∧ m'.paramExecVals = .query
  | [], m, m', vs, _, hr, hquery, h => by
    cases run_pure_eq_ok.mp h
    exact ⟨.nil, hr, hquery⟩
  | ectx :: rows, m, m', vs, hload, hr, hquery, h => by
    obtain ⟨v, m₁, hv, h⟩ := run_bind_eq_ok.mp h
    obtain ⟨vs', m₂, hvs, h⟩ := run_bind_eq_ok.mp h
    cases run_pure_eq_ok.mp h
    obtain ⟨hran, heval⟩ := execSteps_spec (execCallSite_spec ectx fuel) hload hnodup hr hv
    obtain ⟨hall, hready, hquery'⟩ := execRows_spec hnodup (hran.frame.loaded hload) (hran.ready hr)
      (hran.params.trans hquery) hvs
    have hparams : m.params ectx.queryParams = ectx.queryParams := by
      unfold Machine.params
      rw [hquery]
    rw [hparams] at heval
    exact ⟨.cons heval hall, hready, hquery'⟩

/-- **Nested calls do not disturb their callers.** An expression that is initialized once and
evaluated on any rows has on each of them the value that passing environments gives. No call
site was entered while one of its activations was running; every activation ended with the
parameter array that it found, and in it the values that were there; and in the end the
parameters are the query's. -/
theorem nested_calls_undisturbed (cat : ProcCatalog F) (rt : Runtime F V (Except LambdaError))
    (store : SerialStorage F V B) (fuel : Nat) (e : CallingExpr F V B)
    (rows : List (EContext V B)) (vs : List (Slot V B)) (m : Machine F V B)
    (h : execQuery cat rt store fuel e rows = .ok (vs, m)) :
    List.Forall₂ (fun ectx v => evalCalling cat rt store.toLambdaStorage fuel
      (store.values ectx.row) (store.values ectx.queryParams) e = .ok (v.map store.datum)) rows vs ∧
      Nested m.log [] ∧ m.paramExecVals = .query := by
  obtain ⟨s, m₁, hinit, h⟩ := run_bind_eq_ok.mp h
  obtain ⟨hadd, hload⟩ : Added cat rt store s.sites Machine.empty m₁ ∧ Loaded cat m₁.info [] s e :=
    execInitExprRec_spec inv_empty hinit
  have hquery : m₁.paramExecVals = .query := hadd.params
  have hr : Ready cat rt store [] s.sites [] m₁ := by
    refine ⟨hadd.inv, ?_, fun a ha => ?_, fun i hi => ?_⟩
    · rw [hadd.log]
      exact .nil
    · cases ha
    · rw [hquery] at hi
      cases hi
  obtain ⟨hall, hready, hend⟩ := execRows_spec hadd.nodup hload hr hquery h
  exact ⟨hall, hready.nested, hend⟩

end Spec

/-- `collidingStore`, read-only. -/
def readOnlyStore : SerialStorage ArithFunc Int Nat where
  toLambdaStorage := collidingStore
  serialize _ := .error .notSerialized
  decode_serialize _ _ h := by cases h

/-- The first lambda of the row on the second one and its value at the third column. -/
def twiceCall : CallingExpr ArithFunc Int Nat :=
  .callLambda (.var 0 LAMBDAOID) [] INT4OID
    [.var 1 LAMBDAOID, .callLambda (.var 1 LAMBDAOID) [] INT4OID [.var 2 INT4OID]]

/-- Each call site has room for one body, so the second row frees what the first one built. -/
def twiceRows : List (EContext Int Nat) :=
  [⟨[some (.lambda 0), some (.lambda 1), some (.atom 3)], [], oneEntry⟩,
   ⟨[some (.lambda 0), some (.lambda 2), some (.atom 3)], [], oneEntry⟩,
   ⟨[some (.lambda 0), some (.lambda 1), some (.atom 9)], [], oneEntry⟩]

theorem nested_calls_undisturbed_twice :
    ∃ m, execQuery arithCatalog arithTotalRuntime readOnlyStore 3 twiceCall twiceRows =
        .ok ([some (.atom 6), some (.atom 3), some (.atom 12)], m) ∧
      m.log.length = 24 ∧ Nested m.log [] ∧ m.paramExecVals = .query := by
  have hrun : ((execQuery arithCatalog arithTotalRuntime readOnlyStore 3 twiceCall
      twiceRows).toOption.map fun r => (r.1, r.2.log.length)) =
      some ([some (.atom 6), some (.atom 3), some (.atom 12)], 24) := by decide +kernel
  cases h : execQuery arithCatalog arithTotalRuntime readOnlyStore 3 twiceCall twiceRows with
  | error e =>
    rw [h] at hrun
    cases hrun
  | ok r =>
    rw [h] at hrun
    obtain ⟨vs, m⟩ := r
    obtain ⟨rfl, hlog⟩ := Prod.mk.inj (Option.some.inj hrun)
    exact ⟨m, rfl, hlog, (nested_calls_undisturbed _ _ _ _ _ _ _ m h).2⟩

end HolLambdas.Scalar
