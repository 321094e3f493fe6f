import HolLambdas.Scalar.Application

/-!
# The nested interpreter computes the meaning

With hoisting off, a call runs the stored body and each function-input call in
it is a nested call. For pure, total functions what comes out is the meaning of
the body in the algebra of values.

The representation of lambda values is the one subtle point. Arguments arrive
serialized; a lambda embedded in a body reaches a callee as the address of its
node, and detoasting that fails. Whether an evaluation gets that far is a matter
of the body and its inputs (`CallsEmbedded`): either it does and the evaluation
raises, or it does not and the evaluation returns the meaning
(`nestedSpec_of_means`).
-/

namespace HolLambdas.Scalar

variable {F V : Type}
variable {name : List String} {args : List (Expr F V)} {Es : List (Entry F V (Option V))}
variable {repr : LambdaRepr} {le : LambdaExpr F V} {E : Entry F V (Option V)}

/-- Values: every operation is applied to what its operands evaluate to. -/
def valueAlgebra (cat : ProcCatalog F) (fn : F → List (Option V) → Option V)
    (isTrue : V → Bool) : ScalarAlgebra F V (Option V) where
  const _ v := v
  func f vs := if cat.proisstrict f && vs.any Option.isNone then none else fn f vs
  caseWhen _ c r d := if condHolds isTrue c then r else d
  coalesce _ a b := if a.isSome then a else b

/-- An input of a nested call: what it means, and whether it is a lambda that
comes as the address of its node. -/
abbrev InputSlot (F V : Type) := Entry F V (Option V) × Bool

/-- Is the value of an argument the address of a node? That of an embedded lambda
is, and a reference passes its input on as it is. -/
def Expr.isNode (slots : List (InputSlot F V)) : Expr F V → Bool
  | .lambda _ _ => true
  | .param k _ => (slots[k]?).any Prod.snd
  | _ => false

/-- The inputs of a callee: its arguments mean `Es`. -/
def argSlots (slots : List (InputSlot F V)) (args : List (Expr F V))
    (Es : List (Entry F V (Option V))) : List (InputSlot F V) :=
  Es.zip (args.map (Expr.isNode slots))

section Reaches

variable (cat : ProcCatalog F) (fn : F → List (Option V) → Option V) (isTrue : V → Bool)

mutual

/-- Evaluating the body in these inputs gets to a call of an embedded lambda. The
arguments of a call are evaluated before the call, and of a `CASE` and a
`COALESCE` only what their operands' values select. -/
inductive CallsEmbedded : List (InputSlot F V) → Expr F V → Prop
  | func {slots f args} (h : CallsEmbeddedArgs slots args) : CallsEmbedded slots (.func f args)
  | cond {slots t c r d} (h : CallsEmbedded slots c) : CallsEmbedded slots (.caseWhen t c r d)
  | branch {slots t c r d v}
      (hc : Means (valueAlgebra cat fn isTrue) (slots.map Prod.fst) c (.val v))
      (h : CallsEmbedded slots (if condHolds isTrue v then r else d)) :
      CallsEmbedded slots (.caseWhen t c r d)
  | first {slots t a b} (h : CallsEmbedded slots a) : CallsEmbedded slots (.coalesce t a b)
  | rest {slots t a b}
      (ha : Means (valueAlgebra cat fn isTrue) (slots.map Prod.fst) a (.val none))
      (h : CallsEmbedded slots b) : CallsEmbedded slots (.coalesce t a b)
  | args {slots name t k args} (h : CallsEmbeddedArgs slots args) :
      CallsEmbedded slots (.lfa name t k args)
  | here {slots name t k args hd body} (hk : slots[k]? = some (.lam hd body, true)) :
      CallsEmbedded slots (.lfa name t k args)
  | callee {slots name t k args hd body node Es} (hk : slots[k]? = some (.lam hd body, node))
      (hargs : MeansArgs (valueAlgebra cat fn isTrue) (slots.map Prod.fst) args Es)
      (h : CallsEmbedded (argSlots slots args Es) body) : CallsEmbedded slots (.lfa name t k args)

inductive CallsEmbeddedArgs : List (InputSlot F V) → List (Expr F V) → Prop
  | head {slots e es} (h : CallsEmbedded slots e) : CallsEmbeddedArgs slots (e :: es)
  | tail {slots e es} (h : CallsEmbeddedArgs slots es) : CallsEmbeddedArgs slots (e :: es)

end

end Reaches

/-! ## Rules for the interpreter -/

section Rules

variable (cat : ProcCatalog F) (rt : Runtime F V (Except LambdaError))

/-- With hoisting off, `e` evaluates to `v` in the frame. -/
def Evaluates (frame : List (Option (Datum F V))) (e : Expr F V) (v : Option (Datum F V)) :
    Prop :=
  Settles (fun n => execExpr cat rt false n frame e) v

def EvaluatesArgs (frame : List (Option (Datum F V))) (es : List (Expr F V))
    (vs : List (Option (Datum F V))) : Prop :=
  Settles (fun n => execArgsWith cat rt (execEvalCallLambdaExpr cat rt false n) frame es) vs

/-- With hoisting off, the evaluation of `e` in the frame fails with `err`. -/
def Raises (frame : List (Option (Datum F V))) (e : Expr F V) (err : LambdaError) : Prop :=
  Fails (fun n => execExpr cat rt false n frame e) err

def RaisesArgs (frame : List (Option (Datum F V))) (es : List (Expr F V)) (err : LambdaError) :
    Prop :=
  Fails (fun n => execArgsWith cat rt (execEvalCallLambdaExpr cat rt false n) frame es) err

variable {cat rt} {frame : List (Option (Datum F V))}

theorem atoms?_map (vs : List (Option V)) :
    atoms? (vs.map fun v => v.map .atom : List (Option (Datum F V))) = some vs := by
  induction vs with
  | nil => rfl
  | cons v vs ih => cases v <;> simp [atoms?, ih]

theorem datumHolds_atom {isTrue : V → Bool} (v : Option V) :
    datumHolds isTrue (v.map .atom : Option (Datum F V)) = condHolds isTrue v := by
  cases v <;> rfl

variable {t : Oid} {k : Nat} {v : Option (Datum F V)} {vs : List (Option (Datum F V))}

theorem evaluates_const {v : Option V} : Evaluates cat rt frame (.const t v) (v.map .atom) :=
  settles_const rfl

theorem evaluates_param (h : frame[k]? = some v) : Evaluates cat rt frame (.param k t) v :=
  settles_const (by simp only [h]; rfl)

theorem evaluates_lambda {h : LambdaHeader} {e : Expr F V} :
    Evaluates cat rt frame (.lambda h e)
      (some (.lambda .node { toLambdaHeader := h, expr := e })) :=
  settles_const rfl

theorem evaluates_func {f : F} {vs : List (Option V)} {v : Option V}
    (hargs : EvaluatesArgs cat rt frame args (vs.map fun v => v.map .atom))
    (hcall : callFunction cat rt f vs = .ok v) :
    Evaluates cat rt frame (.func f args) (v.map .atom) := by
  refine hargs.bind (settles_const ?_)
  simp only [atoms?_map, hcall]
  rfl

theorem evaluates_caseWhen {c r d : Expr F V} {b : Option V}
    (hc : Evaluates cat rt frame c (b.map .atom))
    (hv : Evaluates cat rt frame (if condHolds rt.isTrue b then r else d) v) :
    Evaluates cat rt frame (.caseWhen t c r d) v := by
  refine hc.bind ?_
  simp only [datumHolds_atom]
  cases hb : condHolds rt.isTrue b with
  | true | false =>
    rw [hb] at hv
    exact hv

theorem raises_caseWhen {c r d : Expr F V} {b : Option V} {err : LambdaError}
    (hc : Evaluates cat rt frame c (b.map .atom))
    (hv : Raises cat rt frame (if condHolds rt.isTrue b then r else d) err) :
    Raises cat rt frame (.caseWhen t c r d) err := by
  refine hc.bind_fails ?_
  simp only [datumHolds_atom]
  cases hb : condHolds rt.isTrue b with
  | true | false =>
    rw [hb] at hv
    exact hv

theorem readParam_eq (h : frame[k]? = some v) :
    (readParam frame k : Except LambdaError _) = .ok v := by
  simp only [readParam, h]
  rfl

/-- The nested call of a serialized lambda runs its body. -/
theorem nestedCall_eq {n : Nat} (hdetoast : rt.detoast repr = .ok ()) (hlen : le.nargs ≤ vs.length)
    {argTypes : List Oid} :
    execEvalCallLambdaExpr cat rt false (n + 1)
        { lambdaValue := some (.lambda repr le), argTypes, argvalues := vs } =
      execExpr cat rt false n vs le.expr := by
  have hbuild : lambdaCacheBuild cat rt false n le
      { lambdaValue := some (.lambda repr le), argTypes, argvalues := vs } = .ok le.expr := by
    simp only [lambdaCacheBuild, Bool.false_and, Bool.false_eq_true, if_false,
      Nat.not_lt.mpr hlen]
    rfl
  simp only [execEvalCallLambdaExpr, hdetoast, hbuild]
  rfl

theorem evaluates_lfa (hk : frame[k]? = some (some (.lambda repr le)))
    (hdetoast : rt.detoast repr = .ok ()) (hlen : le.nargs ≤ vs.length)
    (hargs : EvaluatesArgs cat rt frame args vs) (hbody : Evaluates cat rt vs le.expr v) :
    Evaluates cat rt frame (.lfa name t k args) v :=
  (settles_const (readParam_eq hk)).bind (hargs.bind
    (Settles.of_succ (hbody.mono fun _ hn => (nestedCall_eq hdetoast hlen).trans hn)))

theorem evaluates_lfa_null (hk : frame[k]? = some none)
    (hargs : EvaluatesArgs cat rt frame args vs) :
    Evaluates cat rt frame (.lfa name t k args) none :=
  (settles_const (readParam_eq hk)).bind (hargs.bind (Settles.of_succ (settles_const rfl)))

/-- The call fails with what its callee's body fails with. -/
theorem raises_lfa {err : LambdaError} (hk : frame[k]? = some (some (.lambda repr le)))
    (hdetoast : rt.detoast repr = .ok ()) (hlen : le.nargs ≤ vs.length)
    (hargs : EvaluatesArgs cat rt frame args vs) (hbody : Raises cat rt vs le.expr err) :
    Raises cat rt frame (.lfa name t k args) err :=
  (settles_const (readParam_eq hk)).bind_fails (hargs.bind_fails
    (Fails.of_succ (hbody.mono fun _ hn => (nestedCall_eq hdetoast hlen).trans hn)))

/-- …or with what detoasting the lambda fails with. -/
theorem raises_lfa_detoast {err : LambdaError} (hk : frame[k]? = some (some (.lambda repr le)))
    (hdetoast : rt.detoast repr = .error err) (hargs : EvaluatesArgs cat rt frame args vs) :
    Raises cat rt frame (.lfa name t k args) err := by
  refine (settles_const (readParam_eq hk)).bind_fails (hargs.bind_fails (fails_of_succ fun n => ?_))
  simp only [execEvalCallLambdaExpr, hdetoast]
  rfl

theorem evaluatesArgs_nil : EvaluatesArgs cat rt frame [] [] :=
  settles_const rfl

theorem evaluatesArgs_cons {e : Expr F V} {es : List (Expr F V)} (h : Evaluates cat rt frame e v)
    (hs : EvaluatesArgs cat rt frame es vs) : EvaluatesArgs cat rt frame (e :: es) (v :: vs) :=
  h.bind (hs.bind (settles_const rfl))

end Rules

/-! ## Evaluation is the meaning -/

section Meaning

variable {cat : ProcCatalog F} {fn : F → List (Option V) → Option V} {isTrue : V → Bool}

/-- A value in a frame represents an input. -/
def Represents : InputSlot F V → Option (Datum F V) → Prop
  | (.val v, _), o => o = v.map .atom
  | (.lam h e, node), o =>
    o = some (.lambda (if node then .node else .serialized) { toLambdaHeader := h, expr := e })
  | (.nul, _), o => o = none

theorem callFunction_eq (f : F) (vs : List (Option V)) :
    callFunction cat (pureRuntime fn isTrue) f vs =
      .ok ((valueAlgebra cat fn isTrue).func f vs) := by
  simp only [callFunction, valueAlgebra]
  split
  · rfl
  · rfl

theorem argSlots_fst (slots : List (InputSlot F V)) (h : args.length = Es.length) :
    (argSlots slots args Es).map Prod.fst = Es :=
  List.map_fst_zip (by rw [List.length_map, h])

/-- The values of atomic arguments. -/
theorem represents_vals {slots : List (InputSlot F V)} {vs : List (Option V)}
    {os : List (Option (Datum F V))} (hlen : args.length = vs.length)
    (h : List.Forall₂ Represents (argSlots slots args (vs.map .val)) os) :
    os = vs.map fun v => v.map .atom := by
  induction vs generalizing args os with
  | nil =>
    rw [List.length_nil, List.length_eq_zero_iff] at hlen
    subst hlen
    cases h
    rfl
  | cons v vs ih =>
    obtain ⟨e, es, rfl⟩ := List.exists_cons_of_length_eq_add_one hlen
    cases h with
    | cons hv hvs => rw [List.map_cons, ← ih (Nat.succ.inj hlen) hvs, hv]

/-- What a nested evaluation is shown to do, given the meaning: it fails at the call
of an embedded lambda, if it gets to one, and otherwise it returns the meaning. -/
def NestedSpec (cat : ProcCatalog F) (fn : F → List (Option V) → Option V) (isTrue : V → Bool)
    (slots : List (InputSlot F V)) (e : Expr F V) (E : Entry F V (Option V)) : Prop :=
  ∀ frame, List.Forall₂ Represents slots frame →
    (CallsEmbedded cat fn isTrue slots e ∧
      Raises cat (pureRuntime fn isTrue) frame e .notSerialized) ∨
    (¬ CallsEmbedded cat fn isTrue slots e ∧
      ∃ v, Evaluates cat (pureRuntime fn isTrue) frame e v ∧ Represents (E, e.isNode slots) v)

def NestedArgsSpec (cat : ProcCatalog F) (fn : F → List (Option V) → Option V) (isTrue : V → Bool)
    (slots : List (InputSlot F V)) (es : List (Expr F V))
    (Es : List (Entry F V (Option V))) : Prop :=
  ∀ frame, List.Forall₂ Represents slots frame →
    (CallsEmbeddedArgs cat fn isTrue slots es ∧
      RaisesArgs cat (pureRuntime fn isTrue) frame es .notSerialized) ∨
    (¬ CallsEmbeddedArgs cat fn isTrue slots es ∧
      ∃ vs, EvaluatesArgs cat (pureRuntime fn isTrue) frame es vs ∧
        List.Forall₂ Represents (argSlots slots es Es) vs)

section Step

variable {slots : List (InputSlot F V)} {t : Oid}

theorem nestedSpec_func {f : F} {vs : List (Option V)} (hlen : args.length = vs.length)
    (hargs : NestedArgsSpec cat fn isTrue slots args (vs.map .val)) :
    NestedSpec cat fn isTrue slots (.func f args)
      (.val ((valueAlgebra cat fn isTrue).func f vs)) := by
  intro frame hframe
  rcases hargs frame hframe with ⟨hcall, hfail⟩ | ⟨hno, os, hos, hrs⟩
  · exact .inl ⟨.func hcall, hfail.bind⟩
  · rw [represents_vals hlen hrs] at hos
    refine .inr ⟨?_, _, evaluates_func hos (callFunction_eq f vs), rfl⟩
    rintro ⟨h⟩
    exact hno h

theorem nestedSpec_caseWhen {c r d : Expr F V} {vc vr vd : Option V}
    (hm : Means (valueAlgebra cat fn isTrue) (slots.map Prod.fst) c (.val vc))
    (hc : NestedSpec cat fn isTrue slots c (.val vc))
    (hr : NestedSpec cat fn isTrue slots r (.val vr))
    (hd : NestedSpec cat fn isTrue slots d (.val vd)) :
    NestedSpec cat fn isTrue slots (.caseWhen t c r d)
      (.val (if condHolds isTrue vc then vr else vd)) := by
  intro frame hframe
  have hbranch : NestedSpec cat fn isTrue slots (if condHolds isTrue vc then r else d)
      (.val (if condHolds isTrue vc then vr else vd)) := by
    split
    · exact hr
    · exact hd
  rcases hc frame hframe with ⟨hcall, hfail⟩ | ⟨hno, _, hv, rfl⟩
  · exact .inl ⟨.cond hcall, hfail.bind⟩
  · rcases hbranch frame hframe with ⟨hcall, hfail⟩ | ⟨hno', _, hv', rfl⟩
    · exact .inl ⟨.branch hm hcall, raises_caseWhen hv hfail⟩
    · refine .inr ⟨?_, _, evaluates_caseWhen hv hv', rfl⟩
      rintro (_ | h | ⟨hm', h⟩)
      · exact hno h
      · have heq := hm'.unique hm
        cases heq
        exact hno' h

theorem nestedSpec_coalesce {a b : Expr F V} {va vb : Option V}
    (hm : Means (valueAlgebra cat fn isTrue) (slots.map Prod.fst) a (.val va))
    (ha : NestedSpec cat fn isTrue slots a (.val va))
    (hb : NestedSpec cat fn isTrue slots b (.val vb)) :
    NestedSpec cat fn isTrue slots (.coalesce t a b) (.val (if va.isSome then va else vb)) := by
  intro frame hframe
  rcases ha frame hframe with ⟨hcall, hfail⟩ | ⟨hno, _, hv, rfl⟩
  · exact .inl ⟨.first hcall, hfail.bind⟩
  · cases va with
    | some v =>
      refine .inr ⟨?_, _, hv.bind (settles_const rfl), rfl⟩
      rintro (_ | _ | _ | h | ⟨hm', _⟩)
      · exact hno h
      · cases hm'.unique hm
    | none =>
      rcases hb frame hframe with ⟨hcall, hfail⟩ | ⟨hno', _, hv', rfl⟩
      · exact .inl ⟨.rest hm hcall, hv.bind_fails hfail⟩
      · refine .inr ⟨?_, _, hv.bind hv', rfl⟩
        rintro (_ | _ | _ | h | ⟨_, h⟩)
        · exact hno h
        · exact hno' h

/-- A call of a lambda whose body is taken care of. -/
theorem nestedSpec_lfa {k : Nat} {hd : LambdaHeader} {body : Expr F V} {node : Bool}
    (hk : slots[k]? = some (.lam hd body, node)) (hlen : args.length = hd.nargs)
    (hlen' : args.length = Es.length)
    (hm : MeansArgs (valueAlgebra cat fn isTrue) (slots.map Prod.fst) args Es)
    (hargs : NestedArgsSpec cat fn isTrue slots args Es) {d : Option V}
    (hbody : NestedSpec cat fn isTrue (argSlots slots args Es) body (.val d)) :
    NestedSpec cat fn isTrue slots (.lfa name t k args) (.val d) := by
  intro frame hframe
  obtain ⟨o, ho, hr⟩ := forall₂_lookup hframe hk
  rcases hargs frame hframe with ⟨hcall, hfail⟩ | ⟨hno, os, hos, hrs⟩
  · exact .inl ⟨.args hcall, (settles_const (readParam_eq ho)).bind_fails hfail.bind⟩
  · cases node with
    | true =>
      cases hr
      exact .inl ⟨.here hk, raises_lfa_detoast ho rfl hos⟩
    | false =>
      cases hr
      have hle : hd.nargs ≤ os.length := by
        rw [← hrs.length_eq, argSlots, List.length_zip, List.length_map, ← hlen',
          Nat.min_self, hlen]
      rcases hbody os hrs with ⟨hcall, hfail⟩ | ⟨hno', _, hv, rfl⟩
      · exact .inl ⟨.callee hk hm hcall, raises_lfa ho rfl hle hos hfail⟩
      · refine .inr ⟨?_, _, evaluates_lfa ho rfl hle hos hv, rfl⟩
        intro h
        cases h with
        | args h => exact hno h
        | here hk' =>
          rw [hk] at hk'
          cases hk'
        | callee hk' hm' h =>
          rw [hk] at hk'
          cases hk'
          rw [hm'.unique hm] at h
          exact hno' h

/-- A call of NULL. -/
theorem nestedSpec_lfa_nul {k : Nat} {node : Bool} (hk : slots[k]? = some (.nul, node))
    (hargs : NestedArgsSpec cat fn isTrue slots args Es) :
    NestedSpec cat fn isTrue slots (.lfa name t k args) (.val none) := by
  intro frame hframe
  obtain ⟨o, ho, hr⟩ := forall₂_lookup hframe hk
  cases hr
  rcases hargs frame hframe with ⟨hcall, hfail⟩ | ⟨hno, os, hos, _⟩
  · exact .inl ⟨.args hcall, (settles_const (readParam_eq ho)).bind_fails hfail.bind⟩
  · refine .inr ⟨?_, none, evaluates_lfa_null ho hos, rfl⟩
    intro h
    cases h with
    | args h => exact hno h
    | here hk' => simp [hk] at hk'
    | callee hk' => simp [hk] at hk'

theorem nestedArgsSpec_cons {e : Expr F V} {es : List (Expr F V)}
    (he : NestedSpec cat fn isTrue slots e E) (hes : NestedArgsSpec cat fn isTrue slots es Es) :
    NestedArgsSpec cat fn isTrue slots (e :: es) (E :: Es) := by
  intro frame hframe
  rcases he frame hframe with ⟨hcall, hfail⟩ | ⟨hno, v, hv, hr⟩
  · exact .inl ⟨.head hcall, hfail.bind⟩
  · rcases hes frame hframe with ⟨hcall, hfail⟩ | ⟨hno', vs, hvs, hrs⟩
    · exact .inl ⟨.tail hcall, hv.bind_fails hfail.bind⟩
    · refine .inr ⟨?_, v :: vs, evaluatesArgs_cons hv hvs, .cons hr hrs⟩
      rintro (h | h)
      · exact hno h
      · exact hno' h

/-- An input of the environment, with its flag. -/
theorem exists_slot {k : Nat} (h : (slots.map Prod.fst)[k]? = some E) :
    ∃ node, slots[k]? = some (E, node) := by
  rw [List.getElem?_map, Option.map_eq_some_iff] at h
  obtain ⟨⟨_, node⟩, hk, rfl⟩ := h
  exact ⟨node, hk⟩

mutual

/-- **Adequacy.** With hoisting off, a body evaluates to its meaning, unless it gets
to a call of an embedded lambda; then it fails. -/
theorem nestedSpec_of_means : ∀ {env : List (Entry F V (Option V))} {e : Expr F V}
    {E : Entry F V (Option V)}, Means (valueAlgebra cat fn isTrue) env e E →
      ∀ {slots : List (InputSlot F V)}, slots.map Prod.fst = env →
        NestedSpec cat fn isTrue slots e E
  | _, _, _, .const, _, _ => fun _ _ => .inr ⟨nofun, _, evaluates_const, rfl⟩
  | _, _, _, .param h, slots, henv => by
    intro frame hframe
    obtain ⟨node, hk⟩ := exists_slot (henv ▸ h)
    obtain ⟨v, hv, hr⟩ := forall₂_lookup hframe hk
    refine .inr ⟨nofun, v, evaluates_param hv, ?_⟩
    rw [Expr.isNode, hk]
    exact hr
  | _, _, _, .func h, _, henv =>
    nestedSpec_func (by simpa using h.length_eq) (nestedArgsSpec_of_meansArgs h henv)
  | _, _, _, .caseWhen hc hr hd, _, henv =>
    nestedSpec_caseWhen (henv ▸ hc) (nestedSpec_of_means hc henv) (nestedSpec_of_means hr henv)
      (nestedSpec_of_means hd henv)
  | _, _, _, .coalesce ha hb, _, henv =>
    nestedSpec_coalesce (henv ▸ ha) (nestedSpec_of_means ha henv) (nestedSpec_of_means hb henv)
  | _, _, _, .lfa hk hlen hargs hbody, slots, henv => by
    obtain ⟨node, hk⟩ := exists_slot (henv ▸ hk)
    -- the callee runs in a fresh frame that holds the arguments
    exact nestedSpec_lfa hk hlen hargs.length_eq (henv ▸ hargs)
      (nestedArgsSpec_of_meansArgs hargs henv)
      (nestedSpec_of_means hbody (argSlots_fst slots hargs.length_eq))
  | _, _, _, .lfaNul hk hargs, _, henv => by
    obtain ⟨node, hk⟩ := exists_slot (henv ▸ hk)
    exact nestedSpec_lfa_nul hk (nestedArgsSpec_of_meansArgs hargs henv)
  | _, _, _, .lambda, _, _ => fun _ _ => .inr ⟨nofun, _, evaluates_lambda, rfl⟩

theorem nestedArgsSpec_of_meansArgs : ∀ {env : List (Entry F V (Option V))} {es : List (Expr F V)}
    {Es : List (Entry F V (Option V))}, MeansArgs (valueAlgebra cat fn isTrue) env es Es →
      ∀ {slots : List (InputSlot F V)}, slots.map Prod.fst = env →
        NestedArgsSpec cat fn isTrue slots es Es
  | _, _, _, .nil, _, _ => fun _ _ => .inr ⟨nofun, [], evaluatesArgs_nil, .nil⟩
  | _, _, _, .cons h hs, _, henv =>
    nestedArgsSpec_cons (nestedSpec_of_means h henv) (nestedArgsSpec_of_meansArgs hs henv)

end

end Step

/-! ## Without embedded lambdas -/

/-- The input is not an embedded lambda and has none in its body. -/
def PlainSlot : InputSlot F V → Prop
  | (.lam _ e, node) => node = false ∧ e.hasLambda = false
  | (_, node) => node = false

/-- What is passed on in a body without embedded lambdas. -/
theorem Means.plainSlot {slots : List (InputSlot F V)} {e : Expr F V}
    (h : Means (valueAlgebra cat fn isTrue) (slots.map Prod.fst) e E)
    (hslots : ∀ s ∈ slots, PlainSlot s) (he : e.hasLambda = false) :
    PlainSlot (E, e.isNode slots) := by
  generalize henv : slots.map Prod.fst = env at h
  cases h with
  | param h =>
    obtain ⟨node, hk⟩ := exists_slot (henv ▸ h)
    rw [Expr.isNode, hk]
    exact hslots _ (List.mem_of_getElem? hk)
  | lambda => simp [Expr.hasLambda] at he
  | const | func | caseWhen | coalesce | lfa | lfaNul => rfl

theorem MeansArgs.plainSlots {slots : List (InputSlot F V)} (hslots : ∀ s ∈ slots, PlainSlot s) :
    ∀ {args : List (Expr F V)} {Es : List (Entry F V (Option V))},
      MeansArgs (valueAlgebra cat fn isTrue) (slots.map Prod.fst) args Es →
      Expr.hasLambdaArgs args = false → ∀ s ∈ argSlots slots args Es, PlainSlot s
  | _, _, .nil, _, s, hs => by simp [argSlots] at hs
  | _, _, .cons hE hEs, hplain, s, hs => by
    simp only [Expr.hasLambdaArgs, Bool.or_eq_false_iff] at hplain
    rcases List.mem_cons.mp hs with rfl | hs
    · exact hE.plainSlot hslots hplain.1
    · exact hEs.plainSlots hslots hplain.2 s hs

mutual

/-- Where there is no embedded lambda none is called. -/
theorem not_callsEmbedded : ∀ {slots : List (InputSlot F V)} {e : Expr F V},
    (∀ s ∈ slots, PlainSlot s) → e.hasLambda = false → ¬ CallsEmbedded cat fn isTrue slots e
  | slots, _, hs, he, .func h => not_callsEmbeddedArgs hs he h
  | slots, _, hs, he, .cond h => by
    simp only [Expr.hasLambda, Bool.or_eq_false_iff] at he
    exact not_callsEmbedded hs he.1.1 h
  | slots, _, hs, he, .branch _ h => by
    simp only [Expr.hasLambda, Bool.or_eq_false_iff] at he
    refine not_callsEmbedded hs ?_ h
    split
    · exact he.1.2
    · exact he.2
  | slots, _, hs, he, .first h => by
    simp only [Expr.hasLambda, Bool.or_eq_false_iff] at he
    exact not_callsEmbedded hs he.1 h
  | slots, _, hs, he, .rest _ h => by
    simp only [Expr.hasLambda, Bool.or_eq_false_iff] at he
    exact not_callsEmbedded hs he.2 h
  | slots, _, hs, he, .args h => not_callsEmbeddedArgs hs he h
  | slots, _, hs, _, .here hk => by cases (hs _ (List.mem_of_getElem? hk)).1
  | slots, _, hs, he, .callee hk hargs h =>
    not_callsEmbedded (hargs.plainSlots hs he) (hs _ (List.mem_of_getElem? hk)).2 h

theorem not_callsEmbeddedArgs : ∀ {slots : List (InputSlot F V)} {es : List (Expr F V)},
    (∀ s ∈ slots, PlainSlot s) → Expr.hasLambdaArgs es = false →
      ¬ CallsEmbeddedArgs cat fn isTrue slots es
  | slots, _, hs, he, .head h => by
    simp only [Expr.hasLambdaArgs, Bool.or_eq_false_iff] at he
    exact not_callsEmbedded hs he.1 h
  | slots, _, hs, he, .tail h => by
    simp only [Expr.hasLambdaArgs, Bool.or_eq_false_iff] at he
    exact not_callsEmbeddedArgs hs he.2 h

end

end Meaning

end HolLambdas.Scalar
