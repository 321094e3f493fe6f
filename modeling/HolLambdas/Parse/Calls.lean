import HolLambdas.Parse.Literal
import HolLambdas.Scalar.WellCalled

/-!
# Function arguments the parser lets through

Every function-valued expression has the SQL type `lambda`, and that type is all
the parser compares when a function is passed: a lambda column takes any lambda
for a function-valued parameter, and so does a function input called in a body,
whose number of arguments is not compared either.

So the parser does not make sure that a function is passed at its own signature.
Whether it is can be told from the text of a body (`rawWellCalled`) and from the
signatures of the arguments of a column call (`WrittenSignatures`). Where it is,
the inliner does its work (`accepted_call_iff`); where it is not, it may fail or
not end (`self_application_accepted`).
-/

namespace HolLambdas.Parse

open HolLambdas.Scalar

variable {F V : Type} {σs : List LambdaSigType}

/-! ## Calls in a raw body -/

/-- The call is a cast to the type `t`. -/
def FuncDetail.isCoercionTo (t : Oid) : FuncDetail F → Bool
  | .coercion target => target == t
  | _ => false

theorem FuncDetail.isCoercionTo_iff {t : Oid} {d : FuncDetail F} :
    d.isCoercionTo t = true ↔ d = .coercion t := by
  cases d with
  | coercion target => simp [isCoercionTo]
  | _ => simp [isCoercionTo]

section Raw

variable (cat : ParserCatalog F V) (S : LambdaSignature) (argnames : List String)

/-- The input a raw expression names: a bare name, or one under casts that do
nothing. -/
def namedInput : RawExpr V → Option Nat
  | .columnRef [varName] => listIndex argnames varName
  | .funcCall funcname [a] =>
    match rawType cat (.ok S) argnames a with
    | some t => if (cat.funcGetDetail funcname [t]).isCoercionTo t then namedInput a else none
    | none => none
  | _ => none

/-- The declared argument types of the function input that a call calls. -/
def calledInput (funcname : List String) (types : List Oid) : Option (List LambdaSigType) :=
  match funcname.head?.bind (listIndex argnames) with
  | some idx =>
    match cat.funcGetDetail funcname types, types with
    | .coercion _, [_] => none
    | _, _ =>
      match S.argtypes[idx]? with
      | some (.func argtypes _) => some argtypes
      | _ => none
  | none => none

/-- For a function-valued parameter the argument names an input of the declared
signature. -/
def passesInput (a : RawExpr V) (σ : LambdaSigType) : Bool :=
  !σ.isFunction ||
    decide ((namedInput cat S argnames a).bind (fun k => S.argtypes[k]?) = some σ)

/-- As many arguments as are declared, and each as declared. -/
def passesInputs : List (RawExpr V) → List LambdaSigType → Bool
  | [], [] => true
  | a :: as, σ :: σs => passesInput cat S argnames a σ && passesInputs as σs
  | _, _ => false

mutual

/-- Every call of a function input in a raw body passes the declared number of
arguments, and for a function-valued parameter an input of the declared
signature, by name. -/
def rawWellCalled : RawExpr V → Bool
  | .aConst _ _ => true
  | .columnRef _ => true
  | .funcCall funcname args =>
    rawWellCalledArgs args &&
      match (rawTypes cat (.ok S) argnames args).bind (calledInput cat S argnames funcname) with
      | some argtypes => passesInputs cat S argnames args argtypes
      | none => true
  | .aExpr _ args => rawWellCalledArgs args
  | .caseExpr c r d => rawWellCalled c && rawWellCalled r && rawWellCalled d
  | .coalesceExpr a b => rawWellCalled a && rawWellCalled b
  | .lambdaExpr _ _ => false

def rawWellCalledArgs : List (RawExpr V) → Bool
  | [] => true
  | e :: es => rawWellCalled e && rawWellCalledArgs es

end

end Raw

section Body

variable {cat : ParserCatalog F V} {S : LambdaSignature} {argnames : List String}

/-! ## Coercions keep calls -/

variable {e : Expr F V} {raw : RawExpr V} {raws : List (RawExpr V)}

theorem coerceType_wellCalled {Γ : List LambdaSigType} {ctx : CoercionContext}
    {actual target : Oid} {e' : Expr F V} (h : coerceType cat ctx actual target e = .ok e') :
    WellCalled Γ e' ↔ WellCalled Γ e := by
  obtain ⟨_, rfl⟩ | ⟨v, v', rfl, _, rfl⟩ | ⟨f, _, rfl⟩ := coerceType_cases h
  · exact Iff.rfl
  · simp only [WellCalled]
  · simp only [WellCalled, WellCalledArgs, and_true]

theorem makeFnArguments_wellCalled {Γ : List LambdaSigType} {declared : List Oid}
    {es es' : List (Expr F V)} (h : makeFnArguments cat declared es = .ok es') :
    WellCalledArgs Γ es' ↔ WellCalledArgs Γ es := by
  induction es generalizing declared es' with
  | nil =>
    cases h
    exact Iff.rfl
  | cons e es ih =>
    obtain ⟨e', he, h⟩ := bind_eq_ok.mp h
    obtain ⟨es'', hes, h⟩ := bind_eq_ok.mp h
    cases h
    simp only [WellCalledArgs, coerceType_wellCalled he, ih hes]

/-! ## Arguments passed by name -/

/-- A transformed expression is no embedded lambda, and it is a reference to an
input exactly if the raw expression names that input. -/
structure Names (cat : ParserCatalog F V) (S : LambdaSignature) (argnames : List String)
    (raw : RawExpr V) (e : Expr F V) : Prop where
  not_lambda : ∀ hd body, e ≠ .lambda hd body
  named : ∀ k, namedInput cat S argnames raw = some k ↔ ∃ t, e = .param k t
  declared : ∀ k t, e = .param k t → ∃ σ, S.argtypes[k]? = some σ ∧ σ.oid = t

/-- Expressions that are neither. -/
theorem Names.of_other (hlambda : ∀ hd body, e ≠ .lambda hd body) (hparam : ∀ k t, e ≠ .param k t)
    (hraw : namedInput cat S argnames raw = none) :
    Names cat S argnames raw e where
  not_lambda := hlambda
  named k := by
    rw [hraw]
    constructor
    · intro h
      cases h
    · rintro ⟨t, rfl⟩
      exact absurd rfl (hparam k t)
  declared k t h := absurd h (hparam k t)

theorem namedInput_funcCall_inv {funcname : List String} {k : Nat}
    (h : namedInput cat S argnames (.funcCall funcname raws) = some k) :
    ∃ raw t, raws = [raw] ∧ rawType cat (.ok S) argnames raw = some t ∧
      cat.funcGetDetail funcname [t] = .coercion t ∧ namedInput cat S argnames raw = some k := by
  match raws with
  | [raw] =>
    rw [namedInput] at h
    split at h
    next t ht =>
      split at h
      next hd => exact ⟨raw, t, rfl, ht, FuncDetail.isCoercionTo_iff.mp hd, h⟩
      next => cases h
    next => cases h
  | [] => simp [namedInput] at h
  | _ :: _ :: _ => simp [namedInput] at h

/-- A call names an input only as a cast that does nothing. -/
theorem namedInput_funcCall_eq_none {funcname : List String} {args : List (Expr F V)}
    (hargs : List.Forall₂ (fun raw e => transformExpr cat (.ok S) argnames raw = .ok e) raws args)
    (h : ∀ a, args = [a] → cat.funcGetDetail funcname (actualArgTypes cat [a]) ≠
      .coercion (a.exprType cat.toProcCatalog)) :
    namedInput cat S argnames (.funcCall funcname raws) = none := by
  cases hnamed : namedInput cat S argnames (.funcCall funcname raws) with
  | none => rfl
  | some k =>
    obtain ⟨raw, t, rfl, ht, hdetail, _⟩ := namedInput_funcCall_inv hnamed
    obtain ⟨a, _, ha, hnil, rfl⟩ := List.forall₂_cons_left_iff.mp hargs
    obtain rfl := List.forall₂_nil_left_iff.mp hnil
    rw [transformExpr_type ha] at ht
    cases ht
    exact absurd hdetail (h a rfl)

/-- An expression names an input exactly if its raw text does. -/
theorem transformExpr_names (h : transformExpr cat (.ok S) argnames raw = .ok e) :
    Names cat S argnames raw e := by
  induction raw using RawExpr.induction generalizing e with
  | aConst t v =>
    cases h
    exact .of_other (by simp) (by simp) (by simp [namedInput])
  | columnRef fields =>
    obtain ⟨varName, idx, S', σ, rfl, hidx, hS, hσ, rfl⟩ := lambdaColumnRefHook_inv h
    cases hS
    refine ⟨by simp, fun k => ?_, fun k t heq => ?_⟩
    · rw [namedInput, hidx]
      simp only [Option.some.injEq, Expr.param.injEq, exists_and_left, exists_eq', and_true]
    · cases heq
      exact ⟨σ, hσ, rfl⟩
  | funcCall funcname raws ih =>
    obtain ⟨args, hargs, hcall⟩ := transformExpr_funcCall_inv h
    cases hcall with
    | @coercion target a _ hdetail hcoerce =>
      obtain ⟨raw, raws', ha, hnil, rfl⟩ := List.forall₂_cons_right_iff.mp hargs
      obtain rfl := List.forall₂_nil_right_iff.mp hnil
      by_cases htarget : a.exprType cat.toProcCatalog = target
      · -- the cast does nothing
        subst htarget
        have hea : e = a := coerceType_of_eq rfl hcoerce
        have hsame : namedInput cat S argnames (.funcCall funcname [raw]) =
            namedInput cat S argnames raw := by
          rw [namedInput, transformExpr_type ha]
          exact if_pos (FuncDetail.isCoercionTo_iff.mpr hdetail)
        have hnames := ih raw (List.mem_cons_self ..) ha
        rw [hea]
        exact ⟨hnames.not_lambda, fun k => by rw [hsame]; exact hnames.named k, hnames.declared⟩
      · have hnone : namedInput cat S argnames (.funcCall funcname [raw]) = none := by
          refine namedInput_funcCall_eq_none hargs fun a' heq => ?_
          cases heq
          rw [hdetail]
          simp [Ne.symm htarget]
        obtain ⟨heq, _⟩ | ⟨v, v', _, _, rfl⟩ | ⟨f, _, rfl⟩ := coerceType_cases hcoerce
        · exact absurd heq htarget
        · exact .of_other (by simp) (by simp) hnone
        · exact .of_other (by simp) (by simp) hnone
    | input _ _ _ hno _ =>
      refine .of_other (by simp) (by simp) (namedInput_funcCall_eq_none hargs ?_)
      rintro a rfl hdetail
      exact hno _ a hdetail rfl
    | function _ hdetail _ =>
      refine .of_other (by simp) (by simp) (namedInput_funcCall_eq_none hargs ?_)
      rintro a rfl
      simp [hdetail]
  | aExpr opname raws ih =>
    obtain ⟨operands, f, args, _, _, _, rfl⟩ := transformExpr_aExpr_inv h
    exact .of_other (by simp) (by simp) (by simp [namedInput])
  | caseExpr c r d _ _ _ =>
    obtain ⟨c', r', d', c'', r'', d'', t, _, _, _, _, _, rfl⟩ := transformExpr_caseExpr_inv h
    exact .of_other (by simp) (by simp) (by simp [namedInput])
  | coalesceExpr a b _ _ =>
    obtain ⟨a', b', a'', b'', t, _, _, _, rfl⟩ := transformExpr_coalesceExpr_inv h
    exact .of_other (by simp) (by simp) (by simp [namedInput])
  | lambdaExpr _ _ _ => cases h

/-- An argument, coerced to the type of a parameter, is passed as declared exactly
if the raw argument is. -/
theorem passes_iff {e' : Expr F V} {σ : LambdaSigType}
    (h : transformExpr cat (.ok S) argnames raw = .ok e)
    (hcoerce : coerceType cat .implicit (actualArgType cat σ.oid e) σ.oid e = .ok e') :
    Passes S.argtypes e' σ ↔ passesInput cat S argnames raw σ = true := by
  have hnames := transformExpr_names h
  cases σ with
  | scalar t => simp [Passes, passesInput]
  | func σs τ =>
    simp only [passesInput, LambdaSigType.isFunction_func, Bool.not_true, Bool.false_or,
      decide_eq_true_eq, Option.bind_eq_some_iff]
    constructor
    · intro hpass
      obtain ⟨_, rfl⟩ | ⟨v, v', _, _, rfl⟩ | ⟨f, _, rfl⟩ := coerceType_cases hcoerce
      · cases e' with
        | param k t =>
          exact ⟨k, (hnames.named k).mpr ⟨t, rfl⟩, hpass⟩
        | lambda hd body => exact absurd rfl (hnames.not_lambda hd body)
        | const | func | caseWhen | coalesce | lfa => simp [Passes] at hpass
      · simp [Passes] at hpass
      · simp [Passes] at hpass
    · rintro ⟨k, hk, hσ⟩
      obtain ⟨t, rfl⟩ := (hnames.named k).mp hk
      -- the reference has the type `lambda`, so it was not coerced
      obtain ⟨σ', hσ', rfl⟩ := hnames.declared k t rfl
      rw [hσ] at hσ'
      cases hσ'
      rw [coerceType_of_eq rfl hcoerce]
      exact hσ

/-- The functions passed in a call, before and after coercion. -/
theorem passed_iff {args args' : List (Expr F V)}
    (hargs : List.Forall₂ (fun raw e => transformExpr cat (.ok S) argnames raw = .ok e) raws args)
    (hcoerce : makeFnArguments cat (σs.map LambdaSigType.oid) args = .ok args') :
    Passed S.argtypes args' σs ↔ passesInputs cat S argnames raws σs = true := by
  induction hargs generalizing σs args' with
  | nil =>
    cases hcoerce
    cases σs with
    | nil => simp [Passed, passesInputs]
    | cons σ σs => simp [Passed, passesInputs]
  | cons he hes ih =>
    obtain ⟨e', he', hcoerce⟩ := bind_eq_ok.mp hcoerce
    obtain ⟨es', hes', hcoerce⟩ := bind_eq_ok.mp hcoerce
    cases hcoerce
    cases σs with
    | nil => simp [Passed, passesInputs]
    | cons σ σs =>
      have hhead := passes_iff he he'
      have htail := ih hes'
      simp only [passesInputs, Bool.and_eq_true, ← hhead, ← htail, Passed]
      constructor
      · rintro ⟨σ', σs', heq, hp, hps⟩
        cases heq
        exact ⟨hp, hps⟩
      · rintro ⟨hp, hps⟩
        exact ⟨σ, σs, rfl, hp, hps⟩

/-! ## Calls in an accepted body -/

theorem wellCalledArgs_iff {es : List (Expr F V)}
    (h : List.Forall₂ (fun raw e => transformExpr cat (.ok S) argnames raw = .ok e) raws es)
    (ih : ∀ raw ∈ raws, ∀ e, transformExpr cat (.ok S) argnames raw = .ok e →
      (WellCalled S.argtypes e ↔ rawWellCalled cat S argnames raw = true)) :
    WellCalledArgs S.argtypes es ↔ rawWellCalledArgs cat S argnames raws = true := by
  induction h with
  | nil => simp [WellCalledArgs, rawWellCalledArgs]
  | cons he _ ihs =>
    simp only [WellCalledArgs, rawWellCalledArgs, Bool.and_eq_true]
    rw [ih _ (List.mem_cons_self ..) _ he, ihs fun raw hraw => ih raw (List.mem_cons_of_mem _ hraw)]

/-- **A body is well called exactly if its raw text is.** -/
theorem transformExpr_wellCalled_iff (h : transformExpr cat (.ok S) argnames raw = .ok e) :
    WellCalled S.argtypes e ↔ rawWellCalled cat S argnames raw = true := by
  induction raw using RawExpr.induction generalizing e with
  | aConst t v =>
    cases h
    simp [WellCalled, rawWellCalled]
  | columnRef fields =>
    obtain ⟨varName, idx, S', σ, rfl, hidx, hS, hσ, rfl⟩ := lambdaColumnRefHook_inv h
    cases hS
    simp [WellCalled, rawWellCalled, hσ]
  | funcCall funcname raws ih =>
    obtain ⟨args, hargs, hcall⟩ := transformExpr_funcCall_inv h
    have hrec := wellCalledArgs_iff hargs fun raw hraw _ => ih raw hraw
    have htypes := rawTypes_eq hargs fun _ _ _ => transformExpr_type
    rw [rawWellCalled, htypes, Option.bind_some, Bool.and_eq_true, ← hrec]
    cases hcall with
    -- a cast to a type wins over an input of its name
    | @coercion target a _ hdetail hcoerce =>
      have hnone : calledInput cat S argnames funcname (actualArgTypes cat [a]) = none := by
        unfold calledInput
        rw [hdetail]
        cases funcname.head?.bind (listIndex argnames) <;> rfl
      rw [hnone, coerceType_wellCalled hcoerce]
      simp only [WellCalledArgs, and_true]
    | @input S' idx σs τ _ args' hname hS hσ hno hcoerce =>
      cases hS
      have hsome : calledInput cat S argnames funcname (actualArgTypes cat args) = some σs := by
        unfold calledInput
        rw [hname]
        dsimp only
        split
        next target t hdetail htypes =>
          obtain ⟨a, rfl, _⟩ := List.map_eq_singleton_iff.mp htypes
          exact absurd rfl (hno target a hdetail)
        next => rw [hσ]
      rw [hsome]
      simp only [WellCalled, makeFnArguments_wellCalled hcoerce, ← passed_iff hargs hcoerce]
      refine and_congr_right fun _ => ?_
      constructor
      · rintro ⟨σs', τ', hσ', hpassed⟩
        rw [hσ] at hσ'
        cases hσ'
        exact hpassed
      · exact fun hpassed => ⟨σs, τ, hσ, hpassed⟩
    | @function f _ args' hname hdetail hcoerce =>
      have hnone : calledInput cat S argnames funcname (actualArgTypes cat args) = none := by
        unfold calledInput
        rw [hname]
      rw [hnone]
      simp only [WellCalled, makeFnArguments_wellCalled hcoerce, and_true]
  | aExpr opname raws ih =>
    obtain ⟨operands, f, args, hargs, _, hcoerce, rfl⟩ := transformExpr_aExpr_inv h
    have hrec := wellCalledArgs_iff hargs fun raw hraw _ => ih raw hraw
    simp only [WellCalled, rawWellCalled, makeFnArguments_wellCalled hcoerce, hrec]
  | caseExpr c r d ihc ihr ihd =>
    obtain ⟨c', r', d', c'', r'', d'', t, hc, hr, hd, hc', hcommon, rfl⟩ :=
      transformExpr_caseExpr_inv h
    obtain ⟨_, hd', hr'⟩ := coerceToCommonType_inv hcommon
    simp only [WellCalled, rawWellCalled, Bool.and_eq_true, and_assoc, ← ihc hc, ← ihr hr,
      ← ihd hd, coerceType_wellCalled hc', coerceType_wellCalled hr', coerceType_wellCalled hd']
  | coalesceExpr a b iha ihb =>
    obtain ⟨a', b', a'', b'', t, ha, hb, hcommon, rfl⟩ := transformExpr_coalesceExpr_inv h
    obtain ⟨_, ha', hb'⟩ := coerceToCommonType_inv hcommon
    simp only [WellCalled, rawWellCalled, Bool.and_eq_true, ← iha ha, ← ihb hb,
      coerceType_wellCalled ha', coerceType_wellCalled hb']
  | lambdaExpr _ _ _ => cases h

end Body

/-! ## Calls of lambda columns -/

/-- For a function-valued parameter the expression is of the declared signature. -/
def QueryExpr.hasSignature (e : QueryExpr) : LambdaSigType → Bool
  | .scalar _ => true
  | .func argtypes rettype => decide (e.signature = some ⟨argtypes, rettype⟩)

/-- The held positions of a call. -/
def CallLambdaExpr.held (c : CallLambdaExpr) (p : Nat) : Bool :=
  decide (p ∈ c.heldargs)

/-- Each filled argument of a call node has the signature declared at its
position. -/
def CallLambdaExpr.SignaturesMatch (c : CallLambdaExpr) (S : LambdaSignature) : Prop :=
  List.Forall₂ (fun e σ => e.hasSignature σ = true) c.args
    (selectFrom (fun p => !c.held p) 0 S.argtypes)

/-- Each argument of a call, as written, has the signature declared at its
position. -/
def WrittenSignatures (S : LambdaSignature) (fargs : List CallArg) : Prop :=
  ∀ (p : Nat) (e : QueryExpr) (σ : LambdaSigType), fargs[p]? = some (.expr e) →
    S.argtypes[p]? = some σ → e.hasSignature σ = true

section ColumnCall

variable {coercible : Oid → Oid → Bool}

variable {i : Nat} {fargs : List CallArg} {S : LambdaSignature} {c : CallLambdaExpr}

theorem parseColumnArgument_hasSignature {e e' : QueryExpr} {σ : LambdaSigType}
    (h : parseColumnArgument coercible i e σ = .ok e') :
    e'.hasSignature σ = true ↔ e.hasSignature σ = true := by
  cases σ with
  | scalar t => simp [QueryExpr.hasSignature]
  | func σs τ =>
    rw [parseColumnArgument] at h
    split at h
    next =>
      cases h
      exact Iff.rfl
    next => cases h

/-- The held positions are those of the holes. -/
theorem parseColumnArguments_held {filled : List QueryExpr} {held : List Nat}
    {heldtypes : List LambdaSigType} (hlen : fargs.length = σs.length)
    (h : parseColumnArguments coercible i fargs σs = .ok (filled, held, heldtypes)) (q : Nat) :
    q ∈ held ↔ ∃ p, q = i + p ∧ fargs[p]? = some .hole := by
  induction fargs generalizing i σs filled held heldtypes with
  | nil =>
    cases h
    simp
  | cons arg fargs ih =>
    cases σs with
    | nil => simp at hlen
    | cons σ σs =>
      have hlen' : fargs.length = σs.length := by simpa using hlen
      -- a position after the first one
      have hshift : (∃ p, q = i + 1 + p ∧ fargs[p]? = some CallArg.hole) ↔
          ∃ p, q = i + (p + 1) ∧ (arg :: fargs)[p + 1]? = some CallArg.hole := by
        simp only [List.getElem?_cons_succ, Nat.add_assoc, Nat.add_comm 1]
      cases arg with
      | hole =>
        obtain ⟨⟨filled', held', types'⟩, hrest, h⟩ := bind_eq_ok.mp h
        cases h
        rw [List.mem_cons, ih hlen' hrest, hshift]
        constructor
        · rintro (rfl | ⟨p, hq, hp⟩)
          · exact ⟨0, rfl, rfl⟩
          · exact ⟨p + 1, hq, hp⟩
        · rintro ⟨p, hq, hp⟩
          cases p with
          | zero => exact .inl hq
          | succ p => exact .inr ⟨p, hq, hp⟩
      | expr e =>
        obtain ⟨e', _, h⟩ := bind_eq_ok.mp h
        obtain ⟨⟨filled', held', types'⟩, hrest, h⟩ := bind_eq_ok.mp h
        cases h
        rw [ih hlen' hrest, hshift]
        constructor
        · rintro ⟨p, hq, hp⟩
          exact ⟨p + 1, hq, hp⟩
        · rintro ⟨p, hq, hp⟩
          cases p with
          | zero => cases hp
          | succ p => exact ⟨p, hq, hp⟩

/-- The filled arguments have the declared signatures if the written ones have.
`want` holds of the positions that are filled. -/
theorem parseColumnArguments_filled {want : Nat → Bool} {filled : List QueryExpr} {held : List Nat}
    {heldtypes : List LambdaSigType} (hlen : fargs.length = σs.length)
    (hwant : ∀ p, p < fargs.length → (want (i + p) = true ↔ fargs[p]? ≠ some .hole))
    (h : parseColumnArguments coercible i fargs σs = .ok (filled, held, heldtypes)) :
    List.Forall₂ (fun e σ => e.hasSignature σ = true) filled (selectFrom want i σs) ↔
      ∀ (p : Nat) (e : QueryExpr) (σ : LambdaSigType), fargs[p]? = some (.expr e) →
        σs[p]? = some σ → e.hasSignature σ = true := by
  induction fargs generalizing i σs filled held heldtypes with
  | nil =>
    cases h
    cases σs with
    | nil => simp [selectFrom]
    | cons σ σs => simp at hlen
  | cons arg fargs ih =>
    cases σs with
    | nil => simp at hlen
    | cons σ σs =>
      have hlen' : fargs.length = σs.length := by simpa using hlen
      have hwant' : ∀ p, p < fargs.length → (want (i + 1 + p) = true ↔ fargs[p]? ≠ some .hole) := by
        intro p hp
        have := hwant (p + 1) (by simpa using hp)
        rwa [List.getElem?_cons_succ, ← Nat.add_assoc, Nat.add_right_comm] at this
      have hfirst := hwant 0 (by simp)
      cases arg with
      | hole =>
        obtain ⟨⟨filled', held', types'⟩, hrest, h⟩ := bind_eq_ok.mp h
        cases h
        have hi : want i = false := by simpa using hfirst
        simp only [selectFrom, hi, Bool.false_eq_true, if_false]
        rw [ih hlen' hwant' hrest]
        constructor
        · intro hall p e' σ' hp hσ
          cases p with
          | zero => cases hp
          | succ p => exact hall p e' σ' hp hσ
        · intro hall p e' σ' hp hσ
          exact hall (p + 1) e' σ' hp hσ
      | expr e =>
        obtain ⟨e', he, h⟩ := bind_eq_ok.mp h
        obtain ⟨⟨filled', held', types'⟩, hrest, h⟩ := bind_eq_ok.mp h
        cases h
        have hi : want i = true := by simpa using hfirst
        simp only [selectFrom, hi, if_true]
        rw [List.forall₂_cons, ih hlen' hwant' hrest, parseColumnArgument_hasSignature he]
        constructor
        · rintro ⟨hhead, hall⟩ p e'' σ' hp hσ
          cases p with
          | zero =>
            cases hp
            cases hσ
            exact hhead
          | succ p => exact hall p e'' σ' hp hσ
        · intro hall
          exact ⟨hall 0 e σ rfl rfl, fun p e'' σ' hp hσ => hall (p + 1) e'' σ' hp hσ⟩

variable (h : parseColumnCall coercible (some S) fargs = .ok c)

include h

/-- What an accepted column call did: the arguments were counted, and each filled
one was checked against its declared type. -/
theorem parseColumnCall_inv :
    fargs.length = S.argtypes.length ∧
      ∃ heldtypes, parseColumnArguments coercible 0 fargs S.argtypes =
        .ok (c.args, c.heldargs, heldtypes) := by
  unfold parseColumnCall at h
  dsimp only at h
  split at h
  next => cases h
  next hlen =>
    obtain ⟨⟨args, heldargs, heldtypes⟩, hargs, h⟩ := bind_eq_ok.mp h
    refine ⟨by omega, heldtypes, ?_⟩
    split at h
    next =>
      cases h
      exact hargs
    next =>
      split at h
      next => cases h
      next =>
        cases h
        exact hargs

theorem held_iff (p : Nat) : c.held p = true ↔ fargs[p]? = some .hole := by
  obtain ⟨hlen, heldtypes, hargs⟩ := parseColumnCall_inv h
  unfold CallLambdaExpr.held
  rw [decide_eq_true_eq, parseColumnArguments_held hlen hargs]
  simp

theorem signaturesMatch_iff : c.SignaturesMatch S ↔ WrittenSignatures S fargs := by
  obtain ⟨hlen, heldtypes, hargs⟩ := parseColumnCall_inv h
  refine parseColumnArguments_filled hlen (fun p _ => ?_) hargs
  rw [Nat.zero_add, Bool.not_eq_true', ← Bool.not_eq_true, held_iff h]

end ColumnCall

/-! ## Accepted calls and the inliner -/

/-- A value of an argument expression at a parameter of type `σ`. Where the SQL
type is `lambda` it is a stored lambda, well called for the signature of the
*expression*, whatever `σ` is; otherwise it is an atomic value or NULL. -/
def ArgValue (e : QueryExpr) (σ : LambdaSigType) (v : Option (Datum F V)) : Prop :=
  if σ.oid = LAMBDAOID then
    ∃ le, v = some (.lambda .serialized le) ∧ ∀ S, e.signature = some S → le.WellCalled S
  else v = none ∨ ∃ a, v = some (.atom a)

/-- Values of the arguments of a call, by position. -/
structure ArgValues (S : LambdaSignature) (fargs : List CallArg)
    (vals : List (Option (Datum F V))) : Prop where
  length_eq : vals.length = S.argtypes.length
  value : ∀ (p : Nat) (e : QueryExpr) (σ : LambdaSigType) (v : Option (Datum F V)),
    fargs[p]? = some (.expr e) → S.argtypes[p]? = some σ → vals[p]? = some v → ArgValue e σ v

theorem ArgValue.stored {e : QueryExpr} {σ : LambdaSigType} {v : Option (Datum F V)}
    (h : ArgValue e σ v) (hsig : e.hasSignature σ = true) : StoredValue σ v := by
  unfold ArgValue at h
  split at h
  next hoid =>
    obtain ⟨le, rfl, hle⟩ := h
    cases σ with
    | scalar t => exact hoid
    | func σs τ => exact hle _ (of_decide_eq_true hsig)
  next hoid =>
    cases σ with
    | func σs τ => exact absurd rfl hoid
    | scalar t =>
      obtain rfl | ⟨a, rfl⟩ := h
      · exact hoid
      · exact hoid

theorem ArgValues.stored {coercible : Oid → Oid → Bool} {S : LambdaSignature}
    {fargs : List CallArg} {c : CallLambdaExpr} {vals : List (Option (Datum F V))}
    (hc : parseColumnCall coercible (some S) fargs = .ok c) (hvals : ArgValues S fargs vals)
    (hsig : WrittenSignatures S fargs) : StoredArgs c.held S.argtypes vals where
  length_eq := hvals.length_eq
  value p σ v hσ hv hheld := by
    obtain ⟨hlen, _⟩ := parseColumnCall_inv hc
    obtain ⟨hp, _⟩ := List.getElem?_eq_some_iff.mp hσ
    have harg : fargs[p]? = some (fargs[p]) := List.getElem?_eq_getElem (hlen ▸ hp)
    cases hcase : fargs[p] with
    | hole =>
      rw [hcase] at harg
      rw [(held_iff hc p).mpr harg] at hheld
      cases hheld
    | expr e =>
      rw [hcase] at harg
      exact (hvals.value p e σ v harg hσ hv).stored (hsig p e σ harg hσ)

/-- **What acceptance of a call is worth.** Let a literal be accepted for a column
of signature `S` and a call of that column be accepted.

* The function-input calls in the literal's body pass functions of the declared
  signatures, and as many arguments as declared, exactly if the literal's text
  passes them by name like that.
* The arguments of the column call have the declared signatures exactly if they
  were written with them.
* If both are so, and the lambdas passed are well called for their own
  signatures, then the inliner ends without an error, for the full application
  and for a partial one. -/
theorem accepted_call_iff {cat : ParserCatalog F V} {coercible : Oid → Oid → Bool}
    {S : LambdaSignature} {l : LambdaLiteral V} {le : LambdaExpr F V} {fargs : List CallArg}
    {c : CallLambdaExpr} (hl : transformLambdaExpr cat (.ok S) l = .ok le)
    (hc : parseColumnCall coercible (some S) fargs = .ok c) :
    (WellCalled S.argtypes le.expr ↔ rawWellCalled cat S l.argnames l.expr = true) ∧
    (c.SignaturesMatch S ↔ WrittenSignatures S fargs) ∧
    (rawWellCalled cat S l.argnames l.expr = true → WrittenSignatures S fargs →
      ∀ vals : List (Option (Datum F V)), ArgValues S fargs vals →
        (c.heldargs = [] →
          ∃ r, Settles (fun n => lambdaInjectorScalar n le vals) { le with expr := r }) ∧
        ∃ r, Settles (fun n => lambdaPartialApply n le c.held vals)
          (residualLambda le c.held r)) := by
  obtain ⟨_, hbody, _⟩ := transformLambdaExpr_inv hl
  have hcalled := transformExpr_wellCalled_iff hbody
  refine ⟨hcalled, signaturesMatch_iff hc, fun hraw hsig vals hvals => ⟨fun hheld => ?_, ?_⟩⟩
  · have hnone : c.held = fun _ => false := by
      funext p
      unfold CallLambdaExpr.held
      rw [hheld]
      rfl
    exact (hcalled.mpr hraw).injector_settles (hnone ▸ hvals.stored hc hsig)
  · exact (hcalled.mpr hraw).partialApply_settles (hvals.stored hc hsig)

/-! ### Two calls -/

/-- `λ(f, x)(f(f(x)))`. -/
def twiceLiteral : LambdaLiteral Int :=
  ⟨["f", "x"], .funcCall ["f"] [.funcCall ["f"] [.columnRef ["x"]]]⟩

def successorSignature : LambdaSignature :=
  ⟨[.scalar INT4OID], .scalar INT4OID⟩

/-- The arguments of the call: a column of successors and a number. -/
def twiceCallArgs : List CallArg :=
  [.expr ⟨LAMBDAOID, some successorSignature⟩, .expr ⟨INT4OID, none⟩]

def twiceCall : CallLambdaExpr where
  args := [⟨LAMBDAOID, some successorSignature⟩, ⟨INT4OID, none⟩]
  heldargs := []
  rettype := .scalar INT4OID

theorem twiceCallArgs_written : WrittenSignatures twiceSignature twiceCallArgs := by
  intro p e σ he hσ
  match p, he, hσ with
  | 0, rfl, rfl => decide
  | 1, rfl, rfl => rfl

theorem twiceArgs_values : ArgValues twiceSignature twiceCallArgs twiceArgs where
  length_eq := rfl
  value p e σ v he hσ hv := by
    match p, he, hσ, hv with
    | 0, rfl, rfl, rfl =>
      refine (if_pos rfl).mpr ⟨succLambda, rfl, ?_⟩
      intro S hS
      cases hS
      exact succLambda_conforms.wellCalled
    | 1, rfl, rfl, rfl =>
      exact (if_neg (by decide)).mpr (.inr ⟨3, rfl⟩)

theorem accepted_call_iff_twice :
    (WellCalled twiceSignature.argtypes twiceLambda.expr ↔
      rawWellCalled arithParser twiceSignature twiceLiteral.argnames twiceLiteral.expr = true) ∧
    (twiceCall.SignaturesMatch twiceSignature ↔ WrittenSignatures twiceSignature twiceCallArgs) ∧
    ∃ r, Settles (fun n => lambdaInjectorScalar n twiceLambda twiceArgs)
      { twiceLambda with expr := r } := by
  have hl : transformLambdaExpr arithParser (.ok twiceSignature) twiceLiteral =
      .ok twiceLambda := rfl
  have hc : parseColumnCall (fun _ _ => false) (some twiceSignature) twiceCallArgs =
      .ok twiceCall := rfl
  obtain ⟨hcalled, hmatch, hrun⟩ := accepted_call_iff hl hc
  exact ⟨hcalled, hmatch, (hrun rfl twiceCallArgs_written twiceArgs twiceArgs_values).1 rfl⟩

/-- `(((int4) → int4) → int4) → int4`. -/
def selfSignature : LambdaSignature :=
  ⟨[.func [.func [.scalar INT4OID] (.scalar INT4OID)] (.scalar INT4OID)], .scalar INT4OID⟩

/-- `λ(g)(g(g))`. -/
def selfLiteral : LambdaLiteral Int :=
  ⟨["g"], .funcCall ["g"] [.columnRef ["g"]]⟩

def selfLambda : LambdaExpr ArithFunc Int :=
  scalarLambda ["g"] INT4OID (.lfa ["g"] INT4OID 0 [.param 0 LAMBDAOID])

/-- In the scope where `g` is the lambda itself, its body is its own callee. -/
theorem selfLambda_callee (n : Nat) :
    scalarInjectCallee n { binding := [some selfLambda.toExpr] } selfLambda.expr =
      .error .outOfFuel := by
  induction n with
  | zero => rfl
  | succ n ih => exact ih

/-- **The parser accepts a self-application.** `λ(g)(g(g))` is accepted for a column
`c` of signature `(((int4) → int4) → int4) → int4`: inside, `g` is passed to itself
although its parameter is of a smaller signature. The call `c(c)` is accepted too,
although `c` is not of its parameter's signature. Inlining it never ends. -/
theorem self_application_accepted :
    transformLambdaExpr arithParser (.ok selfSignature) selfLiteral = .ok selfLambda ∧
      parseColumnCall (fun _ _ => false) (some selfSignature)
          [.expr ⟨LAMBDAOID, some selfSignature⟩] =
        .ok ⟨[⟨LAMBDAOID, some selfSignature⟩], [], .scalar INT4OID⟩ ∧
      selfSignature.argtypes ≠ [.func selfSignature.argtypes selfSignature.rettype] ∧
      ∀ n, lambdaInjectorScalar n selfLambda [some (.lambda .serialized selfLambda)] =
        .error .outOfFuel := by
  refine ⟨rfl, rfl, by decide, fun n => ?_⟩
  have hwalk : scalarInjectWalk n { binding := [some selfLambda.toExpr] } selfLambda.expr =
      .error .outOfFuel := selfLambda_callee n
  show (scalarInjectWalk n { binding := [some selfLambda.toExpr] } selfLambda.expr >>= _) = _
  rw [hwalk]
  rfl

end HolLambdas.Parse
