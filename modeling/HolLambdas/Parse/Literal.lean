import Mathlib.Data.List.Forall2
import HolLambdas.Parse.Insert

/-!
# What an accepted literal says about its column

A lambda literal that is accepted for a column is stored with the type of its
transformed body as its return type. Nothing compares that type, or the number
of the literal's argument names, with the column's signature.

The type of the transformed body can be read off the raw body, bottom up, with
the declared types for the references and the catalogs for everything else
(`rawType`). All functions have one type there, and no signature is kept with a
function, but which declared arguments a function-valued body chooses from can be
read off the raw body too (`RawHasSignature`). So whether a stored literal has the
shape of its column's signature is decided by the text of the literal alone
(`stored_literal_conforms_iff`).
-/

namespace HolLambdas.Parse

open HolLambdas.Scalar

variable {F V : Type} {τ : LambdaSigType}

/-! ## The type of a raw body -/

section RawType

variable (cat : ParserCatalog F V) (sig : Except ParseError LambdaSignature)
variable (argnames : List String)

/-- The declared type of the argument a reference names. -/
def referenceType : List String → Option LambdaSigType
  | [varName] => (listIndex argnames varName).bind fun idx =>
    sig.toOption.bind fun S => S.argtypes[idx]?
  | _ => none

/-- The return type of a call, given the types of its arguments. -/
def callType (funcname : List String) (types : List Oid) : Option Oid :=
  match funcname.head?.bind (listIndex argnames) with
  | some idx =>
    match cat.funcGetDetail funcname types, types with
    | .coercion target, [_] => some target
    | _, _ =>
      match sig.toOption.bind fun S => S.argtypes[idx]? with
      | some (.func _ rettype) => some rettype.typeoid
      | _ => none
  | none =>
    match cat.funcGetDetail funcname types, types with
    | .coercion target, [_] => some target
    | .normal f, _ => some (cat.prorettype f)
    | _, _ => none

mutual

/-- The type of a raw body. -/
def rawType : RawExpr V → Option Oid
  | .aConst t _ => some t
  | .columnRef fields => (referenceType sig argnames fields).map LambdaSigType.oid
  | .funcCall funcname args => (rawTypes args).bind (callType cat sig argnames funcname)
  | .aExpr opname args => (rawTypes args).bind fun types =>
    (cat.oper opname types).map cat.prorettype
  | .caseExpr _ r d => (rawType d).bind fun s => (rawType r).bind fun s' =>
    cat.selectCommonType [s, s']
  | .coalesceExpr a b => (rawType a).bind fun s => (rawType b).bind fun s' =>
    cat.selectCommonType [s, s']
  | .lambdaExpr _ _ => none

def rawTypes : List (RawExpr V) → Option (List Oid)
  | [] => some []
  | e :: es => (rawType e).bind fun t => (rawTypes es).map (t :: ·)

end

/-! ## The signature of a function -/

/-- The transformed expression is a function of the type `τ`: a reference to an
argument that is declared with it, a `NULL`, or a choice between such. -/
def HasSignature (τ : LambdaSigType) : Expr F V → Prop
  | .param idx _ => (sig.toOption.bind fun S => S.argtypes[idx]?) = some τ
  | .const _ v => v = none
  | .caseWhen _ _ r d => HasSignature τ r ∧ HasSignature τ d
  | .coalesce _ a b => HasSignature τ a ∧ HasSignature τ b
  | _ => False

/-- The transformed body has the declared type. -/
def BodyHasType (e : Expr F V) : LambdaSigType → Prop
  | .scalar t => e.exprType cat.toProcCatalog = t
  | .func σs ρ => e.exprType cat.toProcCatalog = LAMBDAOID ∧ HasSignature sig (.func σs ρ) e

/-- The raw expression, used as a function, is one of the type `τ`. An untyped literal is
read by the input function of `lambda`, and a call may be a cast that does nothing. -/
def RawHasSignature (τ : LambdaSigType) : RawExpr V → Prop
  | .aConst t v => (t = LAMBDAOID ∧ v = none) ∨
      (t = UNKNOWNOID ∧ cat.typeInput LAMBDAOID v = some none)
  | .columnRef fields => referenceType sig argnames fields = some τ
  | .funcCall funcname [a] => (∃ t target, rawType cat sig argnames a = some t ∧
      cat.funcGetDetail funcname [t] = .coercion target ∧ (target = LAMBDAOID ∨ target = t)) ∧
      RawHasSignature τ a
  | .caseExpr c r d => rawType cat sig argnames (.caseExpr c r d) = some LAMBDAOID ∧
      RawHasSignature τ r ∧ RawHasSignature τ d
  | .coalesceExpr a b => rawType cat sig argnames (.coalesceExpr a b) = some LAMBDAOID ∧
      RawHasSignature τ a ∧ RawHasSignature τ b
  | _ => False

/-- The raw body has the declared type. -/
def RawHasType (raw : RawExpr V) : LambdaSigType → Prop
  | .scalar t => rawType cat sig argnames raw = some t
  | .func σs ρ => rawType cat sig argnames raw = some LAMBDAOID ∧
      RawHasSignature cat sig argnames (.func σs ρ) raw

end RawType

section

variable {cat : ParserCatalog F V} {sig : Except ParseError LambdaSignature}
variable {argnames : List String}

/-! ## The parts of the transformation -/

variable {ctx : CoercionContext} {actual target : Oid} {e e' : Expr F V} {funcname : List String}
  {fargs : List (Option (Expr F V))} {raws : List (RawExpr V)} {es : List (Expr F V)}

theorem castExpr_inv (h : castExpr cat ctx actual target e = some e') :
    ∃ f, cat.castFunction ctx actual target = some f ∧ e' = .func f [e] := by
  obtain ⟨f, hf, rfl⟩ := Option.map_eq_some_iff.mp h
  exact ⟨f, hf, rfl⟩

/-- A coercion leaves the expression, reads a literal anew, or applies a cast. -/
theorem coerceType_cases (h : coerceType cat ctx actual target e = .ok e') :
    (actual = target ∧ e' = e) ∨
    (∃ v v', e = .const UNKNOWNOID v ∧ cat.typeInput target v = some v' ∧
      e' = .const target v') ∨
    ∃ f, cat.castFunction ctx actual target = some f ∧ e' = .func f [e] := by
  unfold coerceType at h
  split at h
  next heq =>
    cases h
    exact .inl ⟨heq, rfl⟩
  next =>
    dsimp only at h
    split at h
    next e'' hcoerced =>
      cases h
      split at hcoerced
      next t v =>
        split at hcoerced
        next ht =>
          obtain ⟨v', hv', rfl⟩ := Option.map_eq_some_iff.mp hcoerced
          exact .inr (.inl ⟨v, v', by rw [ht], hv', rfl⟩)
        next => exact .inr (.inr (castExpr_inv hcoerced))
      next => exact .inr (.inr (castExpr_inv hcoerced))
    next => cases h

/-- A coercion to the type it comes from does nothing. -/
theorem coerceType_of_eq (heq : actual = target) (h : coerceType cat ctx actual target e = .ok e') :
    e' = e := by
  unfold coerceType at h
  rw [if_pos heq] at h
  exact (Except.ok.inj h).symm

theorem coerceType_exprType
    (h : coerceType cat ctx (e.exprType cat.toProcCatalog) target e = .ok e') :
    e'.exprType cat.toProcCatalog = target := by
  obtain ⟨heq, rfl⟩ | ⟨v, v', rfl, _, rfl⟩ | ⟨f, hf, rfl⟩ := coerceType_cases h
  · exact heq
  · rfl
  · exact cat.castFunction_prorettype _ _ _ f hf

/-- What an accepted reference is. -/
theorem lambdaColumnRefHook_inv {fields : List String}
    (h : lambdaColumnRefHookOutsideUDF sig argnames fields = .ok e) :
    ∃ varName idx S σ, fields = [varName] ∧ listIndex argnames varName = some idx ∧
      sig = .ok S ∧ S.argtypes[idx]? = some σ ∧ e = .param idx σ.oid := by
  unfold lambdaColumnRefHookOutsideUDF at h
  split at h
  next varName =>
    split at h
    next => cases h
    next idx hidx =>
      obtain ⟨S, hS, h⟩ := bind_eq_ok.mp h
      split at h
      next => cases h
      next σs τ hσ =>
        cases h
        exact ⟨varName, idx, S, .func σs τ, rfl, hidx, hS, hσ, rfl⟩
      next t hσ =>
        cases h
        exact ⟨varName, idx, S, .scalar t, rfl, hidx, hS, hσ, rfl⟩
  next => cases h

theorem lambdaColumnRefHook_type {fields : List String}
    (h : lambdaColumnRefHookOutsideUDF sig argnames fields = .ok e) :
    (referenceType sig argnames fields).map LambdaSigType.oid =
      some (e.exprType cat.toProcCatalog) := by
  obtain ⟨varName, idx, S, σ, rfl, hidx, rfl, hσ, rfl⟩ := lambdaColumnRefHook_inv h
  unfold referenceType
  simp only [hidx, Option.bind_some, Except.toOption, hσ, Option.map_some]
  rfl

/-- What an accepted call becomes, given its arguments with the holes filled: a
cast, if the name is a type name; a call of a function input; or a call of a
function. -/
inductive ParsedCall (cat : ParserCatalog F V) (sig : Except ParseError LambdaSignature)
    (argnames funcname : List String) : List (Expr F V) → Expr F V → Prop
  | coercion {target : Oid} {a e : Expr F V}
      (detail : cat.funcGetDetail funcname (actualArgTypes cat [a]) = .coercion target)
      (coerced : coerceType cat .explicit (a.exprType cat.toProcCatalog) target a = .ok e) :
      ParsedCall cat sig argnames funcname [a] e
  | input {S : LambdaSignature} {idx : Nat} {σs : List LambdaSigType} {τ : LambdaSigType}
      {args args' : List (Expr F V)}
      (name : funcname.head?.bind (listIndex argnames) = some idx) (found : sig = .ok S)
      (declared : S.argtypes[idx]? = some (.func σs τ))
      (detail : ∀ target a, cat.funcGetDetail funcname (actualArgTypes cat args) =
        .coercion target → args ≠ [a])
      (coerced : makeFnArguments cat (σs.map LambdaSigType.oid) args = .ok args') :
      ParsedCall cat sig argnames funcname args (.lfa funcname τ.typeoid idx args')
  | function {f : F} {args args' : List (Expr F V)}
      (name : funcname.head?.bind (listIndex argnames) = none)
      (detail : cat.funcGetDetail funcname (actualArgTypes cat args) = .normal f)
      (coerced : makeFnArguments cat (cat.proargtypes f) args = .ok args') :
      ParsedCall cat sig argnames funcname args (.func f args')

theorem parseFunctionInput_inv {idx : Nat}
    (hname : funcname.head?.bind (listIndex argnames) = some idx)
    (h : parseFunctionInput cat sig funcname idx fargs = .ok e) :
    ∃ args, fillHoles (.error .partialOfInput) fargs = .ok args ∧
      ParsedCall cat sig argnames funcname args e := by
  obtain ⟨S, hS, h⟩ := bind_eq_ok.mp h
  split at h
  next => cases h
  next => cases h
  next σs τ hσ =>
    obtain ⟨args, hargs, h⟩ := bind_eq_ok.mp h
    refine ⟨args, hargs, ?_⟩
    split at h
    next => cases h
    next =>
      split at h
      next => cases h
      next target a _ hdetail => exact .coercion hdetail h
      next hno =>
        obtain ⟨args', hargs', h⟩ := bind_eq_ok.mp h
        cases h
        exact .input hname hS hσ (fun target a ht ha => hno target a ht ha) hargs'

/-- What `ParseFuncOrColumn` accepts in a body. A hole is the reference it was
written as. -/
theorem parseFuncOrColumn_inv (h : parseFuncOrColumn cat sig argnames funcname fargs = .ok e) :
    ∃ hole args, fillHoles hole fargs = .ok args ∧
      (∀ e, hole = .ok e → transformExpr cat sig argnames (.columnRef ["_"]) = .ok e) ∧
      ParsedCall cat sig argnames funcname args e := by
  unfold parseFuncOrColumn at h
  cases hname : funcname.head?.bind (listIndex argnames) with
  | some idx =>
    rw [hname] at h
    obtain ⟨args, hargs, hcall⟩ := parseFunctionInput_inv hname h
    exact ⟨_, args, hargs, (fun _ h => by cases h), hcall⟩
  | none =>
    rw [hname] at h
    obtain ⟨args, hargs, h⟩ := bind_eq_ok.mp h
    refine ⟨_, args, hargs, (fun _ h => h), ?_⟩
    split at h
    next => cases h
    next target a _ hdetail => exact .coercion hdetail h
    next f hdetail =>
      obtain ⟨args', hargs', h⟩ := bind_eq_ok.mp h
      cases h
      exact .function hname hdetail hargs'
    next => cases h

theorem makeOp_inv {opname : String} {operands : List (Expr F V)}
    (h : makeOp cat opname operands = .ok e) :
    ∃ f args, cat.oper opname (actualArgTypes cat operands) = some f ∧
      makeFnArguments cat (cat.proargtypes f) operands = .ok args ∧ e = .func f args := by
  unfold makeOp at h
  split at h
  next => cases h
  next f hf =>
    obtain ⟨args, hargs, h⟩ := bind_eq_ok.mp h
    cases h
    exact ⟨f, args, hf, hargs, rfl⟩

theorem coerceToCommonType_inv {r r' : Expr F V} {t : Oid}
    (h : coerceToCommonType cat e e' = .ok (t, r, r')) :
    cat.selectCommonType [e.exprType cat.toProcCatalog, e'.exprType cat.toProcCatalog] = some t ∧
      coerceType cat .implicit (e.exprType cat.toProcCatalog) t e = .ok r ∧
      coerceType cat .implicit (e'.exprType cat.toProcCatalog) t e' = .ok r' := by
  unfold coerceToCommonType at h
  dsimp only at h
  split at h
  next => cases h
  next t' ht =>
    obtain ⟨r₁, hr, h⟩ := bind_eq_ok.mp h
    obtain ⟨r₂, hr', h⟩ := bind_eq_ok.mp h
    cases h
    exact ⟨ht, hr, hr'⟩

theorem callType_coercion {t : Oid} (h : cat.funcGetDetail funcname [t] = .coercion target) :
    callType cat sig argnames funcname [t] = some target := by
  unfold callType
  split
  next => rw [h]
  next => rw [h]

/-- A call has the type that the types of its arguments determine. -/
theorem ParsedCall.type {args : List (Expr F V)} (h : ParsedCall cat sig argnames funcname args e) :
    callType cat sig argnames funcname (actualArgTypes cat args) =
      some (e.exprType cat.toProcCatalog) := by
  cases h with
  | coercion hdetail hcoerce =>
    rw [coerceType_exprType hcoerce]
    exact callType_coercion hdetail
  | input hname hS hσ hno _ =>
    unfold callType
    rw [hname]
    dsimp only
    split
    next target t hdetail htypes =>
      -- one type is the type of one argument
      obtain ⟨a, rfl, _⟩ := List.map_eq_singleton_iff.mp htypes
      exact absurd rfl (hno target a hdetail)
    next =>
      simp only [hS, Except.toOption, Option.bind_some, hσ]
      rfl
  | function hname hdetail _ =>
    unfold callType
    rw [hname]
    simp only [hdetail]
    rfl

/-! ## Argument lists -/

theorem isHole_iff {e : RawExpr V} : e.isHole = true ↔ e = .columnRef ["_"] := by
  constructor
  · intro h
    unfold RawExpr.isHole at h
    split at h
    next => rfl
    next => cases h
  · rintro rfl
    rfl

theorem transformExprs_forall₂ (h : transformExprs cat sig argnames raws = .ok es) :
    List.Forall₂ (fun raw e => transformExpr cat sig argnames raw = .ok e) raws es := by
  induction raws generalizing es with
  | nil =>
    cases h
    exact .nil
  | cons raw raws ih =>
    obtain ⟨e', he, h⟩ := bind_eq_ok.mp h
    obtain ⟨es', hes, h⟩ := bind_eq_ok.mp h
    cases h
    exact .cons he (ih hes)

/-- The same for the arguments of a call, if what is put in the place of the
holes is what a hole stands for. -/
theorem transformFuncArgs_forall₂ {hole : Except ParseError (Expr F V)}
    (hhole : ∀ e, hole = .ok e → transformExpr cat sig argnames (.columnRef ["_"]) = .ok e)
    (h : transformFuncArgs cat sig argnames raws = .ok fargs)
    (hfill : fillHoles hole fargs = .ok es) :
    List.Forall₂ (fun raw e => transformExpr cat sig argnames raw = .ok e) raws es := by
  induction raws generalizing fargs es with
  | nil =>
    cases h
    cases hfill
    exact .nil
  | cons raw raws ih =>
    unfold transformFuncArgs at h
    split at h
    next hraw =>
      obtain ⟨fargs', hfargs, h⟩ := bind_eq_ok.mp h
      cases h
      obtain ⟨e, he, hfill⟩ := bind_eq_ok.mp hfill
      obtain ⟨es', hes, hfill⟩ := bind_eq_ok.mp hfill
      cases hfill
      obtain rfl := isHole_iff.mp hraw
      exact .cons (hhole e he) (ih hfargs hes)
    next =>
      obtain ⟨e, he, h⟩ := bind_eq_ok.mp h
      obtain ⟨fargs', hfargs, h⟩ := bind_eq_ok.mp h
      cases h
      obtain ⟨es', hes, hfill⟩ := bind_eq_ok.mp hfill
      cases hfill
      exact .cons he (ih hfargs hes)

/-- An accepted call, argument by argument. -/
theorem transformExpr_funcCall_inv
    (h : transformExpr cat sig argnames (.funcCall funcname raws) = .ok e) :
    ∃ args, List.Forall₂ (fun raw e => transformExpr cat sig argnames raw = .ok e) raws args ∧
      ParsedCall cat sig argnames funcname args e := by
  obtain ⟨fargs, hfargs, h⟩ := bind_eq_ok.mp h
  obtain ⟨hole, args, hargs, hhole, hcall⟩ := parseFuncOrColumn_inv h
  exact ⟨args, transformFuncArgs_forall₂ hhole hfargs hargs, hcall⟩

/-- An accepted operator expression is a function call. -/
theorem transformExpr_aExpr_inv {opname : String}
    (h : transformExpr cat sig argnames (.aExpr opname raws) = .ok e) :
    ∃ operands f args,
      List.Forall₂ (fun raw e => transformExpr cat sig argnames raw = .ok e) raws operands ∧
      cat.oper opname (actualArgTypes cat operands) = some f ∧
      makeFnArguments cat (cat.proargtypes f) operands = .ok args ∧ e = .func f args := by
  obtain ⟨operands, hoperands, h⟩ := bind_eq_ok.mp h
  obtain ⟨f, args, hf, hargs, rfl⟩ := makeOp_inv h
  exact ⟨operands, f, args, transformExprs_forall₂ hoperands, hf, hargs, rfl⟩

theorem transformExpr_caseExpr_inv {c r d : RawExpr V}
    (h : transformExpr cat sig argnames (.caseExpr c r d) = .ok e) :
    ∃ c' r' d' c'' r'' d'' t, transformExpr cat sig argnames c = .ok c' ∧
      transformExpr cat sig argnames r = .ok r' ∧ transformExpr cat sig argnames d = .ok d' ∧
      coerceType cat .assignment (c'.exprType cat.toProcCatalog) cat.booloid c' = .ok c'' ∧
      coerceToCommonType cat d' r' = .ok (t, d'', r'') ∧ e = .caseWhen t c'' r'' d'' := by
  obtain ⟨c', hc, h⟩ := bind_eq_ok.mp h
  obtain ⟨c'', hc', h⟩ := bind_eq_ok.mp h
  obtain ⟨r', hr, h⟩ := bind_eq_ok.mp h
  obtain ⟨d', hd, h⟩ := bind_eq_ok.mp h
  obtain ⟨⟨t, d'', r''⟩, hcommon, h⟩ := bind_eq_ok.mp h
  cases h
  exact ⟨c', r', d', c'', r'', d'', t, hc, hr, hd, hc', hcommon, rfl⟩

theorem transformExpr_coalesceExpr_inv {a b : RawExpr V}
    (h : transformExpr cat sig argnames (.coalesceExpr a b) = .ok e) :
    ∃ a' b' a'' b'' t, transformExpr cat sig argnames a = .ok a' ∧
      transformExpr cat sig argnames b = .ok b' ∧
      coerceToCommonType cat a' b' = .ok (t, a'', b'') ∧ e = .coalesce t a'' b'' := by
  obtain ⟨a', ha, h⟩ := bind_eq_ok.mp h
  obtain ⟨b', hb, h⟩ := bind_eq_ok.mp h
  obtain ⟨⟨t, a'', b''⟩, hcommon, h⟩ := bind_eq_ok.mp h
  cases h
  exact ⟨a', b', a'', b'', t, ha, hb, hcommon, rfl⟩

theorem rawTypes_eq
    (h : List.Forall₂ (fun raw e => transformExpr cat sig argnames raw = .ok e) raws es)
    (htypes : ∀ raw ∈ raws, ∀ e, transformExpr cat sig argnames raw = .ok e →
      rawType cat sig argnames raw = some (e.exprType cat.toProcCatalog)) :
    rawTypes cat sig argnames raws = some (actualArgTypes cat es) := by
  induction h with
  | nil => rfl
  | cons he _ ih =>
    rw [rawTypes, htypes _ (List.mem_cons_self ..) _ he,
      ih fun raw hraw => htypes raw (List.mem_cons_of_mem _ hraw)]
    rfl

/-! ## The transformed body has the raw body's type -/

/-- The type of a body, read off the raw text. -/
theorem transformExpr_type {raw : RawExpr V} (h : transformExpr cat sig argnames raw = .ok e) :
    rawType cat sig argnames raw = some (e.exprType cat.toProcCatalog) := by
  induction raw using RawExpr.induction generalizing e with
  | aConst t v =>
    cases h
    rfl
  | columnRef fields => exact lambdaColumnRefHook_type h
  | funcCall funcname raws ih =>
    obtain ⟨args, hargs, hcall⟩ := transformExpr_funcCall_inv h
    rw [rawType, rawTypes_eq hargs fun raw hraw _ => ih raw hraw, Option.bind_some, hcall.type]
  | aExpr opname raws ih =>
    obtain ⟨operands, f, args, hargs, hf, _, rfl⟩ := transformExpr_aExpr_inv h
    rw [rawType, rawTypes_eq hargs fun raw hraw _ => ih raw hraw, Option.bind_some, hf]
    rfl
  | caseExpr c r d _ ihr ihd =>
    obtain ⟨c', r', d', c'', r'', d'', t, _, hr, hd, _, hcommon, rfl⟩ :=
      transformExpr_caseExpr_inv h
    obtain ⟨ht, _, _⟩ := coerceToCommonType_inv hcommon
    rw [rawType, ihd hd, ihr hr, Option.bind_some, Option.bind_some, ht]
    rfl
  | coalesceExpr a b iha ihb =>
    obtain ⟨a', b', a'', b'', t, ha, hb, hcommon, rfl⟩ := transformExpr_coalesceExpr_inv h
    obtain ⟨ht, _, _⟩ := coerceToCommonType_inv hcommon
    rw [rawType, iha ha, ihb hb, Option.bind_some, Option.bind_some, ht]
    rfl
  | lambdaExpr _ _ _ => cases h

/-! ## The transformed body has the raw body's signature -/

/-- What a coercion to `lambda` keeps: a function stays what it is, and a cast is none. -/
theorem hasSignature_coerced (hlit : ∀ v, e ≠ .const UNKNOWNOID v)
    (h : coerceType cat ctx (e.exprType cat.toProcCatalog) LAMBDAOID e = .ok e') :
    HasSignature sig τ e' ↔ e.exprType cat.toProcCatalog = LAMBDAOID ∧ HasSignature sig τ e := by
  by_cases htype : e.exprType cat.toProcCatalog = LAMBDAOID
  · rw [coerceType_of_eq htype h]
    exact (and_iff_right htype).symm
  · refine iff_of_false ?_ fun h => htype h.1
    obtain ⟨heq, _⟩ | ⟨v, v', he, _⟩ | ⟨f, _, rfl⟩ := coerceType_cases h
    · exact absurd heq htype
    · exact absurd he (hlit v)
    · exact id

theorem hasSignature_aConst {t : Oid} {v : Option V}
    (h : coerceType cat ctx t LAMBDAOID (.const t v) = .ok e') :
    HasSignature sig τ e' ↔ (t = LAMBDAOID ∧ v = none) ∨
      (t = UNKNOWNOID ∧ cat.typeInput LAMBDAOID v = some none) := by
  by_cases ht : t = UNKNOWNOID
  · subst ht
    have hne : UNKNOWNOID ≠ LAMBDAOID := by decide
    obtain ⟨heq, _⟩ | ⟨v₁, v', hv, hinput, rfl⟩ | ⟨f, hf, _⟩ := coerceType_cases h
    · exact absurd heq hne
    · cases hv
      simp [HasSignature, hinput, hne]
    · -- an untyped literal is never cast
      simp only [coerceType, hne, if_true, if_false] at h
      cases hinput : cat.typeInput LAMBDAOID v with
      | none => simp [hinput] at h
      | some v' =>
        simp only [hinput, Option.map_some, Except.ok.injEq] at h
        simp [← h, HasSignature, hne]
  · rw [hasSignature_coerced (fun w hw => ht (Expr.const.inj hw).1) h]
    simp only [HasSignature, Expr.exprType, ht, false_and, or_false]

/-- A cast passes a function on if it does nothing, and makes none otherwise. -/
theorem hasSignature_cast {a : Expr F V} {P : Prop}
    (ih : ∀ ctx a', coerceType cat ctx (a.exprType cat.toProcCatalog) LAMBDAOID a = .ok a' →
      (HasSignature sig τ a' ↔ P))
    (hcast : coerceType cat .explicit (a.exprType cat.toProcCatalog) target a = .ok e)
    (h : coerceType cat ctx (e.exprType cat.toProcCatalog) LAMBDAOID e = .ok e') :
    HasSignature sig τ e' ↔
      (target = LAMBDAOID ∨ target = a.exprType cat.toProcCatalog) ∧ P := by
  have htype := coerceType_exprType hcast
  by_cases hsame : target = a.exprType cat.toProcCatalog
  · rw [coerceType_of_eq hsame.symm hcast] at h
    rw [ih ctx e' h, and_iff_right (.inr hsame)]
  by_cases hlambda : target = LAMBDAOID
  · rw [coerceType_of_eq (htype.trans hlambda) h, and_iff_right (.inl hlambda)]
    rw [hlambda] at hcast
    exact ih .explicit e hcast
  · have hlit : ∀ v, e ≠ .const UNKNOWNOID v := by
      rintro v rfl
      obtain ⟨heq, _⟩ | ⟨w, w', rfl, _, heq⟩ | ⟨f, _, heq⟩ := coerceType_cases hcast
      · exact hsame heq.symm
      · exact hsame (Expr.const.inj heq).1.symm
      · cases heq
    rw [hasSignature_coerced hlit h, htype]
    exact iff_of_false (fun h => hlambda h.1) fun h => h.1.elim hlambda hsame

/-- A call that is no cast returns no function with a signature. -/
theorem not_rawHasSignature_call {args : List (Expr F V)}
    (hargs : List.Forall₂ (fun raw e => transformExpr cat sig argnames raw = .ok e) raws args)
    (hno : ∀ target a, cat.funcGetDetail funcname (actualArgTypes cat args) = .coercion target →
      args ≠ [a]) : ¬ RawHasSignature cat sig argnames τ (.funcCall funcname raws) := by
  rcases hargs with _ | ⟨ha, _ | ⟨_, _⟩⟩
  · exact id
  · rintro ⟨⟨t, target, ht, hdetail, _⟩, _⟩
    cases (transformExpr_type ha).symm.trans ht
    exact hno target _ hdetail rfl
  · exact id

/-- The signature of a function-valued body, read off the raw text. -/
theorem transformExpr_hasSignature {raw : RawExpr V} {σs : List LambdaSigType}
    {ρ : LambdaSigType} (h : transformExpr cat sig argnames raw = .ok e)
    (hcoerce : coerceType cat ctx (e.exprType cat.toProcCatalog) LAMBDAOID e = .ok e') :
    HasSignature sig (.func σs ρ) e' ↔ RawHasSignature cat sig argnames (.func σs ρ) raw := by
  induction raw using RawExpr.induction generalizing ctx e e' with
  | aConst t v =>
    cases h
    exact hasSignature_aConst hcoerce
  | columnRef fields =>
    obtain ⟨varName, idx, S, σ, rfl, hidx, rfl, hσ, rfl⟩ := lambdaColumnRefHook_inv h
    rw [hasSignature_coerced (by rintro _ ⟨⟩) hcoerce]
    simp only [HasSignature, RawHasSignature, referenceType, hidx, Except.toOption,
      Option.bind_some, hσ, Option.some.injEq, Expr.exprType]
    constructor
    · exact And.right
    · rintro rfl
      exact ⟨rfl, rfl⟩
  | funcCall funcname raws ih =>
    obtain ⟨args, hargs, hcall⟩ := transformExpr_funcCall_inv h
    cases hcall with
    | coercion hdetail hcast =>
      obtain ⟨raw, _, hraw, hnil, rfl⟩ := List.forall₂_cons_right_iff.mp hargs
      cases hnil
      have htype := transformExpr_type hraw
      rw [hasSignature_cast (fun _ _ => ih raw List.mem_cons_self hraw) hcast hcoerce,
        RawHasSignature, htype]
      refine and_congr_left fun _ => ⟨fun ht => ⟨_, _, rfl, hdetail, ht⟩, ?_⟩
      rintro ⟨t, target, ⟨⟩, hdetail', ht⟩
      cases hdetail.symm.trans hdetail'
      exact ht
    | input _ _ _ hno _ =>
      rw [hasSignature_coerced (by rintro _ ⟨⟩) hcoerce]
      exact iff_of_false And.right (not_rawHasSignature_call hargs hno)
    | function _ hdetail _ =>
      rw [hasSignature_coerced (by rintro _ ⟨⟩) hcoerce]
      refine iff_of_false And.right (not_rawHasSignature_call hargs fun target a ht => ?_)
      cases hdetail.symm.trans ht
  | aExpr opname raws _ =>
    obtain ⟨operands, f, args, _, _, _, rfl⟩ := transformExpr_aExpr_inv h
    rw [hasSignature_coerced (by rintro _ ⟨⟩) hcoerce]
    exact iff_of_false And.right id
  | caseExpr c r d _ ihr ihd =>
    have htype := transformExpr_type h
    obtain ⟨c', r', d', c'', r'', d'', t, _, hr, hd, _, hcommon, rfl⟩ :=
      transformExpr_caseExpr_inv h
    obtain ⟨_, hd', hr'⟩ := coerceToCommonType_inv hcommon
    rw [hasSignature_coerced (by rintro _ ⟨⟩) hcoerce, RawHasSignature, htype, Option.some.injEq]
    refine and_congr_right fun ht => ?_
    obtain rfl : t = LAMBDAOID := ht
    exact and_congr (ihr hr hr') (ihd hd hd')
  | coalesceExpr a b iha ihb =>
    have htype := transformExpr_type h
    obtain ⟨a', b', a'', b'', t, ha, hb, hcommon, rfl⟩ := transformExpr_coalesceExpr_inv h
    obtain ⟨_, ha', hb'⟩ := coerceToCommonType_inv hcommon
    rw [hasSignature_coerced (by rintro _ ⟨⟩) hcoerce, RawHasSignature, htype, Option.some.injEq]
    refine and_congr_right fun ht => ?_
    obtain rfl : t = LAMBDAOID := ht
    exact and_congr (iha ha ha') (ihb hb hb')
  | lambdaExpr _ _ _ => cases h

/-- The body has the declared type if the raw body has it. -/
theorem bodyHasType_iff {raw : RawExpr V} (h : transformExpr cat sig argnames raw = .ok e)
    (τ : LambdaSigType) : BodyHasType cat sig e τ ↔ RawHasType cat sig argnames raw τ := by
  have htype := transformExpr_type h
  cases τ with
  | scalar t => rw [BodyHasType, RawHasType, htype, Option.some.injEq]
  | func σs ρ =>
    rw [BodyHasType, RawHasType, htype, Option.some.injEq]
    refine and_congr_right fun hlambda => ?_
    have hcoerce : coerceType cat .implicit (e.exprType cat.toProcCatalog) LAMBDAOID e = .ok e :=
      if_pos hlambda
    exact transformExpr_hasSignature h hcoerce

/-- What the literal keeps of its text, and the type of its body. -/
theorem transformLambdaExpr_inv {l : LambdaLiteral V} {le : LambdaExpr F V}
    (h : transformLambdaExpr cat sig l = .ok le) :
    le.argnames = l.argnames ∧ transformExpr cat sig l.argnames l.expr = .ok le.expr ∧
      rawType cat sig l.argnames l.expr = some (le.expr.exprType cat.toProcCatalog) := by
  obtain ⟨e, he, h⟩ := bind_eq_ok.mp h
  cases h
  exact ⟨rfl, he, transformExpr_type he⟩

/-- **When a stored literal has the shape of its column.** A literal that an
accepted `INSERT` stores in a column of signature `S` has as many inputs as `S`
has arguments, and a body of the return type of `S`, exactly if it was written
with that many argument names and a raw body of that type. The types of the
references are those of the signature that the literal was analysed against. The
statement is accepted either way. -/
theorem stored_literal_conforms_iff {store : Int → Option LambdaSignature}
    {tupdesc : List Attribute} {assignable : Oid → List String → Oid → Bool} {cols : List ResTarget}
    {rows : List (List (ValuesItem V))} {out : List (List (Nat × RowExpr F V))} {r j : Nat}
    {row : List (ValuesItem V)} {l : LambdaLiteral V}
    (h : transformInsertStmt cat store tupdesc assignable cols rows = .ok out)
    (hr : rows[r]? = some row) (hj : row[j]? = some (.lambdaExpr l)) :
    ∃ assigned attrno le, out[r]? = some assigned ∧
      assigned[ValuesItem.width (row.take j)]? = some (attrno, .lambdaConst le) ∧
      ∀ S, attributeSignature store tupdesc (attrno - 1) = .ok S →
        (le.nargs = S.argtypes.length ∧
            BodyHasType cat (attributeSignature store tupdesc (ValuesItem.counted (row.take j)))
              le.expr S.rettype ↔
          l.argnames.length = S.argtypes.length ∧
            RawHasType cat (attributeSignature store tupdesc (ValuesItem.counted (row.take j)))
              l.argnames l.expr S.rettype) := by
  obtain ⟨assigned, attrno, le, k, b, hout, hget, hle, hk, hattrno, hb⟩ :=
    insert_literal h hr hj
  refine ⟨assigned, attrno, le, hout, hget, fun S _ => ?_⟩
  obtain ⟨hnames, hexpr, _⟩ := transformLambdaExpr_inv hle
  unfold LambdaHeader.nargs
  rw [hnames, bodyHasType_iff hexpr]

end

/-- `INSERT INTO t VALUES (DEFAULT, λ(x)(x))`: the identity conforms to the second column. -/
theorem stored_literal_conforms_iff_identity :
    transformInsertStmt arithParser twoSignatures twoColumns sameType []
        [[.setToDefault, .lambdaExpr identityLiteral]] =
          .ok [[(1, .setToDefault), (2, .lambdaConst (identityLambda BOOLOID))]] ∧
      (identityLambda BOOLOID).nargs = 1 ∧
      BodyHasType arithParser (attributeSignature twoSignatures twoColumns 1)
        (identityLambda BOOLOID).expr (.scalar BOOLOID) := by
  have h : transformInsertStmt arithParser twoSignatures twoColumns sameType []
      [[.setToDefault, .lambdaExpr identityLiteral]] =
        .ok [[(1, .setToDefault), (2, .lambdaConst (identityLambda BOOLOID))]] := rfl
  obtain ⟨assigned, attrno, le, hout, hget, hconforms⟩ :=
    stored_literal_conforms_iff (r := 0) (j := 1) h rfl rfl
  cases hout
  cases hget
  exact ⟨h, (hconforms ⟨[.scalar BOOLOID], .scalar BOOLOID⟩ rfl).mpr ⟨rfl, rfl⟩⟩

/-- `λ(x, y)(x > x)`. -/
def comparisonLiteral : LambdaLiteral Int :=
  ⟨["x", "y"], .aExpr ">" [.columnRef ["x"], .columnRef ["x"]]⟩

def comparisonLambda : LambdaExpr ArithFunc Int :=
  scalarLambda ["x", "y"] BOOLOID (.func .greater [.param 0 INT4OID, .param 0 INT4OID])

/-- **A literal of another shape is stored.** `INSERT INTO t VALUES (λ(x, y)(x > x))`
puts a lambda of two arguments and type `bool` into the column of signature
`(int4) → int4`. -/
theorem misshapen_literal_stored :
    transformInsertStmt arithParser twoSignatures twoColumns sameType []
        [[.lambdaExpr comparisonLiteral]] = .ok [[(1, .lambdaConst comparisonLambda)]] ∧
      attributeSignature twoSignatures twoColumns (1 - 1) =
        .ok ⟨[.scalar INT4OID], .scalar INT4OID⟩ ∧
      comparisonLambda.nargs = 2 ∧ comparisonLambda.expr.exprType arithCatalog = BOOLOID ∧
      BOOLOID ≠ (LambdaSigType.scalar INT4OID).oid := by
  refine ⟨rfl, rfl, rfl, rfl, ?_⟩
  decide

end HolLambdas.Parse
