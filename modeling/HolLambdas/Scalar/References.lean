import HolLambdas.Scalar.Nodes

/-!
# The references in a body

The prescan keeps two tables about a body's inputs: which of them are functions
(`Expr.isFunc`) and at what type an input is first read (`Expr.proto`). Both are
walks of their own in the embedding, as is the question whether an input occurs
at all (`Expr.mentions`), but all three look at nothing but the references to
inputs, in the order of the walk. `Expr.references` is that list, and each walk
is a search in it (`isFunc_iff`, `mentions_iff`, `proto_eq`). What a typing
discipline says about the tables then follows from what it says about one
reference.

Embedded lambdas contribute no reference: their inputs are their own.
-/

namespace HolLambdas.Scalar

variable {F V : Type} {k : Nat}

/-- A reference to an input: the input is read at a type, or called. -/
inductive Reference where
  | read (k : Nat) (t : Oid)
  | call (k : Nat)
deriving DecidableEq, Repr

/-- The type a reference reads input `k` at. -/
def Reference.readType (k : Nat) : Reference → Option Oid
  | read i t => if i = k then some t else none
  | call _ => none

theorem Reference.readType_eq_some {t : Oid} {ref : Reference} :
    ref.readType k = some t ↔ ref = read k t := by
  cases ref with
  | read i s =>
    simp only [readType, read.injEq]
    split
    next hi => simp [hi]
    next hi => simp [hi]
  | call i => simp [readType]

namespace Expr

mutual

/-- The references in a body, in walking order. -/
def references : Expr F V → List Reference
  | const _ _ => []
  | param k t => [.read k t]
  | func _ args => referencesArgs args
  | caseWhen _ c r d => references c ++ (references r ++ references d)
  | coalesce _ a b => references a ++ references b
  | lfa _ _ k args => .call k :: referencesArgs args
  | lambda _ _ => []

def referencesArgs : List (Expr F V) → List Reference
  | [] => []
  | e :: es => references e ++ referencesArgs es

end

mutual

/-- Input `k` is read or called in the body, outside embedded lambdas. -/
def mentions (k : Nat) : Expr F V → Bool
  | const _ _ => false
  | param i _ => i == k
  | func _ args => mentionsArgs k args
  | caseWhen _ c r d => mentions k c || mentions k r || mentions k d
  | coalesce _ a b => mentions k a || mentions k b
  | lfa _ _ i args => i == k || mentionsArgs k args
  | lambda _ _ => false

def mentionsArgs (k : Nat) : List (Expr F V) → Bool
  | [] => false
  | e :: es => mentions k e || mentionsArgs k es

end

/-! ## The walks are searches -/

mutual

/-- A function input is one that is called, or read at type `lambda`. -/
theorem isFunc_iff : ∀ {e : Expr F V}, e.isFunc k = true ↔
    Reference.read k LAMBDAOID ∈ e.references ∨ Reference.call k ∈ e.references
  | const _ _ => by simp [isFunc, references]
  | param i t => by
    simp only [isFunc, references, Bool.and_eq_true, beq_iff_eq, List.mem_singleton,
      Reference.read.injEq, reduceCtorEq, or_false]
    rw [eq_comm (a := i), eq_comm (a := t)]
  | func _ args => isFuncArgs_iff
  | caseWhen _ c r d => by
    simp only [isFunc, references, Bool.or_eq_true, List.mem_append, isFunc_iff (e := c),
      isFunc_iff (e := r), isFunc_iff (e := d)]
    apply Iff.of_eq
    ac_rfl
  | coalesce _ a b => by
    simp only [isFunc, references, Bool.or_eq_true, List.mem_append, isFunc_iff (e := a),
      isFunc_iff (e := b)]
    exact or_or_or_comm
  | lfa _ _ i args => by
    simp only [isFunc, references, Bool.or_eq_true, beq_iff_eq, List.mem_cons, isFuncArgs_iff,
      Reference.call.injEq, reduceCtorEq, false_or]
    rw [eq_comm]
    exact or_left_comm
  | lambda _ _ => by simp [isFunc, references]

theorem isFuncArgs_iff : ∀ {es : List (Expr F V)}, isFuncArgs k es = true ↔
    Reference.read k LAMBDAOID ∈ referencesArgs es ∨ Reference.call k ∈ referencesArgs es
  | [] => by simp [isFuncArgs, referencesArgs]
  | e :: es => by
    simp only [isFuncArgs, referencesArgs, Bool.or_eq_true, List.mem_append, isFunc_iff (e := e),
      isFuncArgs_iff]
    exact or_or_or_comm

end

mutual

theorem mentions_iff : ∀ {e : Expr F V}, e.mentions k = true ↔
    (∃ t, Reference.read k t ∈ e.references) ∨ Reference.call k ∈ e.references
  | const _ _ => by simp [mentions, references]
  | param i t => by
    simp only [mentions, references, beq_iff_eq, List.mem_singleton, Reference.read.injEq,
      reduceCtorEq, or_false, exists_and_left, exists_eq, and_true]
    rw [eq_comm]
  | func _ args => mentionsArgs_iff
  | caseWhen _ c r d => by
    simp only [mentions, references, Bool.or_eq_true, List.mem_append, mentions_iff (e := c),
      mentions_iff (e := r), mentions_iff (e := d), exists_or]
    apply Iff.of_eq
    ac_rfl
  | coalesce _ a b => by
    simp only [mentions, references, Bool.or_eq_true, List.mem_append, mentions_iff (e := a),
      mentions_iff (e := b), exists_or]
    exact or_or_or_comm
  | lfa _ _ i args => by
    simp only [mentions, references, Bool.or_eq_true, beq_iff_eq, List.mem_cons, mentionsArgs_iff,
      Reference.call.injEq, reduceCtorEq, false_or]
    rw [eq_comm]
    exact or_left_comm
  | lambda _ _ => by simp [mentions, references]

theorem mentionsArgs_iff : ∀ {es : List (Expr F V)}, mentionsArgs k es = true ↔
    (∃ t, Reference.read k t ∈ referencesArgs es) ∨ Reference.call k ∈ referencesArgs es
  | [] => by simp [mentionsArgs, referencesArgs]
  | e :: es => by
    simp only [mentionsArgs, referencesArgs, Bool.or_eq_true, List.mem_append,
      mentions_iff (e := e), mentionsArgs_iff, exists_or]
    exact or_or_or_comm

end

mutual

/-- The prescan records the type of the first read. -/
theorem proto_eq : ∀ {e : Expr F V},
    e.proto k = e.references.findSome? (Reference.readType k)
  | const _ _ => rfl
  | param i t => by simp [proto, references, Reference.readType]
  | func _ args => by
    unfold proto references
    exact protoArgs_eq
  | caseWhen _ c r d => by
    simp only [proto, references, List.findSome?_append, proto_eq (e := c), proto_eq (e := r),
      proto_eq (e := d)]
  | coalesce _ a b => by
    simp only [proto, references, List.findSome?_append, proto_eq (e := a), proto_eq (e := b)]
  | lfa _ _ i args => by
    simp only [proto, references, List.findSome?_cons, Reference.readType, protoArgs_eq]
  | lambda _ _ => rfl

theorem protoArgs_eq : ∀ {es : List (Expr F V)},
    protoArgs k es = (referencesArgs es).findSome? (Reference.readType k)
  | [] => rfl
  | e :: es => by
    simp only [protoArgs, referencesArgs, List.findSome?_append, proto_eq (e := e),
      protoArgs_eq]

end

/-! ## What the tables say about each other -/

section Tables

variable {k : Nat} {e : Expr F V}

theorem read_mem_of_proto {t : Oid} (h : e.proto k = some t) :
    Reference.read k t ∈ e.references := by
  rw [proto_eq] at h
  obtain ⟨ref, hmem, href⟩ := List.exists_of_findSome?_eq_some h
  rwa [Reference.readType_eq_some.mp href] at hmem

/-- What the prescan records, the body mentions. -/
theorem mentions_of_proto {t : Oid} (h : e.proto k = some t) : e.mentions k = true :=
  mentions_iff.mpr (.inl ⟨t, read_mem_of_proto h⟩)

theorem isFunc_of_proto (h : e.proto k = some LAMBDAOID) : e.isFunc k = true :=
  isFunc_iff.mpr (.inl (read_mem_of_proto h))

theorem mentions_of_isFunc (h : e.isFunc k = true) : e.mentions k = true := by
  rcases isFunc_iff.mp h with hread | hcall
  · exact mentions_iff.mpr (.inl ⟨LAMBDAOID, hread⟩)
  · exact mentions_iff.mpr (.inr hcall)

/-- An input that is mentioned but never called is read. -/
theorem isSome_proto_of_mentions (h : e.mentions k = true) (hf : e.isFunc k = false) :
    (e.proto k).isSome = true := by
  rcases mentions_iff.mp h with ⟨t, hread⟩ | hcall
  · rw [proto_eq, List.isSome_findSome?, List.any_eq_true]
    refine ⟨_, hread, ?_⟩
    rw [Reference.readType_eq_some.mpr rfl]
    rfl
  · have hfunc := isFunc_iff.mpr (.inr hcall)
    rw [hf] at hfunc
    cases hfunc

end Tables

end Expr

end HolLambdas.Scalar
