import HolLambdas.Scalar.Application
import HolLambdas.Row.Inject

/-!
# What a row-context lambda means

The injector is to replace every call by the body of the lambda in its column.
`RowMeans` says what the mother computes without any replacing: fields are read
from the data rows, and the meaning of `b.f(…)` is the meaning of the lambda's own
body under the meanings of the arguments. Over well-typed rows every mother has a
meaning, in every algebra.
-/

namespace HolLambdas.Row

open Scalar

variable {F V D D' : Type}
variable {Q : RowBody F V → D → Prop} {σs : List LambdaSigType}

/-! ## Typing -/

/-- The declared type of a column, row and column counted from 1. -/
def column (argtypes : List (List LambdaSigType)) (p k : Nat) : Option LambdaSigType :=
  (nth1 argtypes p).bind fun row => nth1 row k

variable {i : Nat} {argtypes : List (List LambdaSigType)} {cat : ProcCatalog F}
  {innerLambdas : List (List (Option (Datum F V)))}

theorem nth1_eq_some {α : Type} {xs : List α} {x : α} :
    nth1 xs i = some x ↔ ∃ j, i = j + 1 ∧ xs[j]? = some x := by
  cases i with
  | zero => simp [nth1]
  | succ i => simp [nth1]

theorem column_succ {j : Nat} {row : List LambdaSigType} {σ : LambdaSigType}
    (hrow : argtypes[i]? = some row) (hσ : row[j]? = some σ) :
    column argtypes (i + 1) (j + 1) = some σ := by
  simp [column, nth1, hrow, hσ]

theorem column_inv {p k : Nat} {σ : LambdaSigType} (h : column argtypes p k = some σ) :
    ∃ i j row, p = i + 1 ∧ k = j + 1 ∧ argtypes[i]? = some row ∧ row[j]? = some σ := by
  obtain ⟨row, hrow, hσ⟩ := Option.bind_eq_some_iff.mp h
  obtain ⟨i, rfl, hi⟩ := nth1_eq_some.mp hrow
  obtain ⟨j, rfl, hj⟩ := nth1_eq_some.mp hσ
  exact ⟨i, j, row, rfl, rfl, hi, hj⟩

mutual

/-- Over rows declared by `argtypes`, the body has the atomic type `τ`. A function
column is called with the arguments its signature asks for, at least one. -/
def RowHasType (cat : ProcCatalog F) (argtypes : List (List LambdaSigType)) :
    RowBody F V → Oid → Prop
  | .const t _, τ => τ = t
  | .field p k t, τ => τ = t ∧ column argtypes p k = some (.scalar t)
  | .func f es, τ =>
    τ = cat.prorettype f ∧ RowHasTypes cat argtypes es ((cat.proargtypes f).map .scalar)
  | .caseWhen t c r d, τ =>
    τ = t ∧ (∃ b, RowHasType cat argtypes c b) ∧ RowHasType cat argtypes r t ∧
      RowHasType cat argtypes d t
  | .coalesce t a b, τ => τ = t ∧ RowHasType cat argtypes a t ∧ RowHasType cat argtypes b t
  | .lfa _ t p k es, τ =>
    τ = t ∧ es ≠ [] ∧
      ∃ σs, column argtypes p k = some (.func σs (.scalar t)) ∧ RowHasTypes cat argtypes es σs

/-- An argument for an atomic input is an expression, one for a function input the
name of a function column of the same signature. -/
def RowHasTypes (cat : ProcCatalog F) (argtypes : List (List LambdaSigType)) :
    List (RowBody F V) → List LambdaSigType → Prop
  | [], σs => σs = []
  | e :: es, σs => ∃ σ σs', σs = σ :: σs' ∧
      ((∃ t, σ = .scalar t ∧ RowHasType cat argtypes e t) ∨
        (∃ p k σs₁ ρ, e.byName = some (p, k) ∧ σ = .func σs₁ ρ ∧ column argtypes p k = some σ)) ∧
      RowHasTypes cat argtypes es σs'

end

theorem byName_of_hasType {e : RowBody F V} {t : Oid} (h : RowHasType cat argtypes e t) :
    e.byName = none := by
  cases e with
  | lfa name t' p k es =>
    cases es with
    | nil => exact absurd rfl h.2.1
    | cons e es => rfl
  | const | field | func | caseWhen | coalesce => rfl

theorem RowHasTypes.length_eq :
    ∀ {es : List (RowBody F V)} {σs : List LambdaSigType}, RowHasTypes cat argtypes es σs →
      es.length = σs.length
  | [], σs, h => by
    rw [h]
    rfl
  | e :: es, σs, h => by
    obtain ⟨σ, σs', rfl, _, hes⟩ := h
    rw [List.length_cons, List.length_cons, hes.length_eq]

/-- Every function column is given a lambda that conforms to its signature. -/
def LambdasFit (cat : ProcCatalog F) (argtypes : List (List LambdaSigType))
    (lam : Nat → Nat → Option (LambdaExpr F V)) : Prop :=
  ∀ p k σs ρ, column argtypes p k = some (.func σs ρ) →
    ∃ le, lam p k = some le ∧ le.Conforms cat ⟨σs, ρ⟩

/-- The lambda that a tuple holds for a row and column. -/
def tupleLambda (innerLambdas : List (List (Option (Datum F V)))) (p k : Nat) :
    Option (LambdaExpr F V) :=
  (((nth1 innerLambdas p).bind fun tuple => nth1 tuple k).join).bind fun d =>
    (lambdaDeserialize d).toOption

theorem nth1_succ {α : Type} (xs : List α) (i : Nat) : nth1 xs (i + 1) = xs[i]? := by
  simp [nth1]

/-- The value that the injector reads, in the numbering of the lambda's body. -/
theorem tuple_value_succ (innerLambdas : List (List (Option (Datum F V)))) (i j : Nat) :
    ((nth1 innerLambdas (i + 1)).bind fun tuple => nth1 tuple (j + 1)).join =
      (innerLambdas[i]?).bind fun tuple => (tuple[j]?).join := by
  simp only [nth1_succ]
  cases innerLambdas[i]? with
  | none => rfl
  | some tuple => rfl

theorem injectorEntry_func_ok {j : Nat} {ρ : LambdaSigType}
    {entry : Option (LambdaExpr (RowFunc F) V)}
    (h : injectorEntry innerLambdas i j (.func σs ρ) = .ok entry) :
    ∃ le, tupleLambda innerLambdas (i + 1) (j + 1) = some le ∧ entry = some (embedLambda le) := by
  unfold tupleLambda
  rw [tuple_value_succ]
  simp only [injectorEntry, LambdaSigType.isFunction_func, if_true] at h
  split at h
  · cases h
  next d hd =>
    rw [hd]
    obtain ⟨le, hle, h⟩ := bind_eq_ok.mp h
    split at h
    · cases h
      cases hdes : lambdaDeserialize d with
      | error e =>
        rw [hdes] at hle
        cases hle
      | ok le' =>
        rw [hdes] at hle
        cases hle
        exact ⟨le, by rw [Option.bind_some, hdes]; rfl, rfl⟩
    · cases h

/-- If the injector's arguments could be built, those of a function column hold the
lambda at the same position of the row. -/
theorem motherArg_of_injectorArgs {args : MotherArgs F V}
    (hargs : injectorArgs innerLambdas argtypes = .ok args) {p k : Nat} {ρ : LambdaSigType}
    (hcol : column argtypes p k = some (.func σs ρ)) :
    ∃ le, tupleLambda innerLambdas p k = some le ∧
      ∀ perr ferr, motherArg perr ferr args p k = .ok (some (embedLambda le)) := by
  obtain ⟨i, j, row, rfl, rfl, hrow, hσ⟩ := column_inv hcol
  obtain ⟨row', hrow', hround⟩ := (zipIdx_mapM_eq_ok.mp hargs).2 i row hrow
  obtain ⟨entry, hentry, hval⟩ := (zipIdx_mapM_eq_ok.mp hround).2 j _ hσ
  rw [Nat.zero_add, Nat.zero_add] at hval
  obtain ⟨le, hle, rfl⟩ := injectorEntry_func_ok hval
  refine ⟨le, hle, fun perr ferr => ?_⟩
  simp only [motherArg, nth1_succ, hrow', hentry]

section Meaning

variable (A : ScalarAlgebra F V D) (data : Nat → Nat → D)
  (lam : Nat → Nat → Option (LambdaExpr F V))

mutual

/-- The meaning of a row-context body: `data p k` is field `k` of row `p`, and a call
is an application of the lambda in its column. -/
def RowMeans : RowBody F V → D → Prop
  | .const t v, d => d = A.const t v
  | .field p k _, d => d = data p k
  | .func f es, d => ∃ ds, RowMeansArgs es (ds.map .val) ∧ d = A.func f ds
  | .caseWhen t c r e, d => ∃ dc dr de, RowMeans c dc ∧ RowMeans r dr ∧ RowMeans e de ∧
      d = A.caseWhen t dc dr de
  | .coalesce t a b, d => ∃ da db, RowMeans a da ∧ RowMeans b db ∧ d = A.coalesce t da db
  | .lfa _ _ p k es, d => ∃ le Es, lam p k = some le ∧ RowMeansArgs es Es ∧
      Means A Es le.expr (.val d)

def RowMeansArgs : List (RowBody F V) → List (Entry F V D) → Prop
  | [], Es => Es = []
  | e :: es, Es => ∃ E Es', Es = E :: Es' ∧
      ((∃ p k le, e.byName = some (p, k) ∧ lam p k = some le ∧
          E = .lam le.toLambdaHeader le.expr) ∨
        (e.byName = none ∧ ∃ d, E = .val d ∧ RowMeans e d)) ∧
      RowMeansArgs es Es'

end

end Meaning

/-! ## The environment of a call -/

section Call

variable {G : Type} {mk : LambdaExpr F V → LambdaExpr G V}
  {lam : Nat → Nat → Option (LambdaExpr F V)}

/-- The entry of an argument: functions are passed as lambdas, `atom` says what an
atomic argument stands for. -/
def callEntry {G : Type} (mk : LambdaExpr F V → LambdaExpr G V)
    (lam : Nat → Nat → Option (LambdaExpr F V)) (atom : RowBody F V → D) (e : RowBody F V) :
    Entry G V D :=
  match e.byName with
  | some pk =>
    match lam pk.1 pk.2 with
    | some le => .lam (mk le).toLambdaHeader (mk le).expr
    | none => .nul
  | none => .val (atom e)

/-- An entry for an argument of a call, where an atomic argument stands for a `d`
with `Q e d`. -/
def CallArg (mk : LambdaExpr F V → LambdaExpr G V) (lam : Nat → Nat → Option (LambdaExpr F V))
    (Q : RowBody F V → D → Prop) (e : RowBody F V) (E : Entry G V D) : Prop :=
  (∃ p k le, e.byName = some (p, k) ∧ lam p k = some le ∧
    E = .lam (mk le).toLambdaHeader (mk le).expr) ∨
  (e.byName = none ∧ ∃ d, E = .val d ∧ Q e d)

theorem CallArg.lam_inv {e : RowBody F V} {E : Entry G V D} (h : CallArg mk lam Q e E) {p k : Nat}
    {le : LambdaExpr F V} (hname : e.byName = some (p, k)) (hle : lam p k = some le) :
    E = .lam (mk le).toLambdaHeader (mk le).expr := by
  rcases h with ⟨p', k', le', hname', hle', rfl⟩ | ⟨hname', _⟩
  · rw [hname] at hname'
    cases hname'
    rw [hle] at hle'
    cases hle'
    rfl
  · rw [hname] at hname'
    cases hname'

theorem CallArg.val_inv {e : RowBody F V} {E : Entry G V D} (h : CallArg mk lam Q e E)
    (hname : e.byName = none) : ∃ d, E = .val d ∧ Q e d := by
  rcases h with ⟨_, _, _, hname', _⟩ | ⟨_, hd⟩
  · rw [hname] at hname'
    cases hname'
  · exact hd

theorem callArgs_of_rowMeansArgs {A : ScalarAlgebra F V D} {data : Nat → Nat → D} :
    ∀ {es : List (RowBody F V)} {Es : List (Entry F V D)}, RowMeansArgs A data lam es Es →
      List.Forall₂ (CallArg id lam (RowMeans A data lam)) es Es
  | [], Es, h => by
    rw [h]
    exact .nil
  | e :: es, Es, h => by
    obtain ⟨E, Es', rfl, hE, hEs⟩ := h
    exact .cons hE (callArgs_of_rowMeansArgs hEs)

variable {cat : ProcCatalog F} {argtypes : List (List LambdaSigType)}

theorem callArgs_callEntry (mk : LambdaExpr F V → LambdaExpr G V) (atom : RowBody F V → D)
    (hlam : LambdasFit cat argtypes lam) :
    ∀ {es : List (RowBody F V)} {σs : List LambdaSigType}, RowHasTypes cat argtypes es σs →
      List.Forall₂ (CallArg mk lam fun e d => d = atom e) es (es.map (callEntry mk lam atom))
  | [], _, _ => .nil
  | e :: es, σs, h => by
    obtain ⟨σ, σs', rfl, he, hes⟩ := h
    refine .cons ?_ (callArgs_callEntry mk atom hlam hes)
    rcases he with ⟨t, rfl, ht⟩ | ⟨p, k, σs₁, ρ, hname, rfl, hcol⟩
    · have hname := byName_of_hasType ht
      exact .inr ⟨hname, atom e, by rw [callEntry, hname], rfl⟩
    · obtain ⟨le, hle, _⟩ := hlam p k σs₁ ρ hcol
      exact .inl ⟨p, k, le, hname, hle, by rw [callEntry, hname]; simp only [hle]⟩

variable {catG : ProcCatalog G} {B : ScalarAlgebra G V D} {C : ScalarAlgebra G V D'}
  {P : D → D' → Prop}

/-- The environments of a call in two algebras are related as soon as the atomic
arguments are. -/
theorem rels_callArgs (hP : AlgebraRel B C P)
    (hmk : ∀ le S, LambdaExpr.Conforms le cat S → (mk le).Conforms catG S)
    (hlam : LambdasFit cat argtypes lam) {Q' : RowBody F V → D' → Prop}
    (hQ : ∀ e d d', Q e d → Q' e d' → P d d') :
    ∀ {es : List (RowBody F V)} {σs : List LambdaSigType} {Es : List (Entry G V D)}
      {Es' : List (Entry G V D')}, RowHasTypes cat argtypes es σs →
      List.Forall₂ (CallArg mk lam Q) es Es → List.Forall₂ (CallArg mk lam Q') es Es' →
      Rels B C P σs Es Es'
  | [], σs, Es, Es', ht, hEs, hEs' => by
    simp only [RowHasTypes] at ht
    cases hEs
    cases hEs'
    rw [ht]
    simp only [Rels]
  | e :: es, σs, Es, Es', ht, hEs, hEs' => by
    obtain ⟨σ, σs', rfl, he, hes⟩ := ht
    cases hEs with
    | cons hE hEs =>
    cases hEs' with
    | cons hE' hEs' =>
    refine ⟨?_, rels_callArgs hP hmk hlam hQ hes hEs hEs'⟩
    rcases he with ⟨t, rfl, ht⟩ | ⟨p, k, σs₁, ρ, hname, rfl, hcol⟩
    · have hname := byName_of_hasType ht
      obtain ⟨d, rfl, hd⟩ := hE.val_inv hname
      obtain ⟨d', rfl, hd'⟩ := hE'.val_inv hname
      simpa only [Scalar.Rel] using hQ e d d' hd hd'
    · obtain ⟨le, hle, hconf⟩ := hlam p k σs₁ ρ hcol
      rw [hE.lam_inv hname hle, hE'.lam_inv hname hle]
      have hconf' := hmk le _ hconf
      exact ⟨hconf'.nargs_eq, hconf'.nargs_eq, fun _ _ h => hconf'.body.rel hP h⟩

/-- A called lambda has a meaning in every algebra. -/
theorem exists_means_call {A : ScalarAlgebra F V D} (hlam : LambdasFit cat argtypes lam)
    {es : List (RowBody F V)} {Es : List (Entry F V D)} {le : LambdaExpr F V} {t : Oid}
    (hle : le.Conforms cat ⟨σs, .scalar t⟩) (ht : RowHasTypes cat argtypes es σs)
    (hEs : List.Forall₂ (CallArg id lam Q) es Es) :
    ∃ d, Means A Es le.expr (.val d) := by
  have htrue : AlgebraRel A A (fun _ _ => True) :=
    ⟨fun _ _ => trivial, fun _ _ _ _ => trivial, fun _ _ _ _ _ _ _ _ _ _ => trivial,
      fun _ _ _ _ _ _ _ => trivial⟩
  have hrels := rels_callArgs htrue (fun _ _ h => h) hlam (fun _ _ _ _ _ => trivial) ht hEs hEs
  obtain ⟨E, E', hE, _, hrel⟩ := hle.body.rel htrue hrels
  obtain ⟨d, _, rfl, _, _⟩ := hrel.scalar_inv
  exact ⟨d, hE⟩

/-- A call with the lambda of its column. -/
structure Callee (cat : ProcCatalog F) (argtypes : List (List LambdaSigType))
    (lam : Nat → Nat → Option (LambdaExpr F V)) (p k : Nat) (t : Oid) (es : List (RowBody F V))
    (le : LambdaExpr F V) (σs : List LambdaSigType) : Prop where
  column_eq : column argtypes p k = some (.func σs (.scalar t))
  lambda_eq : lam p k = some le
  conforms : le.Conforms cat ⟨σs, .scalar t⟩
  args : RowHasTypes cat argtypes es σs

theorem exists_callee (hlam : LambdasFit cat argtypes lam) {name : List String} {t τ : Oid}
    {p k : Nat} {es : List (RowBody F V)} (ht : RowHasType cat argtypes (.lfa name t p k es) τ) :
    ∃ le σs, Callee cat argtypes lam p k t es le σs := by
  obtain ⟨_, _, σs, hcol, hes⟩ := ht
  obtain ⟨le, hle, hconf⟩ := hlam p k σs _ hcol
  exact ⟨le, σs, hcol, hle, hconf, hes⟩

end Call

/-! ## Every mother has a meaning -/

section Exists

variable {cat : ProcCatalog F} {argtypes : List (List LambdaSigType)}
  {lam : Nat → Nat → Option (LambdaExpr F V)} {A : ScalarAlgebra F V D} {data : Nat → Nat → D}

mutual

/-- A well-typed row body has a meaning. -/
theorem exists_rowMeans (hlam : LambdasFit cat argtypes lam) : ∀ {e : RowBody F V} {τ : Oid},
    RowHasType cat argtypes e τ → ∃ d, RowMeans A data lam e d
  | .const t v, τ, _ => ⟨_, rfl⟩
  | .field p k t, τ, _ => ⟨_, rfl⟩
  | .func f es, τ, h => by
    obtain ⟨Es, hEs, hvals⟩ := exists_rowMeansArgs hlam h.2
    obtain ⟨ds, rfl⟩ := hvals _ rfl
    exact ⟨_, ds, hEs, rfl⟩
  | .caseWhen t c r d, τ, h => by
    obtain ⟨_, ⟨b, hc⟩, hr, hd⟩ := h
    obtain ⟨dc, hdc⟩ := exists_rowMeans hlam hc
    obtain ⟨dr, hdr⟩ := exists_rowMeans hlam hr
    obtain ⟨dd, hdd⟩ := exists_rowMeans hlam hd
    exact ⟨_, dc, dr, dd, hdc, hdr, hdd, rfl⟩
  | .coalesce t a b, τ, h => by
    obtain ⟨da, hda⟩ := exists_rowMeans hlam h.2.1
    obtain ⟨db, hdb⟩ := exists_rowMeans hlam h.2.2
    exact ⟨_, da, db, hda, hdb, rfl⟩
  | .lfa name t p k es, τ, h => by
    obtain ⟨le, σs, hc⟩ := exists_callee hlam h
    obtain ⟨Es, hEs, _⟩ := exists_rowMeansArgs hlam hc.args
    obtain ⟨d, hd⟩ := exists_means_call hlam hc.conforms hc.args (callArgs_of_rowMeansArgs hEs)
    exact ⟨d, le, Es, hc.lambda_eq, hEs, hd⟩

theorem exists_rowMeansArgs (hlam : LambdasFit cat argtypes lam) :
    ∀ {es : List (RowBody F V)} {σs : List LambdaSigType}, RowHasTypes cat argtypes es σs →
      ∃ Es, RowMeansArgs A data lam es Es ∧
        ∀ ts : List Oid, σs = ts.map .scalar → ∃ ds : List D, Es = ds.map .val
  | [], σs, _ => ⟨[], rfl, fun _ _ => ⟨[], rfl⟩⟩
  | e :: es, σs, h => by
    obtain ⟨σ, σs', rfl, he, hes⟩ := h
    obtain ⟨Es, hEs, hvals⟩ := exists_rowMeansArgs hlam hes
    rcases he with ⟨t, rfl, ht⟩ | ⟨p, k, σs₁, ρ, hname, rfl, hcol⟩
    · obtain ⟨d, hd⟩ := exists_rowMeans hlam ht
      refine ⟨.val d :: Es, ⟨_, Es, rfl, .inr ⟨byName_of_hasType ht, d, rfl, hd⟩, hEs⟩, ?_⟩
      intro ts hts
      cases ts with
      | nil => cases hts
      | cons t' ts =>
        obtain ⟨ds, rfl⟩ := hvals ts (List.cons.inj hts).2
        exact ⟨d :: ds, rfl⟩
    · obtain ⟨le, hle, _⟩ := hlam p k σs₁ ρ hcol
      refine ⟨_ :: Es, ⟨_, Es, rfl, .inl ⟨p, k, le, hname, hle, rfl⟩, hEs⟩, ?_⟩
      intro ts hts
      cases ts with
      | nil => cases hts
      | cons t' ts => cases hts

end

end Exists

end HolLambdas.Row
