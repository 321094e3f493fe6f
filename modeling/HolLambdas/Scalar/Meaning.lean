import Mathlib.Data.List.Basic
import HolLambdas.Scalar.Typing

/-!
# What a body means

The inliner and the interpreter do very different things with the same body, so
neither is a good yardstick for the other. The yardstick is here: the *meaning*
of a body in an algebra. Atomic expressions denote elements of some carrier `D`,
and the algebra says how constants, function calls, `CASE` and `COALESCE` act on
`D`. Functions denote themselves: a lambda is closed, so a function input is
known completely once it is known which lambda it is. An environment gives each
input an `Entry`, and a function-input call means the callee's body with the
meanings of the arguments as its environment.

The carrier decides what is being talked about:

* values (`valueAlgebra`) — the result of an evaluation without effects;
* computations (`nameAlgebra`) — evaluation by name, each use of an argument
  running it again;
* expressions (`treeAlgebra`) — the tree that is left when all calls are gone.

`Means A env e E` says that the meaning exists, i.e. that unfolding calls comes
to an end, and is `E`. Proofs about it go by induction on its rules, callees
included.
-/

namespace HolLambdas.Scalar

variable {F V D : Type}

/-- An interpretation of the atomic part of the language. -/
structure ScalarAlgebra (F V D : Type) where
  const : Oid → Option V → D
  func : F → List D → D
  caseWhen : Oid → D → D → D → D
  coalesce : Oid → D → D → D

/-- What an input stands for: an element of the carrier, a lambda, or a
function-valued input that is NULL. -/
inductive Entry (F V D : Type) where
  | val (d : D)
  | lam (h : LambdaHeader) (e : Expr F V)
  | nul

mutual

/-- In environment `env` the body `e` means `E`. -/
inductive Means (A : ScalarAlgebra F V D) : List (Entry F V D) → Expr F V → Entry F V D → Prop
  | const {env t v} : Means A env (.const t v) (.val (A.const t v))
  | param {env k t E} (h : env[k]? = some E) : Means A env (.param k t) E
  | func {env f args ds} (h : MeansArgs A env args (ds.map .val)) :
      Means A env (.func f args) (.val (A.func f ds))
  | caseWhen {env t c r d x y z} (hc : Means A env c (.val x)) (hr : Means A env r (.val y))
      (hd : Means A env d (.val z)) : Means A env (.caseWhen t c r d) (.val (A.caseWhen t x y z))
  | coalesce {env t a b x y} (ha : Means A env a (.val x)) (hb : Means A env b (.val y)) :
      Means A env (.coalesce t a b) (.val (A.coalesce t x y))
  /-- A function input returns an atomic value. -/
  | lfa {env name t k args h body Es d} (hk : env[k]? = some (.lam h body))
      (hlen : args.length = h.nargs) (hargs : MeansArgs A env args Es)
      (hbody : Means A Es body (.val d)) : Means A env (.lfa name t k args) (.val d)
  /-- A call of a NULL function is NULL. -/
  | lfaNul {env name t k args Es} (hk : env[k]? = some .nul) (hargs : MeansArgs A env args Es) :
      Means A env (.lfa name t k args) (.val (A.const t none))
  | lambda {env h e} : Means A env (.lambda h e) (.lam h e)

inductive MeansArgs (A : ScalarAlgebra F V D) :
    List (Entry F V D) → List (Expr F V) → List (Entry F V D) → Prop
  | nil {env} : MeansArgs A env [] []
  | cons {env e E es Es} (h : Means A env e E) (hs : MeansArgs A env es Es) :
      MeansArgs A env (e :: es) (E :: Es)

end

variable {A : ScalarAlgebra F V D} {env : List (Entry F V D)}

theorem Entry.map_val_injective : Function.Injective (List.map (Entry.val : D → Entry F V D)) :=
  List.map_injective_iff.mpr fun _ _ h => Entry.val.inj h

mutual

/-- A body means at most one thing. -/
theorem Means.unique : ∀ {env : List (Entry F V D)} {e : Expr F V} {E E' : Entry F V D},
    Means A env e E → Means A env e E' → E = E'
  | _, _, _, _, .const, .const => rfl
  | _, _, _, _, .param h, .param h' => Option.some.inj (h.symm.trans h')
  | _, _, _, _, .func h, .func h' => by rw [Entry.map_val_injective (h.unique h')]
  | _, _, _, _, .caseWhen hc hr hd, .caseWhen hc' hr' hd' => by
    cases hc.unique hc'
    cases hr.unique hr'
    cases hd.unique hd'
    rfl
  | _, _, _, _, .coalesce ha hb, .coalesce ha' hb' => by
    cases ha.unique ha'
    cases hb.unique hb'
    rfl
  | _, _, _, _, .lfa hk _ hargs hbody, .lfa hk' _ hargs' hbody' => by
    cases hk.symm.trans hk'
    cases hargs.unique hargs'
    exact hbody.unique hbody'
  | _, _, _, _, .lfa hk _ _ _, .lfaNul hk' _ => by cases hk.symm.trans hk'
  | _, _, _, _, .lfaNul hk _, .lfa hk' _ _ _ => by cases hk.symm.trans hk'
  | _, _, _, _, .lfaNul _ _, .lfaNul _ _ => rfl
  | _, _, _, _, .lambda, .lambda => rfl

theorem MeansArgs.unique : ∀ {env : List (Entry F V D)} {es : List (Expr F V)}
    {Es Es' : List (Entry F V D)}, MeansArgs A env es Es → MeansArgs A env es Es' → Es = Es'
  | _, _, _, _, .nil, .nil => rfl
  | _, _, _, _, .cons h hs, .cons h' hs' => by rw [h.unique h', hs.unique hs']

end

theorem MeansArgs.length_eq : ∀ {es : List (Expr F V)} {Es : List (Entry F V D)},
    MeansArgs A env es Es → es.length = Es.length
  | _, _, .nil => rfl
  | _, _, .cons _ hs => congrArg (· + 1) hs.length_eq

theorem Means.const_inv {t : Oid} {v : Option V} {d : D} (h : Means A env (.const t v) (.val d)) :
    d = A.const t v := by
  cases h
  rfl

theorem MeansArgs.nil_val_inv {ds : List D}
    (h : MeansArgs A env ([] : List (Expr F V)) (ds.map .val)) : ds = [] := by
  cases ds with
  | nil => rfl
  | cons => cases h

/-- The head of a list of atomic arguments. -/
theorem MeansArgs.cons_val_inv {e : Expr F V} {es : List (Expr F V)} {ds : List D}
    (h : MeansArgs A env (e :: es) (ds.map .val)) :
    ∃ d ds', ds = d :: ds' ∧ Means A env e (.val d) ∧ MeansArgs A env es (ds'.map .val) := by
  cases ds with
  | nil => cases h
  | cons d ds =>
    cases h with
    | cons he hes => exact ⟨d, ds, rfl, he, hes⟩

end HolLambdas.Scalar
