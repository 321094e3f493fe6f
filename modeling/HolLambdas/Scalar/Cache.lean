import HolLambdas.Lru
import HolLambdas.Fuel
import HolLambdas.Scalar.Flatten

/-!
# The runtime cache of built bodies

`lambda_cache.c`. A call site keeps the bodies it has built, so that a row whose
combination of lambdas was seen before is not deserialized, flattened and
folded again. The key is the raw bytes of the called lambda and of the
arguments whose *static* type is `lambda`; the atomic arguments are bound row
by row and are no part of it.

A cached body may be served to a row other than the one it was built from. That
is right for two reasons, and this file proves both:

* the build reads nothing but the key. It looks at the arguments in one place,
  the injector, which embeds the lambdas at the function inputs of the mother's
  body — found by a prescan of the body — and `lambda_cache_build` refuses to
  inject unless each of them is among the statically lambda-typed ones
  (`lambdaCacheTree_congr`);
* the entry found is one that was built for the key. This is an invariant over
  the whole life of the cache: shortcut to the previous row's entry, lookup,
  eviction, insertion and recompilation (`lambdaCacheBody_step`,
  `lambdaCacheRun_spec`). The pointers are the subject of `Lru`.

The raw bytes stand for a lambda through `LambdaStorage.decode`: equal bytes,
equal lambdas. One lambda may well be stored as different bytes; it then just
has several entries.
-/

namespace HolLambdas.Scalar

variable {F V B : Type}

/-! ## Rows of a call site -/

/-- What is assumed of varlena storage: the bytes determine the lambda. The
representation tells a serialized lambda from a node address. -/
structure LambdaStorage (F V B : Type) where
  decode : B → LambdaRepr × LambdaExpr F V
  hashBytes : B → UInt32

/-- A non-null argument as it lies in its slot. -/
inductive RawDatum (V B : Type) where
  | atom (v : V)
  | lambda (bytes : B)
deriving DecidableEq, Repr

def RawDatum.isLambda : RawDatum V B → Bool
  | atom _ => false
  | lambda _ => true

/-- The datum in a slot. -/
def LambdaStorage.datum (store : LambdaStorage F V B) : RawDatum V B → Datum F V
  | .atom v => .atom v
  | .lambda b => .lambda (store.decode b).1 (store.decode b).2

/-- One evaluation of a call site whose arguments have the static types
`argTypes`: the called lambda, which is not NULL, and the argument values. A
statically lambda-typed argument is a lambda or NULL. -/
structure CallRow (V B : Type) (argTypes : List Oid) where
  lambdaValue : B
  argvalues : List (Option (RawDatum V B))
  typed : List.Forall₂ (fun t v => t = LAMBDAOID → ∀ d, v = some d → d.isLambda = true)
    argTypes argvalues

/-- `CallLambdaExprState` at this row. -/
def CallRow.state (store : LambdaStorage F V B) {argTypes : List Oid}
    (row : CallRow V B argTypes) : CallLambdaExprState F V :=
  { lambdaValue := some (store.datum (.lambda row.lambdaValue))
    argTypes
    argvalues := row.argvalues.map (Option.map store.datum) }

/-! ## The key -/

/-- `ExecInitCallLambdaCacheKey`: the positions of the lambda-typed arguments. -/
def cacheKeyIdx (argTypes : List Oid) : List Nat :=
  (List.range argTypes.length).filter fun i => argTypes[i]? = some LAMBDAOID

/-- The key part of an argument slot, `none` for NULL. -/
def keyPart : Option (RawDatum V B) → Option B
  | some (.lambda b) => some b
  | _ => none

/-- The key of a row: `probe.key` and `probe.keynull`. -/
def CallRow.probe {argTypes : List Oid} (row : CallRow V B argTypes) : List (Option B) :=
  some row.lambdaValue ::
    (cacheKeyIdx argTypes).map fun i => keyPart ((row.argvalues[i]?).getD none)

/-- `hash_combine`. -/
def hashCombine (a b : UInt32) : UInt32 :=
  a ^^^ (b + 0x9e3779b9 + (a <<< (6 : UInt32)) + (a >>> (2 : UInt32)))

/-- `lambda_cache_hash_key`. -/
def lambdaCacheHashKey (store : LambdaStorage F V B) (key : List (Option B)) : UInt32 :=
  key.foldl (fun hash part => hashCombine hash ((part.map store.hashBytes).getD 0)) 0

/-! ## Entries -/

/-- A compiled expression: the tree it was made from and whether machine code
was generated for it. -/
structure ExprState (F V : Type) where
  expr : Expr F V
  jit : Bool
deriving Repr

/-- `LambdaCacheEntry` without its key. -/
structure CachedBody (F V : Type) where
  tree : Expr F V
  body : ExprState F V
  jitDone : Bool
  uses : Nat
deriving Repr

/-- What a row finds the settings at; all of them may change between rows. -/
structure CacheSettings where
  /-- `custom_lambda_cache_size` -/
  cacheSize : Nat
  /-- `custom_lambda_jit_after_uses`, -1 to never compile. -/
  jitAfterUses : Int
  /-- Does `state->parent` exist? -/
  hasParent : Bool
  /-- `es_jit_flags & PGJIT_PERFORM` -/
  jitPerform : Bool
deriving DecidableEq, Repr

inductive CacheError where
  /-- An error of the build. -/
  | raised (e : LambdaError)
  /-- A read through a pointer to a freed entry. -/
  | danglingRead
deriving DecidableEq, Repr

/-- `LambdaCache`. -/
abbrev LambdaCache (F V B : Type) := Lru (List (Option B)) (CachedBody F V)

/-! ## The functions -/

section Cache

variable [DecidableEq B]
variable (cat : ProcCatalog F) (rt : Runtime F V (Except LambdaError))
variable (store : LambdaStorage F V B) (hoisting : Bool) (fuel : Nat)
variable {argTypes : List Oid} (set : CacheSettings) (row : CallRow V B argTypes)

omit [DecidableEq B] in
/-- `ExecInitExpr`: machine code is generated if the query asks for it. -/
def execInitExpr (jitFlags : Bool) (tree : Expr F V) : ExprState F V :=
  { expr := tree, jit := set.hasParent && jitFlags }

omit [DecidableEq B] in
/-- The tree `lambda_cache_build` makes for a row: detoast and deserialize the
called lambda, then flatten and fold it if it is to be. -/
def lambdaCacheTree : Except LambdaError (Expr F V) := do
  rt.detoast (store.decode row.lambdaValue).1
  lambdaCacheBuild cat rt hoisting fuel (store.decode row.lambdaValue).2 (row.state store)

omit [DecidableEq B] in
/-- `lambda_cache_build`. The body starts interpreted unless it is to be
compiled at once. -/
def lambdaCacheBuildEntry : Except LambdaError (CachedBody F V) := do
  let tree ← lambdaCacheTree cat rt store hoisting fuel row
  if set.hasParent && set.jitAfterUses != 0 then
    return { tree, body := execInitExpr set false tree, jitDone := false, uses := 0 }
  else
    return { tree, body := execInitExpr set set.jitPerform tree, jitDone := true, uses := 0 }

/-- `lambda_cache_insert`: the entry's address. What was evicted stays evicted
when the build fails. -/
def lambdaCacheInsert (c : LambdaCache F V B) : Except CacheError Nat × LambdaCache F V B :=
  match c.makeRoom set.cacheSize c.nentries with
  | none => (.error .danglingRead, c)
  | some c' =>
    match lambdaCacheBuildEntry cat rt store hoisting fuel set row with
    | .error e => (.error (.raised e), c')
    | .ok entry =>
      (.ok c'.next, c'.insert ⟨lambdaCacheHashKey store row.probe, row.probe, entry⟩)

/-- The entry of a row that is not the previous row's. -/
def lambdaCacheFind (c : LambdaCache F V B) : Except CacheError Nat × LambdaCache F V B :=
  match c.lookup (lambdaCacheHashKey store row.probe) row.probe with
  | some p => (.ok p, (c.touch p).setLast p)
  | none =>
    match lambdaCacheInsert cat rt store hoisting fuel set row c with
    | (.ok p, c') => (.ok p, c'.setLast p)
    | (.error e, c') => (.error e, c')

/-- The entry of a row: the previous row's is checked before hashing. -/
def lambdaCacheEntry (c : LambdaCache F V B) : Except CacheError Nat × LambdaCache F V B :=
  match c.last with
  | none => lambdaCacheFind cat rt store hoisting fuel set row c
  | some p =>
    match c.heap p with
    | none => (.error .danglingRead, c)
    | some x =>
      if x.key = row.probe then (.ok p, c)
      else lambdaCacheFind cat rt store hoisting fuel set row c

omit [DecidableEq B] in
/-- `lambda_cache_jit`: rebuild the body with the query's JIT flags. A call site
that keeps evicting stops compiling. -/
def lambdaCacheJit (evictions : Nat) (x : CachedBody F V) : CachedBody F V :=
  if !set.hasParent || !set.jitPerform || decide (evictions > set.cacheSize) then
    { x with jitDone := true }
  else { x with jitDone := true, body := execInitExpr set set.jitPerform x.tree }

omit [DecidableEq B] in
/-- Count a use, and compile the body when it is due. -/
def lambdaCacheUse (evictions : Nat) (x : CachedBody F V) : CachedBody F V :=
  let x := { x with uses := x.uses + 1 }
  if !x.jitDone && decide (set.jitAfterUses > 0) && decide (set.jitAfterUses ≤ x.uses) then
    lambdaCacheJit set evictions x
  else x

/-- `lambda_cache_body`: the body for a row, and the cache afterwards. `none` is
the cache that has not been created yet. -/
def lambdaCacheBody (cache : Option (LambdaCache F V B)) :
    Except CacheError (ExprState F V) × Option (LambdaCache F V B) :=
  match lambdaCacheEntry cat rt store hoisting fuel set row (cache.getD Lru.empty) with
  | (.error e, c) => (.error e, some c)
  | (.ok p, c) =>
    match c.heap p with
    | none => (.error .danglingRead, some c)
    | some x =>
      let v := lambdaCacheUse set c.evictions x.val
      (.ok v.body, some (c.modify p x v))

/-- A call site run over a sequence of rows, each under its own settings. A row
that fails does not end the run: the cache is what it left behind. -/
def lambdaCacheRun : List (CacheSettings × CallRow V B argTypes) →
    Option (LambdaCache F V B) → List (Except CacheError (ExprState F V))
  | [], _ => []
  | r :: rows, cache =>
    let served := lambdaCacheBody cat rt store hoisting fuel r.1 r.2 cache
    served.1 :: lambdaCacheRun rows served.2

end Cache

/-! ## The build reads nothing but the key -/

section Build

variable {cat : ProcCatalog F} {rt : Runtime F V (Except LambdaError)} {hoisting : Bool}

/-- A body built with some fuel is what the build settles on. -/
theorem settles_lambdaCacheBuild {n : Nat} {le : LambdaExpr F V} {st : CallLambdaExprState F V}
    {e : Expr F V} (h : lambdaCacheBuild cat rt hoisting n le st = .ok e) :
    Settles (fun n => lambdaCacheBuild cat rt hoisting n le st) e := by
  unfold lambdaCacheBuild at h ⊢
  dsimp only at h ⊢
  split at h
  · cases h
  · next hargs =>
    simp only [if_neg hargs]
    split at h
    · next hinj =>
      simp only [if_pos hinj]
      split at h
      · cases h
      · obtain ⟨injected, hi, h⟩ := bind_eq_ok.mp h
        rw [liftError_except] at hi
        obtain ⟨binding, hb, hi⟩ := bind_eq_ok.mp hi
        obtain ⟨r, hr, hi⟩ := bind_eq_ok.mp hi
        -- only the walk spends fuel
        refine (walks_of_walk hr).settles.mono fun k hk => bind_eq_ok.mpr ⟨injected, ?_, h⟩
        rw [liftError_except]
        exact bind_eq_ok.mpr ⟨binding, hb, bind_eq_ok.mpr ⟨r, hk, hi⟩⟩
    · next hinj =>
      simp only [if_neg hinj]
      exact settles_const h

/-- The injector reads the arguments at the function inputs of the body only. -/
theorem lambdaInjectorScalar_congr {n : Nat} {le : LambdaExpr F V}
    {vs ws : List (Option (Datum F V))} (hlen : vs.length = ws.length)
    (hfunc : ∀ i, i < vs.length → le.expr.isFunc i = true → vs[i]? = ws[i]?) :
    lambdaInjectorScalar n le vs = lambdaInjectorScalar n le ws := by
  have hbinding : vs.zipIdx.mapM (fun x => injectorBinding le.expr x.1 x.2) =
      ws.zipIdx.mapM fun x => injectorBinding le.expr x.1 x.2 := by
    refine zipIdx_mapM_congr hlen fun i v w hv hw => ?_
    rw [Nat.zero_add]
    by_cases hi : le.expr.isFunc i = true
    · have hlt : i < vs.length := (List.getElem?_eq_some_iff.mp hv).1
      have := hfunc i hlt hi
      rw [hv, hw] at this
      cases this
      rfl
    · simp [injectorBinding, hi]
  exact congrArg (· >>= _) hbinding

/-- Two calls that agree on the lambda-typed arguments build the same body. -/
theorem lambdaCacheBuild_congr {n : Nat} {le : LambdaExpr F V} {st st' : CallLambdaExprState F V}
    (htypes : st.argTypes = st'.argTypes) (hlen : st.argvalues.length = st'.argvalues.length)
    (hvals : ∀ i : Nat, st.argTypes[i]? = some LAMBDAOID → st.argvalues[i]? = st'.argvalues[i]?) :
    lambdaCacheBuild cat rt hoisting n le st = lambdaCacheBuild cat rt hoisting n le st' := by
  unfold lambdaCacheBuild
  dsimp only
  rw [← htypes, ← hlen]
  split
  · rfl
  · split
    · split
      · rfl
      · next hkeyed =>
        -- the check has passed: every function input is among the keyed arguments
        rw [List.find?_eq_none] at hkeyed
        rw [lambdaInjectorScalar_congr hlen]
        intro i hi hfunc
        have hmem : i ∈ lambdaScalarFuncInputs le.expr st.argvalues.length :=
          List.mem_filter.mpr ⟨List.mem_range.mpr hi, hfunc⟩
        exact hvals i (by simpa using hkeyed i hmem)
    · rfl

variable {store : LambdaStorage F V B} {argTypes : List Oid}

/-- A key part determines the slot it was read from. -/
theorem keyPart_inj {v w : Option (RawDatum V B)} (hv : ∀ d, v = some d → d.isLambda = true)
    (hw : ∀ d, w = some d → d.isLambda = true) (h : keyPart v = keyPart w) : v = w := by
  cases v with
  | none =>
    cases w with
    | none => rfl
    | some e =>
      cases e with
      | atom _ => exact absurd (hw _ rfl) Bool.false_ne_true
      | lambda b => cases h
  | some d =>
    cases d with
    | atom _ => exact absurd (hv _ rfl) Bool.false_ne_true
    | lambda b =>
      cases w with
      | none => cases h
      | some e =>
        cases e with
        | atom _ => exact absurd (hw _ rfl) Bool.false_ne_true
        | lambda b' =>
          cases h
          rfl

theorem CallRow.length_eq (row : CallRow V B argTypes) : argTypes.length = row.argvalues.length :=
  row.typed.length_eq

/-- At a statically lambda-typed position there is a lambda or NULL. -/
theorem CallRow.isLambda_of_typed (row : CallRow V B argTypes) {i : Nat}
    (hi : argTypes[i]? = some LAMBDAOID) :
    ∃ v, row.argvalues[i]? = some v ∧ ∀ d, v = some d → d.isLambda = true := by
  obtain ⟨hlt, hty⟩ := List.getElem?_eq_some_iff.mp hi
  have hlt' : i < row.argvalues.length := by rw [← row.length_eq]; exact hlt
  refine ⟨row.argvalues[i], List.getElem?_eq_getElem hlt', ?_⟩
  exact (List.forall₂_iff_get.mp row.typed).2 i hlt hlt' hty

/-- Rows with one key call one lambda, with the same values at the lambda-typed
positions. -/
theorem CallRow.of_probe_eq {row row' : CallRow V B argTypes} (h : row.probe = row'.probe) :
    row.lambdaValue = row'.lambdaValue ∧
      ∀ i : Nat, argTypes[i]? = some LAMBDAOID → row.argvalues[i]? = row'.argvalues[i]? := by
  unfold CallRow.probe at h
  rw [List.cons.injEq, List.map_inj_left] at h
  refine ⟨Option.some.inj h.1, fun i hi => ?_⟩
  have hmem : i ∈ cacheKeyIdx argTypes := by
    refine List.mem_filter.mpr ⟨List.mem_range.mpr ?_, by simpa using hi⟩
    exact (List.getElem?_eq_some_iff.mp hi).1
  obtain ⟨v, hv, hvl⟩ := row.isLambda_of_typed hi
  obtain ⟨w, hw, hwl⟩ := row'.isLambda_of_typed hi
  have hpart := h.2 i hmem
  rw [hv, hw] at hpart
  rw [hv, hw, keyPart_inj hvl hwl hpart]

/-- The tree built for a row is a function of its key. -/
theorem lambdaCacheTree_congr {n : Nat} {row row' : CallRow V B argTypes}
    (h : row.probe = row'.probe) :
    lambdaCacheTree cat rt store hoisting n row = lambdaCacheTree cat rt store hoisting n row' := by
  obtain ⟨hmother, hargs⟩ := CallRow.of_probe_eq h
  have hbuild : ∀ le, lambdaCacheBuild cat rt hoisting n le (row.state store) =
      lambdaCacheBuild cat rt hoisting n le (row'.state store) := by
    intro le
    refine lambdaCacheBuild_congr ?_ ?_ ?_
    · rfl
    · simp only [CallRow.state, List.length_map, ← CallRow.length_eq]
    · intro i hi
      simp only [CallRow.state, List.getElem?_map, hargs i hi]
  unfold lambdaCacheTree
  rw [hmother, hbuild]

/-- A tree built with some fuel is what the build settles on. -/
theorem settles_lambdaCacheTree {n : Nat} {row : CallRow V B argTypes} {tree : Expr F V}
    (h : lambdaCacheTree cat rt store hoisting n row = .ok tree) :
    Settles (fun n => lambdaCacheTree cat rt store hoisting n row) tree := by
  obtain ⟨u, hu, h⟩ := bind_eq_ok.mp h
  exact (settles_lambdaCacheBuild h).mono fun k hk => bind_eq_ok.mpr ⟨u, hu, hk⟩

end Build

/-! ## The entry found was built for the key -/

section Transparent

variable [DecidableEq B]
variable {cat : ProcCatalog F} {rt : Runtime F V (Except LambdaError)}
variable {store : LambdaStorage F V B} {hoisting : Bool} {fuel : Nat}
variable {argTypes : List Oid} {set : CacheSettings} {row : CallRow V B argTypes}

variable (cat rt store hoisting fuel argTypes) in
/-- An entry holds what would be built for any row with its key, and its body
is compiled from that tree. -/
structure BuiltFor (key : List (Option B)) (x : CachedBody F V) : Prop where
  tree : ∀ row : CallRow V B argTypes, row.probe = key →
    lambdaCacheTree cat rt store hoisting fuel row = .ok x.tree
  body : x.body.expr = x.tree

variable (cat rt store hoisting fuel argTypes) in
/-- The invariant of a call site's cache. -/
structure CacheInv (c : LambdaCache F V B) : Prop where
  wf : c.WF (lambdaCacheHashKey store)
  built : ∀ p x, c.heap p = some x →
    BuiltFor cat rt store hoisting fuel argTypes x.key x.val

omit [DecidableEq B] in
theorem cacheInv_empty : CacheInv cat rt store hoisting fuel argTypes (Lru.empty) where
  wf := Lru.wf_empty _
  built p x h := by cases h

variable (cat rt store hoisting fuel set row) in
omit [DecidableEq B] in
/-- The two outcomes of building an entry. -/
theorem lambdaCacheBuildEntry_spec :
    (∃ x, lambdaCacheBuildEntry cat rt store hoisting fuel set row = .ok x ∧
        BuiltFor cat rt store hoisting fuel argTypes row.probe x) ∨
      ∃ e, lambdaCacheBuildEntry cat rt store hoisting fuel set row = .error e ∧
        lambdaCacheTree cat rt store hoisting fuel row = .error e := by
  unfold lambdaCacheBuildEntry
  cases htree : lambdaCacheTree cat rt store hoisting fuel row with
  | error e => exact Or.inr ⟨e, rfl, rfl⟩
  | ok tree =>
    have hfor : ∀ row' : CallRow V B argTypes, row'.probe = row.probe →
        lambdaCacheTree cat rt store hoisting fuel row' = .ok tree := by
      intro row' h
      rw [lambdaCacheTree_congr h, htree]
    left
    by_cases hlater : (set.hasParent && set.jitAfterUses != 0) = true
    · exact ⟨_, by simp only [hlater]; rfl, hfor, rfl⟩
    · exact ⟨_, by simp only [hlater]; rfl, hfor, rfl⟩

omit [DecidableEq B] in
/-- Using an entry, compiling it perhaps, changes neither tree nor meaning. -/
theorem BuiltFor.use {key : List (Option B)} {x : CachedBody F V}
    (hx : BuiltFor cat rt store hoisting fuel argTypes key x) (set : CacheSettings)
    (evictions : Nat) :
    BuiltFor cat rt store hoisting fuel argTypes key (lambdaCacheUse set evictions x) := by
  unfold lambdaCacheUse lambdaCacheJit
  dsimp only
  split
  · split
    · exact ⟨hx.tree, hx.body⟩
    · exact ⟨hx.tree, rfl⟩
  · exact ⟨hx.tree, hx.body⟩

variable (cat rt store hoisting fuel argTypes row) in
/-- What one of the functions that look for a row's entry does to the cache:
it keeps the invariant, and it finds an entry with the row's key or fails as the
build does. -/
def Finds (r : Except CacheError Nat × LambdaCache F V B) : Prop :=
  CacheInv cat rt store hoisting fuel argTypes r.2 ∧
    ((∃ p x, r.1 = .ok p ∧ r.2.heap p = some x ∧ x.key = row.probe) ∨
      ∃ e, r.1 = .error (.raised e) ∧ lambdaCacheTree cat rt store hoisting fuel row = .error e)

variable (set) in
/-- A new entry holds the body built for the row. -/
theorem lambdaCacheInsert_spec {c : LambdaCache F V B}
    (hc : CacheInv cat rt store hoisting fuel argTypes c)
    (hmiss : ∀ p x, c.heap p = some x → x.key ≠ row.probe) :
    Finds cat rt store hoisting fuel argTypes row
      (lambdaCacheInsert cat rt store hoisting fuel set row c) := by
  obtain ⟨c', hroom, hwf, _, hsub⟩ :=
    hc.wf.makeRoom set.cacheSize (Nat.le_refl c.nentries)
  have hc' : CacheInv cat rt store hoisting fuel argTypes c' :=
    ⟨hwf, fun p x hx => hc.built p x (hsub p x hx)⟩
  unfold lambdaCacheInsert
  rw [hroom]
  obtain ⟨x, hx, hbuilt⟩ | ⟨e, he, htree⟩ :=
    lambdaCacheBuildEntry_spec cat rt store hoisting fuel set row
  · rw [hx]
    refine ⟨⟨hwf.insert rfl fun p y hy => hmiss p y (hsub p y hy), fun p y hy => ?_⟩, ?_⟩
    · change Function.update c'.heap c'.next (some _) p = some y at hy
      by_cases hp : p = c'.next
      · subst hp
        rw [Function.update_self] at hy
        cases hy
        exact hbuilt
      · rw [Function.update_of_ne hp] at hy
        exact hc'.built p y hy
    · exact Or.inl ⟨_, _, rfl, Function.update_self .., rfl⟩
  · rw [he]
    exact ⟨hc', Or.inr ⟨e, rfl, htree⟩⟩

omit [DecidableEq B] in
theorem CacheInv.setLast {c : LambdaCache F V B}
    (hc : CacheInv cat rt store hoisting fuel argTypes c) {p : Nat} (hp : p ∈ c.order) :
    CacheInv cat rt store hoisting fuel argTypes (c.setLast p) :=
  ⟨hc.wf.setLast hp, hc.built⟩

variable (set row) in
/-- The body found is the one that would be built. -/
theorem lambdaCacheFind_spec {c : LambdaCache F V B}
    (hc : CacheInv cat rt store hoisting fuel argTypes c) :
    Finds cat rt store hoisting fuel argTypes row
      (lambdaCacheFind cat rt store hoisting fuel set row c) := by
  unfold lambdaCacheFind
  cases hl : c.lookup (lambdaCacheHashKey store row.probe) row.probe with
  | some p =>
    obtain ⟨hp, x, hx, hkey⟩ := hc.wf.lookup_some hl
    have htouch : CacheInv cat rt store hoisting fuel argTypes (c.touch p) :=
      ⟨hc.wf.touch hp, hc.built⟩
    exact ⟨htouch.setLast ((htouch.wf.live p).mpr ⟨x, hx⟩), Or.inl ⟨p, x, rfl, hx, hkey⟩⟩
  | none =>
    have hins := lambdaCacheInsert_spec set hc (hc.wf.lookup_none hl)
    revert hins
    cases lambdaCacheInsert cat rt store hoisting fuel set row c with
    | mk r c' =>
      intro hins
      obtain ⟨hc', ⟨p, x, hr, hx, hkey⟩ | ⟨e, hr, htree⟩⟩ := hins
      · change r = .ok p at hr
        subst hr
        exact ⟨hc'.setLast ((hc'.wf.live p).mpr ⟨x, hx⟩), Or.inl ⟨p, x, rfl, hx, hkey⟩⟩
      · change r = .error (.raised e) at hr
        subst hr
        exact ⟨hc', Or.inr ⟨e, rfl, htree⟩⟩

variable (set row) in
theorem lambdaCacheEntry_spec {c : LambdaCache F V B}
    (hc : CacheInv cat rt store hoisting fuel argTypes c) :
    Finds cat rt store hoisting fuel argTypes row
      (lambdaCacheEntry cat rt store hoisting fuel set row c) := by
  unfold lambdaCacheEntry
  cases hlast : c.last with
  | none => exact lambdaCacheFind_spec set row hc
  | some p =>
    -- the remembered entry is still listed, so it is live
    obtain ⟨x, hx⟩ := (hc.wf.live p).mp (hc.wf.lastLive p hlast)
    simp only [hx]
    by_cases hkey : x.key = row.probe
    · rw [if_pos hkey]
      exact ⟨hc, Or.inl ⟨p, x, rfl, hx, hkey⟩⟩
    · rw [if_neg hkey]
      exact lambdaCacheFind_spec set row hc

variable (cat rt store hoisting fuel set row) in
/-- **One row.** The cache keeps its invariant, and the row gets the body its
own build would make, or its own build's error. -/
theorem lambdaCacheBody_step {cache : Option (LambdaCache F V B)}
    (hc : CacheInv cat rt store hoisting fuel argTypes (cache.getD Lru.empty)) :
    CacheInv cat rt store hoisting fuel argTypes
        ((lambdaCacheBody cat rt store hoisting fuel set row cache).2.getD Lru.empty) ∧
      ((∃ body, (lambdaCacheBody cat rt store hoisting fuel set row cache).1 = .ok body ∧
          lambdaCacheTree cat rt store hoisting fuel row = .ok body.expr) ∨
        ∃ e, (lambdaCacheBody cat rt store hoisting fuel set row cache).1 = .error (.raised e) ∧
          lambdaCacheTree cat rt store hoisting fuel row = .error e) := by
  have hentry := lambdaCacheEntry_spec set row hc
  unfold lambdaCacheBody
  revert hentry
  cases lambdaCacheEntry cat rt store hoisting fuel set row (cache.getD Lru.empty) with
  | mk r c =>
    intro hentry
    obtain ⟨hc', ⟨p, x, hr, hx, hkey⟩ | ⟨e, hr, htree⟩⟩ := hentry
    · change r = .ok p at hr
      change c.heap p = some x at hx
      subst hr
      simp only [hx]
      have huse := (hc'.built p x hx).use set c.evictions
      refine ⟨⟨hc'.wf.modify hx _, fun q y hy => ?_⟩, Or.inl ⟨_, rfl, ?_⟩⟩
      · change Function.update c.heap p (some _) q = some y at hy
        by_cases hq : q = p
        · subst hq
          rw [Function.update_self] at hy
          cases hy
          exact huse
        · rw [Function.update_of_ne hq] at hy
          exact hc'.built q y hy
      · rw [huse.body]
        exact huse.tree row hkey.symm
    · change r = .error (.raised e) at hr
      subst hr
      exact ⟨hc', Or.inr ⟨e, rfl, htree⟩⟩

variable (cat rt store hoisting fuel) in
/-- **Every run.** Each row of a run gets what its own build would make. -/
theorem lambdaCacheRun_spec (rows : List (CacheSettings × CallRow V B argTypes))
    (cache : Option (LambdaCache F V B))
    (hc : CacheInv cat rt store hoisting fuel argTypes (cache.getD Lru.empty)) :
    List.Forall₂ (fun r served =>
        (∃ body, served = .ok body ∧
          lambdaCacheTree cat rt store hoisting fuel r.2 = .ok body.expr) ∨
        ∃ e, served = .error (.raised e) ∧
          lambdaCacheTree cat rt store hoisting fuel r.2 = .error e)
      rows (lambdaCacheRun cat rt store hoisting fuel rows cache) := by
  induction rows generalizing cache with
  | nil => exact .nil
  | cons r rows ih =>
    obtain ⟨hc', hserved⟩ := lambdaCacheBody_step cat rt store hoisting fuel r.1 r.2 hc
    exact .cons hserved (ih _ hc')

end Transparent

/-! ## Transparency -/

section Eval

variable [DecidableEq B]
variable (cat : ProcCatalog F) (rt : Runtime F V (Except LambdaError))
variable (store : LambdaStorage F V B) (hoisting : Bool)
variable {argTypes : List Oid}

omit [DecidableEq B] in
/-- What a compiled body computes from a parameter frame. -/
def ExprState.eval (fuel : Nat) (body : ExprState F V) (frame : List (Option (Datum F V))) :
    Except LambdaError (Option (Datum F V)) :=
  execExpr cat rt hoisting fuel frame body.expr

/-- **The cache is transparent.** Whatever rows came before and under whatever
settings, a body served for a row computes the function of the parameter frame
that the body built from this row alone computes. -/
theorem lambdaCacheRun_transparent {fuel i : Nat}
    {rows : List (CacheSettings × CallRow V B argTypes)} {r : CacheSettings × CallRow V B argTypes}
    {body : ExprState F V} (hrow : rows[i]? = some r)
    (hbody : (lambdaCacheRun cat rt store hoisting fuel rows none)[i]? = some (.ok body)) :
    ∃ tree, Settles (fun n => lambdaCacheTree cat rt store hoisting n r.2) tree ∧
      ∀ n frame, body.eval cat rt hoisting n frame = execExpr cat rt hoisting n frame tree := by
  have hrun := lambdaCacheRun_spec cat rt store hoisting fuel rows none cacheInv_empty
  obtain ⟨hi, rfl⟩ := List.getElem?_eq_some_iff.mp hrow
  obtain ⟨hi', hserved⟩ := List.getElem?_eq_some_iff.mp hbody
  obtain ⟨body', hb, htree⟩ | ⟨e, hb, _⟩ := (List.forall₂_iff_get.mp hrun).2 i hi hi'
  · rw [List.get_eq_getElem, hserved] at hb
    cases hb
    exact ⟨body.expr, settles_lambdaCacheTree htree, fun _ _ => rfl⟩
  · rw [List.get_eq_getElem, hserved] at hb
    cases hb

/-! A call site with room for one entry, over a store whose hashes all collide:
`λ(f, x) f(f(x))` is called with `λ(y) y + 1`, then with `λ(y) y`, which evicts
the first body, then with `λ(y) y + 1` and another `x`. -/

def collidingStore : LambdaStorage ArithFunc Int Nat where
  decode
    | 0 => (.serialized, twiceLambda)
    | 1 => (.serialized, succLambda)
    | _ => (.serialized, scalarLambda ["y"] INT4OID (.param 0 INT4OID))
  hashBytes _ := 0

def twiceRow (f : Nat) (x : Int) : CallRow Int Nat [LAMBDAOID, INT4OID] where
  lambdaValue := 0
  argvalues := [some (.lambda f), some (.atom x)]
  typed := by simp [RawDatum.isLambda, LAMBDAOID, INT4OID]

def oneEntry : CacheSettings :=
  { cacheSize := 1, jitAfterUses := 5, hasParent := true, jitPerform := true }

def collidingRows : List (CacheSettings × CallRow Int Nat [LAMBDAOID, INT4OID]) :=
  [(oneEntry, twiceRow 1 3), (oneEntry, twiceRow 2 3), (oneEntry, twiceRow 1 9)]

def twiceSuccBody : ExprState ArithFunc Int where
  expr := .func .plus
    [.func .plus [.param 1 INT4OID, .const INT4OID (some 1)], .const INT4OID (some 1)]
  jit := false

theorem lambdaCacheRun_transparent_colliding :
    ∃ tree, Settles (fun n =>
        lambdaCacheTree arithCatalog arithTotalRuntime collidingStore true n (twiceRow 1 9)) tree ∧
      ∀ n frame, twiceSuccBody.eval arithCatalog arithTotalRuntime true n frame =
        execExpr arithCatalog arithTotalRuntime true n frame tree :=
  lambdaCacheRun_transparent arithCatalog arithTotalRuntime collidingStore true
    (show collidingRows[2]? = some (oneEntry, twiceRow 1 9) from rfl)
    (show (lambdaCacheRun arithCatalog arithTotalRuntime collidingStore true 3 collidingRows
      none)[2]? = some (.ok twiceSuccBody) from rfl)

/-- The values a call site computes through its cache are those of the executor
without one, errors included. -/
theorem lambdaCacheRun_values (fuel : Nat) (rows : List (CacheSettings × CallRow V B argTypes)) :
    List.Forall₂ (fun r served =>
        (served >>= fun body =>
          (body.eval cat rt hoisting fuel (r.2.state store).argvalues).mapError .raised) =
        (execEvalCallLambdaExpr cat rt hoisting (fuel + 1) (r.2.state store)).mapError .raised)
      rows (lambdaCacheRun cat rt store hoisting fuel rows none) := by
  refine (lambdaCacheRun_spec cat rt store hoisting fuel rows none cacheInv_empty).imp ?_
  intro r served hserved
  have hcall : execEvalCallLambdaExpr cat rt hoisting (fuel + 1) (r.2.state store) =
      lambdaCacheTree cat rt store hoisting fuel r.2 >>=
        execExpr cat rt hoisting fuel (r.2.state store).argvalues := by
    unfold lambdaCacheTree
    rw [bind_assoc]
    rfl
  obtain ⟨body, rfl, htree⟩ | ⟨e, rfl, htree⟩ := hserved
  · rw [hcall, htree]
    rfl
  · rw [hcall, htree]
    rfl

end Eval

end HolLambdas.Scalar
