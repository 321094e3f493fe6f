import HolLambdas.Scalar.Cache

/-!
# Call sites and their memory

How a lambda call runs in the executor. `ExecInitExpr` turns an expression into steps, and
for each lambda call in it allocates a `CallLambdaExprState`: room for the called lambda, for
the argument values, for the parameter array that the body reads, and for the cache of built
bodies. All of it is written in place, row after row. A body is an expression state of its
own, built while its caller runs, with call sites of its own; they are allocated in the
memory context of the cache entry and freed with it.

While a body runs, `ecxt_param_exec_vals` points to the parameter array of the call site, and
the caller's pointer waits in a local variable.

The steps of a function call write their arguments in place as well; they are handed over as
values here. A body that was compiled to machine code runs the same steps. `ParamExecData`
has no pending plan. What a `Datum` points to is not part of the memory: the bytes of a lambda
are.
-/

namespace HolLambdas.Scalar

variable {F V B : Type}

/-! ## Expressions with lambda calls -/

/-- A value in a slot, NULL or not. -/
abbrev Slot (V B : Type) := Option (RawDatum V B)

/-- An expression of a query, or the body of a lambda: calls are `CallLambdaExpr`s. The list
`heldargs` of a call that is no partial application is empty. The value of a lambda constant is
its bytes, see `makeLambdaConst`. -/
inductive CallingExpr (F V B : Type) where
  | const (consttype : Oid) (constvalue : Slot V B)
  | var (varattno : Nat) (vartype : Oid)
  | param (paramid : Nat) (paramtype : Oid)
  | func (funcid : F) (args : List (CallingExpr F V B))
  | caseWhen (casetype : Oid) (cond result defresult : CallingExpr F V B)
  | coalesce (coalescetype : Oid) (first rest : CallingExpr F V B)
  | callLambda (lambdaExpr : CallingExpr F V B) (heldargs : List Nat) (rettype : Oid)
      (args : List (CallingExpr F V B))
  | lambdaNode (hdr : LambdaHeader) (expr : Expr F V)

namespace CallingExpr

mutual

/-- The body of a lambda as an expression: the call of a function input is a call of the
lambda in its parameter, see `ExecInitLambdaFuncAlias`. -/
def ofBody : Expr F V → CallingExpr F V B
  | .const t v => const t (v.map .atom)
  | .param k t => param k t
  | .func f args => func f (ofBodies args)
  | .caseWhen t c r d => caseWhen t (ofBody c) (ofBody r) (ofBody d)
  | .coalesce t a b => coalesce t (ofBody a) (ofBody b)
  | .lfa _ t k args => callLambda (param k LAMBDAOID) [] t (ofBodies args)
  | .lambda hd e => lambdaNode hd e

def ofBodies : List (Expr F V) → List (CallingExpr F V B)
  | [] => []
  | e :: es => ofBody e :: ofBodies es

end

/-- `exprType`. -/
def exprType (cat : ProcCatalog F) : CallingExpr F V B → Oid
  | const t _ => t
  | var _ t => t
  | param _ t => t
  | func f _ => cat.prorettype f
  | caseWhen t _ _ _ => t
  | coalesce t _ _ => t
  | callLambda _ _ t _ => t
  | lambdaNode _ _ => LAMBDAOID

end CallingExpr

/-! ## Steps and memory -/

/-- The steps of an expression state. A call has the address of its call site, and the steps
that compute the called lambda and the arguments. -/
inductive ExprSteps (F V B : Type) where
  | const (constvalue : Slot V B)
  | var (varattno : Nat)
  | param (paramid : Nat)
  | func (funcid : F) (args : List (ExprSteps F V B))
  | caseWhen (cond result defresult : ExprSteps F V B)
  | coalesce (first rest : ExprSteps F V B)
  | callLambda (site : Nat) (lambdaExpr : ExprSteps F V B) (args : List (ExprSteps F V B))
  | lambdaNode

/-- A memory context, by its path: the context of an entry of a call site's cache is below the
one of the call site. -/
abbrev MemoryContext := List (Nat × Nat)

/-- What is written to a call site when it is allocated. -/
structure SiteInfo where
  cxt : MemoryContext
  heldargs : List Nat
  argTypes : List Oid
deriving DecidableEq, Repr

/-- An entry of a call site's cache: `LambdaCacheEntry` without its key. -/
structure SiteBody (F V B : Type) where
  tree : Expr F V
  body : ExprSteps F V B
  jitDone : Bool
  uses : Nat

abbrev SiteCache (F V B : Type) := Lru (List (Option B)) (SiteBody F V B)

/-- `CallLambdaExprState`. -/
structure CallSite (F V B : Type) where
  info : SiteInfo
  lambdaValue : Slot V B
  argvalues : List (Slot V B)
  lambdaParams : List (Slot V B)
  cache : Option (SiteCache F V B)
  argvalues_length : argvalues.length = info.argTypes.length

/-- The cache of a call site, created at the first call. -/
def CallSite.lru (σ : CallSite F V B) : SiteCache F V B :=
  σ.cache.getD Lru.empty

/-- What `ecxt_param_exec_vals` points to: the parameters of the query, or those of a call
site. -/
inductive ParamArray where
  | query
  | site (site : Nat)
deriving DecidableEq, Repr

/-- The beginning and the end of an activation of a call site, with the parameter array at
that moment and what is in it. An activation begins before the first of the slots of the call
site is written. -/
inductive CallEvent (V B : Type) where
  | enter (site : Nat) (params : ParamArray) (vals : List (Slot V B))
  | leave (site : Nat) (params : ParamArray) (vals : List (Slot V B))
deriving DecidableEq, Repr

/-- The memory of an execution, and what has happened so far. -/
structure Machine (F V B : Type) where
  sites : Nat → Option (CallSite F V B)
  /-- The next address to be handed out. -/
  next : Nat
  paramExecVals : ParamArray
  log : List (CallEvent V B)

inductive EvalError where
  /-- An error of the lambda code or of a function. -/
  | raised (e : LambdaError)
  /-- A read through a pointer to freed memory. -/
  | danglingRead
  /-- "too many lambda arguments: %d" -/
  | tooManyArguments (nargs : Nat)
  /-- A column that the row does not have. -/
  | noSuchColumn (attno : Nat)
deriving DecidableEq, Repr

/-- A computation on the memory. An error leaves the execution, with its memory. -/
abbrev Run (F V B α : Type) := StateT (Machine F V B) (Except EvalError) α

/-- Storage that can also be written. Writing may fail, for want of memory. -/
structure SerialStorage (F V B : Type) extends LambdaStorage F V B where
  /-- `lambdaExprToSerialLambda` -/
  serialize : LambdaExpr F V → Except LambdaError B
  decode_serialize : ∀ le b, serialize le = .ok b → decode b = (.serialized, le)

/-- What an expression is evaluated on: the columns of the row, the parameters of the query,
and the settings. -/
structure EContext (V B : Type) where
  row : List (Slot V B)
  queryParams : List (Slot V B)
  set : CacheSettings

/-- An error of the lambda code, raised in the executor. -/
def raise {α : Type} : Except LambdaError α → Run F V B α
  | .ok a => pure a
  | .error e => throw (.raised e)

namespace Machine

/-- The call site after an update of it. -/
def putSite (m : Machine F V B) (i : Nat) (σ : CallSite F V B) : Machine F V B :=
  { m with sites := Function.update m.sites i (some σ) }

def allocate (m : Machine F V B) (σ : CallSite F V B) : Machine F V B :=
  { m with sites := Function.update m.sites m.next (some σ), next := m.next + 1 }

/-- `MemoryContextDelete`: a context goes with the ones below it. -/
def deleteContext (m : Machine F V B) (cxt : MemoryContext) : Machine F V B :=
  { m with sites := fun i => (m.sites i).filter fun σ => !cxt.isPrefixOf σ.info.cxt }

/-- The values that `ecxt_param_exec_vals` points to. -/
def params (m : Machine F V B) (queryParams : List (Slot V B)) : List (Slot V B) :=
  match m.paramExecVals with
  | .query => queryParams
  | .site i => ((m.sites i).map CallSite.lambdaParams).getD []

end Machine

/-- Read a call site through a pointer. -/
def getSite (i : Nat) : Run F V B (CallSite F V B) := do
  let m ← get
  match m.sites i with
  | some σ => pure σ
  | none => throw .danglingRead

def putSite (i : Nat) (σ : CallSite F V B) : Run F V B Unit :=
  modify fun m => m.putSite i σ

/-! ## `ExecInitExpr` -/

/-- `LAMBDA_MAX_ARGS` -/
def LAMBDA_MAX_ARGS : Nat := 512

section Init

variable (cat : ProcCatalog F)

/-- A new call site: nothing in it has been written. -/
def newSite (cxt : MemoryContext) (heldargs : List Nat) (argTypes : List Oid) : CallSite F V B where
  info := { cxt, heldargs, argTypes }
  lambdaValue := none
  argvalues := List.replicate argTypes.length none
  lambdaParams := List.replicate argTypes.length none
  cache := none
  argvalues_length := List.length_replicate

/-- Allocate a call site. -/
def allocateSite (σ : CallSite F V B) : Run F V B Nat := do
  let m ← get
  set (m.allocate σ)
  return m.next

mutual

/-- `ExecInitExprRec`, in the memory context `cxt`. `ExecInitCallLambdaExpr` and
`ExecInitLambdaFuncAlias` are one case, see `CallingExpr.ofBody`. -/
def execInitExprRec (cxt : MemoryContext) : CallingExpr F V B → Run F V B (ExprSteps F V B)
  | .const _ v => pure (.const v)
  | .var k _ => pure (.var k)
  | .param k _ => pure (.param k)
  | .func f args => do
    let args' ← execInitExprList cxt args
    return .func f args'
  | .caseWhen _ c r d => do
    let c' ← execInitExprRec cxt c
    let r' ← execInitExprRec cxt r
    let d' ← execInitExprRec cxt d
    return .caseWhen c' r' d'
  | .coalesce _ a b => do
    let a' ← execInitExprRec cxt a
    let b' ← execInitExprRec cxt b
    return .coalesce a' b'
  | .callLambda fn heldargs _ args => do
    if args.length > LAMBDA_MAX_ARGS then throw (.tooManyArguments args.length)
    let site ← allocateSite (newSite cxt heldargs (args.map (CallingExpr.exprType cat)))
    let fn' ← execInitExprRec cxt fn
    let args' ← execInitExprList cxt args
    return .callLambda site fn' args'
  | .lambdaNode _ _ => pure .lambdaNode

def execInitExprList (cxt : MemoryContext) :
    List (CallingExpr F V B) → Run F V B (List (ExprSteps F V B))
  | [] => pure []
  | e :: es => do
    let s ← execInitExprRec cxt e
    let ss ← execInitExprList cxt es
    return s :: ss

end

end Init

/-! ## `lambda_cache_body` -/

section CacheBody

variable [DecidableEq B] (cat : ProcCatalog F) (rt : Runtime F V (Except LambdaError))
variable (store : SerialStorage F V B) (set : CacheSettings)

omit [DecidableEq B] in
/-- The key parts of the lambda-typed arguments. An atomic value in such a slot would be read
as an address. -/
def keyParts : List Oid → List (Slot V B) → Except LambdaError (List (Option B))
  | t :: ts, v :: vs =>
    if t = LAMBDAOID then
      match v with
      | none => (none :: ·) <$> keyParts ts vs
      | some (.lambda b) => (some b :: ·) <$> keyParts ts vs
      | some (.atom _) => .error .wrongKind
    else keyParts ts vs
  | _, _ => .ok []

omit [DecidableEq B] in
/-- `ExecInitExpr` on the tree of a body. -/
def initBody (cxt : MemoryContext) (tree : Expr F V) : Run F V B (ExprSteps F V B) :=
  execInitExprRec cat cxt (.ofBody tree)

/-- One round of the eviction loop: the least recently used entry of the call site's cache is
unlinked, and its memory freed. -/
def evictEntry (i : Nat) : Run F V B Unit := do
  let σ ← getSite i
  let c := σ.lru
  match c.order.getLast? with
  | none => throw .danglingRead
  | some p =>
    match c.heap p with
    | none => throw .danglingRead
    | some victim => do
      putSite i { σ with cache := some (c.remove p victim) }
      modify fun m => m.deleteContext (σ.info.cxt ++ [(i, p)])

/-- The eviction loop, at most `rounds` times. -/
def evictEntries (i : Nat) : (rounds : Nat) → Run F V B Unit
  | 0 => pure ()
  | n + 1 => do
    let σ ← getSite i
    let c := σ.lru
    if 0 < c.nentries ∧ set.cacheSize ≤ c.nentries then do
      evictEntry i
      evictEntries i n

omit [DecidableEq B] in
/-- `lambda_cache_build`, in the memory context of the entry. Hoisting is off, so the tree is
the lambda's own body. -/
def buildEntry (fuel : Nat) (σ : CallSite F V B) (cxt : MemoryContext) (b : B) :
    Run F V B (SiteBody F V B) := do
  raise (rt.detoast (store.decode b).1)
  let tree ← raise (lambdaCacheBuild cat rt false fuel (store.decode b).2
    { lambdaValue := some (store.datum (.lambda b))
      argTypes := σ.info.argTypes
      argvalues := σ.argvalues.map (Option.map store.datum) })
  let body ← initBody cat cxt tree
  return { tree, body, jitDone := !(set.hasParent && set.jitAfterUses != 0), uses := 0 }

/-- `lambda_cache_insert`: the entry's address. -/
def insertEntry (fuel : Nat) (i : Nat) (b : B) (key : List (Option B)) : Run F V B Nat := do
  let σ ← getSite i
  evictEntries set i σ.lru.nentries
  let σ ← getSite i
  let c := σ.lru
  let x ← buildEntry cat rt store set fuel σ (σ.info.cxt ++ [(i, c.next)]) b
  putSite i { σ with
    cache := some (c.insert ⟨lambdaCacheHashKey store.toLambdaStorage key, key, x⟩) }
  return c.next

/-- The entry of a key that is not the previous row's. -/
def findEntry (fuel : Nat) (i : Nat) (b : B) (key : List (Option B)) : Run F V B Nat := do
  let σ ← getSite i
  let c := σ.lru
  match c.lookup (lambdaCacheHashKey store.toLambdaStorage key) key with
  | some p => do
    putSite i { σ with cache := some ((c.touch p).setLast p) }
    return p
  | none => do
    let p ← insertEntry cat rt store set fuel i b key
    let σ ← getSite i
    putSite i { σ with cache := some (σ.lru.setLast p) }
    return p

/-- The entry of a key: the previous row's is checked before hashing. -/
def siteEntry (fuel : Nat) (i : Nat) (b : B) (key : List (Option B)) : Run F V B Nat := do
  let σ ← getSite i
  let c := σ.lru
  match c.last with
  | none => findEntry cat rt store set fuel i b key
  | some p =>
    match c.heap p with
    | none => throw .danglingRead
    | some x => if x.key = key then pure p else findEntry cat rt store set fuel i b key

omit [DecidableEq B] in
/-- Count a use, and rebuild the body with the query's JIT flags when it is due, see
`lambda_cache_jit`. -/
def useEntry (cxt : MemoryContext) (evictions : Nat) (x : SiteBody F V B) :
    Run F V B (SiteBody F V B) :=
  let x := { x with uses := x.uses + 1 }
  if !x.jitDone && decide (set.jitAfterUses > 0) && decide (set.jitAfterUses ≤ x.uses) then
    if !set.hasParent || !set.jitPerform || decide (evictions > set.cacheSize) then
      pure { x with jitDone := true }
    else do
      let body ← initBody cat cxt x.tree
      return { x with jitDone := true, body }
  else pure x

/-- `lambda_cache_body`: the steps of the body for the lambda in `b` and the arguments in the
call site. -/
def siteBody (fuel : Nat) (i : Nat) (b : B) : Run F V B (ExprSteps F V B) := do
  let σ ← getSite i
  let parts ← raise (keyParts σ.info.argTypes σ.argvalues)
  let p ← siteEntry cat rt store set fuel i b (some b :: parts)
  let σ ← getSite i
  let c := σ.lru
  match c.heap p with
  | none => throw .danglingRead
  | some x => do
    let v ← useEntry cat set (σ.info.cxt ++ [(i, p)]) c.evictions x.val
    putSite i { σ with cache := some (c.modify p x v) }
    return v.body

end CacheBody

/-! ## Evaluation -/

/-- Set `ecxt_param_exec_vals`. -/
def setParamExecVals (params : ParamArray) : Run F V B Unit :=
  modify fun m => { m with paramExecVals := params }

section Eval

variable (cat : ProcCatalog F) (rt : Runtime F V (Except LambdaError)) (ectx : EContext V B)

def logEvent (event : ParamArray → List (Slot V B) → CallEvent V B) : Run F V B Unit :=
  modify fun m =>
    { m with log := m.log ++ [event m.paramExecVals (m.params ectx.queryParams)] }

/-- The arguments of an SQL function. -/
def rawAtoms? : List (Slot V B) → Option (List (Option V))
  | [] => some []
  | none :: vs => (rawAtoms? vs).map (none :: ·)
  | some (.atom v) :: vs => (rawAtoms? vs).map (some v :: ·)
  | some (.lambda _) :: _ => none

/-- The test of a `CASE` arm. -/
def slotHolds (isTrue : V → Bool) : Slot V B → Bool
  | some (.atom v) => isTrue v
  | _ => false

section Steps

variable (call : Nat → Run F V B (Slot V B))

mutual

/-- The value of an expression state; `call` is the step of a lambda call. An embedded lambda
is the address of a node, which has no bytes: the steps end there. -/
def execSteps : ExprSteps F V B → Run F V B (Slot V B)
  | .const v => pure v
  | .var k =>
    match ectx.row[k]? with
    | some v => pure v
    | none => throw (.noSuchColumn k)
  | .param k => do
    let m ← get
    match (m.params ectx.queryParams)[k]? with
    | some v => pure v
    | none => throw (.raised (.noSuchParam k))
  | .func f args => do
    let vs ← execStepsList args
    match rawAtoms? vs with
    | some as => do
      let v ← raise (callFunction cat rt f as)
      pure (v.map .atom)
    | none => throw (.raised .wrongKind)
  | .caseWhen c r d => do
    let v ← execSteps c
    if slotHolds rt.isTrue v then execSteps r else execSteps d
  | .coalesce a b => do
    let v ← execSteps a
    if v.isSome then pure v else execSteps b
  | .callLambda i fn args => do
    logEvent ectx (.enter i)
    let v ← execSteps fn
    let σ ← getSite i
    putSite i { σ with lambdaValue := v }
    execSiteArgs i 0 args
    let r ← call i
    logEvent ectx (.leave i)
    return r
  | .lambdaNode => throw (.raised .notSerialized)

def execStepsList : List (ExprSteps F V B) → Run F V B (List (Slot V B))
  | [] => pure []
  | s :: ss => do
    let v ← execSteps s
    let vs ← execStepsList ss
    return v :: vs

/-- The arguments of a call are computed into the slots of its call site, from slot `j`. -/
def execSiteArgs (i : Nat) : (j : Nat) → List (ExprSteps F V B) → Run F V B Unit
  | _, [] => pure ()
  | j, s :: ss => do
    let v ← execSteps s
    let σ ← getSite i
    putSite i { σ with
      argvalues := σ.argvalues.set j v
      argvalues_length := by rw [List.length_set, σ.argvalues_length] }
    execSiteArgs i (j + 1) ss

end

end Steps

variable [DecidableEq B] (store : SerialStorage F V B)

/-- `ExecEvalCallLambdaExpr` on the call site at `i`, at most `fuel` calls deep. -/
def execCallSite : (fuel : Nat) → Nat → Run F V B (Slot V B)
  | 0, _ => throw (.raised .outOfFuel)
  | n + 1, i => do
    let σ ← getSite i
    match σ.lambdaValue with
    | none => pure none
    | some (.atom _) => throw (.raised .wrongKind)
    | some (.lambda b) =>
      if σ.info.heldargs ≠ [] then do
        let v ← raise (execPartialApply cat rt (n + 1) (some (store.datum (.lambda b)))
          (fun p => decide (p ∈ σ.info.heldargs)) (σ.argvalues.map (Option.map store.datum)))
        match v with
        | some (.lambda _ residual) => do
          let bytes ← raise (store.serialize residual)
          return some (.lambda bytes)
        | some (.atom _) => throw (.raised .wrongKind)
        | none => pure none
      else do
        let body ← siteBody cat rt store ectx.set n i b
        let σ ← getSite i
        putSite i { σ with lambdaParams := σ.argvalues }
        let m ← get
        setParamExecVals (.site i)
        let v ← execSteps cat rt ectx (execCallSite n) body
        setParamExecVals m.paramExecVals
        return v

end Eval

/-! ## Rows -/

section Rows

variable [DecidableEq B] (cat : ProcCatalog F) (rt : Runtime F V (Except LambdaError))
variable (store : SerialStorage F V B) (fuel : Nat)

/-- One state evaluated on one row after another. -/
def execRows (s : ExprSteps F V B) : List (EContext V B) → Run F V B (List (Slot V B))
  | [] => pure []
  | ectx :: rest => do
    let v ← execSteps cat rt ectx (execCallSite cat rt ectx store fuel) s
    let vs ← execRows s rest
    return v :: vs

/-- An empty memory, before the expression is initialized. -/
def Machine.empty : Machine F V B where
  sites _ := none
  next := 0
  paramExecVals := .query
  log := []

/-- An expression initialized and then evaluated on each row. -/
def execQuery (e : CallingExpr F V B) (rows : List (EContext V B)) :
    Except EvalError (List (Slot V B) × Machine F V B) :=
  (do
    let s ← execInitExprRec cat [] e
    execRows cat rt store fuel s rows : Run F V B (List (Slot V B))).run Machine.empty

end Rows

end HolLambdas.Scalar
