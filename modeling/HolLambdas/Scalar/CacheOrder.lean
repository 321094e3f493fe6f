import HolLambdas.LruContent
import HolLambdas.Scalar.Cache

/-!
# The runtime cache is an LRU cache

`Scalar.Cache` shows that the runtime cache serves the right bodies. Here is
which ones it keeps. The pointers of `lambda_cache.c` are compared with
`LruContent.request`, a cache that is a list: `CacheCall.serve_cases` says that
one call of `lambda_cache_body` does to the content of the cache what one
request does to the list, in each of its three outcomes — found, built, failed
to build. The shortcut to the previous row's entry leaves the list of entries
alone where the other path moves the entry to the front; the two agree because
the entry it finds is at the front already (`Lru.Tidy`).

* With one size and builds that succeed, the cache holds the most recently
  requested combinations (`serveAll_recentlyUsed`).
* After a build that fails, the cache is what it was without the entries evicted
  to make room, and indistinguishable from one made of the remaining entries
  (`serve_failed_consistent`).

A call brings its own settings, catalogs and runtime: a build that succeeded may
fail the next time.
-/

namespace HolLambdas.Scalar

variable {F V B : Type} {argTypes : List Oid} {cache : Option (LambdaCache F V B)}

/-- One call of `lambda_cache_body`: the row, and what it finds around it. -/
structure CacheCall (F V B : Type) (argTypes : List Oid) where
  cat : ProcCatalog F
  rt : Runtime F V (Except LambdaError)
  hoisting : Bool
  fuel : Nat
  set : CacheSettings
  row : CallRow V B argTypes

section Calls

variable [DecidableEq B] (store : LambdaStorage F V B)

omit [DecidableEq B] in
/-- `lambda_cache_build` for the call. -/
def CacheCall.build (call : CacheCall F V B argTypes) : Except LambdaError (CachedBody F V) :=
  lambdaCacheBuildEntry call.cat call.rt store call.hoisting call.fuel call.set call.row

/-- `lambda_cache_body`. -/
def CacheCall.serve (call : CacheCall F V B argTypes) (cache : Option (LambdaCache F V B)) :
    Except CacheError (ExprState F V) × Option (LambdaCache F V B) :=
  lambdaCacheBody call.cat call.rt store call.hoisting call.fuel call.set call.row cache

/-- The calls of one call site in turn: what each of them returned, and the cache
at the end. -/
def serveAll : List (CacheCall F V B argTypes) → Option (LambdaCache F V B) →
    List (Except CacheError (ExprState F V)) × Option (LambdaCache F V B)
  | [], cache => ([], cache)
  | call :: calls, cache =>
    let served := call.serve store cache
    let rest := serveAll calls served.2
    (served.1 :: rest.1, rest.2)

theorem serveAll_append (calls later : List (CacheCall F V B argTypes))
    (cache : Option (LambdaCache F V B)) :
    serveAll store (calls ++ later) cache =
      ((serveAll store calls cache).1 ++ (serveAll store later (serveAll store calls cache).2).1,
        (serveAll store later (serveAll store calls cache).2).2) := by
  induction calls generalizing cache with
  | nil => rfl
  | cons call calls ih =>
    rw [List.cons_append, serveAll, ih]
    rfl

end Calls

/-! ## One call is one request -/

section Refine

variable [DecidableEq B] {store : LambdaStorage F V B}

omit [DecidableEq B] in
variable (store) in
/-- The build of a call raises what making the tree raises. -/
theorem CacheCall.build_eq_error {call : CacheCall F V B argTypes} {e : LambdaError} :
    call.build store = .error e ↔
      lambdaCacheTree call.cat call.rt store call.hoisting call.fuel call.row = .error e := by
  obtain ⟨x, hx, hbuilt⟩ | ⟨e', he, htree⟩ := lambdaCacheBuildEntry_spec call.cat call.rt store
    call.hoisting call.fuel call.set call.row
  · rw [CacheCall.build, hx, hbuilt.tree call.row rfl]
    simp
  · rw [CacheCall.build, he, htree]
    simp

/-- The request a call makes. -/
def CacheCall.request (store : LambdaStorage F V B) (call : CacheCall F V B argTypes)
    (content : LruContent (List (Option B)) (CachedBody F V)) :
    Except LambdaError (CachedBody F V) × LruContent (List (Option B)) (CachedBody F V) :=
  content.request call.set.cacheSize call.row.probe (call.build store) (lambdaCacheUse call.set)

variable (store) in
/-- The three ways to look for a call's entry: it is found and moved to the
front, it is built and entered, or the build fails after the evictions. -/
def LooksUp (call : CacheCall F V B argTypes) (c : LambdaCache F V B)
    (r : Except CacheError Nat × LambdaCache F V B) : Prop :=
  (∃ p x, c.heap p = some x ∧ x.key = call.row.probe ∧ r = (.ok p, (c.touch p).setLast p)) ∨
    (∀ p x, c.heap p = some x → x.key ≠ call.row.probe) ∧
      ∃ c₁, c.makeRoom call.set.cacheSize c.nentries = some c₁ ∧
        ((∃ v, call.build store = .ok v ∧
            r = (.ok c₁.next, (c₁.insert ⟨lambdaCacheHashKey store call.row.probe,
              call.row.probe, v⟩).setLast c₁.next)) ∨
          ∃ e, call.build store = .error e ∧ r = (.error (.raised e), c₁))

theorem lambdaCacheFind_looksUp (call : CacheCall F V B argTypes) {c : LambdaCache F V B}
    (hc : c.Tidy (lambdaCacheHashKey store)) :
    LooksUp store call c (lambdaCacheFind call.cat call.rt store call.hoisting call.fuel call.set
      call.row c) := by
  unfold lambdaCacheFind
  cases hl : c.lookup (lambdaCacheHashKey store call.row.probe) call.row.probe with
  | some p =>
    obtain ⟨_, x, hx, hkey⟩ := hc.lookup_some hl
    exact Or.inl ⟨p, x, hx, hkey, rfl⟩
  | none =>
    obtain ⟨c₁, hroom, _⟩ := hc.makeRoom call.set.cacheSize (Nat.le_refl c.nentries)
    refine Or.inr ⟨hc.lookup_none hl, c₁, hroom, ?_⟩
    unfold lambdaCacheInsert CacheCall.build
    rw [hroom]
    cases lambdaCacheBuildEntry call.cat call.rt store call.hoisting call.fuel call.set
      call.row with
    | ok v => exact Or.inl ⟨v, rfl, rfl⟩
    | error e => exact Or.inr ⟨e, rfl, rfl⟩

theorem lambdaCacheEntry_looksUp (call : CacheCall F V B argTypes) {c : LambdaCache F V B}
    (hc : c.Tidy (lambdaCacheHashKey store)) :
    LooksUp store call c (lambdaCacheEntry call.cat call.rt store call.hoisting call.fuel call.set
      call.row c) := by
  unfold lambdaCacheEntry
  cases hlast : c.last with
  | none => exact lambdaCacheFind_looksUp call hc
  | some p =>
    obtain ⟨x, hx⟩ := (hc.live p).mp (hc.lastLive p hlast)
    simp only [hx]
    by_cases hkey : x.key = call.row.probe
    · -- the remembered entry is at the front and stays there
      refine Or.inl ⟨p, x, hx, hkey, ?_⟩
      rw [if_pos hkey, Lru.touch_eq_self (hc.lastFirst p hlast), Lru.setLast_eq_self hlast]
    · rw [if_neg hkey]
      exact lambdaCacheFind_looksUp call hc

/-- **One call.** It returns what a request of the content returns and leaves the
content the request leaves. If it succeeds the entry it used is remembered; if
it fails nothing is left in the cache that was not there. -/
theorem CacheCall.serve_cases (call : CacheCall F V B argTypes)
    (hc : (cache.getD Lru.empty).Tidy (lambdaCacheHashKey store)) :
    (∃ c' p x, call.serve store cache = (.ok x.val.body, some c') ∧
        c'.Tidy (lambdaCacheHashKey store) ∧
        call.request store (cache.getD Lru.empty).content = (.ok x.val, c'.content) ∧
        c'.last = some p ∧ c'.heap p = some x ∧ x.key = call.row.probe) ∨
      ∃ c' e, call.serve store cache = (.error (.raised e), some c') ∧
        c'.Tidy (lambdaCacheHashKey store) ∧
        call.request store (cache.getD Lru.empty).content = (.error e, c'.content) ∧
        call.build store = .error e ∧
        ∀ p x, c'.heap p = some x → (cache.getD Lru.empty).heap p = some x := by
  unfold CacheCall.serve lambdaCacheBody CacheCall.request LruContent.request
  generalize cache.getD Lru.empty = c at hc ⊢
  obtain ⟨p, x, hx, hkey, hr⟩ | ⟨hmiss, c₁, hroom, hr⟩ := lambdaCacheEntry_looksUp call hc
  · -- found
    have hx' : ((c.touch p).setLast p).heap p = some x := hx
    obtain ⟨htidy, hcontent⟩ := hc.hit hx (lambdaCacheUse call.set c.evictions x.val)
    have hfind : c.content.find call.row.probe = some x.val := by
      rw [← hkey]
      exact hc.find_eq_some hx
    rw [hr, hfind]
    refine Or.inl ⟨_, p, { x with val := lambdaCacheUse call.set c.evictions x.val }, ?_, htidy,
      ?_, rfl, Function.update_self .., hkey⟩
    · simp only [hx']
      rfl
    · rw [hcontent, hkey]
      rfl
  · obtain ⟨c₁', hroom', htidy₁, hsub, hcontent₁⟩ :=
      hc.makeRoom call.set.cacheSize (Nat.le_refl c.nentries)
    rw [hroom] at hroom'
    cases hroom'
    have hfind : c.content.find call.row.probe = none := by
      cases hfind : c.content.find call.row.probe with
      | none => rfl
      | some v =>
        obtain ⟨p, x, hx, hkey, _⟩ := hc.mem_entries.mp (LruContent.find_eq_some hfind)
        exact absurd hkey (hmiss p x hx)
    rw [hfind]
    obtain ⟨v, hbuild, hr⟩ | ⟨e, hbuild, hr⟩ := hr
    · -- built
      obtain ⟨htidy, hcontent⟩ := htidy₁.miss
        (x := ⟨lambdaCacheHashKey store call.row.probe, call.row.probe, v⟩) rfl
        (fun p y hy => hmiss p y (hsub p y hy)) (lambdaCacheUse call.set c₁.evictions v)
      rw [hr, hbuild]
      refine Or.inl ⟨_, c₁.next, ⟨lambdaCacheHashKey store call.row.probe, call.row.probe,
        lambdaCacheUse call.set c₁.evictions v⟩, ?_, htidy, ?_, rfl, Function.update_self .., rfl⟩
      · have hnew : ((c₁.insert ⟨lambdaCacheHashKey store call.row.probe, call.row.probe,
            v⟩).setLast c₁.next).heap c₁.next = some ⟨lambdaCacheHashKey store call.row.probe,
              call.row.probe, v⟩ := Function.update_self ..
        simp only [hnew]
        rfl
      · rw [hcontent, ← hcontent₁]
        rfl
    · -- failed
      rw [hr, hbuild]
      exact Or.inr ⟨c₁, e, rfl, htidy₁, by rw [hcontent₁], rfl, hsub⟩

/-- **Every run** keeps the pointers tidy. -/
theorem serveAll_tidy (calls : List (CacheCall F V B argTypes))
    (hc : (cache.getD Lru.empty).Tidy (lambdaCacheHashKey store)) :
    ((serveAll store calls cache).2.getD Lru.empty).Tidy (lambdaCacheHashKey store) := by
  induction calls generalizing cache with
  | nil => exact hc
  | cons call calls ih =>
    apply ih
    obtain ⟨c', p, x, hserve, htidy, _⟩ | ⟨c', e, hserve, htidy, _⟩ := call.serve_cases hc
    · rw [hserve]
      exact htidy
    · rw [hserve]
      exact htidy

/-- Caches with one content serve a call alike. -/
theorem CacheCall.serve_congr (call : CacheCall F V B argTypes)
    {cache cache' : Option (LambdaCache F V B)}
    (hc : (cache.getD Lru.empty).Tidy (lambdaCacheHashKey store))
    (hc' : (cache'.getD Lru.empty).Tidy (lambdaCacheHashKey store))
    (hcontent : (cache.getD Lru.empty).content = (cache'.getD Lru.empty).content) :
    (call.serve store cache).1 = (call.serve store cache').1 ∧
      ((call.serve store cache).2.getD Lru.empty).Tidy (lambdaCacheHashKey store) ∧
      ((call.serve store cache').2.getD Lru.empty).Tidy (lambdaCacheHashKey store) ∧
      ((call.serve store cache).2.getD Lru.empty).content =
        ((call.serve store cache').2.getD Lru.empty).content := by
  obtain ⟨c₁, p, x, hserve, htidy, hreq, _⟩ | ⟨c₁, e, hserve, htidy, hreq, _⟩ :=
      call.serve_cases hc <;>
    obtain ⟨c₂, q, y, hserve', htidy', hreq', _⟩ | ⟨c₂, e', hserve', htidy', hreq', _⟩ :=
      call.serve_cases hc' <;>
    rw [hcontent, hreq'] at hreq <;>
    rw [hserve, hserve']
  · obtain ⟨hval, hcontents⟩ := Prod.mk.inj hreq
    exact ⟨by rw [Except.ok.inj hval], htidy, htidy', hcontents.symm⟩
  · cases (Prod.mk.inj hreq).1
  · cases (Prod.mk.inj hreq).1
  · obtain ⟨herr, hcontents⟩ := Prod.mk.inj hreq
    exact ⟨by rw [Except.error.inj herr], htidy, htidy', hcontents.symm⟩

/-- Caches with one content serve every sequence of calls alike. -/
theorem serveAll_congr (calls : List (CacheCall F V B argTypes))
    {cache cache' : Option (LambdaCache F V B)}
    (hc : (cache.getD Lru.empty).Tidy (lambdaCacheHashKey store))
    (hc' : (cache'.getD Lru.empty).Tidy (lambdaCacheHashKey store))
    (hcontent : (cache.getD Lru.empty).content = (cache'.getD Lru.empty).content) :
    (serveAll store calls cache).1 = (serveAll store calls cache').1 := by
  induction calls generalizing cache cache' with
  | nil => rfl
  | cons call calls ih =>
    obtain ⟨hserved, htidy, htidy', hcontents⟩ := call.serve_congr hc hc' hcontent
    show _ :: _ = _ :: _
    rw [hserved, ih htidy htidy' hcontents]

end Refine

/-! ## Exact LRU -/

section RecentlyUsed

variable [DecidableEq B] (store : LambdaStorage F V B)

/-- The combinations of lambdas that were asked for, in turn. -/
def requested (calls : List (CacheCall F V B argTypes)) : List (List (Option B)) :=
  calls.map fun call => call.row.probe

/-- The content of the cache over a run with one size and builds that succeed. -/
theorem serveAll_content {s : Nat} (hs : 1 ≤ s) {history : List (List (Option B))}
    {calls : List (CacheCall F V B argTypes)}
    (hc : (cache.getD Lru.empty).Tidy (lambdaCacheHashKey store))
    (hrecent : (cache.getD Lru.empty).content.RecentlyUsed s history)
    (hsize : ∀ call ∈ calls, call.set.cacheSize = s)
    (hbuild : ∀ call ∈ calls, ∃ v, call.build store = .ok v) :
    ((serveAll store calls cache).2.getD Lru.empty).content.RecentlyUsed s
      (history ++ requested calls) := by
  induction calls generalizing cache history with
  | nil =>
    rw [requested, List.map_nil, List.append_nil]
    exact hrecent
  | cons call calls ih =>
    have hnext : (call.request store (cache.getD Lru.empty).content).2.RecentlyUsed s
        (history ++ [call.row.probe]) := by
      unfold CacheCall.request
      rw [hsize call List.mem_cons_self]
      exact hrecent.request hs (hbuild call List.mem_cons_self) _
    have hrest : requested (call :: calls) = [call.row.probe] ++ requested calls := rfl
    rw [hrest, ← List.append_assoc]
    refine ih ?_ ?_ (fun c hmem => hsize c (List.mem_cons_of_mem _ hmem))
      fun c hmem => hbuild c (List.mem_cons_of_mem _ hmem)
    · exact serveAll_tidy [call] hc
    · obtain ⟨c', p, x, hserve, _, hreq, _⟩ | ⟨c', e, hserve, _, hreq, _⟩ := call.serve_cases hc
      · rw [hreq] at hnext
        rw [hserve]
        exact hnext
      · rw [hreq] at hnext
        rw [hserve]
        exact hnext

/-- **The cache is an exact LRU cache.** With one cache size, at least 1, and
builds that succeed, the state after any call is this: the entries listed hold
the most recently requested combinations, as many as there is room for, in the
order of their last request; the table has one slot for each listed entry and no
other; and the entry just returned is the remembered one, at the head of the
list. -/
theorem serveAll_recentlyUsed {s : Nat} (hs : 1 ≤ s) (calls : List (CacheCall F V B argTypes))
    (call : CacheCall F V B argTypes) (hsize : ∀ c ∈ calls ++ [call], c.set.cacheSize = s)
    (hbuild : ∀ c ∈ calls ++ [call], ∃ tree,
      lambdaCacheTree c.cat c.rt store c.hoisting c.fuel c.row = .ok tree) :
    ∃ c p x, serveAll store (calls ++ [call]) none =
        ((serveAll store calls none).1 ++ [.ok x.val.body], some c) ∧
      (c.order.filterMap fun q => (c.heap q).map LruEntry.key) =
        (requested (calls ++ [call])).dedup.reverse.take s ∧
      (c.table.map LruSlot.entry).Perm c.order ∧ c.order.Nodup ∧
      (∀ q r y z, c.heap q = some y → c.heap r = some z → y.key = z.key → q = r) ∧
      (∀ q, q ∈ c.order ↔ ∃ y, c.heap q = some y) ∧
      c.nentries = c.order.length ∧
      c.nentries = min s (requested (calls ++ [call])).dedup.length ∧
      c.last = some p ∧ c.order.head? = some p ∧ c.heap p = some x ∧
      x.key = call.row.probe := by
  have hok : ∀ c ∈ calls ++ [call], ∃ v, c.build store = .ok v := by
    intro c hmem
    obtain ⟨tree, htree⟩ := hbuild c hmem
    cases h : c.build store with
    | ok v => exact ⟨v, rfl⟩
    | error e =>
      rw [CacheCall.build_eq_error, htree] at h
      cases h
  have hnothing : ((none : Option (LambdaCache F V B)).getD Lru.empty).content.RecentlyUsed s
      [] := List.take_nil.symm
  have hrecent := serveAll_content store hs (Lru.tidy_empty _) hnothing hsize hok
  rw [List.nil_append, serveAll_append] at hrecent
  have htidy : ((serveAll store calls none).2.getD Lru.empty).Tidy (lambdaCacheHashKey store) :=
    serveAll_tidy calls (Lru.tidy_empty _)
  obtain ⟨c, p, x, hserve, hc, _, hlast, hx, hkey⟩ | ⟨c, e, _, _, _, hfail, _⟩ :=
    call.serve_cases htidy
  · have hlast' : serveAll store [call] (serveAll store calls none).2 =
        ([.ok x.val.body], some c) := by
      simp only [serveAll, hserve]
    rw [hlast'] at hrecent
    refine ⟨c, p, x, ?_, ?_, hc.slots, hc.nodup, hc.keys, hc.live, hc.count, ?_, hlast,
      hc.lastFirst p hlast, hx, hkey⟩
    · rw [serveAll_append, hlast']
    · have hkeys : c.content.keys = (requested (calls ++ [call])).dedup.reverse.take s := hrecent
      rw [← hkeys]
      unfold LruContent.keys Lru.content Lru.entryAt
      simp [List.map_filterMap, Option.map_map, Function.comp_def]
    · rw [← hc.length_entries]
      exact hrecent.length
  · obtain ⟨v, hv⟩ := hok call (by simp)
    rw [hv] at hfail
    cases hfail

/-- A call of `λ(f, x) f(f(x))` with room for `size` bodies. -/
def arithCall (size : Nat) (row : CallRow Int Nat [LAMBDAOID, INT4OID]) :
    CacheCall ArithFunc Int Nat [LAMBDAOID, INT4OID] where
  cat := arithCatalog
  rt := arithTotalRuntime
  hoisting := true
  fuel := 3
  set := { oneEntry with cacheSize := size }
  row

/-- Lambda 1 is asked for again before lambda 3 comes, so it is lambda 2 that has
to go. -/
theorem serveAll_recentlyUsed_twoEntries :
    ∃ c : LambdaCache ArithFunc Int Nat,
      (serveAll collidingStore [arithCall 2 (twiceRow 1 3), arithCall 2 (twiceRow 2 3),
        arithCall 2 (twiceRow 1 9), arithCall 2 (twiceRow 3 4)] none).2 = some c ∧
      (c.order.filterMap fun q => (c.heap q).map LruEntry.key) =
        [[some 0, some 3], [some 0, some 1]] ∧ c.nentries = 2 := by
  obtain ⟨c, p, x, hserve, hkeys, _, _, _, _, _, hcount, _⟩ :=
    serveAll_recentlyUsed collidingStore (by decide : 1 ≤ 2)
      [arithCall 2 (twiceRow 1 3), arithCall 2 (twiceRow 2 3), arithCall 2 (twiceRow 1 9)]
      (arithCall 2 (twiceRow 3 4))
      (by simp [arithCall])
      (by
        simp only [List.cons_append, List.nil_append, List.forall_mem_cons]
        exact ⟨⟨_, rfl⟩, ⟨_, rfl⟩, ⟨_, rfl⟩, ⟨_, rfl⟩, by simp⟩)
  refine ⟨c, congrArg Prod.snd hserve, ?_, ?_⟩
  · rw [hkeys]
    rfl
  · rw [hcount]
    rfl

end RecentlyUsed

/-! ## A build that fails -/

section Failed

variable [DecidableEq B] (store : LambdaStorage F V B)

/-- **A build that fails leaves the cache consistent.** After any calls, if the
next one raises an error, that is the error of its build. The hash table, the
list and the count still describe one set of live entries, which were all there
before the call, unchanged; and the remembered entry is one of them or none. All
that may be called later returns what it would return with a cache made from
these entries alone. -/
theorem serve_failed_consistent (calls : List (CacheCall F V B argTypes))
    (call : CacheCall F V B argTypes) {err : CacheError}
    (hfail : (call.serve store (serveAll store calls none).2).1 = .error err) :
    ∃ c e, (call.serve store (serveAll store calls none).2).2 = some c ∧
      err = .raised e ∧
      lambdaCacheTree call.cat call.rt store call.hoisting call.fuel call.row = .error e ∧
      c.WF (lambdaCacheHashKey store) ∧
      (∀ p x, c.heap p = some x →
        ((serveAll store calls none).2.getD Lru.empty).heap p = some x) ∧
      (Lru.ofContent (lambdaCacheHashKey store) c.content).WF (lambdaCacheHashKey store) ∧
      (Lru.ofContent (lambdaCacheHashKey store) c.content).content = c.content ∧
      ∀ later : List (CacheCall F V B argTypes), (serveAll store later (some c)).1 =
        (serveAll store later (some (Lru.ofContent (lambdaCacheHashKey store) c.content))).1 := by
  have htidy : ((serveAll store calls none).2.getD Lru.empty).Tidy (lambdaCacheHashKey store) :=
    serveAll_tidy calls (Lru.tidy_empty _)
  obtain ⟨c, p, x, hserve, _⟩ | ⟨c, e, hserve, hc, _, hbuild, hsub⟩ := call.serve_cases htidy
  · rw [hserve] at hfail
    cases hfail
  · rw [hserve] at hfail
    obtain ⟨hfresh, hcontent, _⟩ :=
      Lru.tidy_ofContent (lambdaCacheHashKey store) c.content hc.keys_nodup
    refine ⟨c, e, by rw [hserve], (Except.error.inj hfail).symm,
      (CacheCall.build_eq_error store).mp hbuild, hc.toWF, hsub, hfresh.toWF, hcontent, ?_⟩
    intro later
    exact serveAll_congr later hc hfresh hcontent.symm

/-- `λ(f, x) f(f(x))` called with NULL for `f`. -/
def nullRow : CallRow Int Nat [LAMBDAOID, INT4OID] where
  lambdaValue := 0
  argvalues := [none, some (.atom 3)]
  typed := by simp [RawDatum.isLambda, LAMBDAOID, INT4OID]

/-- With room for one body the failing call evicts the remembered entry; the
combination it belonged to is built anew afterwards. -/
theorem serve_failed_consistent_nullRow :
    ∃ c e, ((arithCall 1 nullRow).serve collidingStore
        (serveAll collidingStore [arithCall 1 (twiceRow 1 3)] none).2).2 = some c ∧
      e = LambdaError.functionInputNull 0 ∧ c.WF (lambdaCacheHashKey collidingStore) ∧
      c.nentries = 0 ∧ c.last = none ∧
      ∀ later : List (CacheCall ArithFunc Int Nat [LAMBDAOID, INT4OID]),
        (serveAll collidingStore later (some c)).1 = (serveAll collidingStore later (some
          (Lru.ofContent (lambdaCacheHashKey collidingStore) c.content))).1 := by
  obtain ⟨c, e, hcache, herr, _, hwf, _, _, _, hlater⟩ :=
    serve_failed_consistent collidingStore [arithCall 1 (twiceRow 1 3)] (arithCall 1 nullRow)
      (show _ = Except.error (CacheError.raised (.functionInputNull 0)) from rfl)
  refine ⟨c, e, hcache, (CacheError.raised.inj herr).symm, hwf, ?_, ?_, hlater⟩
  · have hcount := congrArg (Option.map Lru.nentries) hcache
    exact Option.some.inj (hcount.symm.trans rfl)
  · have hlast := congrArg (Option.map Lru.last) hcache
    exact Option.some.inj (hlast.symm.trans rfl)

end Failed

end HolLambdas.Scalar
