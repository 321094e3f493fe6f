import HolLambdas.Scalar.Sites

/-!
# Expression states form a tree

A call site is one piece of memory for all the calls made there. If a call could reach its own
call site again while it runs, the inner call would overwrite the arguments and the parameter
array of the outer one, and its cache could free the body that is running.

It cannot, since the expression states form a tree. The steps of a body were allocated in the
memory context of one cache entry of one call site, so their call sites are one level deeper
than that call site, and the steps of one state have different call sites. `Loaded` says this
of one expression state, and `Inv` of all the states that caches hold. Here it is shown that
`lambda_cache_body` keeps it, through evictions and rebuilt bodies (`siteBody_spec`), and that
it writes to its own call site and below only (`Frame`).
-/

namespace HolLambdas.Scalar

open Function

variable {F V B : Type} {si : SiteInfo} {σ σ' : CallSite F V B}

/-! ## Computations that return -/

section Run

variable {α β : Type} {m m' : Machine F V B}

theorem run_bind_eq_ok {x : Run F V B α} {f : α → Run F V B β} {r : β × Machine F V B} :
    (x >>= f) m = .ok r ↔ ∃ a m₁, x m = .ok (a, m₁) ∧ f a m₁ = .ok r := by
  have hbind : (x >>= f) m = x m >>= fun p => f p.1 p.2 := rfl
  rw [hbind, bind_eq_ok]
  simp only [Prod.exists]

theorem run_pure_eq_ok {a : α} {r : α × Machine F V B} :
    (pure a : Run F V B α) m = .ok r ↔ r = (a, m) := by
  show Except.ok (a, m) = .ok r ↔ _
  rw [Except.ok.injEq, eq_comm]

theorem raise_eq_ok {x : Except LambdaError α} {a : α} :
    raise x m = .ok (a, m') ↔ x = .ok a ∧ m = m' := by
  cases x with
  | error e =>
    constructor
    · intro h
      cases h
    · rintro ⟨h, _⟩
      cases h
  | ok a =>
    rw [raise, run_pure_eq_ok]
    simp [eq_comm]

theorem getSite_some {i : Nat} (h : m.sites i = some σ) : getSite i m = .ok (σ, m) := by
  refine run_bind_eq_ok.mpr ⟨m, m, rfl, ?_⟩
  rw [h]
  rfl

theorem getSite_bind {i : Nat} (h : m.sites i = some σ) (f : CallSite F V B → Run F V B α) :
    (getSite i >>= f) m = f σ m := by
  show getSite i m >>= (fun p => f p.1 p.2) = f σ m
  rw [getSite_some h]
  rfl

theorem putSite_bind (i : Nat) (σ : CallSite F V B) (f : Unit → Run F V B α) :
    (putSite i σ >>= f) m = f () (m.putSite i σ) := rfl

end Run

/-! ## Steps that belong together -/

/-- What is known of the call site at an address. -/
def Machine.info (m : Machine F V B) (i : Nat) : Option SiteInfo :=
  (m.sites i).map CallSite.info

theorem Machine.info_eq_some {m : Machine F V B} {i : Nat} :
    m.info i = some si ↔ ∃ σ, m.sites i = some σ ∧ σ.info = si :=
  Option.map_eq_some_iff

mutual

/-- The call sites of the steps. -/
def ExprSteps.sites : ExprSteps F V B → List Nat
  | .const _ => []
  | .var _ => []
  | .param _ => []
  | .func _ args => sitesList args
  | .caseWhen c r d => c.sites ++ (r.sites ++ d.sites)
  | .coalesce a b => a.sites ++ b.sites
  | .callLambda i fn args => i :: (fn.sites ++ sitesList args)
  | .lambdaNode => []

def ExprSteps.sitesList : List (ExprSteps F V B) → List Nat
  | [] => []
  | s :: ss => s.sites ++ sitesList ss

end

open ExprSteps (sitesList)

section Loaded

variable (cat : ProcCatalog F) (info : Nat → Option SiteInfo) (cxt : MemoryContext)

mutual

/-- The steps are those of the expression, and their call sites were allocated for its calls in
the memory context `cxt`. -/
def Loaded : ExprSteps F V B → CallingExpr F V B → Prop
  | .const v, e => ∃ t, e = .const t v
  | .var k, e => ∃ t, e = .var k t
  | .param k, e => ∃ t, e = .param k t
  | .func f ss, e => ∃ args, e = .func f args ∧ LoadedList ss args
  | .caseWhen c r d, e => ∃ t c' r' d', e = .caseWhen t c' r' d' ∧
      Loaded c c' ∧ Loaded r r' ∧ Loaded d d'
  | .coalesce a b, e => ∃ t a' b', e = .coalesce t a' b' ∧ Loaded a a' ∧ Loaded b b'
  | .callLambda i fn ss, e => ∃ fn' heldargs t args, e = .callLambda fn' heldargs t args ∧
      info i = some ⟨cxt, heldargs, args.map (CallingExpr.exprType cat)⟩ ∧
      Loaded fn fn' ∧ LoadedList ss args
  | .lambdaNode, e => ∃ hd b, e = .lambdaNode hd b

def LoadedList : List (ExprSteps F V B) → List (CallingExpr F V B) → Prop
  | [], es => es = []
  | s :: ss, es => ∃ e es', es = e :: es' ∧ Loaded s e ∧ LoadedList ss es'

end

variable {cat info cxt}

mutual

/-- The sites of a loaded body are live, and in its context. -/
theorem Loaded.info_of_mem : ∀ {s : ExprSteps F V B} {e : CallingExpr F V B},
    Loaded cat info cxt s e → ∀ j ∈ s.sites, ∃ si, info j = some si ∧ si.cxt = cxt
  | .const _, _, _, j, hj => by cases hj
  | .var _, _, _, j, hj => by cases hj
  | .param _, _, _, j, hj => by cases hj
  | .func _ ss, _, ⟨_, _, h⟩, j, hj => LoadedList.info_of_mem h j hj
  | .caseWhen c r d, _, ⟨_, _, _, _, _, hc, hr, hd⟩, j, hj => by
    rcases List.mem_append.mp hj with hj | hj
    · exact Loaded.info_of_mem hc j hj
    · rcases List.mem_append.mp hj with hj | hj
      · exact Loaded.info_of_mem hr j hj
      · exact Loaded.info_of_mem hd j hj
  | .coalesce a b, _, ⟨_, _, _, _, ha, hb⟩, j, hj => by
    rcases List.mem_append.mp hj with hj | hj
    · exact Loaded.info_of_mem ha j hj
    · exact Loaded.info_of_mem hb j hj
  | .callLambda i fn ss, _, ⟨_, _, _, _, _, hi, hfn, hss⟩, j, hj => by
    rcases List.mem_cons.mp hj with rfl | hj
    · exact ⟨_, hi, rfl⟩
    · rcases List.mem_append.mp hj with hj | hj
      · exact Loaded.info_of_mem hfn j hj
      · exact LoadedList.info_of_mem hss j hj
  | .lambdaNode, _, _, j, hj => by cases hj

theorem LoadedList.info_of_mem : ∀ {ss : List (ExprSteps F V B)} {es : List (CallingExpr F V B)},
    LoadedList cat info cxt ss es → ∀ j ∈ sitesList ss, ∃ si, info j = some si ∧ si.cxt = cxt
  | [], _, _, j, hj => by cases hj
  | s :: ss, _, ⟨_, _, _, hs, hss⟩, j, hj => by
    rcases List.mem_append.mp hj with hj | hj
    · exact Loaded.info_of_mem hs j hj
    · exact LoadedList.info_of_mem hss j hj

end

mutual

/-- Only the call sites of the steps matter. -/
theorem Loaded.congr {info' : Nat → Option SiteInfo} :
    ∀ {s : ExprSteps F V B} {e : CallingExpr F V B}, Loaded cat info cxt s e →
      (∀ j ∈ s.sites, info' j = info j) → Loaded cat info' cxt s e
  | .const _, _, h, _ => h
  | .var _, _, h, _ => h
  | .param _, _, h, _ => h
  | .func _ ss, _, ⟨args, he, h⟩, hsame => ⟨args, he, LoadedList.congr h hsame⟩
  | .caseWhen c r d, _, ⟨t, c', r', d', he, hc, hr, hd⟩, hsame => by
    have hrd : ∀ j ∈ r.sites ++ d.sites, info' j = info j :=
      fun j hj => hsame j (List.mem_append_right _ hj)
    exact ⟨t, c', r', d', he, Loaded.congr hc fun j hj => hsame j (List.mem_append_left _ hj),
      Loaded.congr hr fun j hj => hrd j (List.mem_append_left _ hj),
      Loaded.congr hd fun j hj => hrd j (List.mem_append_right _ hj)⟩
  | .coalesce a b, _, ⟨t, a', b', he, ha, hb⟩, hsame =>
    ⟨t, a', b', he, Loaded.congr ha fun j hj => hsame j (List.mem_append_left _ hj),
      Loaded.congr hb fun j hj => hsame j (List.mem_append_right _ hj)⟩
  | .callLambda i fn ss, _, ⟨fn', held, t, args, he, hi, hfn, hss⟩, hsame => by
    have hrest : ∀ j ∈ fn.sites ++ sitesList ss, info' j = info j :=
      fun j hj => hsame j (List.mem_cons_of_mem _ hj)
    exact ⟨fn', held, t, args, he, (hsame i List.mem_cons_self).trans hi,
      Loaded.congr hfn fun j hj => hrest j (List.mem_append_left _ hj),
      LoadedList.congr hss fun j hj => hrest j (List.mem_append_right _ hj)⟩
  | .lambdaNode, _, h, _ => h

theorem LoadedList.congr {info' : Nat → Option SiteInfo} :
    ∀ {ss : List (ExprSteps F V B)} {es : List (CallingExpr F V B)}, LoadedList cat info cxt ss es →
      (∀ j ∈ sitesList ss, info' j = info j) → LoadedList cat info' cxt ss es
  | [], _, h, _ => h
  | _ :: _, _, ⟨e, es', he, hs, hss⟩, hsame =>
    ⟨e, es', he, Loaded.congr hs fun j hj => hsame j (List.mem_append_left _ hj),
      LoadedList.congr hss fun j hj => hsame j (List.mem_append_right _ hj)⟩

end

theorem LoadedList.length_eq : ∀ {ss : List (ExprSteps F V B)} {es : List (CallingExpr F V B)},
    LoadedList cat info cxt ss es → ss.length = es.length
  | [], _, h => by
    cases h
    rfl
  | _ :: ss, _, ⟨_, _, he, _, hss⟩ => by
    rw [he, List.length_cons, List.length_cons, hss.length_eq]

end Loaded

/-! ## The states that caches hold -/

section Inv

variable (cat : ProcCatalog F) (rt : Runtime F V (Except LambdaError)) (store : SerialStorage F V B)

/-- An entry holds the body of the lambda in its key, loaded in the memory context of the
entry. -/
structure GoodEntry (info : Nat → Option SiteInfo) (i : Nat) (si : SiteInfo) (p : Nat)
    (key : List (Option B)) (x : SiteBody F V B) : Prop where
  built : ∃ b parts, key = some b :: parts ∧ rt.detoast (store.decode b).1 = .ok () ∧
    (store.decode b).2.nargs ≤ si.argTypes.length ∧ x.tree = (store.decode b).2.expr
  loaded : Loaded cat info (si.cxt ++ [(i, p)]) x.body (.ofBody x.tree)
  nodup : x.body.sites.Nodup

/-- Every cache is in order, and so is each of its entries. -/
structure Inv (m : Machine F V B) : Prop where
  fresh : ∀ i σ, m.sites i = some σ → i < m.next
  wf : ∀ i σ, m.sites i = some σ → σ.lru.WF (lambdaCacheHashKey store.toLambdaStorage)
  entries : ∀ i σ p x, m.sites i = some σ → σ.lru.heap p = some x →
    GoodEntry cat rt store m.info i σ.info p x.key x.val

variable {cat rt store} {m : Machine F V B} {i : Nat} {σ : CallSite F V B}

theorem GoodEntry.congr {info info' : Nat → Option SiteInfo} {p : Nat} {key : List (Option B)}
    {x : SiteBody F V B} (h : GoodEntry cat rt store info i si p key x)
    (hsame : ∀ j ∈ x.body.sites, info' j = info j) :
    GoodEntry cat rt store info' i si p key x :=
  ⟨h.built, h.loaded.congr hsame, h.nodup⟩

theorem inv_empty : Inv cat rt store (Machine.empty : Machine F V B) where
  fresh i σ h := by cases h
  wf i σ h := by cases h
  entries i σ p x h := by cases h

theorem info_putSite (hi : m.sites i = some σ) (hinfo : σ'.info = σ.info) :
    (m.putSite i σ').info = m.info := by
  funext j
  unfold Machine.info Machine.putSite
  by_cases hj : j = i
  · subst hj
    simp [hi, hinfo]
  · simp [hj]

theorem update_eq_some {α : Type} {f : Nat → Option α} {k j : Nat} {a b : α}
    (h : update f k (some a) j = some b) : (j = k ∧ b = a) ∨ f j = some b := by
  by_cases hj : j = k
  · subst hj
    rw [update_self] at h
    cases h
    exact Or.inl ⟨rfl, rfl⟩
  · rw [update_of_ne hj] at h
    exact Or.inr h

section

variable (h : Inv cat rt store m)

include h

/-- A call site is written to, its cache perhaps replaced. -/
theorem Inv.putSite (hi : m.sites i = some σ) (hinfo : σ'.info = σ.info)
    (hwf : σ'.lru.WF (lambdaCacheHashKey store.toLambdaStorage))
    (hentries : ∀ p x, σ'.lru.heap p = some x →
      GoodEntry cat rt store m.info i σ.info p x.key x.val) :
    Inv cat rt store (m.putSite i σ') := by
  refine ⟨fun j ρ hj => ?_, fun j ρ hj => ?_, fun j ρ p x hj hx => ?_⟩
  · obtain ⟨rfl, rfl⟩ | hj := update_eq_some hj
    · exact h.fresh _ σ hi
    · exact h.fresh j ρ hj
  · obtain ⟨rfl, rfl⟩ | hj := update_eq_some hj
    · exact hwf
    · exact h.wf j ρ hj
  · rw [info_putSite hi hinfo]
    obtain ⟨rfl, rfl⟩ | hj := update_eq_some hj
    · rw [hinfo]
      exact hentries p x hx
    · exact h.entries j ρ p x hj hx

/-- Slots of a call site are written. -/
theorem Inv.putSlots (hi : m.sites i = some σ) (hinfo : σ'.info = σ.info)
    (hcache : σ'.cache = σ.cache) :
    Inv cat rt store (m.putSite i σ') := by
  have hlru : σ'.lru = σ.lru := by rw [CallSite.lru, hcache, CallSite.lru]
  refine h.putSite hi hinfo (hlru ▸ h.wf i σ hi) fun p x hx => ?_
  rw [hlru] at hx
  exact h.entries i σ p x hi hx

theorem info_allocate_of_live (σ' : CallSite F V B) {j : Nat} (hj : m.info j = some si) :
    (m.allocate σ').info j = some si := by
  obtain ⟨ρ, hρ, rfl⟩ := Machine.info_eq_some.mp hj
  have hne : j ≠ m.next := Nat.ne_of_lt (h.fresh j ρ hρ)
  refine Machine.info_eq_some.mpr ⟨ρ, ?_, rfl⟩
  exact (update_of_ne hne _ _).trans hρ

/-- A new call site has no cache yet. -/
theorem Inv.allocate (hcache : σ'.cache = none) : Inv cat rt store (m.allocate σ') := by
  have hlru : σ'.lru = Lru.empty := by rw [CallSite.lru, hcache, Option.getD_none]
  refine ⟨fun j ρ hj => ?_, fun j ρ hj => ?_, fun j ρ p x hj hx => ?_⟩
  · obtain ⟨rfl, -⟩ | hj := update_eq_some hj
    · exact Nat.lt_succ_self _
    · exact Nat.lt_succ_of_lt (h.fresh j ρ hj)
  · obtain ⟨rfl, rfl⟩ | hj := update_eq_some hj
    · rw [hlru]
      exact Lru.wf_empty _
    · exact h.wf j ρ hj
  · obtain ⟨rfl, rfl⟩ | hj := update_eq_some hj
    · rw [hlru] at hx
      cases hx
    · have hgood := h.entries j ρ p x hj hx
      refine hgood.congr fun k hk => ?_
      obtain ⟨si, hsi, -⟩ := hgood.loaded.info_of_mem k hk
      rw [info_allocate_of_live h σ' hsi, hsi]

end

theorem deleteContext_eq_some {cxt : MemoryContext} {j : Nat} {ρ : CallSite F V B} :
    (m.deleteContext cxt).sites j = some ρ ↔ m.sites j = some ρ ∧ ¬ cxt <+: ρ.info.cxt := by
  unfold Machine.deleteContext
  rw [Option.filter_eq_some_iff, Bool.not_eq_true', ← Bool.not_eq_true,
    List.isPrefixOf_iff_prefix]

/-- Once an entry is out of its cache its memory can go: the states of other entries are in
contexts that are neither its own nor below it. -/
theorem Inv.deleteContext (h : Inv cat rt store m) (hi : m.sites i = some σ) {p : Nat}
    (hgone : σ.lru.heap p = none) :
    Inv cat rt store (m.deleteContext (σ.info.cxt ++ [(i, p)])) := by
  refine ⟨fun j ρ hj => ?_, fun j ρ hj => ?_, fun j ρ q x hj hx => ?_⟩
  · exact h.fresh j ρ (deleteContext_eq_some.mp hj).1
  · exact h.wf j ρ (deleteContext_eq_some.mp hj).1
  · obtain ⟨hj, hout⟩ := deleteContext_eq_some.mp hj
    have hgood := h.entries j ρ q x hj hx
    refine hgood.congr fun k hk => ?_
    obtain ⟨si, hsi, hcxt⟩ := hgood.loaded.info_of_mem k hk
    obtain ⟨τ, hτ, rfl⟩ := Machine.info_eq_some.mp hsi
    rw [hsi]
    refine Machine.info_eq_some.mpr ⟨τ, deleteContext_eq_some.mpr ⟨hτ, ?_⟩, rfl⟩
    rw [hcxt]
    intro hprefix
    rcases List.prefix_concat_iff.mp hprefix with heq | hprefix
    · -- the entry would be the one that was removed
      obtain ⟨hcxt', hlast⟩ := List.append_inj' heq rfl
      cases hlast
      rw [hi] at hj
      cases hj
      rw [hgone] at hx
      cases hx
    · exact hout hprefix

end Inv

/-! ## What is left alone -/

/-- The context belongs to a cache entry of one of the call sites `K` of `cxt`, or is below
one. -/
def Below (cxt : MemoryContext) (K : List Nat) (c : MemoryContext) : Prop :=
  ∃ k ∈ K, ∃ p, cxt ++ [(k, p)] <+: c

theorem not_below_of_length_le {cxt c : MemoryContext} {K : List Nat} (h : c.length ≤ cxt.length) :
    ¬ Below cxt K c := by
  rintro ⟨k, -, p, hprefix⟩
  have := hprefix.length_le
  simp at this
  omega

/-- Only the call sites `K` and the ones below them were written to, and none of the same depth
as `cxt` was freed. -/
structure Frame (cxt : MemoryContext) (K : List Nat) (m m' : Machine F V B) : Prop where
  others : ∀ j σ, m.sites j = some σ → j ∉ K → ¬ Below cxt K σ.info.cxt → m'.sites j = some σ
  infos : ∀ j σ, m.sites j = some σ → σ.info.cxt.length ≤ cxt.length → m'.info j = some σ.info

namespace Frame

variable {cxt : MemoryContext} {K K₁ K₂ : List Nat} {m m₁ m' : Machine F V B}

theorem refl (cxt : MemoryContext) (K : List Nat) (m : Machine F V B) : Frame cxt K m m where
  others _ _ h _ _ := h
  infos _ σ h _ := Machine.info_eq_some.mpr ⟨σ, h, rfl⟩

theorem mono (h : Frame cxt K₁ m m') (hsub : K₁ ⊆ K₂) : Frame cxt K₂ m m' where
  others j σ hj hmem hbelow := h.others j σ hj (fun hK => hmem (hsub hK)) fun ⟨k, hk, hp⟩ =>
    hbelow ⟨k, hsub hk, hp⟩
  infos := h.infos

theorem trans (h₁ : Frame cxt K m m₁) (h₂ : Frame cxt K m₁ m') : Frame cxt K m m' where
  others j σ hj hmem hbelow := h₂.others j σ (h₁.others j σ hj hmem hbelow) hmem hbelow
  infos j σ hj hle := by
    obtain ⟨ρ, hρ, hinfo⟩ := Machine.info_eq_some.mp (h₁.infos j σ hj hle)
    rw [← hinfo]
    exact h₂.infos j ρ hρ (hinfo ▸ hle)

/-- A call site of the same depth that is not among `K`. -/
theorem site_eq (h : Frame cxt K m m') {j : Nat} (hj : m.sites j = some σ) (hmem : j ∉ K)
    (hle : σ.info.cxt.length ≤ cxt.length) : m'.sites j = some σ :=
  h.others j σ hj hmem (not_below_of_length_le hle)

theorem putSite {i : Nat} {σ σ' : CallSite F V B} (hi : m.sites i = some σ)
    (hinfo : σ'.info = σ.info) : Frame cxt [i] m (m.putSite i σ') where
  others j ρ hj hmem _ :=
    (update_of_ne (fun h => hmem (List.mem_singleton.mpr h)) _ _).trans hj
  infos j ρ hj _ := by
    rw [info_putSite hi hinfo]
    exact Machine.info_eq_some.mpr ⟨ρ, hj, rfl⟩

end Frame

section Loaded

variable {cat : ProcCatalog F} {cxt : MemoryContext} {K : List Nat} {m m' : Machine F V B}

theorem Frame.info_eq (h : Frame cxt K m m') {j : Nat} (hj : m.info j = some si)
    (hcxt : si.cxt = cxt) : m'.info j = m.info j := by
  obtain ⟨σ, hσ, rfl⟩ := Machine.info_eq_some.mp hj
  rw [hj]
  exact h.infos j σ hσ (by rw [hcxt])

theorem Frame.loaded (h : Frame cxt K m m') {s : ExprSteps F V B} {e : CallingExpr F V B}
    (hs : Loaded cat m.info cxt s e) : Loaded cat m'.info cxt s e := by
  refine hs.congr fun j hj => ?_
  obtain ⟨si, hsi, hcxt⟩ := hs.info_of_mem j hj
  exact h.info_eq hsi hcxt

theorem Frame.loadedList (h : Frame cxt K m m') {ss : List (ExprSteps F V B)}
    {es : List (CallingExpr F V B)} (hs : LoadedList cat m.info cxt ss es) :
    LoadedList cat m'.info cxt ss es := by
  refine hs.congr fun j hj => ?_
  obtain ⟨si, hsi, hcxt⟩ := hs.info_of_mem j hj
  exact h.info_eq hsi hcxt

end Loaded

/-! ## New expression states -/

section Init

variable (cat : ProcCatalog F) (rt : Runtime F V (Except LambdaError)) (store : SerialStorage F V B)

/-- Call sites `ids` were added, and nothing else was done. -/
structure Added (ids : List Nat) (m m' : Machine F V B) : Prop where
  inv : Inv cat rt store m'
  old : ∀ j σ, m.sites j = some σ → m'.sites j = some σ
  next_le : m.next ≤ m'.next
  ids_lt : ∀ j ∈ ids, m.next ≤ j ∧ j < m'.next
  nodup : ids.Nodup
  log : m'.log = m.log
  params : m'.paramExecVals = m.paramExecVals

variable {cat rt store} {cxt : MemoryContext} {m m₁ m' : Machine F V B} {ids₁ ids₂ : List Nat}

theorem Added.refl (h : Inv cat rt store m) : Added cat rt store [] m m where
  inv := h
  old _ _ hj := hj
  next_le := Nat.le_refl _
  ids_lt j hj := by cases hj
  nodup := List.nodup_nil
  log := rfl
  params := rfl

theorem Added.append (h₁ : Added cat rt store ids₁ m m₁) (h₂ : Added cat rt store ids₂ m₁ m') :
    Added cat rt store (ids₁ ++ ids₂) m m' where
  inv := h₂.inv
  old j σ hj := h₂.old j σ (h₁.old j σ hj)
  next_le := Nat.le_trans h₁.next_le h₂.next_le
  ids_lt j hj := by
    have := h₁.next_le
    have := h₂.next_le
    rcases List.mem_append.mp hj with hj | hj
    · have := h₁.ids_lt j hj
      omega
    · have := h₂.ids_lt j hj
      omega
  nodup := by
    refine List.nodup_append.mpr ⟨h₁.nodup, h₂.nodup, fun j hj k hk hjk => ?_⟩
    have := h₁.ids_lt j hj
    have := h₂.ids_lt k hk
    omega
  log := h₂.log.trans h₁.log
  params := h₂.params.trans h₁.params

theorem Added.info_of_live (h : Added cat rt store ids₁ m m') {j : Nat} (hj : m.info j = some si) :
    m'.info j = m.info j := by
  obtain ⟨σ, hσ, rfl⟩ := Machine.info_eq_some.mp hj
  rw [hj]
  exact Machine.info_eq_some.mpr ⟨σ, h.old j σ hσ, rfl⟩

theorem Added.loaded (h : Added cat rt store ids₁ m m') {s : ExprSteps F V B}
    {e : CallingExpr F V B} (hs : Loaded cat m.info cxt s e) : Loaded cat m'.info cxt s e := by
  refine hs.congr fun j hj => ?_
  obtain ⟨si, hsi, -⟩ := hs.info_of_mem j hj
  exact h.info_of_live hsi

theorem added_allocate (h : Inv cat rt store m) (hcache : σ.cache = none) :
    Added cat rt store [m.next] m (m.allocate σ) where
  inv := h.allocate hcache
  old j ρ hj := (update_of_ne (Nat.ne_of_lt (h.fresh j ρ hj)) _ _).trans hj
  next_le := Nat.le_succ _
  ids_lt j hj := by
    obtain rfl := List.mem_singleton.mp hj
    exact ⟨Nat.le_refl _, Nat.lt_succ_self _⟩
  nodup := List.nodup_cons.mpr ⟨List.not_mem_nil, List.nodup_nil⟩
  log := rfl
  params := rfl

mutual

/-- `ExecInitExprRec` allocates the call sites of the steps it returns. -/
theorem execInitExprRec_spec : ∀ {e : CallingExpr F V B} {m m' : Machine F V B}
    {s : ExprSteps F V B}, Inv cat rt store m → execInitExprRec cat cxt e m = .ok (s, m') →
      Added cat rt store s.sites m m' ∧ Loaded cat m'.info cxt s e
  | .const t v, m, m', s, hinv, h => by
    cases run_pure_eq_ok.mp h
    exact ⟨.refl hinv, t, rfl⟩
  | .var k t, m, m', s, hinv, h => by
    cases run_pure_eq_ok.mp h
    exact ⟨.refl hinv, t, rfl⟩
  | .param k t, m, m', s, hinv, h => by
    cases run_pure_eq_ok.mp h
    exact ⟨.refl hinv, t, rfl⟩
  | .func f args, m, m', s, hinv, h => by
    obtain ⟨ss, m₁, hss, h⟩ := run_bind_eq_ok.mp h
    cases run_pure_eq_ok.mp h
    obtain ⟨hadd, hload⟩ := execInitExprList_spec hinv hss
    exact ⟨hadd, args, rfl, hload⟩
  | .caseWhen t c r d, m, m', s, hinv, h => by
    obtain ⟨c', m₁, hc, h⟩ := run_bind_eq_ok.mp h
    obtain ⟨r', m₂, hr, h⟩ := run_bind_eq_ok.mp h
    obtain ⟨d', m₃, hd, h⟩ := run_bind_eq_ok.mp h
    cases run_pure_eq_ok.mp h
    obtain ⟨hadd₁, hload₁⟩ := execInitExprRec_spec hinv hc
    obtain ⟨hadd₂, hload₂⟩ := execInitExprRec_spec hadd₁.inv hr
    obtain ⟨hadd₃, hload₃⟩ := execInitExprRec_spec hadd₂.inv hd
    exact ⟨hadd₁.append (hadd₂.append hadd₃), t, c, r, d, rfl, hadd₃.loaded (hadd₂.loaded hload₁),
      hadd₃.loaded hload₂, hload₃⟩
  | .coalesce t a b, m, m', s, hinv, h => by
    obtain ⟨a', m₁, ha, h⟩ := run_bind_eq_ok.mp h
    obtain ⟨b', m₂, hb, h⟩ := run_bind_eq_ok.mp h
    cases run_pure_eq_ok.mp h
    obtain ⟨hadd₁, hload₁⟩ := execInitExprRec_spec hinv ha
    obtain ⟨hadd₂, hload₂⟩ := execInitExprRec_spec hadd₁.inv hb
    exact ⟨hadd₁.append hadd₂, t, a, b, rfl, hadd₂.loaded hload₁, hload₂⟩
  | .callLambda fn heldargs t args, m, m', s, hinv, h => by
    rw [execInitExprRec] at h
    split at h
    · cases h
    · obtain ⟨site, m₁, hsite, h⟩ := run_bind_eq_ok.mp h
      obtain ⟨fn', m₂, hfn, h⟩ := run_bind_eq_ok.mp h
      obtain ⟨ss, m₃, hss, h⟩ := run_bind_eq_ok.mp h
      cases run_pure_eq_ok.mp h
      cases hsite
      have hadd₁ : Added cat rt store [m.next] m
          (m.allocate (newSite cxt heldargs (args.map (CallingExpr.exprType cat)))) :=
        added_allocate hinv rfl
      obtain ⟨hadd₂, hload₂⟩ := execInitExprRec_spec hadd₁.inv hfn
      obtain ⟨hadd₃, hload₃⟩ := execInitExprList_spec hadd₂.inv hss
      have hinfo : (m.allocate (newSite cxt heldargs
          (args.map (CallingExpr.exprType cat)))).info m.next =
            some ⟨cxt, heldargs, args.map (CallingExpr.exprType cat)⟩ :=
        Machine.info_eq_some.mpr ⟨_, update_self .., rfl⟩
      refine ⟨hadd₁.append (hadd₂.append hadd₃), fn, heldargs, t, args, rfl, ?_,
        hadd₃.loaded hload₂, hload₃⟩
      have hinfo₂ := (hadd₂.info_of_live hinfo).trans hinfo
      exact (hadd₃.info_of_live hinfo₂).trans hinfo₂
  | .lambdaNode hd b, m, m', s, hinv, h => by
    cases run_pure_eq_ok.mp h
    exact ⟨.refl hinv, hd, b, rfl⟩

theorem execInitExprList_spec : ∀ {es : List (CallingExpr F V B)} {m m' : Machine F V B}
    {ss : List (ExprSteps F V B)}, Inv cat rt store m →
      execInitExprList cat cxt es m = .ok (ss, m') →
      Added cat rt store (sitesList ss) m m' ∧ LoadedList cat m'.info cxt ss es
  | [], m, m', ss, hinv, h => by
    cases run_pure_eq_ok.mp h
    exact ⟨.refl hinv, rfl⟩
  | e :: es, m, m', ss, hinv, h => by
    obtain ⟨s, m₁, hs, h⟩ := run_bind_eq_ok.mp h
    obtain ⟨ss', m₂, hss, h⟩ := run_bind_eq_ok.mp h
    cases run_pure_eq_ok.mp h
    obtain ⟨hadd₁, hload₁⟩ := execInitExprRec_spec hinv hs
    obtain ⟨hadd₂, hload₂⟩ := execInitExprList_spec hadd₁.inv hss
    exact ⟨hadd₁.append hadd₂, e, es, rfl, hadd₂.loaded hload₁, hload₂⟩

end

end Init

/-! ## `lambda_cache_body` -/

section CacheBody

variable (cat : ProcCatalog F) (rt : Runtime F V (Except LambdaError)) (store : SerialStorage F V B)

/-- Work on the cache of a call site: its slots are as they were, and memory below it at most
was freed. -/
structure Kept (i : Nat) (σ : CallSite F V B) (m m' : Machine F V B) : Prop where
  inv : Inv cat rt store m'
  frame : Frame σ.info.cxt [i] m m'
  site : ∃ c, m'.sites i = some { σ with cache := c }
  log : m'.log = m.log
  params : m'.paramExecVals = m.paramExecVals

variable {cat rt store} {m m₁ m' : Machine F V B} {i : Nat} {σ σ₁ : CallSite F V B}

theorem Kept.refl (hinv : Inv cat rt store m) (hi : m.sites i = some σ) :
    Kept cat rt store i σ m m where
  inv := hinv
  frame := .refl ..
  site := ⟨σ.cache, hi⟩
  log := rfl
  params := rfl

theorem Kept.trans (h₁ : Kept cat rt store i σ m m₁) (hi : m₁.sites i = some σ₁)
    (h₂ : Kept cat rt store i σ₁ m₁ m') : Kept cat rt store i σ m m' := by
  obtain ⟨c, hc⟩ := h₁.site
  rw [hi] at hc
  cases hc
  exact ⟨h₂.inv, h₁.frame.trans h₂.frame, h₂.site, h₂.log.trans h₁.log, h₂.params.trans h₁.params⟩

/-- The cache is replaced. -/
theorem Kept.putCache (hinv : Inv cat rt store m) (hi : m.sites i = some σ)
    {c : SiteCache F V B} (hwf : c.WF (lambdaCacheHashKey store.toLambdaStorage))
    (hentries : ∀ p x, c.heap p = some x → GoodEntry cat rt store m.info i σ.info p x.key x.val) :
    Kept cat rt store i σ m (m.putSite i { σ with cache := some c }) where
  inv := hinv.putSite hi rfl hwf hentries
  frame := .putSite hi rfl
  site := ⟨some c, update_self ..⟩
  log := rfl
  params := rfl

theorem Added.kept {ids : List Nat} (h : Added cat rt store ids m m') (hi : m.sites i = some σ) :
    Kept cat rt store i σ m m' where
  inv := h.inv
  frame := ⟨fun j ρ hj _ _ => h.old j ρ hj, fun j ρ hj _ =>
    Machine.info_eq_some.mpr ⟨ρ, h.old j ρ hj, rfl⟩⟩
  site := ⟨σ.cache, h.old i σ hi⟩
  log := h.log
  params := h.params

theorem not_prefix_of_length_le {c c' : MemoryContext} {x : Nat × Nat}
    (h : c'.length ≤ c.length) : ¬ c ++ [x] <+: c' := by
  intro hprefix
  have := hprefix.length_le
  simp at this
  omega

variable {p fuel : Nat} {set : CacheSettings} {b : B} {parts : List (Option B)}

/-- The memory of an entry that is out of its cache is freed. -/
theorem Kept.deleteContext (hinv : Inv cat rt store m) (hi : m.sites i = some σ)
    (hgone : σ.lru.heap p = none) :
    Kept cat rt store i σ m (m.deleteContext (σ.info.cxt ++ [(i, p)])) where
  inv := hinv.deleteContext hi hgone
  frame :=
    { others := fun _ _ hj _ hbelow => deleteContext_eq_some.mpr
        ⟨hj, fun hprefix => hbelow ⟨i, List.mem_singleton.mpr rfl, p, hprefix⟩⟩
      infos := fun _ ρ hj hle => Machine.info_eq_some.mpr
        ⟨ρ, deleteContext_eq_some.mpr ⟨hj, not_prefix_of_length_le hle⟩, rfl⟩ }
  site := ⟨σ.cache, deleteContext_eq_some.mpr ⟨hi, not_prefix_of_length_le (Nat.le_refl _)⟩⟩
  log := rfl
  params := rfl

/-- The entries of the call site's cache are among those it had. -/
def FewerEntries (i : Nat) (σ : CallSite F V B) (m' : Machine F V B) : Prop :=
  ∀ σ', m'.sites i = some σ' → ∀ p x, σ'.lru.heap p = some x → σ.lru.heap p = some x

variable [DecidableEq B]

theorem remove_heap_eq_some {c : SiteCache F V B} {q : Nat}
    {victim x : LruEntry (List (Option B)) (SiteBody F V B)}
    (h : (c.remove p victim).heap q = some x) : c.heap q = some x := by
  change update c.heap p none q = some x at h
  by_cases hq : q = p
  · subst hq
    rw [update_self] at h
    cases h
  · rwa [update_of_ne hq] at h

/-- Eviction frees the sites of one body. -/
theorem evictEntry_spec (hinv : Inv cat rt store m) (hi : m.sites i = some σ) {u : Unit}
    (h : evictEntry i m = .ok (u, m')) :
    Kept cat rt store i σ m m' ∧ FewerEntries i σ m' := by
  rw [evictEntry, getSite_bind hi] at h
  cases hlast : σ.lru.order.getLast? with
  | none =>
    rw [hlast] at h
    cases h
  | some p =>
    cases hx : σ.lru.heap p with
    | none =>
      simp only [hlast, hx] at h
      cases h
    | some victim =>
      simp only [hlast, hx, putSite_bind] at h
      cases h
      have hkept := Kept.putCache hinv hi ((hinv.wf i σ hi).remove hx)
        fun q y hy => hinv.entries i σ q y hi (remove_heap_eq_some hy)
      have hi₁ : (m.putSite i { σ with cache := some (σ.lru.remove p victim) }).sites i =
          some { σ with cache := some (σ.lru.remove p victim) } := update_self ..
      have hgone : (σ.lru.remove p victim).heap p = none := update_self ..
      refine ⟨hkept.trans hi₁ (Kept.deleteContext hkept.inv hi₁ hgone), fun σ' hσ' q y hy => ?_⟩
      obtain ⟨hσ', -⟩ := deleteContext_eq_some.mp hσ'
      rw [hi₁] at hσ'
      cases hσ'
      exact remove_heap_eq_some hy

theorem evictEntries_spec : ∀ {rounds : Nat} {m m' : Machine F V B} {σ : CallSite F V B}
    {u : Unit}, Inv cat rt store m → m.sites i = some σ →
      evictEntries set i rounds m = .ok (u, m') →
      Kept cat rt store i σ m m' ∧ FewerEntries i σ m'
  | 0, m, m', σ, u, hinv, hi, h => by
    cases run_pure_eq_ok.mp h
    refine ⟨.refl hinv hi, fun σ' hσ' p x hx => ?_⟩
    rw [hi] at hσ'
    cases hσ'
    exact hx
  | n + 1, m, m', σ, u, hinv, hi, h => by
    rw [evictEntries, getSite_bind hi] at h
    split at h
    · obtain ⟨u₁, m₁, hevict, h⟩ := run_bind_eq_ok.mp h
      obtain ⟨hkept, hfewer⟩ := evictEntry_spec hinv hi hevict
      obtain ⟨c, hc⟩ := hkept.site
      obtain ⟨hkept', hfewer'⟩ := evictEntries_spec hkept.inv hc h
      exact ⟨hkept.trans hc hkept', fun σ' hσ' p x hx =>
        hfewer _ hc p x (hfewer' σ' hσ' p x hx)⟩
    · cases run_pure_eq_ok.mp h
      refine ⟨.refl hinv hi, fun σ' hσ' p x hx => ?_⟩
      rw [hi] at hσ'
      cases hσ'
      exact hx

omit [DecidableEq B] in
/-- With hoisting off, the tree of a call is the body of the lambda. -/
theorem lambdaCacheBuild_eq_ok {le : LambdaExpr F V} {st : CallLambdaExprState F V}
    {tree : Expr F V} :
    lambdaCacheBuild cat rt false fuel le st = .ok tree ↔
      le.nargs ≤ st.argvalues.length ∧ tree = le.expr := by
  unfold lambdaCacheBuild
  dsimp only
  by_cases hargs : le.nargs > st.argvalues.length
  · rw [if_pos hargs]
    constructor
    · intro h
      cases h
    · rintro ⟨h, _⟩
      omega
  · rw [if_neg hargs]
    constructor
    · intro h
      cases h
      exact ⟨by omega, rfl⟩
    · rintro ⟨_, rfl⟩
      rfl

variable (hinv : Inv cat rt store m)

include hinv

omit [DecidableEq B] in
theorem buildEntry_spec {cxt : MemoryContext} {x : SiteBody F V B}
    (h : buildEntry cat rt store set fuel σ cxt b m = .ok (x, m')) :
    Added cat rt store x.body.sites m m' ∧ Loaded cat m'.info cxt x.body (.ofBody x.tree) ∧
      rt.detoast (store.decode b).1 = .ok () ∧
      (store.decode b).2.nargs ≤ σ.info.argTypes.length ∧ x.tree = (store.decode b).2.expr := by
  obtain ⟨u, m₁, hraise, h⟩ := run_bind_eq_ok.mp h
  obtain ⟨hdetoast, rfl⟩ := raise_eq_ok.mp hraise
  obtain ⟨tree, m₂, hraise', h⟩ := run_bind_eq_ok.mp h
  obtain ⟨htree, rfl⟩ := raise_eq_ok.mp hraise'
  obtain ⟨body, m₃, hbody, h⟩ := run_bind_eq_ok.mp h
  cases run_pure_eq_ok.mp h
  obtain ⟨hargs, rfl⟩ := lambdaCacheBuild_eq_ok.mp htree
  rw [List.length_map, σ.argvalues_length] at hargs
  obtain ⟨hadd, hload⟩ := execInitExprRec_spec hinv hbody
  exact ⟨hadd, hload, hdetoast, hargs, rfl⟩

variable (cat rt store) in
/-- An entry for the key was found in the call site's cache, or put there. -/
def FindsEntry (i : Nat) (σ : CallSite F V B) (key : List (Option B)) (p : Nat)
    (m m' : Machine F V B) : Prop :=
  Kept cat rt store i σ m m' ∧
    ∃ σ' x, m'.sites i = some σ' ∧ σ'.lru.heap p = some x ∧ x.key = key

theorem insertEntry_spec (hi : m.sites i = some σ)
    (hmiss : ∀ q x, σ.lru.heap q = some x → x.key ≠ some b :: parts)
    (h : insertEntry cat rt store set fuel i b (some b :: parts) m = .ok (p, m')) :
    FindsEntry cat rt store i σ (some b :: parts) p m m' := by
  rw [insertEntry, getSite_bind hi] at h
  obtain ⟨u, m₁, hevict, h⟩ := run_bind_eq_ok.mp h
  obtain ⟨hkept₁, hfewer⟩ := evictEntries_spec hinv hi hevict
  obtain ⟨c₁, hi₁⟩ := hkept₁.site
  rw [getSite_bind hi₁] at h
  obtain ⟨x, m₂, hbuild, h⟩ := run_bind_eq_ok.mp h
  obtain ⟨hadd, hload, hdetoast, hargs, htree⟩ := buildEntry_spec hkept₁.inv hbuild
  have hkept₂ := hadd.kept hi₁
  have hi₂ : m₂.sites i = some { σ with cache := c₁ } := hadd.old _ _ hi₁
  rw [putSite_bind] at h
  cases run_pure_eq_ok.mp h
  have hwf := hadd.inv.wf i _ hi₂
  have hkept₃ := Kept.putCache hadd.inv hi₂
    (hwf.insert (x := ⟨lambdaCacheHashKey store.toLambdaStorage (some b :: parts),
      some b :: parts, x⟩) rfl fun q y hy => hmiss q y (hfewer _ hi₁ q y hy)) fun q y hy => ?_
  · exact ⟨hkept₁.trans hi₁ (hkept₂.trans hi₂ hkept₃), _, _, update_self ..,
      update_self .., rfl⟩
  · obtain ⟨rfl, rfl⟩ | hy := update_eq_some hy
    · exact ⟨⟨b, parts, rfl, hdetoast, hargs, htree⟩, hload, hadd.nodup⟩
    · exact hadd.inv.entries i _ q y hi₂ hy

/-- A hit is moved to the front, a miss is built. -/
theorem findEntry_spec (hi : m.sites i = some σ)
    (h : findEntry cat rt store set fuel i b (some b :: parts) m = .ok (p, m')) :
    FindsEntry cat rt store i σ (some b :: parts) p m m' := by
  have hwf := hinv.wf i σ hi
  rw [findEntry, getSite_bind hi] at h
  cases hl : σ.lru.lookup (lambdaCacheHashKey store.toLambdaStorage (some b :: parts))
      (some b :: parts) with
  | some q =>
    rw [hl] at h
    dsimp only at h
    rw [putSite_bind] at h
    cases run_pure_eq_ok.mp h
    obtain ⟨hq, x, hx, hkey⟩ := hwf.lookup_some hl
    have hwf' := hwf.touch hq
    exact ⟨Kept.putCache hinv hi (hwf'.setLast ((hwf'.live p).mpr ⟨x, hx⟩))
      fun r y hy => hinv.entries i σ r y hi hy, _, x, update_self .., hx, hkey⟩
  | none =>
    rw [hl] at h
    obtain ⟨q, m₁, hinsert, h⟩ := run_bind_eq_ok.mp h
    obtain ⟨hkept, σ₁, x, hi₁, hx, hkey⟩ := insertEntry_spec hinv hi (hwf.lookup_none hl) hinsert
    rw [getSite_bind hi₁, putSite_bind] at h
    cases run_pure_eq_ok.mp h
    have hwf₁ := hkept.inv.wf i σ₁ hi₁
    have hkept' := Kept.putCache hkept.inv hi₁ (hwf₁.setLast ((hwf₁.live p).mpr ⟨x, hx⟩))
      fun r y hy => hkept.inv.entries i σ₁ r y hi₁ hy
    exact ⟨hkept.trans hi₁ hkept', _, x, update_self .., hx, hkey⟩

theorem siteEntry_spec (hi : m.sites i = some σ)
    (h : siteEntry cat rt store set fuel i b (some b :: parts) m = .ok (p, m')) :
    FindsEntry cat rt store i σ (some b :: parts) p m m' := by
  rw [siteEntry, getSite_bind hi] at h
  cases hlast : σ.lru.last with
  | none =>
    rw [hlast] at h
    exact findEntry_spec hinv hi h
  | some q =>
    cases hx : σ.lru.heap q with
    | none =>
      simp only [hlast, hx] at h
      cases h
    | some x =>
      simp only [hlast, hx] at h
      split at h
      · next hkey =>
        cases run_pure_eq_ok.mp h
        exact ⟨.refl hinv hi, σ, x, hi, hx, hkey⟩
      · exact findEntry_spec hinv hi h

omit [DecidableEq B] in
/-- Using an entry may load its body anew. -/
theorem useEntry_spec {cxt : MemoryContext} {evictions : Nat} {x v : SiteBody F V B}
    (hload : Loaded cat m.info cxt x.body (.ofBody x.tree)) (hnodup : x.body.sites.Nodup)
    (h : useEntry cat set cxt evictions x m = .ok (v, m')) :
    (∃ ids, Added cat rt store ids m m') ∧ v.tree = x.tree ∧
      Loaded cat m'.info cxt v.body (.ofBody x.tree) ∧ v.body.sites.Nodup := by
  unfold useEntry at h
  dsimp only at h
  split at h
  · split at h
    · cases run_pure_eq_ok.mp h
      exact ⟨⟨[], .refl hinv⟩, rfl, hload, hnodup⟩
    · obtain ⟨body, m₁, hbody, h⟩ := run_bind_eq_ok.mp h
      cases run_pure_eq_ok.mp h
      obtain ⟨hadd, hload'⟩ := execInitExprRec_spec hinv hbody
      exact ⟨⟨_, hadd⟩, rfl, hload', hadd.nodup⟩
  · cases run_pure_eq_ok.mp h
    exact ⟨⟨[], .refl hinv⟩, rfl, hload, hnodup⟩

/-- **The body of a call.** It is the body of the called lambda, loaded below the call site,
and the slots of the call site are as they were. -/
theorem siteBody_spec {s : ExprSteps F V B} (hi : m.sites i = some σ)
    (h : siteBody cat rt store set fuel i b m = .ok (s, m')) :
    Kept cat rt store i σ m m' ∧ rt.detoast (store.decode b).1 = .ok () ∧
      (store.decode b).2.nargs ≤ σ.info.argTypes.length ∧
      ∃ p, Loaded cat m'.info (σ.info.cxt ++ [(i, p)]) s (.ofBody (store.decode b).2.expr) ∧
        s.sites.Nodup := by
  rw [siteBody, getSite_bind hi] at h
  obtain ⟨parts, m₁, hparts, h⟩ := run_bind_eq_ok.mp h
  obtain ⟨-, rfl⟩ := raise_eq_ok.mp hparts
  obtain ⟨p, m₂, hentry, h⟩ := run_bind_eq_ok.mp h
  obtain ⟨hkept, σ₁, x, hi₁, hx, hkey⟩ := siteEntry_spec hinv hi hentry
  have hinfo : σ₁.info = σ.info := by
    obtain ⟨c, hc⟩ := hkept.site
    rw [hi₁] at hc
    cases hc
    rfl
  rw [getSite_bind hi₁] at h
  simp only [hx] at h
  obtain ⟨v, m₃, huse, h⟩ := run_bind_eq_ok.mp h
  rw [putSite_bind] at h
  cases run_pure_eq_ok.mp h
  have hgood := hkept.inv.entries i σ₁ p x hi₁ hx
  obtain ⟨⟨ids, hadd⟩, htree, hload, hnodup⟩ :=
    useEntry_spec hkept.inv hgood.loaded hgood.nodup huse
  obtain ⟨b', parts', hkey', hdetoast, hargs, hx'⟩ := hgood.built
  rw [hkey] at hkey'
  cases hkey'
  have hi₃ : m₃.sites i = some σ₁ := hadd.old i σ₁ hi₁
  have hwf := hadd.inv.wf i σ₁ hi₃
  have hkept₃ := Kept.putCache hadd.inv hi₃ (hwf.modify hx v) fun q y hy => ?_
  · refine ⟨hkept.trans hi₁ ((hadd.kept hi₁).trans hi₃ hkept₃), hdetoast, hinfo ▸ hargs, p, ?_,
      hnodup⟩
    have hsame : (m₃.putSite i { σ₁ with cache := some (σ₁.lru.modify p x v) }).info = m₃.info :=
      info_putSite hi₃ rfl
    rw [hsame, ← hinfo, ← hx']
    exact hload
  · obtain ⟨rfl, rfl⟩ | hy := update_eq_some hy
    · refine ⟨⟨b, parts, hkey, hdetoast, hargs, htree.trans hx'⟩, ?_, hnodup⟩
      rw [htree]
      exact hload
    · exact hadd.inv.entries i σ₁ q y hi₃ hy

end CacheBody

end HolLambdas.Scalar
