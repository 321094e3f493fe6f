import HolLambdas.Row.Meaning

/-!
# Scalar bodies in row context

What the scalar walker builds for a call is a tree over `RowFunc`: parts of the
callee's body, embedded, and arguments of the call. The meaning of the callee's
body in the algebra of trees (`treeAlgebra`) is that tree, and everything about it
follows from the parametricity of meanings by choosing the second algebra: what it
evaluates to, from the algebra of values (`rowAlgebra`); whether an argument with a
call in it has got into it, from an algebra of two elements (`rowUse`).
-/

namespace HolLambdas.Row

open Scalar

variable {F V D : Type}

/-! ## Scalar bodies in the larger language -/

/-- The catalog with the row-context nodes. -/
def rowCatalog (cat : ProcCatalog F) : ProcCatalog (RowFunc F) where
  proisstrict
    | .op f => cat.proisstrict f
    | _ => false
  provolatile
    | .op f => cat.provolatile f
    | _ => .immutable
  proargtypes
    | .op f => cat.proargtypes f
    | _ => []
  prorettype
    | .op f => cat.prorettype f
    | .field _ _ t => t
    | .lfa _ t _ _ => t

mutual

theorem HasType.embed {cat : ProcCatalog F} : ∀ {e : Expr F V} {Γ : List LambdaSigType}
    {τ : LambdaSigType}, HasType cat Γ e τ → HasType (rowCatalog cat) Γ (embed e) τ
  | .const t v, Γ, τ, h => by
    simpa only [Row.embed, HasType] using h
  | .param k t, Γ, τ, h => by
    simpa only [Row.embed, HasType] using h
  | .func f args, Γ, τ, h => ⟨h.1, HasTypes.embed h.2⟩
  | .caseWhen t c r d, Γ, τ, h => by
    obtain ⟨hτ, ⟨b, hc⟩, hr, hd⟩ := h
    exact ⟨hτ, ⟨b, HasType.embed hc⟩, HasType.embed hr, HasType.embed hd⟩
  | .coalesce t a b, Γ, τ, h => ⟨h.1, HasType.embed h.2.1, HasType.embed h.2.2⟩
  | .lfa name t k args, Γ, τ, h => by
    obtain ⟨hτ, σs, hk, hargs⟩ := h
    exact ⟨hτ, σs, hk, HasTypes.embed hargs⟩
  | .lambda hd e, Γ, τ, h => by
    obtain ⟨σs, ρ, hτ, hn, he⟩ := h
    exact ⟨σs, ρ, hτ, hn, HasType.embed he⟩

theorem HasTypes.embed {cat : ProcCatalog F} : ∀ {es : List (Expr F V)} {Γ : List LambdaSigType}
    {σs : List LambdaSigType}, HasTypes cat Γ es σs →
      HasTypes (rowCatalog cat) Γ (embedArgs es) σs
  | [], Γ, σs, h => by
    simpa only [embedArgs, HasTypes] using h
  | e :: es, Γ, σs, h => by
    obtain ⟨σ, σs', hσs, he, hes⟩ := h
    exact ⟨σ, σs', hσs, HasType.embed he, HasTypes.embed hes⟩

end

theorem conforms_embedLambda {cat : ProcCatalog F} {le : LambdaExpr F V} {S : LambdaSignature}
    (h : le.Conforms cat S) : (embedLambda le).Conforms (rowCatalog cat) S :=
  ⟨h.nargs_eq, HasType.embed h.body⟩

/-- An algebra for the larger language that agrees on the smaller one. -/
structure Extends (A : ScalarAlgebra F V D) (A' : ScalarAlgebra (RowFunc F) V D) : Prop where
  const : ∀ t v, A'.const t v = A.const t v
  func : ∀ f ds, A'.func (.op f) ds = A.func f ds
  caseWhen : ∀ t c r d, A'.caseWhen t c r d = A.caseWhen t c r d
  coalesce : ∀ t a b, A'.coalesce t a b = A.coalesce t a b

def embedEntry : Entry F V D → Entry (RowFunc F) V D
  | .val d => .val d
  | .lam h e => .lam h (embed e)
  | .nul => .nul

theorem map_embedEntry_val (ds : List D) :
    (ds.map (Entry.val : D → Entry F V D)).map embedEntry = ds.map .val := by
  rw [List.map_map]
  rfl

theorem length_embedArgs (es : List (Expr F V)) : (embedArgs es).length = es.length := by
  induction es with
  | nil => rfl
  | cons e es ih => rw [embedArgs, List.length_cons, List.length_cons, ih]

section MeansEmbed

variable {A : ScalarAlgebra F V D} {A' : ScalarAlgebra (RowFunc F) V D}
theorem getElem?_map_embedEntry {env : List (Entry F V D)} {k : Nat} {E : Entry F V D}
    (h : env[k]? = some E) : (env.map embedEntry)[k]? = some (embedEntry E) := by
  rw [List.getElem?_map, h, Option.map_some]

mutual

/-- A scalar body means the same in the larger language. -/
theorem means_embed (hA : Extends A A') : ∀ {env : List (Entry F V D)} {e : Expr F V}
    {E : Entry F V D}, Means A env e E → Means A' (env.map embedEntry) (embed e) (embedEntry E)
  | _, _, _, .const => by
    simp only [Row.embed, embedEntry, ← hA.const]
    exact .const
  | _, _, _, .param h => .param (getElem?_map_embedEntry h)
  | _, _, _, .func h => by
    have hargs := meansArgs_embed hA h
    rw [map_embedEntry_val] at hargs
    simp only [Row.embed, embedEntry, ← hA.func]
    exact .func hargs
  | _, _, _, .caseWhen hc hr hd => by
    simp only [Row.embed, embedEntry, ← hA.caseWhen]
    exact .caseWhen (means_embed hA hc) (means_embed hA hr) (means_embed hA hd)
  | _, _, _, .coalesce ha hb => by
    simp only [Row.embed, embedEntry, ← hA.coalesce]
    exact .coalesce (means_embed hA ha) (means_embed hA hb)
  | _, _, _, .lfa hk hlen hargs hbody =>
    .lfa (getElem?_map_embedEntry hk) (by rw [length_embedArgs, hlen]) (meansArgs_embed hA hargs)
      (means_embed hA hbody)
  | _, _, _, .lfaNul hk hargs => by
    simp only [embedEntry, ← hA.const]
    exact .lfaNul (getElem?_map_embedEntry hk) (meansArgs_embed hA hargs)
  | _, _, _, .lambda => .lambda

theorem meansArgs_embed (hA : Extends A A') : ∀ {env : List (Entry F V D)} {es : List (Expr F V)}
    {Es : List (Entry F V D)}, MeansArgs A env es Es →
      MeansArgs A' (env.map embedEntry) (embedArgs es) (Es.map embedEntry)
  | _, _, _, .nil => .nil
  | _, _, _, .cons h hs => .cons (means_embed hA h) (meansArgs_embed hA hs)

end

end MeansEmbed

/-! ## Algebras for the larger language -/

/-- Two elements: does the part come from an argument that contains a call? -/
def useAlgebra : ScalarAlgebra F V Bool where
  const _ _ := false
  func _ ds := ds.any id
  caseWhen _ c r d := c || r || d
  coalesce _ a b := a || b

/-- Trees: every operation builds its node. -/
def treeAlgebra : ScalarAlgebra (RowFunc F) V (Expr (RowFunc F) V) where
  const := .const
  func := .func
  caseWhen := .caseWhen
  coalesce := .coalesce

/-- `useAlgebra` with the row-context nodes. -/
def rowUse : ScalarAlgebra (RowFunc F) V Bool where
  const _ _ := false
  func f ds := f.isLfa || ds.any id
  caseWhen _ c r d := c || r || d
  coalesce _ a b := a || b

/-- An algebra with the fields of the data rows. A call that is left in a body has
no meaning of its own. -/
def rowAlgebra (A : ScalarAlgebra F V D) (data : Nat → Nat → D) :
    ScalarAlgebra (RowFunc F) V D where
  const := A.const
  func
    | .op f, ds => A.func f ds
    | .field p k _, _ => data p k
    | .lfa _ t _ _, _ => A.const t none
  caseWhen := A.caseWhen
  coalesce := A.coalesce

theorem extends_rowUse : Extends (useAlgebra : ScalarAlgebra F V Bool) rowUse :=
  ⟨fun _ _ => rfl, fun _ _ => rfl, fun _ _ _ _ => rfl, fun _ _ _ => rfl⟩

theorem extends_rowAlgebra (A : ScalarAlgebra F V D) (data : Nat → Nat → D) :
    Extends A (rowAlgebra A data) :=
  ⟨fun _ _ => rfl, fun _ _ => rfl, fun _ _ _ _ => rfl, fun _ _ _ => rfl⟩

theorem hasAliasArgs_eq (es : List (Expr (RowFunc F) V)) :
    hasAliasArgs es = (es.map hasAlias).any id := by
  induction es with
  | nil => rfl
  | cons e es ih =>
    rw [hasAliasArgs, ih]
    rfl

/-- The two-element algebra says whether the tree contains a call. -/
theorem treeAlgebra_rel_rowUse :
    AlgebraRel (treeAlgebra : ScalarAlgebra (RowFunc F) V _) rowUse
      (fun r b => hasAlias r = b) where
  const _ _ := rfl
  func f ds ds' h := by
    have hmap : ds.map hasAlias = ds' := by
      induction h with
      | nil => rfl
      | cons hd _ ih => rw [List.map_cons, hd, ih]
    simp only [treeAlgebra, rowUse, hasAlias, hasAliasArgs_eq, hmap]
  caseWhen _ _ _ _ _ _ _ hc hr hd := by
    simp only [treeAlgebra, rowUse, hasAlias, hc, hr, hd]
  coalesce _ _ _ _ _ ha hb := by
    simp only [treeAlgebra, rowUse, hasAlias, ha, hb]

/-- A function without arguments. -/
theorem means_nullary {G : Type} {A : ScalarAlgebra G V D} {env : List (Entry G V D)} {f : G} :
    Means A env (.func f []) (.val (A.func f [])) := by
  have hnil : MeansArgs A env [] (([] : List D).map .val) := MeansArgs.nil
  exact Means.func hnil

theorem meansArgs_of_forall₂ {G : Type} {A : ScalarAlgebra G V D} {env : List (Entry G V D)}
    {es : List (Expr G V)} {ds : List D}
    (h : List.Forall₂ (fun e d => Means A env e (.val d)) es ds) :
    MeansArgs A env es (ds.map .val) := by
  induction h with
  | nil => exact MeansArgs.nil
  | cons he _ ih => exact MeansArgs.cons he ih

/-- A tree without calls evaluates to what the algebra computes. -/
theorem treeAlgebra_rel_rowAlgebra (A : ScalarAlgebra F V D) (data : Nat → Nat → D) :
    AlgebraRel (treeAlgebra : ScalarAlgebra (RowFunc F) V _) (rowAlgebra A data)
      (fun r d => hasAlias r = false → Means (rowAlgebra A data) [] r (.val d)) where
  const _ _ := fun _ => Means.const
  func f ds ds' h := by
    intro hno
    simp only [treeAlgebra, hasAlias, Bool.or_eq_false_iff] at hno
    refine Means.func (meansArgs_of_forall₂ ?_)
    have hargs := hno.2
    clear hno
    induction h with
    | nil => exact .nil
    | cons hd _ ih =>
      simp only [hasAliasArgs, Bool.or_eq_false_iff] at hargs
      exact .cons (hd hargs.1) (ih hargs.2)
  caseWhen _ _ _ _ _ _ _ hc hr hd := by
    intro hno
    simp only [treeAlgebra, hasAlias, Bool.or_eq_false_iff] at hno
    exact Means.caseWhen (hc hno.1.1) (hr hno.1.2) (hd hno.2)
  coalesce _ _ _ _ _ ha hb := by
    intro hno
    simp only [treeAlgebra, hasAlias, Bool.or_eq_false_iff] at hno
    exact Means.coalesce (ha hno.1) (hb hno.2)

mutual

/-- Without inputs a tree can only mean itself. -/
theorem means_tree_inv : ∀ {e d : Expr (RowFunc F) V},
    Means treeAlgebra ([] : List (Entry (RowFunc F) V (Expr (RowFunc F) V))) e (.val d) → d = e
  | _, _, .const => rfl
  | _, _, .func h => by
    rw [meansArgs_tree_inv h]
    rfl
  | _, _, .caseWhen hc hr hd => by
    rw [means_tree_inv hc, means_tree_inv hr, means_tree_inv hd]
    rfl
  | _, _, .coalesce ha hb => by
    rw [means_tree_inv ha, means_tree_inv hb]
    rfl

theorem meansArgs_tree_inv : ∀ {es ds : List (Expr (RowFunc F) V)},
    MeansArgs treeAlgebra ([] : List (Entry (RowFunc F) V (Expr (RowFunc F) V))) es
      (ds.map .val) → ds = es
  | [], _, h => h.nil_val_inv
  | e :: es, ds, h => by
    obtain ⟨d, ds', rfl, he, hes⟩ := h.cons_val_inv
    rw [means_tree_inv he, meansArgs_tree_inv hes]

end

mutual

/-- A part of the mother, as a tree, means itself. -/
theorem means_node {ρ : List (Entry (RowFunc F) V (Expr (RowFunc F) V))} :
    ∀ (e : RowBody F V), Means treeAlgebra ρ e.node (.val e.node)
  | .const _ _ => Means.const
  | .field _ _ _ => means_nullary
  | .func _ args => Means.func (meansArgs_nodes args)
  | .caseWhen _ c r d => Means.caseWhen (means_node c) (means_node r) (means_node d)
  | .coalesce _ a b => Means.coalesce (means_node a) (means_node b)
  | .lfa _ _ _ _ args => Means.func (meansArgs_nodes args)

theorem meansArgs_nodes {ρ : List (Entry (RowFunc F) V (Expr (RowFunc F) V))} :
    ∀ (es : List (RowBody F V)),
      MeansArgs treeAlgebra ρ (RowBody.nodes es) ((RowBody.nodes es).map .val)
  | [] => MeansArgs.nil
  | e :: es => MeansArgs.cons (means_node e) (meansArgs_nodes es)

end

section CallFree

variable {A : ScalarAlgebra F V D} {data : Nat → Nat → D}
  {lam : Nat → Nat → Option (LambdaExpr F V)}

theorem hasAlias_of_byName {e : RowBody F V} {p k : Nat} (h : e.byName = some (p, k)) :
    hasAlias e.node = true := by
  cases e with
  | lfa name t p' k' es => rfl
  | const | field | func | caseWhen | coalesce => cases h

mutual

/-- An argument without a call evaluates to its meaning. -/
theorem means_node_of_rowMeans : ∀ {e : RowBody F V} {d : D}, RowMeans A data lam e d →
    hasAlias e.node = false → Means (rowAlgebra A data) [] e.node (.val d)
  | .const t v, d, h, _ => by
    rw [h]
    exact Means.const
  | .field p k t, d, h, _ => by
    rw [h]
    exact means_nullary
  | .func f es, d, h, hno => by
    obtain ⟨ds, hds, rfl⟩ := h
    simp only [RowBody.node, hasAlias, Bool.or_eq_false_iff] at hno
    exact Means.func (meansArgs_nodes_of_rowMeansArgs hds hno.2)
  | .caseWhen t c r e, d, h, hno => by
    obtain ⟨dc, dr, de, hc, hr, he, rfl⟩ := h
    simp only [RowBody.node, hasAlias, Bool.or_eq_false_iff] at hno
    exact Means.caseWhen (means_node_of_rowMeans hc hno.1.1) (means_node_of_rowMeans hr hno.1.2)
      (means_node_of_rowMeans he hno.2)
  | .coalesce t a b, d, h, hno => by
    obtain ⟨da, db, ha, hb, rfl⟩ := h
    simp only [RowBody.node, hasAlias, Bool.or_eq_false_iff] at hno
    exact Means.coalesce (means_node_of_rowMeans ha hno.1) (means_node_of_rowMeans hb hno.2)
  | .lfa name t p k es, d, _, hno => by cases hno

theorem meansArgs_nodes_of_rowMeansArgs : ∀ {es : List (RowBody F V)} {ds : List D},
    RowMeansArgs A data lam es (ds.map .val) → hasAliasArgs (RowBody.nodes es) = false →
      MeansArgs (rowAlgebra A data) [] (RowBody.nodes es) (ds.map .val)
  | [], ds, h, _ => by
    simp only [RowMeansArgs, List.map_eq_nil_iff] at h
    rw [h]
    exact MeansArgs.nil
  | e :: es, ds, h, hno => by
    obtain ⟨E, Es', hEs, hE, hrest⟩ := h
    simp only [RowBody.nodes, hasAliasArgs, Bool.or_eq_false_iff] at hno
    cases ds with
    | nil => cases hEs
    | cons d ds =>
      cases hEs
      rcases hE with ⟨p, k, le, hname, _, _⟩ | ⟨_, d', hd', hmeans⟩
      · rw [hasAlias_of_byName hname] at hno
        cases hno.1
      · cases hd'
        exact MeansArgs.cons (means_node_of_rowMeans hmeans hno.1)
          (meansArgs_nodes_of_rowMeansArgs hrest hno.2)

end

end CallFree

/-! ## The environment of a call -/

section Call

variable {lam : Nat → Nat → Option (LambdaExpr F V)}

theorem callArg_embedEntry {Q : RowBody F V → D → Prop} {e : RowBody F V} {E : Entry F V D}
    (h : CallArg id lam Q e E) : CallArg embedLambda lam Q e (embedEntry E) := by
  rcases h with ⟨p, k, le, hname, hle, rfl⟩ | ⟨hname, d, rfl, hd⟩
  · exact .inl ⟨p, k, le, hname, hle, rfl⟩
  · exact .inr ⟨hname, d, rfl, hd⟩

theorem callArgs_map_embedEntry {Q : RowBody F V → D → Prop} {es : List (RowBody F V)}
    {Es : List (Entry F V D)} (h : List.Forall₂ (CallArg id lam Q) es Es) :
    List.Forall₂ (CallArg embedLambda lam Q) es (Es.map embedEntry) := by
  induction h with
  | nil => exact .nil
  | cons hE _ ih => exact .cons (callArg_embedEntry hE) ih

end Call

end HolLambdas.Row
