import HolLambdas.Parse.RowContext
import Mathlib.Logic.Function.Iterate

/-!
# Display names of lambda columns

In a result, the name of a lambda column shows the signature: `lambdaDecorateTargetName` of
`lambda_print.c` puts `(id:N)` behind the name, where `N` is the typmod. The columns that a
`*` stands for are named that way (`expandNSItemAttrs`), so nested levels of `SELECT *`
decorate one name several times. `lambdaUndecorateName` takes the suffix off where the columns
of a subquery are looked up by name.

Whether a name is decorated can only be seen from its end, and a name that ends in the suffix
is not decorated again: "else a CTAS'd lambda column re-expanded by SELECT * becomes
"f(id:0)(id:0)" and no longer resolves back to "f"". So all levels together add at most one
suffix, and one is taken off (`undecorate_decorated`). The price is that a column which is
really called `f(id:0)` is taken for a decorated `f`.

A missing name stays missing in both functions and is left out.
-/

namespace HolLambdas.Row

open Scalar Parse

/-- `psprintf("(id:%d)", typmod)` -/
def idSuffix (typmod : Int) : String := s!"(id:{typmod})"

/-- `lambdaDecorateTargetName`. -/
def lambdaDecorateTargetName (exprTypmod : Int) (colname : String) : String :=
  if exprTypmod < 0 then colname
  else
    let suffix := idSuffix exprTypmod
    if colname.length ≥ suffix.length ∧ suffix.toList.isSuffixOf colname.toList then colname
    else colname ++ suffix

/-- The labels that `expandNSItemAttrs` gives to the columns. -/
def expandNSItemAttrs (columns : List TargetEntry) : List TargetEntry :=
  columns.map fun tent =>
    if tent.exprType = LAMBDAOID then
      { tent with resname := lambdaDecorateTargetName tent.exprTypmod tent.resname }
    else tent

/-! ## One decoration -/

variable {t : Int}

/-- The length test adds nothing to the suffix test. -/
theorem decorate_eq (ht : 0 ≤ t) (n : String) :
    lambdaDecorateTargetName t n =
      if (idSuffix t).toList <:+ n.toList then n else n ++ idSuffix t := by
  unfold lambdaDecorateTargetName
  rw [if_neg (by omega)]
  by_cases hsuffix : (idSuffix t).toList <:+ n.toList
  · have hlength : (idSuffix t).length ≤ n.length := by
      simpa only [String.length_toList] using hsuffix.length_le
    rw [if_pos hsuffix, if_pos ⟨hlength, List.isSuffixOf_iff_suffix.mpr hsuffix⟩]
  · rw [if_neg hsuffix, if_neg fun h => hsuffix (List.isSuffixOf_iff_suffix.mp h.2)]

theorem suffix_decorate (ht : 0 ≤ t) (n : String) :
    (idSuffix t).toList <:+ (lambdaDecorateTargetName t n).toList := by
  rw [decorate_eq ht]
  split
  · assumption
  · rw [String.toList_append]
    exact List.suffix_append _ _

/-- A decorated name stays as it is. -/
theorem decorate_decorate (ht : 0 ≤ t) (n : String) :
    lambdaDecorateTargetName t (lambdaDecorateTargetName t n) = lambdaDecorateTargetName t n := by
  rw [decorate_eq ht (lambdaDecorateTargetName t n), if_pos (suffix_decorate ht n)]

theorem decorate_iterate (ht : 0 ≤ t) (n : String) (k : Nat) :
    (lambdaDecorateTargetName t)^[k + 1] n = lambdaDecorateTargetName t n := by
  induction k with
  | zero => rfl
  | succ k ih => rw [Function.iterate_succ_apply', ih, decorate_decorate ht]

/-! ## Taking it off -/

/-- With something before the suffix, the suffix is taken off. -/
theorem undecorate_append (ht : 0 ≤ t) {m : String} (hm : m ≠ "") :
    lambdaUndecorateName t (m ++ idSuffix t) = m := by
  have hpos : 0 < m.length := Nat.pos_of_ne_zero fun h => hm (String.length_eq_zero_iff.mp h)
  have hsuffix : (idSuffix t).toList.isSuffixOf (m ++ idSuffix t).toList = true := by
    rw [List.isSuffixOf_iff_suffix, String.toList_append]
    exact List.suffix_append _ _
  have hlength : (m ++ idSuffix t).length > (idSuffix t).length := by
    rw [String.length_append]
    omega
  unfold lambdaUndecorateName
  rw [if_neg (by omega)]
  change (if _ > (idSuffix t).length ∧ (idSuffix t).toList.isSuffixOf _ = true then
    String.ofList (List.take (_ - (idSuffix t).length) _) else _) = _
  rw [if_pos ⟨hlength, hsuffix⟩, String.length_append, Nat.add_sub_cancel, String.toList_append,
    ← String.length_toList, List.take_left, String.ofList_toList]

/-- A name that does not look decorated, the bare suffix included, stays as it is. -/
theorem undecorate_plain {n : String} (hplain : ∀ m, m ≠ "" → n ≠ m ++ idSuffix t) :
    lambdaUndecorateName t n = n := by
  unfold lambdaUndecorateName
  split
  · rfl
  · refine if_neg ?_
    rintro ⟨hlength, hsuffix⟩
    change n.length > (idSuffix t).length at hlength
    obtain ⟨front, hfront⟩ := List.isSuffixOf_iff_suffix.mp hsuffix
    refine hplain (String.ofList front) ?_ ?_
    · intro hempty
      have hnil : front = [] := by simpa using congrArg String.toList hempty
      have hn : n = idSuffix t := by
        rw [← String.toList_inj, ← hfront, hnil]
        rfl
      exact absurd hlength (by rw [hn]; exact Nat.lt_irrefl _)
    · rw [← String.toList_inj, String.toList_append, String.toList_ofList]
      exact hfront.symm

/-- A name that does not look decorated is there again after any number of decorations and
one undecoration. -/
theorem undecorate_iterate {n : String} (hn : n ≠ "")
    (hplain : ∀ m, m ≠ "" → n ≠ m ++ idSuffix t) (k : Nat) :
    lambdaUndecorateName t ((lambdaDecorateTargetName t)^[k] n) = n := by
  by_cases ht : 0 ≤ t
  · cases k with
    | zero => exact undecorate_plain hplain
    | succ k =>
      rw [decorate_iterate ht n, decorate_eq ht]
      split
      · exact undecorate_plain hplain
      · exact undecorate_append ht hn
  · have hfixed : lambdaDecorateTargetName t n = n := if_pos (by omega)
    rw [Function.iterate_fixed hfixed, undecorate_plain hplain]

/-- A name that is decorated any number of times is the same after one undecoration, unless
it ends in the suffix itself and has something before it. Such a name counts as decorated, and
what is before the suffix is left. -/
theorem undecorate_decorated {n : String} {k : Nat} (ht : 0 ≤ t) (hn : n ≠ "") (hk : 1 ≤ k) :
    ((∀ m, m ≠ "" → n ≠ m ++ idSuffix t) →
        lambdaUndecorateName t ((lambdaDecorateTargetName t)^[k] n) = n) ∧
      ∀ m, m ≠ "" → n = m ++ idSuffix t →
        lambdaUndecorateName t ((lambdaDecorateTargetName t)^[k] n) = m := by
  refine ⟨fun hplain => undecorate_iterate hn hplain k, ?_⟩
  intro m hm hnm
  have hsuffix : (idSuffix t).toList <:+ n.toList := by
    rw [hnm, String.toList_append]
    exact List.suffix_append _ _
  obtain ⟨k, rfl⟩ := Nat.exists_eq_add_of_le' hk
  rw [decorate_iterate ht n, decorate_eq ht, if_pos hsuffix, hnm, undecorate_append ht hm]

theorem undecorate_decorated_twice :
    lambdaUndecorateName 3 ((lambdaDecorateTargetName 3)^[2] "f") = "f" := by
  refine (undecorate_decorated (by decide) (by decide) (by decide)).1 ?_
  intro m _ hm
  have hlength := congrArg String.length hm
  rw [String.length_append, show (idSuffix 3).length = 6 by decide,
    show "f".length = 1 by decide] at hlength
  omega

/-- A column that is called `f(id:0)` and has the typmod 0 is found as `f`. -/
theorem undecorate_decorated_fails :
    lambdaUndecorateName 0 ((lambdaDecorateTargetName 0)^[1] "f(id:0)") ≠ "f(id:0)" := by
  decide

/-! ## Nested stars -/

theorem expandNSItemAttrs_iterate (columns : List TargetEntry) (k : Nat) :
    expandNSItemAttrs^[k] columns = columns.map fun tent =>
      if tent.exprType = LAMBDAOID then
        { tent with resname := (lambdaDecorateTargetName tent.exprTypmod)^[k] tent.resname }
      else tent := by
  induction k with
  | zero => simp
  | succ k ih =>
    rw [Function.iterate_succ_apply', ih, expandNSItemAttrs, List.map_map]
    refine List.map_congr_left fun tent _ => ?_
    by_cases hlambda : tent.exprType = LAMBDAOID
    · simp only [Function.comp_apply, if_pos hlambda, Function.iterate_succ_apply']
    · simp only [Function.comp_apply, if_neg hlambda]

/-- Through any number of levels of `SELECT *` the columns of a subquery are found under the
names they have at the bottom. -/
theorem subqueryDesc_expand {columns : List TargetEntry}
    (hcolumns : ∀ tent ∈ columns, tent.resname ≠ "" ∧
      ∀ m, m ≠ "" → tent.resname ≠ m ++ idSuffix tent.exprTypmod) (k : Nat) :
    (subqueryDesc (expandNSItemAttrs^[k] columns)).map Attribute.attname =
      columns.map TargetEntry.resname := by
  rw [expandNSItemAttrs_iterate, subqueryDesc, List.map_map, List.map_map]
  refine List.map_congr_left fun tent htent => ?_
  obtain ⟨hne, hplain⟩ := hcolumns tent htent
  by_cases hlambda : tent.exprType = LAMBDAOID
  · simp only [Function.comp_apply, if_pos hlambda]
    exact undecorate_iterate hne hplain k
  · simp only [Function.comp_apply, if_neg hlambda]
    exact undecorate_plain hplain

theorem subqueryDesc_expand_twice :
    (subqueryDesc (expandNSItemAttrs^[2] [⟨"f", LAMBDAOID, 3⟩])).map Attribute.attname = ["f"] := by
  refine subqueryDesc_expand (fun tent htent => ?_) 2
  rw [List.mem_singleton.mp htent]
  refine ⟨by decide, fun m _ hm => Nat.ne_of_lt ?_ (congrArg String.length hm)⟩
  rw [String.length_append]
  exact Nat.lt_add_left _ (by decide)

end HolLambdas.Row
