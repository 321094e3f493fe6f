import Mathlib.Algebra.BigOperators.Group.List.Basic
import Mathlib.Algebra.Order.Field.Rat
import Mathlib.Tactic.FieldSimp
import Mathlib.Tactic.Positivity
import HolLambdas.Parallel.Workers

/-!
# `apply_mt_agg_pw`: the average over all results

The aggregating variant has the processes of `apply_mt_pw`, and differs in what becomes of
a result: the worker adds it to a sum, and at the end of the job writes the sum to the
job's entry of `partial_sums`. After the workers have finished, the leader adds up the
entries in the order of the jobs and divides by the number of results. Numbers are exact
here, so that the order of a sum does not matter.

An `AggState` is a state of `apply_mt_pw` with the sums; its slots are not used, and serve
as a record of what was evaluated. While a worker is in a job, its sum and the values of
the rows to come are the total of the job (`AggInv`), so that after the last worker has
stopped the entries are the totals, and these add up to the sum over all pairs, because
the jobs partition the pairs.

The leader's counts are `int`s, its jobs are allocated with `palloc`, and the offsets in the
pack of lambdas are `uint32`s. The average is right for all rows and lambdas exactly if both
counts fit, the jobs can be allocated and no lambda in the pack is damaged
(`applyMtAggPw_average_iff`).
-/

namespace HolLambdas

open Function

/-- A state of the processes, with the job and the sum of each worker. -/
structure AggState (k : Nat) (ρ : Type) where
  shared : ApplyPwState k ρ ℚ
  job : Fin k → Nat
  sum : Fin k → ℚ
  partial_sums : Nat → ℚ

def ResultCell.result {ρ β : Type} : ResultCell ρ β → β
  | tuple _ r => r
  | datum r => r

theorem result_resultCell {ρ β : Type} (flat : Bool) (row : ρ) (v : β) :
    (resultCell flat row v).result = v := by
  cases flat <;> rfl

/-- `sum += DatumGetFloat8(result)`. -/
def addResult {τ ρ : Type} (sum : ℚ) : WorkerPoint τ (ResultCell ρ ℚ) → ℚ
  | .storing _ v _ => sum + v.result
  | _ => sum

/-- The sums are zeroed. -/
def AggState.initial {k : Nat} {ρ : Type} : AggState k ρ where
  shared := ApplyPwCall.initial
  job := fun _ => 0
  sum := fun _ => 0
  partial_sums := fun _ => 0

namespace ApplyPwCall

variable {ρ : Type} {k : Nat} (call : ApplyPwCall ρ ℚ)

/-- What a step does to the sums: a worker that claims a job begins with zero, and one that
ends it writes the sum to the job's entry. -/
def record (s : AggState k ρ) (a : ApplyPwAction k) (shared : ApplyPwState k ρ ℚ) :
    AggState k ρ :=
  match a with
  | .claim w =>
    { s with shared, job := update s.job w s.shared.next_job,
             sum := update s.sum w 0 }
  | .storeResult w =>
    { s with shared, sum := update s.sum w (addResult (s.sum w) (s.shared.pool.point w)) }
  | .endJob w =>
    { s with shared, partial_sums := update s.partial_sums (s.job w) (s.sum w) }
  | _ => { s with shared }

/-- A step of `apply_mt_pw`, and what it does to the sums. -/
def aggStep (s : AggState k ρ) (a : ApplyPwAction k) : Option (AggState k ρ) :=
  (call.step s.shared a).map (record s a)

/-- The leader's sum and division. With no results it is 0 / 0, not a number. -/
def average (s : AggState k ρ) : Option ℚ :=
  let cummulative_sum := if call.launches then
    (List.range call.num_jobs.toNat).foldl (fun sum j => sum + s.partial_sums j) 0 else 0
  if call.num_tuples_result = 0 then none
  else some (cummulative_sum / call.num_tuples_result)

/-- The average of all lambdas over all rows. -/
def exactAverage : ℚ :=
  (∑ l ∈ Finset.range call.lambdas, (call.rows.map (call.eval call.mode l)).sum) /
    (call.rows.length * call.lambdas)

/-- Every run with `k` workers can be completed, and whenever it is, the average is
right. -/
def AverageCorrect (k : Nat) : Prop :=
  Computes call.aggStep (.initial : AggState k ρ) (fun s => call.Returned s.shared) call.average
    (some call.exactAverage)

variable {call}

/-! ## The processes are those of `apply_mt_pw` -/

theorem record_shared (s : AggState k ρ) (a : ApplyPwAction k) (shared : ApplyPwState k ρ ℚ) :
    (record s a shared).shared = shared := by
  cases a with
  | copyRow | setReady | claim | seeReady | evalRow | storeResult | endJob => rfl

theorem map_aggStep (s : AggState k ρ) (a : ApplyPwAction k) :
    (call.aggStep s a).map AggState.shared = call.step s.shared a := by
  rw [aggStep, Option.map_map]
  cases call.step s.shared a with
  | none => rfl
  | some shared => rw [Option.map_some, Function.comp_apply, record_shared]

variable {s : AggState k ρ} {w : Fin k}

theorem reachable_shared (h : Reachable call.aggStep (fun _ _ => True) .initial s) :
    Reachable call.step (fun _ _ => True) ApplyPwCall.initial s.shared :=
  h.map AggState.shared map_aggStep fun _ _ _ => trivial

/-- The leader comes to the end. -/
theorem exists_aggReturned (halloc : call.allocates = true)
    (hrows : (call.rows.length : Int) ≤ PG_INT32_MAX) (hk : (k : Int) ≤ PG_INT32_MAX)
    (h : Reachable call.aggStep (fun _ _ => True) .initial s) :
    ∃ s', Reachable call.aggStep (fun _ _ => True) s s' ∧ call.Returned s'.shared := by
  have hinv := inv_of_reachable hk (reachable_shared h)
  obtain ⟨t, ht, hret⟩ := exists_returned halloc (fun _ => hrows) hk hinv
  obtain ⟨s', rfl, hs'⟩ := ht.lift map_aggStep fun _ _ _ => trivial
  exact ⟨s', hs', hret⟩

/-! ## Totals of jobs -/

/-- The tasks of a job that are not in the sum yet. -/
def remaining {τ β : Type} : WorkerPoint τ β → Option (List τ)
  | .busy rest => some rest
  | .storing t _ rest => some (t :: rest)
  | _ => none

variable (call) in
/-- The value of a pair, for the lambda as it is loaded. -/
def value (t : Nat × Nat) : ℚ :=
  (call.rows[t.2]?).elim 0 (call.loaded t.1)

theorem result_eq_value {t : Nat × Nat} {v : ResultCell ρ ℚ} (h : call.Result t v) :
    v.result = call.value t := by
  obtain ⟨row, hrow, rfl⟩ := h
  have hrow' : call.rows[t.2]? = some row := hrow
  rw [value, hrow', Option.elim_some, result_resultCell]

variable (call) in
def jobTotal (j : Nat) : ℚ := ((call.tasks j).map call.value).sum

/-- A sum with what is still to come is the total of the job, and every claimed job has its
total in its entry or a worker at it. -/
structure AggInv (call : ApplyPwCall ρ ℚ) (s : AggState k ρ) : Prop where
  sums : ∀ w rest, remaining (s.shared.pool.point w) = some rest →
    s.sum w + (rest.map call.value).sum = call.jobTotal (s.job w)
  entries : ∀ j ∈ s.shared.pool.claimed, s.partial_sums j = call.jobTotal j ∨
    ∃ w rest, remaining (s.shared.pool.point w) = some rest ∧ s.job w = j

theorem aggInv_initial : AggInv call (.initial : AggState k ρ) where
  sums := nofun
  entries := nofun

theorem remaining_update {τ β : Type} {f : Fin k → WorkerPoint τ β} {b : WorkerPoint τ β}
    (h : remaining b = remaining (f w)) (u : Fin k) :
    remaining (update f w b u) = remaining (f u) := by
  by_cases huw : u = w
  · rw [huw, update_self, h]
  · rw [update_of_ne huw]

/-- A worker other than `w` stays in its job while `w` moves. -/
theorem AggInv.elsewhere (h : AggInv call s) {b : WorkerPoint (Nat × Nat) (ResultCell ρ ℚ)}
    {u : Fin k} {rest : List (Nat × Nat)}
    (huw : u ≠ w) (hrest : remaining (update s.shared.pool.point w b u) = some rest) :
    s.sum u + (rest.map call.value).sum = call.jobTotal (s.job u) := by
  rw [update_of_ne huw] at hrest
  exact h.sums u rest hrest

/-- **One step** keeps the sums, whoever takes it. -/
theorem AggInv.of_step (hd : call.Delivered s.shared) (h : AggInv call s) {a : ApplyPwAction k}
    {shared : ApplyPwState k ρ ℚ} (hs : call.Step s.shared a shared) :
    AggInv call (record s a shared) := by
  cases hs with
  | copyRow | setReady | seeReady => exact ⟨h.sums, h.entries⟩
  | @stop w hw hj =>
    -- the worker has no job, so no sum of its is open
    have hidle : ∀ u rest, remaining (s.shared.pool.point u) = some rest → u ≠ w := by
      rintro u rest hrest rfl
      rw [hw] at hrest
      cases hrest
    have hsame := remaining_update (f := s.shared.pool.point) (w := w) (b := .stopped)
      (by rw [hw]; rfl)
    constructor
    · intro u rest hrest
      simp only [record, WorkPool.stop, hsame] at hrest ⊢
      rw [update_of_ne (hidle u rest hrest), update_of_ne (hidle u rest hrest)]
      exact h.sums u rest hrest
    · intro i hi
      simp only [record, WorkPool.stop, hsame] at hi ⊢
      refine (h.entries i hi).imp_right ?_
      rintro ⟨u, rest, hrest, hjob⟩
      refine ⟨u, rest, hrest, ?_⟩
      rw [update_of_ne (hidle u rest hrest)]
      exact hjob
  | @claim w hw hj =>
    constructor
    · intro u rest hrest
      simp only [record, WorkPool.claim] at hrest ⊢
      by_cases huw : u = w
      · subst huw
        rw [update_self, remaining, Option.some.injEq] at hrest
        rw [update_self, update_self, zero_add, ← hrest, jobTotal]
      · rw [update_of_ne huw, update_of_ne huw]
        exact h.elsewhere huw hrest
    · intro i hi
      simp only [record, WorkPool.claim] at hi ⊢
      rcases List.mem_append.mp hi with hold | hnew
      · refine (h.entries i hold).imp_right ?_
        rintro ⟨u, rest, hrest, hjob⟩
        have huw : u ≠ w := by
          rintro rfl
          rw [hw] at hrest
          cases hrest
        exact ⟨u, rest, by rw [update_of_ne huw, hrest],
          by rw [update_of_ne huw, hjob]⟩
      · refine .inr ⟨w, call.tasks s.shared.next_job, ?_, ?_⟩
        · rw [update_self]
          rfl
        · rw [update_self, List.mem_singleton.mp hnew]
  | @evalRow w t rest hw _ =>
    -- a result counts when it is stored
    have hsame := remaining_update (f := s.shared.pool.point) (w := w)
      (b := .storing t (resultCell call.result_flat ((s.shared.data t.2).getD call.garbage)
        (call.loaded t.1 ((s.shared.data t.2).getD call.garbage))) rest) (by rw [hw]; rfl)
    constructor
    · simp only [record, evalRow, WorkPool.eval, hsame]
      exact h.sums
    · simp only [record, evalRow, WorkPool.eval, hsame]
      exact h.entries
  | @storeResult w t v rest hw =>
    constructor
    · intro u rest' hrest
      simp only [record, storeResult, WorkPool.store, hw, addResult] at hrest ⊢
      by_cases huw : u = w
      · subst huw
        rw [update_self] at hrest
        cases hrest
        have hv := result_eq_value (hd.filled.atHand u t v rest hw)
        have hsum := h.sums u (t :: rest) (by rw [hw]; rfl)
        rw [List.map_cons, List.sum_cons] at hsum
        rw [update_self, hv, add_assoc]
        exact hsum
      · rw [update_of_ne huw]
        exact h.elsewhere huw hrest
    · intro i hi
      simp only [record, storeResult, WorkPool.store] at hi ⊢
      refine (h.entries i hi).imp_right ?_
      rintro ⟨u, rest', hrest, hjob⟩
      by_cases huw : u = w
      · exact ⟨w, rest, by rw [update_self]; rfl, by rw [← huw, hjob]⟩
      · exact ⟨u, rest', by rw [update_of_ne huw, hrest], hjob⟩
  | @endJob w hw _ =>
    -- nothing remains, so the sum is the job's total
    have htotal : s.sum w = call.jobTotal (s.job w) := by
      have hsum := h.sums w [] (by rw [hw]; rfl)
      rw [List.map_nil, List.sum_nil, add_zero] at hsum
      exact hsum
    constructor
    · intro u rest hrest
      simp only [record, WorkPool.finish] at hrest ⊢
      by_cases huw : u = w
      · rw [huw, update_self] at hrest
        cases hrest
      · exact h.elsewhere huw hrest
    · intro i hi
      simp only [record, WorkPool.finish] at hi ⊢
      by_cases hij : i = s.job w
      · rw [hij, update_self]
        exact .inl htotal
      · rw [update_of_ne hij]
        refine (h.entries i hi).imp_right ?_
        rintro ⟨u, rest, hrest, hjob⟩
        have huw : u ≠ w := by
          rintro rfl
          exact hij hjob.symm
        exact ⟨u, rest, by rw [update_of_ne huw, hrest], hjob⟩

/-! ## The average of a completed run -/

/-- A list built in pieces, summed up piece by piece. -/
theorem sum_flatMap_range {τ : Type} (tasks : Nat → List τ) (f : τ → ℚ) (n : Nat) :
    (((List.range n).flatMap tasks).map f).sum = ∑ j ∈ Finset.range n, ((tasks j).map f).sum := by
  induction n with
  | zero => rfl
  | succ n ih =>
    rw [List.range_succ, List.flatMap_append, List.flatMap_singleton, List.map_append,
      List.sum_append, ih, Finset.sum_range_succ]

theorem foldl_range_add (f : Nat → ℚ) (n : Nat) :
    (List.range n).foldl (fun sum j => sum + f j) 0 = ∑ j ∈ Finset.range n, f j := by
  induction n with
  | zero => rfl
  | succ n ih => rw [List.range_succ, List.foldl_append, ih, Finset.sum_range_succ]; rfl

theorem sum_value_row (call : ApplyPwCall ρ ℚ) (l : Nat) :
    ((List.range call.rows.length).map fun i => call.value (l, i)) =
      call.rows.map (call.loaded l) := by
  apply List.ext_getElem (by simp)
  intro i hi _
  rw [List.length_map, List.length_range] at hi
  rw [List.getElem_map, List.getElem_map, List.getElem_range, value,
    List.getElem?_eq_getElem hi, Option.elim_some]

/-- The jobs make up the table. -/
theorem Fits.sum_jobTotal (h : call.Fits) (hl : call.launches = true) :
    ∑ j ∈ Finset.range call.num_jobs.toNat, call.jobTotal j =
      ∑ l ∈ Finset.range call.lambdas, (call.rows.map (call.loaded l)).sum := by
  unfold jobTotal
  rw [← sum_flatMap_range, flatMap_tasks hl, h.num_tuples_data, h.num_tuples_lambda,
    Int.toNat_natCast, Int.toNat_natCast, allPairs, sum_flatMap_range]
  apply Finset.sum_congr rfl
  intro l _
  rw [List.map_map, ← sum_value_row]
  rfl

theorem aggInv_of_reachable (hk : (k : Int) ≤ PG_INT32_MAX)
    (h : Reachable call.aggStep (fun _ _ => True) .initial s) : AggInv call s := by
  have hboth : (call.Inv s.shared ∧ call.Delivered s.shared) ∧ AggInv call s := by
    refine h.invariant (I := fun s =>
      (call.Inv s.shared ∧ call.Delivered s.shared) ∧ AggInv call s) ?_ ?_
    · exact ⟨⟨inv_initial, delivered_initial⟩, aggInv_initial⟩
    · intro s a s' hs _ hstep
      obtain ⟨shared, hshared, rfl⟩ := Option.map_eq_some_iff.mp hstep
      have hcases := step_cases hshared
      rw [record_shared]
      exact ⟨⟨hs.1.1.step hk hcases, hs.1.2.step (launches_of_step hshared) hs.1.1 hcases⟩,
        hs.2.of_step hs.1.2 hcases⟩
  exact hboth.2

/-- When all workers have stopped, every job has its total in its entry. -/
theorem AggInv.entry_eq (h : AggInv call s) (hi : call.Inv s.shared) (hk : 1 ≤ k)
    (hstop : ∀ w, s.shared.pool.point w = .stopped) {j : Nat}
    (hj : j < call.num_jobs.toNat) : s.partial_sums j = call.jobTotal j := by
  have hexhausted := hi.exhausted ⟨0, hk⟩ (hstop ⟨0, hk⟩)
  have hmem : j ∈ s.shared.pool.claimed := by
    rw [hi.claimed, Nat.min_eq_right hexhausted]
    exact List.mem_range.mpr hj
  rcases h.entries j hmem with hentry | ⟨w, rest, hrest, _⟩
  · exact hentry
  · rw [hstop w] at hrest
    cases hrest

/-- With counts that fit, the average of a completed run is that of the lambdas as they
were loaded. -/
theorem average_eq (hfits : call.Fits) (hrows : 1 ≤ call.rows.length) (hlambdas : 1 ≤ call.lambdas)
    (hk : 1 ≤ k) (hk' : (k : Int) ≤ PG_INT32_MAX)
    (hs : Reachable call.aggStep (fun _ _ => True) .initial s) (hret : call.Returned s.shared) :
    call.average s = some
      ((∑ l ∈ Finset.range call.lambdas, (call.rows.map (call.loaded l)).sum) /
        (call.rows.length * call.lambdas)) := by
  have hl := hfits.launches hrows hlambdas
  have hinv := inv_of_reachable hk' (reachable_shared hs)
  have hagg := aggInv_of_reachable hk' hs
  have hsum : ∑ j ∈ Finset.range call.num_jobs.toNat, s.partial_sums j =
      ∑ l ∈ Finset.range call.lambdas, (call.rows.map (call.loaded l)).sum := by
    rw [← hfits.sum_jobTotal hl]
    apply Finset.sum_congr rfl
    intro j hj
    exact hagg.entry_eq hinv hk (hret.2 hl).2 (Finset.mem_range.mp hj)
  have hcount : call.num_tuples_result = (call.rows.length * call.lambdas : Nat) := by
    rw [num_tuples_result, hfits.num_tuples_data, hfits.num_tuples_lambda, Nat.cast_mul]
  have hpos : 0 < call.rows.length * call.lambdas := Nat.mul_pos hrows hlambdas
  rw [average, if_pos hl, foldl_range_add, hsum, hcount, if_neg (by omega), Int.cast_natCast,
    Nat.cast_mul]

/-! ## Where the average is wrong -/

open Classical in
/-- A table of the dimensions of `call`, with a single one in the first row of the first
lambda. -/
noncomputable def single (call : ApplyPwCall ρ ℚ) (a b : ρ) : ApplyPwCall ρ ℚ :=
  { call with
    rows := b :: List.replicate (call.rows.length - 1) a
    eval := fun _ l row => if l = 0 ∧ row = b then 1 else 0
    damaged := fun _ _ => 2 }

/-- The jobs depend on the dimensions of the table only. -/
theorem num_jobs_congr {call' : ApplyPwCall ρ ℚ} (hrows : call'.rows.length = call.rows.length)
    (hlambdas : call'.lambdas = call.lambdas) (hmode : call'.mode = call.mode)
    (hnworkers : call'.nworkers = call.nworkers) : call'.num_jobs = call.num_jobs := by
  have hdata : call'.num_tuples_data = call.num_tuples_data :=
    congrArg (fun n : Nat => wrap32 n) hrows
  have hlambda : call'.num_tuples_lambda = call.num_tuples_lambda :=
    congrArg (fun m : Nat => wrap32 m) hlambdas
  have hrequested : call'.requestedWorkers = call.requestedWorkers :=
    congrArg (fun n : Int => if n < 1 then 1 else n) hnworkers
  have hsplit : call'.splitChunks = call.splitChunks := by
    unfold splitChunks
    rw [hlambda, hrequested, hmode]
  unfold num_jobs chunks_per_lambda
  rw [hdata, hlambda, hsplit]

section Single

variable {a b : ρ}

theorem single_length (hrows : 1 ≤ call.rows.length) :
    (call.single a b).rows.length = call.rows.length := by
  rw [single, List.length_cons, List.length_replicate]
  omega

theorem single_average (hab : a ≠ b) (hrows : 1 ≤ call.rows.length) (hlambdas : 1 ≤ call.lambdas) :
    (call.single a b).exactAverage = 1 / (call.rows.length * call.lambdas) := by
  have hsum : ∑ l ∈ Finset.range call.lambdas, ((call.single a b).rows.map
      ((call.single a b).eval call.mode l)).sum = 1 := by
    rw [Finset.sum_eq_single_of_mem 0 (Finset.mem_range.mpr hlambdas)]
    · simp [single, hab]
    · intro l _ hl
      simp [single, hl]
  rw [exactAverage, single_length hrows]
  exact congrArg (· / ((call.rows.length : ℚ) * call.lambdas)) hsum

theorem single_nonneg (l : Nat) (row : ρ) : 0 ≤ (call.single a b).loaded l row := by
  unfold loaded
  split
  · simp only [single]
    split <;> norm_num
  · simp [single]

/-- With a count that does not fit the leader raises, never returns or returns zero. -/
theorem single_fits (hab : a ≠ b) (hrows : 1 ≤ call.rows.length) (hlambdas : 1 ≤ call.lambdas)
    (hk : (k : Int) ≤ PG_INT32_MAX) {s : AggState k ρ}
    (hs : Reachable (call.single a b).aggStep (fun _ _ => True) .initial s)
    (hret : (call.single a b).Returned s.shared)
    (h : (call.single a b).average s = some (call.single a b).exactAverage) : call.Fits := by
  refine ⟨?_, (allocates_iff.mp hret.1).1⟩
  by_cases hl : (call.single a b).launches = true
  · rw [← single_length hrows]
    exact (inv_of_reachable hk (reachable_shared hs)).rows_fit (hret.2 hl).1
  · have hnm : (0 : ℚ) < call.rows.length * call.lambdas := by
      exact_mod_cast Nat.mul_pos hrows hlambdas
    rw [average, if_neg hl, zero_div, single_average hab hrows hlambdas] at h
    split at h
    · cases h
    · exact absurd (Option.some.inj h) (by positivity)

/-- A damaged lambda makes the sum too large. -/
theorem single_damaged (hrows : 1 ≤ call.rows.length) {l : Nat} (hl : l < call.lambdas)
    (h : ¬ PackIntact call.sizes (wrap32 call.lambdas).toNat l) :
    2 ≤ ∑ l ∈ Finset.range call.lambdas, ((call.single a b).rows.map
      ((call.single a b).loaded l)).sum := by
  have hnonneg : ∀ j ∈ Finset.range call.lambdas,
      0 ≤ ((call.single a b).rows.map ((call.single a b).loaded j)).sum := by
    intro j _
    apply List.sum_nonneg
    intro x hx
    obtain ⟨row, _, rfl⟩ := List.mem_map.mp hx
    exact single_nonneg j row
  have hrow : ((call.single a b).rows.map ((call.single a b).loaded l)).sum =
      call.rows.length * 2 := by
    have hconst : (call.single a b).loaded l = fun _ => 2 := by
      funext row
      exact if_neg h
    rw [hconst, List.map_const', List.sum_replicate, single_length hrows, nsmul_eq_mul]
  have hsingle := Finset.single_le_sum hnonneg (Finset.mem_range.mpr hl)
  rw [hrow] at hsingle
  have htwo : (2 : ℚ) ≤ call.rows.length * 2 := by exact_mod_cast Nat.mul_le_mul_right 2 hrows
  exact htwo.trans hsingle

end Single

end ApplyPwCall

open ApplyPwCall

/-- The parallel average on `k` workers: every run over every table of the dimensions of
`call` can be completed and ends with the exact average, exactly if the two counts fit an
`int`, the jobs can be allocated and the offsets of the packed lambdas fit a `uint32`. -/
theorem applyMtAggPw_average_iff {ρ : Type} [Nontrivial ρ] {k : Nat} (call : ApplyPwCall ρ ℚ)
    (hk : 1 ≤ k) (hk' : (k : Int) ≤ PG_INT32_MAX) (hrows : 1 ≤ call.rows.length)
    (hlambdas : 1 ≤ call.lambdas) (hsizes : ∀ l, 0 < call.sizes l ∧ call.sizes l < 2 ^ 30) :
    (∀ rows eval damaged, rows.length = call.rows.length →
      { call with rows, eval, damaged }.AverageCorrect k) ↔
    ((call.rows.length : Int) ≤ PG_INT32_MAX ∧ (call.lambdas : Int) ≤ PG_INT32_MAX) ∧
      24 * call.num_jobs ≤ MaxAllocSize ∧
      packedSize call.sizes (call.lambdas - 1) < 2 ^ 32 := by
  constructor
  · intro h
    obtain ⟨a, b, hab⟩ := exists_pair_ne ρ
    have hlength := single_length (a := a) (b := b) hrows
    obtain ⟨hends, haverage⟩ : (call.single a b).AverageCorrect k := h _ _ _ hlength
    obtain ⟨s, hs, hret⟩ := hends _ .init
    have hexact := haverage s hs hret
    have hfit : call.Fits := single_fits hab hrows hlambdas hk' hs hret hexact
    have hjobs : (call.single a b).num_jobs = call.num_jobs :=
      num_jobs_congr hlength rfl rfl rfl
    refine ⟨hfit, hjobs ▸ (allocates_iff.mp hret.1).2,
      (packIntact_iff fun l _ => hsizes l).mp ?_⟩
    intro l hl
    by_contra hdamaged
    have hfits : (call.single a b).Fits := ⟨by rw [hlength]; exact hfit.1, hfit.2⟩
    have htwo := single_damaged (a := a) (b := b) hrows hl
      (by rwa [wrap32_natCast hfit.2, Int.toNat_natCast])
    rw [average_eq hfits (by rwa [hlength]) hlambdas hk hk' hs hret,
      single_average hab hrows hlambdas, hlength, Option.some.injEq] at hexact
    have hnm : (call.rows.length : ℚ) * call.lambdas ≠ 0 := by
      have := Nat.mul_pos hrows hlambdas
      exact_mod_cast this.ne'
    have hone := (div_left_inj' hnm).mp hexact
    exact absurd (htwo.trans_eq hone) (by norm_num)
  · rintro ⟨⟨hfitn, hfitm⟩, hjobs, hpack⟩ rows eval damaged hlength
    rw [← hlength] at hfitn hrows
    have hfits : { call with rows, eval, damaged }.Fits := ⟨hfitn, hfitm⟩
    have hsame : { call with rows, eval, damaged }.num_jobs = call.num_jobs :=
      num_jobs_congr hlength rfl rfl rfl
    constructor
    · have halloc : { call with rows, eval, damaged }.allocates = true := by
        rw [allocates_iff, hsame]
        exact ⟨hfitm, hjobs⟩
      exact fun s hs => exists_aggReturned halloc hfits.1 hk' hs
    · intro s hs hret
      rw [average_eq hfits hrows hlambdas hk hk' hs hret, exactAverage]
      have hload : ∀ l, { call with rows, eval, damaged }.loaded l = _ :=
        loaded_of_lt hfitm hpack
      simp only [hload]

/-- The identity over `n` rows with a one in each. -/
def onesCall (n : Nat) : ApplyPwCall ℚ ℚ :=
  { rows := List.replicate n 1, lambdas := 1, eval := fun _ _ row => row, mode := .checked,
    nworkers := 2, result_flat := false, garbage := 0, sizes := fun _ => 100,
    damaged := fun _ _ => 0 }

theorem applyMtAggPw_average_iff_threeRows :
    (1 ≤ 2 ∧ ((2 : Nat) : Int) ≤ PG_INT32_MAX ∧ ∀ l, 0 < (onesCall 3).sizes l ∧
      (onesCall 3).sizes l < 2 ^ 30) ∧ (onesCall 3).AverageCorrect 2 := by
  have hk : ((2 : Nat) : Int) ≤ PG_INT32_MAX := by decide
  have hsizes : ∀ l, 0 < (onesCall 3).sizes l ∧ (onesCall 3).sizes l < 2 ^ 30 := by
    intro l
    simp [onesCall]
  refine ⟨⟨by decide, hk, hsizes⟩, ?_⟩
  refine (applyMtAggPw_average_iff (onesCall 3) (by decide) hk (by decide) (by decide)
    hsizes).mpr ?_ _ _ _ rfl
  exact ⟨⟨by decide, by decide⟩, by decide, by decide⟩

/-- With 2^31 rows `num_tuples_data` is negative and no worker is launched: the operator is
done at once, and returns 0 for the average of ones. -/
theorem applyMtAggPw_ignores_rows :
    (onesCall 2147483648).launches = false ∧
    (onesCall 2147483648).Returned
      (AggState.initial : AggState 1 ℚ).shared ∧
    (onesCall 2147483648).average (AggState.initial : AggState 1 ℚ) = some 0 ∧
    (onesCall 2147483648).exactAverage = 1 := by
  have hlength : (onesCall 2147483648).rows.length = 2147483648 := List.length_replicate
  obtain ⟨hdata, hlaunches, halloc⟩ := not_launches_of_rows hlength rfl
  have hlambda : (onesCall 2147483648).num_tuples_lambda = 1 := by decide
  refine ⟨hlaunches, ⟨halloc, ?_⟩, ?_, ?_⟩
  · rw [hlaunches]
    exact nofun
  · rw [average, hlaunches, num_tuples_result, hdata, hlambda]
    simp
  · rw [exactAverage, hlength]
    simp only [onesCall, Finset.range_one, Finset.sum_singleton, List.map_id', List.sum_replicate]
    norm_num

end HolLambdas
