import HolLambdas.Parallel.PoolSteps
import HolLambdas.WorkPool

/-!
# The thread pool: where a job is

The invariant is one equation for each place where a job can be. Nodes are numbered in
the order of their allocation, so the nodes entered into the queue are `0, 1, …`
(`QueueInv.nodes`); those entered are those taken out, followed by those in the queue
(`QueueInv.queued`), which gives the order; and those taken out are those passed to the
worker function or about to be, as multisets (`Delivered`). A worker leaves when it finds
the flag set and the queue empty, and the flag is set after the last job was entered.

Each part of the invariant has its own step lemma, and `inv_of_reachable` puts them
together. `Safe` is what a user of the pool sees of it.
-/

namespace HolLambdas.ThreadPool

open LinkedQueue
open Function

/-! ## Places of a job -/

section Invariant

variable {k : Nat}

/-- The job of a call of `tp_submit` that is not in a node yet. -/
def Submitter.pending : Submitter → List Bytes
  | checking job | copying job | raised job => [job]
  | _ => []

/-- The node that is to be entered into the queue. -/
def Submitter.unlinked : Submitter → List Nat
  | locking n | enqueueing n => [n]
  | _ => []

/-- Within a critical section. -/
def Submitter.holds : Submitter → Bool
  | checking _ | enqueueing _ | closing => true
  | _ => false

/-- After the flag was set. -/
def Submitter.closed : Submitter → Bool
  | joining _ | returned => true
  | _ => false

/-- In `tp_finish_and_destroy`. -/
def Submitter.finishing : Submitter → Bool
  | closing | joining _ | returned => true
  | _ => false

/-- Taken out of the queue, not passed on yet. -/
def Worker.toCall : Worker → Multiset Nat
  | calling n => {n}
  | _ => 0

/-- Taken out of the queue, the call not over. -/
def Worker.toReturn : Worker → Multiset Nat
  | calling n | running n => {n}
  | _ => 0

/-- The flag is set when nothing is submitted any more. -/
structure Control (s : PoolState k) : Prop where
  shutdown : s.shutdown = s.submitter.closed
  calls : s.submitter.finishing = true → s.calls = []
  raised : ∀ job, s.submitter = .raised job → job = []

/-- Nodes in the order of submission: taken out of the queue, in the queue, or about to be
entered. -/
structure QueueInv (jobs : List Bytes) (s : PoolState k) : Prop where
  queued : ∃ l, Queued s.heap s.queue l ∧ s.sent = s.taken ++ l
  nodes : s.sent ++ s.submitter.unlinked = List.range s.heap.length
  fresh : ∀ n ∈ s.submitter.unlinked, ∃ c, s.heap[n]? = some c ∧ c.next = none
  jobs : jobs = s.heap.map Cell.data ++ s.submitter.pending ++ s.calls

/-- What is taken out is passed to the worker function, or will be; likewise for its
return. -/
structure Delivered (jobs : List Bytes) (s : PoolState k) : Prop where
  passed : (↑(s.passed.map Prod.fst) : Multiset Nat) + ∑ w, (s.worker w).toCall = ↑s.taken
  finished : (↑s.finished : Multiset Nat) + ∑ w, (s.worker w).toReturn = ↑s.taken
  bytes : ∀ p ∈ s.passed, jobs[p.1]? = some p.2

/-- No thread waits after the flag is set, and one that left has nothing to come. -/
structure WorkersInv (s : PoolState k) : Prop where
  notCreated : ∀ w, s.worker w = .notCreated ↔ ∃ i, s.submitter = .creating i ∧ i ≤ w
  waiting : ∀ w, s.worker w = .waiting → s.shutdown = false
  exited : ∀ w, s.worker w = .exited → s.shutdown = true ∧ s.taken = s.sent
  joined : ∀ i, s.submitter = .joining i → ∀ w : Fin k, w.val < i → s.worker w = .exited
  returned : s.submitter = .returned → ∀ w, s.worker w = .exited

/-- Who is in a critical section. -/
def Inside (s : PoolState k) : Owner k → Prop
  | .submitter => s.submitter.holds = true
  | .worker w => s.worker w = .testing

/-- The holder of the mutex is the thread in a critical section. -/
def Mutex (s : PoolState k) : Prop :=
  ∀ o, s.mu = some o ↔ Inside s o

structure Inv (jobs : List Bytes) (s : PoolState k) : Prop where
  control : Control s
  queue : QueueInv jobs s
  delivered : Delivered jobs s
  workers : WorkersInv s
  mutex : Mutex s

theorem inv_initial (jobs : List Bytes) : Inv jobs (initial jobs : PoolState k) where
  control := ⟨rfl, fun h => (by cases h), fun job h => (by cases h)⟩
  queue := ⟨⟨[], queued_empty _, rfl⟩, rfl, fun n h => (by cases h), rfl⟩
  delivered := ⟨by simp [initial, Worker.toCall], by simp [initial, Worker.toReturn],
    fun p h => (by cases h)⟩
  workers := by
    refine ⟨fun w => iff_of_true rfl ⟨0, rfl, Nat.zero_le _⟩, ?_, ?_, ?_, ?_⟩
    · intro w h; cases h
    · intro w h; cases h
    · intro i h; cases h
    · intro h; cases h
  mutex := by
    intro o
    cases o with
    | submitter =>
      exact iff_of_false (by simp [initial]) (by simp [Inside, initial, Submitter.holds])
    | worker w => exact iff_of_false (by simp [initial]) (by simp [Inside, initial])

/-! ### Changing one worker -/

section Update

variable {f : Fin k → Worker} {w : Fin k} {b x : Worker}

theorem forall_update {P : Fin k → Prop} (h : ∀ u, f u = x → P u) (hb : b = x → P w) :
    ∀ u, update f w b u = x → P u := by
  intro u hu
  by_cases huw : u = w
  · subst huw
    rw [update_self] at hu
    exact hb hu
  · rw [update_of_ne huw] at hu
    exact h u hu

theorem update_iff (h : b = x ↔ f w = x) (u : Fin k) : update f w b u = x ↔ f u = x := by
  by_cases huw : u = w
  · subst huw
    rw [update_self, h]
  · rw [update_of_ne huw]

theorem signalled_iff {sig : Option (Fin k)} (hsig : signals f sig = true) (hx : x ≠ .woken)
    (hx' : x ≠ .waiting) (u : Fin k) : signalled f sig u = x ↔ f u = x := by
  cases sig with
  | none => rfl
  | some w =>
    have hw : f w = .waiting := by simpa [signals] using hsig
    refine update_iff ?_ u
    rw [hw]
    exact iff_of_false hx.symm hx'.symm

theorem signalled_imp {sig : Option (Fin k)} (hx : x ≠ .woken) {u : Fin k}
    (h : signalled f sig u = x) : f u = x := by
  cases sig with
  | none => exact h
  | some w => exact forall_update (fun u hu => hu) (fun hb => absurd hb.symm hx) u h

theorem awaken_iff {p : Worker} (hx : x ≠ .woken) (hx' : x ≠ .waiting) : p.awaken = x ↔ p = x := by
  unfold Worker.awaken
  split
  · exact iff_of_false hx.symm hx'.symm
  · rfl

theorem awaken_ne_waiting (p : Worker) : p.awaken ≠ .waiting := by
  unfold Worker.awaken
  split
  · simp
  · next h => exact h

end Update

variable {jobs : List Bytes} {s s' : PoolState k} {a : PoolAction k}

/-! ### The mutex -/

section

variable (h : Mutex s)

include h

theorem Mutex.stay (hmu : s'.mu = s.mu) (hin : ∀ o, Inside s' o ↔ Inside s o) : Mutex s' := by
  intro o
  rw [hmu, hin, h o]

variable {o : Owner k} {w : Fin k} {b : Worker} {n : Nat} {f : Fin k → Worker}

theorem Mutex.acquire (hmu : s.mu = none) (hmu' : s'.mu = some o)
    (hin : ∀ o', Inside s' o' ↔ Inside s o' ∨ o' = o) : Mutex s' := by
  intro o'
  have hout : ¬ Inside s o' := by
    rw [← h o', hmu]
    simp
  rw [hmu', hin, Option.some.injEq]
  constructor
  · rintro rfl
    exact .inr rfl
  · rintro (hin | rfl)
    · exact absurd hin hout
    · rfl

/-- Nobody else is inside. -/
theorem Mutex.release (ho : Inside s o) (hmu' : s'.mu = none)
    (hin : ∀ o', Inside s' o' → Inside s o' ∧ o' ≠ o) : Mutex s' := by
  intro o'
  rw [hmu']
  refine iff_of_false (by simp) fun hin' => ?_
  obtain ⟨hin₀, hne⟩ := hin o' hin'
  have hmu := (h o).mpr ho
  rw [(h o').mpr hin₀, Option.some.injEq] at hmu
  exact hne hmu

/-- A step that moves one worker, neither into a critical section nor out of one. -/
theorem Mutex.moveWorker (hmu : s'.mu = s.mu) (hsub : s'.submitter = s.submitter)
    (hworker : s'.worker = update s.worker w b) (hw : s.worker w ≠ .testing)
    (hb : b ≠ .testing) : Mutex s' := by
  refine h.stay hmu fun o => ?_
  cases o with
  | submitter => rw [Inside, Inside, hsub]
  | worker u =>
    rw [Inside, Inside, hworker]
    exact update_iff (iff_of_false hb hw) u

/-- A worker leaves its critical section. -/
theorem Mutex.leaveWorker (hmu : s'.mu = none) (hsub : s'.submitter = s.submitter)
    (hworker : s'.worker = update s.worker w b) (hw : s.worker w = .testing)
    (hb : b ≠ .testing) : Mutex s' := by
  refine h.release (o := .worker w) hw hmu fun o ho => ?_
  cases o with
  | submitter =>
    rw [Inside, hsub] at ho
    exact ⟨ho, by simp⟩
  | worker u =>
    rw [Inside, hworker] at ho
    have hu : u ≠ w := by
      rintro rfl
      rw [update_self] at ho
      exact hb ho
    rw [update_of_ne hu] at ho
    exact ⟨ho, by simpa using hu⟩

/-- The submitter moves outside of critical sections. -/
theorem Mutex.moveSubmitter (hmu : s'.mu = s.mu) (hsub : s'.submitter.holds = s.submitter.holds)
    (hworker : ∀ u, s'.worker u = .testing ↔ s.worker u = .testing) : Mutex s' := by
  refine h.stay hmu fun o => ?_
  cases o with
  | submitter => rw [Inside, Inside, hsub]
  | worker u => exact hworker u

theorem Mutex.enterSubmitter (hmu : s.mu = none) (hmu' : s'.mu = some .submitter)
    (hsub : s'.submitter.holds = true) (hworker : s'.worker = s.worker) : Mutex s' := by
  refine h.acquire hmu hmu' fun o => ?_
  cases o with
  | submitter => exact iff_of_true hsub (.inr rfl)
  | worker u => simp [Inside, hworker]

theorem Mutex.leaveSubmitter (hin : s.submitter.holds = true) (hmu : s'.mu = none)
    (hsub : s'.submitter.holds = false)
    (hworker : ∀ u, s'.worker u = .testing → s.worker u = .testing) : Mutex s' := by
  refine h.release (o := .submitter) hin hmu fun o ho => ?_
  cases o with
  | submitter =>
    rw [Inside, hsub] at ho
    cases ho
  | worker u => exact ⟨hworker u ho, by simp⟩

/-- One thread at a time is in a critical section. -/
theorem Step.mutex (hworkers : WorkersInv s) (hs : Step s a s') : Mutex s' := by
  cases hs with
  | create hi hsub =>
    have hnew : s.worker ⟨_, hi⟩ = .notCreated :=
      (hworkers.notCreated _).mpr ⟨_, hsub, Nat.le_refl _⟩
    refine h.moveSubmitter rfl (by rw [hsub]; rfl) (update_iff ?_)
    rw [hnew]
    exact iff_of_false (by simp) (by simp)
  | created hsub _ => exact h.moveSubmitter rfl (by rw [hsub]; rfl) fun _ => Iff.rfl
  | submit hmu _ _ => exact h.enterSubmitter hmu rfl rfl rfl
  | finish hmu _ _ => exact h.enterSubmitter hmu rfl rfl rfl
  | lock hmu _ => exact h.enterSubmitter hmu rfl rfl rfl
  | check hsub =>
    refine h.leaveSubmitter (by rw [hsub]; rfl) rfl ?_ fun _ hu => hu
    show Submitter.holds (if s.shutdown then _ else _) = false
    split
    · rfl
    · rfl
  | raise hsub _ => exact h.moveSubmitter rfl (by rw [hsub]; rfl) fun _ => Iff.rfl
  | copy hsub _ => exact h.moveSubmitter rfl (by rw [hsub]; rfl) fun _ => Iff.rfl
  | reject hsub _ => exact h.leaveSubmitter (by rw [hsub]; rfl) rfl rfl fun _ hu => hu
  | enqueue hsub _ _ =>
    exact h.leaveSubmitter (by rw [hsub]; rfl) rfl rfl fun _ hu => signalled_imp (by simp) hu
  | close hsub =>
    exact h.leaveSubmitter (by rw [hsub]; rfl) rfl rfl
      fun _ hu => (awaken_iff (by simp) (by simp)).mp hu
  | join _ hsub _ => exact h.moveSubmitter rfl (by rw [hsub]; rfl) fun _ => Iff.rfl
  | destroy hsub _ => exact h.moveSubmitter rfl (by rw [hsub]; rfl) fun _ => Iff.rfl
  | @workerLock w hmu hw =>
    refine h.acquire hmu rfl fun o => ?_
    cases o with
    | submitter => simp [Inside]
    | worker u =>
      by_cases huw : u = w
      · subst huw
        simp [Inside]
      · simp [Inside, huw]
  | take hw _ => exact h.leaveWorker rfl rfl rfl hw (by simp)
  | sleepOrExit hw _ =>
    refine h.leaveWorker rfl rfl rfl hw ?_
    split
    · simp
    · simp
  | call hw _ => exact h.moveWorker rfl rfl rfl (by rw [hw]; simp) (by simp)
  | ret hw => exact h.moveWorker rfl rfl rfl (by rw [hw]; simp) (by simp)
  | wake hw => exact h.moveWorker rfl rfl rfl (by rw [hw]; simp) (by simp)

end

/-! ### Control, queue, delivery -/

theorem Step.control (h : Control s) (hs : Step s a s') : Control s' := by
  obtain ⟨hshut, hcalls, hraised⟩ := h
  cases hs with
  | create _ hsub | created hsub _ | submit _ hsub _ | lock _ hsub | copy hsub _ | reject hsub _
  | enqueue hsub _ _ =>
    rw [hsub] at hshut
    exact ⟨hshut, nofun, nofun⟩
  | finish _ hsub hnil =>
    rw [hsub] at hshut
    exact ⟨hshut, fun _ => hnil, nofun⟩
  | check hsub =>
    rw [hsub] at hshut
    have hopen : s.shutdown = false := hshut
    simp only [hopen, Bool.false_eq_true, if_false]
    exact ⟨rfl, nofun, nofun⟩
  | raise hsub hnil =>
    rw [hsub] at hshut
    refine ⟨hshut, nofun, ?_⟩
    rintro job ⟨⟩
    exact hnil
  | close hsub => exact ⟨rfl, fun _ => hcalls (by rw [hsub]; rfl), nofun⟩
  | join _ hsub _ | destroy hsub _ =>
    rw [hsub] at hshut
    exact ⟨hshut, fun _ => hcalls (by rw [hsub]; rfl), nofun⟩
  | workerLock _ _ | take _ _ | sleepOrExit _ _ | call _ _ | ret _ | wake _ =>
    exact ⟨hshut, hcalls, hraised⟩

/-- The nodes taken out of the queue exist. -/
theorem QueueInv.lt_length (h : QueueInv jobs s) (hn : n ∈ s.taken) : n < s.heap.length := by
  obtain ⟨l, -, hsent⟩ := h.queued
  rw [← List.mem_range, ← h.nodes, hsent]
  exact List.mem_append_left _ (List.mem_append_left _ hn)

/-- A node about to be entered is not in the queue. -/
theorem QueueInv.not_mem_sent (h : QueueInv jobs s) (hn : n ∈ s.submitter.unlinked) :
    n ∉ s.sent := by
  have hnodup : (s.sent ++ s.submitter.unlinked).Nodup := by
    rw [h.nodes]
    exact List.nodup_range
  intro hmem
  exact (List.nodup_append.mp hnodup).2.2 n hmem n hn rfl

/-- The submitter moves without a change to the queue or to what it has in hand. -/
theorem QueueInv.move (h : QueueInv jobs s) (hheap : s'.heap = s.heap) (hqueue : s'.queue = s.queue)
    (hsent : s'.sent = s.sent) (htaken : s'.taken = s.taken)
    (hunlinked : s'.submitter.unlinked = s.submitter.unlinked)
    (hpending : s'.submitter.pending ++ s'.calls = s.submitter.pending ++ s.calls) :
    QueueInv jobs s' := by
  obtain ⟨hqueued, hnodes, hfresh, hjobs⟩ := h
  refine ⟨?_, ?_, ?_, ?_⟩
  · rwa [hheap, hqueue, hsent, htaken]
  · rwa [hheap, hsent, hunlinked]
  · rwa [hheap, hunlinked]
  · rw [hheap, List.append_assoc, hpending, ← List.append_assoc]
    exact hjobs

/-- The queue is first in, first out, and its nodes are those allocated. -/
theorem Step.queue (h : QueueInv jobs s) (hcontrol : Control s) (hs : Step s a s') :
    QueueInv jobs s' := by
  cases hs with
  | create _ hsub | created hsub _ | finish _ hsub _ | lock _ hsub | raise hsub _ | close hsub
  | join _ hsub _ | destroy hsub _ =>
    exact h.move rfl rfl rfl rfl (by rw [hsub]; rfl) (by rw [hsub]; rfl)
  | submit _ hsub hcalls =>
    exact h.move rfl rfl rfl rfl (by rw [hsub]; rfl) (by rw [hsub, hcalls]; rfl)
  | check hsub =>
    have hopen : s.shutdown = false := by rw [hcontrol.shutdown, hsub]; rfl
    simp only [hopen, Bool.false_eq_true, if_false]
    exact h.move rfl rfl rfl rfl (by rw [hsub]; rfl) (by rw [hsub]; rfl)
  | @copy job hsub _ =>
    obtain ⟨⟨l, hl, hsent⟩, hnodes, -, hjobs⟩ := h
    rw [hsub] at hnodes hjobs
    have hnodes : s.sent = List.range s.heap.length := by
      rw [← hnodes]
      exact (List.append_nil _).symm
    refine ⟨⟨l, hl.congr fun i hi => ?_, hsent⟩, ?_, ?_, ?_⟩
    · exact List.getElem?_append_left (hl.path.lt_length hi)
    · show s.sent ++ [s.heap.length] = List.range (s.heap ++ [(⟨none, job⟩ : Cell Bytes)]).length
      rw [hnodes, List.length_append, List.length_singleton, List.range_succ]
    · intro n hn
      rw [List.mem_singleton.mp hn]
      exact ⟨⟨none, job⟩, List.getElem?_concat_length, rfl⟩
    · rw [hjobs]
      simp [Submitter.pending]
  | reject hsub hshut =>
    rw [hcontrol.shutdown, hsub] at hshut
    cases hshut
  | @enqueue n w hsub _ _ =>
    have hmem : n ∈ s.submitter.unlinked := by
      rw [hsub]
      exact List.mem_singleton.mpr rfl
    have hnew := h.not_mem_sent hmem
    obtain ⟨⟨l, hl, hsent⟩, hnodes, hfresh, hjobs⟩ := h
    obtain ⟨c, hc, hnext⟩ := hfresh n hmem
    have hnl : n ∉ l := fun hn => hnew (hsent ▸ List.mem_append_right _ hn)
    refine ⟨⟨l ++ [n], hl.enqueue hc hnext hnl, ?_⟩, ?_, nofun, ?_⟩
    · rw [hsent, List.append_assoc]
    · have hlen := congrArg List.length (map_data_enqueueHeap s.queue s.heap n)
      rw [List.length_map, List.length_map] at hlen
      rw [hsub] at hnodes
      show s.sent ++ [n] ++ [] = List.range (s.queue.enqueueHeap s.heap n).length
      rw [hlen, List.append_nil]
      exact hnodes
    · rw [map_data_enqueueHeap]
      rw [hsub] at hjobs
      exact hjobs
  | @take w n queue _ hq =>
    obtain ⟨⟨l, hl, hsent⟩, hnodes, hfresh, hjobs⟩ := h
    obtain ⟨l', rfl, hl'⟩ := hl.dequeue hq
    refine ⟨⟨l', hl', ?_⟩, hnodes, hfresh, hjobs⟩
    rw [hsent, List.append_assoc]
    rfl
  | workerLock _ _ | sleepOrExit _ _ | call _ _ | ret _ | wake _ =>
    exact h.move rfl rfl rfl rfl rfl rfl

/-- Workers move without a change to what they have in hand. -/
theorem Delivered.move (h : Delivered jobs s) (htaken : s'.taken = s.taken)
    (hpassed : s'.passed = s.passed) (hfinished : s'.finished = s.finished)
    (hcall : ∀ w, (s'.worker w).toCall = (s.worker w).toCall)
    (hreturn : ∀ w, (s'.worker w).toReturn = (s.worker w).toReturn) : Delivered jobs s' := by
  obtain ⟨hp, hf, hb⟩ := h
  refine ⟨?_, ?_, ?_⟩
  · rwa [hpassed, htaken, Finset.sum_congr rfl fun w _ => hcall w]
  · rwa [hfinished, htaken, Finset.sum_congr rfl fun w _ => hreturn w]
  · rwa [hpassed]

theorem apply_update {γ : Type} (g : Worker → γ) (h : g b = g (f w)) (u : Fin k) :
    g (update f w b u) = g (f u) := by
  by_cases huw : u = w
  · rw [huw, update_self, h]
  · rw [update_of_ne huw]

/-- A node moves from a worker's hand to the history. -/
theorem coe_snoc (l : List Nat) (n : Nat) (x : Multiset Nat) :
    (↑(l ++ [n]) : Multiset Nat) + x = ↑l + (x + {n}) := by
  rw [← Multiset.coe_add, add_assoc, add_comm x]
  rfl

/-- No job is lost on its way from the queue to the end of its call. -/
theorem Step.delivered (h : Delivered jobs s) (hqueue : QueueInv jobs s)
    (hworkers : WorkersInv s) (hs : Step s a s') : Delivered jobs s' := by
  cases hs with
  | create hi hsub =>
    have hnew : s.worker ⟨_, hi⟩ = .notCreated :=
      (hworkers.notCreated _).mpr ⟨_, hsub, Nat.le_refl _⟩
    exact h.move rfl rfl rfl (apply_update _ (by rw [hnew]; rfl))
      (apply_update _ (by rw [hnew]; rfl))
  | created _ _ | submit _ _ _ | finish _ _ _ | lock _ _ | check _ | raise _ _ | copy _ _
  | reject _ _ | join _ _ _ | destroy _ _ =>
    exact h.move rfl rfl rfl (fun _ => rfl) (fun _ => rfl)
  | @enqueue n w _ _ hsig =>
    cases w with
    | none => exact h.move rfl rfl rfl (fun _ => rfl) (fun _ => rfl)
    | some w =>
      have hw : s.worker w = .waiting := by simpa [signals] using hsig
      exact h.move rfl rfl rfl (apply_update _ (by rw [hw]; rfl))
        (apply_update _ (by rw [hw]; rfl))
  | close _ =>
    refine h.move rfl rfl rfl (fun w => ?_) (fun w => ?_)
    · show (s.worker w).awaken.toCall = _
      cases s.worker w <;> rfl
    · show (s.worker w).awaken.toReturn = _
      cases s.worker w <;> rfl
  | workerLock _ hw =>
    rcases hw with hw | hw
    · exact h.move rfl rfl rfl (apply_update _ (by rw [hw]; rfl))
        (apply_update _ (by rw [hw]; rfl))
    · exact h.move rfl rfl rfl (apply_update _ (by rw [hw]; rfl))
        (apply_update _ (by rw [hw]; rfl))
  | sleepOrExit hw _ =>
    refine h.move rfl rfl rfl (apply_update _ ?_) (apply_update _ ?_)
    · rw [hw]
      split <;> rfl
    · rw [hw]
      split <;> rfl
  | wake hw =>
    exact h.move rfl rfl rfl (apply_update _ (by rw [hw]; rfl))
      (apply_update _ (by rw [hw]; rfl))
  | @take w n queue hw _ =>
    -- from the queue into a worker's hand
    obtain ⟨hp, hf, hb⟩ := h
    refine ⟨?_, ?_, hb⟩
    · have hsum := WorkPool.sum_update_in (f := s.worker) (w := w) (b := .calling n) (x := {n})
        Worker.toCall (by rw [hw]; exact (zero_add _).symm)
      show _ + _ = (↑(s.taken ++ [n]) : Multiset Nat)
      rw [hsum, ← Multiset.coe_add, ← hp, add_assoc]
      rfl
    · have hsum := WorkPool.sum_update_in (f := s.worker) (w := w) (b := .calling n) (x := {n})
        Worker.toReturn (by rw [hw]; exact (zero_add _).symm)
      show _ + _ = (↑(s.taken ++ [n]) : Multiset Nat)
      rw [hsum, ← Multiset.coe_add, ← hf, add_assoc]
      rfl
  | @call w n c hw hc =>
    -- from the hand to the worker function, with the bytes of its node
    obtain ⟨hp, hf, hb⟩ := h
    refine ⟨?_, ?_, ?_⟩
    · have hsum := WorkPool.sum_update_out (f := s.worker) (w := w) (b := .running n) (x := {n})
        Worker.toCall (by rw [hw]; exact (zero_add _).symm)
      show (↑((s.passed ++ [(n, c.data)]).map Prod.fst) : Multiset Nat) + _ = _
      rw [List.map_append, List.map_singleton, coe_snoc, hsum, hp]
    · rw [WorkPool.sum_update_same (f := s.worker) (w := w) (b := .running n) Worker.toReturn
        (by rw [hw]; rfl)]
      exact hf
    · intro p hmem
      rcases List.mem_append.mp hmem with hmem | hmem
      · exact hb p hmem
      · rw [List.mem_singleton.mp hmem, hqueue.jobs, List.append_assoc]
        have hdata : (s.heap.map Cell.data)[n]? = some c.data := by rw [List.getElem?_map, hc]; rfl
        rw [List.getElem?_append_left (List.getElem?_eq_some_iff.mp hdata).1, hdata]
  | @ret w n hw =>
    obtain ⟨hp, hf, hb⟩ := h
    refine ⟨?_, ?_, hb⟩
    · rw [WorkPool.sum_update_same (f := s.worker) (w := w) (b := .start) Worker.toCall
        (by rw [hw]; rfl)]
      exact hp
    · have hsum := WorkPool.sum_update_out (f := s.worker) (w := w) (b := .start) (x := {n})
        Worker.toReturn (by rw [hw]; exact (zero_add _).symm)
      show (↑(s.finished ++ [n]) : Multiset Nat) + _ = _
      rw [coe_snoc, hsum, hf]

/-! ### The workers -/

section

variable (h : WorkersInv s)

include h

/-- A worker that exists goes on, and neither falls asleep nor leaves. -/
theorem WorkersInv.moveWorker (hsub : s'.submitter = s.submitter) (hshut : s'.shutdown = s.shutdown)
    (hsent : s'.sent = s.sent) (htaken : s.taken ≠ s.sent ∨ s'.taken = s.taken)
    (hworker : s'.worker = update s.worker w b) (hw : s.worker w ≠ .notCreated)
    (hexit : s.worker w ≠ .exited) (hb : b ≠ .notCreated) (hb' : b ≠ .waiting)
    (hb'' : b ≠ .exited) : WorkersInv s' := by
  refine ⟨?_, ?_, ?_, ?_, ?_⟩
  · intro u
    rw [hworker, hsub, ← h.notCreated u]
    exact update_iff (iff_of_false hb hw) u
  · rw [hworker, hshut]
    exact forall_update h.waiting fun heq => absurd heq hb'
  · rw [hworker, hshut, hsent]
    refine forall_update (fun u hu => ?_) fun heq => absurd heq hb''
    obtain ⟨hs, heq⟩ := h.exited u hu
    rcases htaken with hne | htaken
    · exact absurd heq hne
    · exact ⟨hs, by rw [htaken, heq]⟩
  · intro i hi u hu
    rw [hsub] at hi
    rw [hworker, update_of_ne, h.joined i hi u hu]
    rintro rfl
    exact hexit (h.joined i hi u hu)
  · intro hret u
    rw [hsub] at hret
    exact absurd (h.returned hret w) hexit

/-- The submitter moves, neither in `tp_create` nor in `tp_finish_and_destroy`. -/
theorem WorkersInv.moveSubmitter (hshut : s'.shutdown = s.shutdown) (hsent : s'.sent = s.sent)
    (htaken : s'.taken = s.taken) (hworker : s'.worker = s.worker)
    (hcreate : ∀ i, s'.submitter ≠ .creating i) (hcreate' : ∀ i, s.submitter ≠ .creating i)
    (hjoin : ∀ i, s'.submitter ≠ .joining i) (hret : s'.submitter ≠ .returned) :
    WorkersInv s' := by
  refine ⟨?_, ?_, ?_, ?_, ?_⟩
  · intro u
    rw [hworker, h.notCreated u]
    refine iff_of_false ?_ ?_
    · rintro ⟨i, hi, -⟩
      exact hcreate' i hi
    · rintro ⟨i, hi, -⟩
      exact hcreate i hi
  · rw [hworker, hshut]
    exact h.waiting
  · rw [hworker, hshut, hsent, htaken]
    exact h.exited
  · intro i hi
    exact absurd hi (hjoin i)
  · intro hr
    exact absurd hr hret

/-- One more thread: the workers from `i + 1` on are left to be created. -/
theorem WorkersInv.create {i : Nat} (hi : i < k) (hsub : s.submitter = .creating i) :
    WorkersInv { s with submitter := .creating (i + 1),
                        worker := update s.worker ⟨i, hi⟩ .start } := by
  refine ⟨?_, forall_update h.waiting nofun, forall_update h.exited nofun, nofun, nofun⟩
  intro u
  by_cases hu : u = ⟨i, hi⟩
  · subst hu
    refine iff_of_false (by simp) ?_
    rintro ⟨j, hj, hle⟩
    cases hj
    exact Nat.not_succ_le_self i hle
  · have hne : u.val ≠ i := fun heq => hu (Fin.ext heq)
    show update s.worker _ _ u = _ ↔ _
    rw [update_of_ne hu, h.notCreated u, hsub]
    constructor
    · rintro ⟨j, hj, hle⟩
      cases hj
      exact ⟨i + 1, rfl, by omega⟩
    · rintro ⟨j, hj, hle⟩
      cases hj
      exact ⟨i, rfl, by omega⟩

/-- While jobs are entered nobody has left, and the signal wakes one worker at most. -/
theorem WorkersInv.enqueue {sig : Option (Fin k)} (hsub : s.submitter = .enqueueing n)
    (hopen : s.shutdown = false) (hsig : signals s.worker sig = true) :
    WorkersInv { s with heap := s.queue.enqueueHeap s.heap n, queue := s.queue.enqueue n,
                        mu := none, submitter := .idle, worker := signalled s.worker sig,
                        sent := s.sent ++ [n] } := by
  refine ⟨?_, ?_, ?_, nofun, nofun⟩
  · intro u
    show signalled s.worker sig u = _ ↔ _
    rw [signalled_iff hsig (by simp) (by simp), h.notCreated u, hsub]
    exact iff_of_false nofun nofun
  · intro u _
    exact hopen
  · intro u hu
    have hexit := (h.exited u (signalled_imp (by simp) hu)).1
    rw [hopen] at hexit
    cases hexit

/-- The broadcast leaves nobody asleep. -/
theorem WorkersInv.close (hsub : s.submitter = .closing) :
    WorkersInv { s with shutdown := true, mu := none, submitter := .joining 0,
                        worker := fun w => (s.worker w).awaken } := by
  refine ⟨?_, ?_, ?_, ?_, nofun⟩
  · intro u
    show (s.worker u).awaken = _ ↔ _
    rw [awaken_iff (by simp) (by simp), h.notCreated u, hsub]
    exact iff_of_false nofun nofun
  · intro u hu
    exact absurd hu (awaken_ne_waiting _)
  · intro u hu
    exact ⟨rfl, (h.exited u ((awaken_iff (by simp) (by simp)).mp hu)).2⟩
  · rintro i ⟨⟩ u hu
    exact absurd hu (Nat.not_lt_zero _)

/-- A worker that finds the queue empty leaves if the flag is set, and sleeps otherwise. -/
theorem WorkersInv.sleepOrExit (hw : s.worker w = .testing) (hempty : s.taken = s.sent) :
    WorkersInv { s with mu := none, worker := update s.worker w
                          (if s.shutdown then .exited else .waiting) } := by
  refine ⟨?_, ?_, ?_, ?_, ?_⟩
  · intro u
    show update s.worker w _ u = _ ↔ _
    rw [← h.notCreated u]
    refine update_iff (iff_of_false ?_ (by rw [hw]; simp)) u
    split <;> simp
  · refine forall_update h.waiting fun hb => ?_
    split at hb
    · cases hb
    · next hopen => exact Bool.eq_false_iff.mpr hopen
  · refine forall_update h.exited fun hb => ?_
    split at hb
    · next hshut => exact ⟨hshut, hempty⟩
    · cases hb
  · intro i hi u hu
    have hne : u ≠ w := by
      rintro rfl
      have hexit := h.joined i hi u hu
      rw [hw] at hexit
      cases hexit
    show update s.worker w _ u = _
    rw [update_of_ne hne, h.joined i hi u hu]
  · intro hret
    have hexit := h.returned hret w
    rw [hw] at hexit
    cases hexit

/-- What the threads know when they wait or leave. -/
theorem Step.workers (hcontrol : Control s) (hqueue : QueueInv jobs s) (hs : Step s a s') :
    WorkersInv s' := by
  cases hs with
  | create hi hsub => exact h.create hi hsub
  | @created i hsub hge =>
    refine ⟨?_, h.waiting, h.exited, nofun, nofun⟩
    intro u
    refine iff_of_false ?_ nofun
    rw [h.notCreated u, hsub]
    rintro ⟨j, hj, hle⟩
    cases hj
    have := u.isLt
    omega
  | submit _ hsub _ | finish _ hsub _ | lock _ hsub | raise hsub _ | copy hsub _ | reject hsub _ =>
    exact h.moveSubmitter rfl rfl rfl rfl nofun (by rw [hsub]; nofun) nofun nofun
  | check hsub =>
    have hopen : s.shutdown = false := by rw [hcontrol.shutdown, hsub]; rfl
    simp only [hopen, Bool.false_eq_true, if_false]
    exact h.moveSubmitter hopen.symm rfl rfl rfl nofun (by rw [hsub]; nofun) nofun nofun
  | enqueue hsub hopen hsig => exact h.enqueue hsub hopen hsig
  | close hsub => exact h.close hsub
  | @join i hi hsub hexit =>
    refine ⟨?_, h.waiting, h.exited, ?_, nofun⟩
    · intro u
      rw [h.notCreated u, hsub]
      exact iff_of_false nofun nofun
    · rintro j ⟨⟩ u hu
      rcases Nat.lt_succ_iff_lt_or_eq.mp hu with hlt | heq
      · exact h.joined i hsub u hlt
      · have hu : u = ⟨i, hi⟩ := Fin.ext heq
        rw [hu]
        exact hexit
  | @destroy i hsub hge =>
    refine ⟨?_, h.waiting, h.exited, nofun, ?_⟩
    · intro u
      rw [h.notCreated u, hsub]
      exact iff_of_false nofun nofun
    · intro _ u
      exact h.joined i hsub u (Nat.lt_of_lt_of_le u.isLt hge)
  | workerLock _ hw =>
    rcases hw with hw | hw
    · exact h.moveWorker rfl rfl rfl (.inr rfl) rfl (by rw [hw]; simp) (by rw [hw]; simp)
        (by simp) (by simp) (by simp)
    · exact h.moveWorker rfl rfl rfl (.inr rfl) rfl (by rw [hw]; simp) (by rw [hw]; simp)
        (by simp) (by simp) (by simp)
  | take hw hq =>
    -- the queue is not empty, so nobody has left
    have hne : s.taken ≠ s.sent := by
      obtain ⟨l, hl, hsent⟩ := hqueue.queued
      obtain ⟨l', rfl, -⟩ := hl.dequeue hq
      rw [hsent]
      simp
    exact h.moveWorker rfl rfl rfl (.inl hne) rfl (by rw [hw]; simp) (by rw [hw]; simp)
      (by simp) (by simp) (by simp)
  | sleepOrExit hw hq =>
    -- the queue is empty, so everything was taken out
    refine h.sleepOrExit hw ?_
    obtain ⟨l, hl, hsent⟩ := hqueue.queued
    rw [hl.dequeue_eq_none_iff.mp hq, List.append_nil] at hsent
    exact hsent.symm
  | call hw _ | ret hw | wake hw =>
    exact h.moveWorker rfl rfl rfl (.inr rfl) rfl (by rw [hw]; simp) (by rw [hw]; simp)
      (by simp) (by simp) (by simp)

end

/-- Every step keeps the invariant. -/
theorem Inv.of_step (h : Inv jobs s) (hs : step s a = some s') : Inv jobs s' := by
  have hs := step_cases hs
  exact ⟨hs.control h.control, hs.queue h.queue h.control,
    hs.delivered h.delivered h.queue h.workers, hs.workers h.workers h.control h.queue,
    hs.mutex h.mutex h.workers⟩

theorem inv_of_reachable (h : Reachable step (fun _ _ => True) (initial jobs) s) : Inv jobs s :=
  h.invariant (inv_initial jobs) fun _ _ _ hinv _ hs => hinv.of_step hs

/-! ## Every job once -/

/-- What holds at any time. Jobs are numbered in the order of their submission. -/
structure Safe (jobs : List Bytes) (s : PoolState k) : Prop where
  sent : s.sent = List.range s.sent.length
  /-- Jobs leave the queue in the order in which they were entered. -/
  order : s.taken <+: s.sent
  once : (s.passed.map Prod.fst).Nodup
  bytes : ∀ n job, (n, job) ∈ s.passed → n ∈ s.taken ∧ jobs[n]? = some job
  /-- Nothing is in the queue any more when a worker leaves. -/
  exits : ∀ w, s.worker w = .exited → s.taken = s.sent
  /-- After the return all jobs were passed, and the calls have returned. -/
  returns : s.submitter = .returned →
    (s.passed.map Prod.fst).Perm (List.range jobs.length) ∧
      s.finished.Perm (List.range jobs.length)

theorem QueueInv.sent_prefix (h : QueueInv jobs s) : s.sent <+: List.range s.heap.length := by
  rw [← h.nodes]
  exact List.prefix_append _ _

theorem Delivered.mem_taken (h : Delivered jobs s)
    (hn : n ∈ s.passed.map Prod.fst ∨ ∃ w, n ∈ (s.worker w).toCall) : n ∈ s.taken := by
  rw [← Multiset.mem_coe, ← h.passed, Multiset.mem_add, Multiset.mem_coe, Multiset.mem_sum]
  rcases hn with hn | ⟨w, hw⟩
  · exact .inl hn
  · exact .inr ⟨w, Finset.mem_univ w, hw⟩

theorem Inv.taken_prefix (h : Inv jobs s) : s.taken <+: s.sent := by
  obtain ⟨l, -, hsent⟩ := h.queue.queued
  rw [hsent]
  exact List.prefix_append _ _

theorem Inv.taken_nodup (h : Inv jobs s) : s.taken.Nodup :=
  List.nodup_range.sublist (h.taken_prefix.trans h.queue.sent_prefix).sublist

/-- Once all workers have left, what they had taken is done. -/
theorem Delivered.perm (h : Delivered jobs s) (hexit : ∀ w, s.worker w = .exited) :
    (s.passed.map Prod.fst).Perm s.taken ∧ s.finished.Perm s.taken := by
  have hp := h.passed
  have hf := h.finished
  simp only [hexit, Worker.toCall, Worker.toReturn, Finset.sum_const_zero, add_zero] at hp hf
  exact ⟨Multiset.coe_eq_coe.mp hp, Multiset.coe_eq_coe.mp hf⟩

theorem Inv.safe (hk : 0 < k) (h : Inv jobs s) : Safe jobs s where
  sent := by
    obtain ⟨t, ht⟩ := h.queue.sent_prefix
    have htake : s.sent = (List.range s.heap.length).take s.sent.length := by
      rw [← ht, List.take_left]
    have hle : s.sent.length ≤ s.heap.length := by
      have hlen := congrArg List.length ht
      rw [List.length_append, List.length_range] at hlen
      omega
    rw [htake, List.take_range, Nat.min_eq_left hle, List.length_range]
  order := h.taken_prefix
  once := by
    have hle : (↑(s.passed.map Prod.fst) : Multiset Nat) ≤ ↑s.taken := by
      rw [← h.delivered.passed]
      exact Multiset.le_add_right _ _
    exact Multiset.coe_nodup.mp (Multiset.nodup_of_le hle (Multiset.coe_nodup.mpr h.taken_nodup))
  bytes := by
    intro n job hmem
    exact ⟨h.delivered.mem_taken (.inl (List.mem_map_of_mem hmem)), h.delivered.bytes _ hmem⟩
  exits w hw := (h.workers.exited w hw).2
  returns := by
    intro hret
    have hexit := h.workers.returned hret
    have htaken := (h.workers.exited ⟨0, hk⟩ (hexit ⟨0, hk⟩)).2
    have hcalls : s.calls = [] := h.control.calls (by rw [hret]; rfl)
    have hnodes : s.sent = List.range s.heap.length := by
      rw [← h.queue.nodes, hret]
      exact (List.append_nil _).symm
    have hjobs : jobs = s.heap.map Cell.data := by
      rw [h.queue.jobs, hret, hcalls, List.append_nil]
      exact List.append_nil _
    rw [hjobs, List.length_map, ← hnodes, ← htaken]
    exact h.delivered.perm hexit

end Invariant

end HolLambdas.ThreadPool
