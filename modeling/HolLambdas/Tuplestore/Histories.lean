import HolLambdas.Tuplestore.Blocks
import HolLambdas.Tuplestore.Upkeep

/-!
# Histories of a tuplestore

Every allowed sequence of calls runs without a fault, whatever the budget and wherever the memory
manager places the chunks, and gives what the spool gives; at the end all chunks of the store
are free. A spool does not tell a block from its tuples put one by one, so a store does not
either, with one exception: to hand over an empty block while a read pointer that is not the
active one is at end of file may take that read pointer from end of file
(`history_oneByOne_iff`).
-/

namespace HolLambdas

namespace Tuplestore

open Heap Tuplestorestate

variable {α : Type} {s : Tuplestorestate α} {a : Spool α} {permitted : Bool → Nat → Prop}

/-! ## Setting up -/

theorem held_begin (env : Env α) (first : ExecFlags) :
    ∃ s, (beginHeap env first.backward).setEflags first = .ok s ∧
      Held [] s (Spool.new [first]) 0 none [] ∧ s.memtupsize = 2048 := by
  refine ⟨_, if_neg (by simp [beginHeap]), ?_, rfl⟩
  exact
    { status := rfl
      pointers := by
        refine ⟨rfl, rfl, rfl, fun i hi => ?_⟩
        have hi0 : i = 0 := Nat.lt_one_iff.mp hi
        subst hi0
        exact ⟨rfl, rfl, fun _ => rfl⟩
      slots := ⟨live_nil, nofun, fun _ => ⟨rfl, rfl⟩, nofun⟩
      array := rfl
      contents := rfl
      length := rfl
      kept := Nat.le_refl _
      tuples := rfl
      truncated := nofun }

/-- A new read pointer of an empty store. -/
theorem Held.allocReadPointer {flags : List ExecFlags}
    (h : Held [] s (Spool.new flags) 0 none []) (hne : flags ≠ []) (eflags : ExecFlags) :
    ∃ s', s.allocReadPointer eflags = .ok s' ∧
      Held [] s' (Spool.new (flags ++ [eflags])) 0 none [] ∧ s'.memtupsize = s.memtupsize := by
  have hdel : s.memtupdeleted = 0 := Nat.le_zero.mp (Nat.zero_add s.memtupdeleted ▸ h.kept)
  have hmem : s.memtuples = [] := by
    rw [h.array, hdel]
    rfl
  have hguard : ¬ ((s.status ≠ .inmem ∨ s.memtupcount ≠ 0) ∧ s.eflags.or eflags ≠ s.eflags) := by
    simp [h.status, memtupcount, hmem]
  have hcount : s.readptrcount = flags.length := h.pointers.count
  have hzero := h.pointers.points 0 (List.length_pos_iff.mpr hne)
  rw [position_of_ne (by simp [h.status]), h.status] at hzero
  refine ⟨_, if_neg hguard, ?_, rfl⟩
  refine { h with
    pointers := ⟨?_, h.pointers.active, ?_, fun i hi => ?_⟩
    slots := h.slots.congr rfl rfl rfl rfl }
  · simp [Spool.new, hcount]
  · have hold : orFlags s.readptrcount (fun i => (Function.update s.readptrs s.readptrcount
        { s.readptrs 0 with eflags := eflags } i).eflags) = s.eflags := by
      rw [h.pointers.eflags]
      exact orFlags_congr fun i hi => by rw [Function.update_of_ne (Nat.ne_of_lt hi)]
    rw [allFlags, orFlags_succ, hold]
    simp
  · rw [position_of_ne (by simp [h.status])]
    by_cases hlt : i < flags.length
    · have hp := h.pointers.points i hlt
      rw [position_of_ne (by simp [h.status])] at hp
      have hget : (flags ++ [eflags]).getD i ⟨false, false⟩ = flags.getD i ⟨false, false⟩ := by
        simp [List.getD, List.getElem?_append_left hlt]
      have hptr : Function.update s.readptrs s.readptrcount
          { s.readptrs 0 with eflags := eflags } i = s.readptrs i :=
        Function.update_of_ne (by omega) _ _
      simp only [Spool.new, hget, hptr]
      exact hp
    · have hi' : i = flags.length := by
        simp only [Spool.new, List.length_append, List.length_singleton] at hi
        omega
      subst hi'
      simp only [Spool.new, hcount, Function.update_self, List.getD, List.getElem?_concat_length,
        Option.getD_some, h.status]
      exact ⟨rfl, hzero.eof, hzero.pos_eq⟩

/-- A new store simulates a new spool. -/
theorem held_setUp (env : Env α) (first : ExecFlags) (others : List ExecFlags) :
    ∃ s, setUp env first others = .ok s ∧
      Sim [] s (Spool.new (first :: others)) := by
  obtain ⟨s, hbegin, hheld, hsize⟩ := held_begin env first
  -- the read pointers are added one after the other
  have hadd : ∀ (others flags : List ExecFlags) (s : Tuplestorestate α), flags ≠ [] →
      Held [] s (Spool.new flags) 0 none [] → s.memtupsize = 2048 →
      ∃ s', others.foldlM allocReadPointer s = .ok s' ∧
        Held [] s' (Spool.new (flags ++ others)) 0 none [] ∧ s'.memtupsize = 2048 := by
    intro others
    induction others with
    | nil =>
      intro flags s _ h hs
      exact ⟨s, rfl, by simpa using h, hs⟩
    | cons f others ih =>
      intro flags s hne h hs
      obtain ⟨s₁, halloc, h₁, hs₁⟩ := h.allocReadPointer hne f
      obtain ⟨s₂, hfold, h₂, hs₂⟩ := ih (flags ++ [f]) s₁ (by simp) h₁ (hs₁.trans hs)
      refine ⟨s₂, ?_, by simpa using h₂, hs₂⟩
      rw [List.foldlM_cons, halloc]
      exact hfold
  obtain ⟨s', hfold, h', hs'⟩ := hadd others [first] s (by simp) hheld hsize
  refine ⟨s', ?_, .held h' ?_⟩
  · rw [setUp, hbegin]
    exact hfold
  · have hlen := h'.length
    have : s'.memtupcount = 0 := by simpa [Spool.new] using hlen
    omega

/-! ## Runs -/

/-- Handing over blocks by a rule that forbids empty ones while a read pointer waits. -/
theorem Sim.call (env : Env α) (hrule : ¬ permitted true 0) (h : Sim [] s a) (hsound : a.Sound)
    {c : Call α} (hc : a.Allowed c) (hblock : a.BlockRule permitted c) :
    ∃ s', call env s c = .ok (s', (a.call c).2) ∧ Sim [] s' (a.call c).1 := by
  cases c with
  | puttuple t =>
    obtain ⟨s', hput, hsim⟩ := h.puttuple env hsound t
    exact ⟨s', by rw [Tuplestore.call, hput]; rfl, hsim⟩
  | putblock ts tuplen owned =>
    obtain ⟨s', hput, hsim⟩ := h.handOver env hsound ts hc owned fun hwait hnil => hrule (by
      rw [hnil] at hblock
      exact hwait ▸ hblock)
    exact ⟨s', by rw [Tuplestore.call, hput]; rfl, hsim⟩
  | gettuple forward =>
    obtain ⟨s', hget, hsim⟩ := h.gettuple env hsound forward hc
    exact ⟨s', by rw [Tuplestore.call, hget]; rfl, hsim⟩
  | skiptuples n forward =>
    obtain ⟨s', hskip, hsim⟩ := h.skiptuples env hsound n forward hc
    exact ⟨s', by rw [Tuplestore.call, hskip]; rfl, hsim⟩
  | selectReadPointer ptr =>
    obtain ⟨s', hsel, hsim⟩ := h.select hc
    exact ⟨s', by rw [Tuplestore.call, hsel]; rfl, hsim⟩
  | rescan =>
    obtain ⟨s', hre, hsim⟩ := h.rescan hsound hc
    exact ⟨s', by rw [Tuplestore.call, hre]; rfl, hsim⟩
  | copyReadPointer srcptr destptr =>
    obtain ⟨s', hcopy, hsim⟩ := h.copy hc.1 hc.2
    exact ⟨s', by rw [Tuplestore.call, hcopy]; rfl, hsim⟩
  | trim =>
    obtain ⟨s', htrim, hsim⟩ := h.trim env hsound
    exact ⟨s', by rw [Tuplestore.call, htrim]; rfl, hsim⟩
  | clear =>
    obtain ⟨s', hclear, hsim⟩ := h.clear env
    exact ⟨s', by rw [Tuplestore.call, hclear]; rfl, hsim⟩
  | ateof =>
    obtain ⟨base, hptr⟩ := h.pointers
    refine ⟨s, ?_, h⟩
    rw [Tuplestore.call, (hptr.active_points hsound.active_lt).eof]
    rfl
  | tupleCount =>
    refine ⟨s, ?_, h⟩
    rw [Tuplestore.call, h.tuples_eq]
    rfl

theorem Sim.calls (env : Env α) (hrule : ¬ permitted true 0) (h : Sim [] s a) (hsound : a.Sound)
    {cs : List (Call α)} (hcs : a.AllAllowed cs) (hblock : a.KeepsBlockRule permitted cs) :
    ∃ s', calls env s cs = .ok (s', (a.calls cs).2) ∧ Sim [] s' (a.calls cs).1 := by
  induction cs generalizing s a with
  | nil => exact ⟨s, rfl, h⟩
  | cons c cs ih =>
    obtain ⟨s₁, hcall, hsim⟩ := h.call env hrule hsound hcs.1 hblock.1
    obtain ⟨s₂, hcalls, hsim'⟩ := ih hsim (hsound.call hcs.1) hcs.2 hblock.2
    refine ⟨s₂, ?_, hsim'⟩
    rw [Tuplestore.calls, hcall]
    change Except.bind (Tuplestore.calls env s₁ cs) _ = _
    rw [hcalls]
    rfl

/-- The whole life of a store. -/
theorem history_eq (env : Env α) (permitted : Bool → Nat → Prop) (hrule : ¬ permitted true 0)
    {first : ExecFlags} {others : List ExecFlags} {cs : List (Call α)}
    (hcs : (Spool.new (first :: others)).AllAllowed cs)
    (hblock : (Spool.new (first :: others)).KeepsBlockRule permitted cs) :
    ∃ heap, history env first others cs =
        .ok (((Spool.new (first :: others)).calls cs).2, heap) ∧
      ∀ c ∈ heap, c.mine = false := by
  obtain ⟨s, hsetup, hsim⟩ := held_setUp env first others
  obtain ⟨s', hcalls, hsim'⟩ := hsim.calls env hrule (Spool.sound_new first others) hcs hblock
  obtain ⟨heap, hfinish, hmine⟩ := hsim'.finish env
  refine ⟨heap, ?_, hmine⟩
  rw [history, hsetup]
  change Except.bind (Tuplestore.calls env s cs) _ = _
  rw [hcalls]
  change Except.bind (finish env s') _ = _
  rw [hfinish]
  rfl

/-! ## Blocks and single tuples -/

namespace Spool

theorem calls_append (a : Spool α) (cs ds : List (Call α)) :
    a.calls (cs ++ ds) =
      (((a.calls cs).1.calls ds).1, (a.calls cs).2 ++ ((a.calls cs).1.calls ds).2) := by
  induction cs generalizing a with
  | nil => rfl
  | cons c cs ih => simp [calls, ih]

theorem allAllowed_append (a : Spool α) (cs ds : List (Call α)) :
    a.AllAllowed (cs ++ ds) ↔ a.AllAllowed cs ∧ (a.calls cs).1.AllAllowed ds := by
  induction cs generalizing a with
  | nil => simp [AllAllowed, calls]
  | cons c cs ih => simp [AllAllowed, calls, ih, and_assoc]

theorem calls_puttuple (a : Spool α) (ts : List α) :
    a.calls (ts.map .puttuple) = (a.puts ts, []) ∧ a.AllAllowed (ts.map .puttuple) := by
  induction ts generalizing a with
  | nil => exact ⟨rfl, trivial⟩
  | cons t ts ih =>
    obtain ⟨hcalls, hallowed⟩ := ih (a.put t)
    refine ⟨?_, trivial, hallowed⟩
    change (((a.put t).calls _).1, [] ++ ((a.put t).calls _).2) = _
    rw [hcalls]
    rfl

/-- Blocks put as single tuples. -/
theorem oneByOne_call (a : Spool α) (c : Call α) (hc : a.Allowed c) :
    a.calls (oneByOne [c]) = a.call c ∧ a.AllAllowed (oneByOne [c]) := by
  have hsingle : oneByOne [c] = [c] →
      a.calls (oneByOne [c]) = a.call c ∧ a.AllAllowed (oneByOne [c]) := by
    intro h
    rw [h]
    exact ⟨by simp [calls], hc, trivial⟩
  cases c with
  | putblock ts tuplen owned =>
    have hone : oneByOne [Call.putblock ts tuplen owned] = ts.map .puttuple := by
      simp [oneByOne]
    rw [hone]
    exact a.calls_puttuple ts
  | _ => exact hsingle rfl

theorem calls_oneByOne (a : Spool α) (cs : List (Call α)) (hcs : a.AllAllowed cs) :
    a.calls (oneByOne cs) = a.calls cs ∧ a.AllAllowed (oneByOne cs) := by
  induction cs generalizing a with
  | nil => exact ⟨rfl, trivial⟩
  | cons c cs ih =>
    have happ : oneByOne (c :: cs) = oneByOne [c] ++ oneByOne cs := by simp [oneByOne]
    obtain ⟨hcall, hallowed⟩ := a.oneByOne_call c hcs.1
    obtain ⟨hcalls, hallowed'⟩ := ih (a.call c).1 hcs.2
    rw [happ, calls_append, allAllowed_append, hcall, hcalls]
    exact ⟨rfl, hallowed, hallowed'⟩

/-- There is no block left to be asked about. -/
theorem keepsBlockRule_oneByOne (permitted : Bool → Nat → Prop) (a : Spool α)
    (cs : List (Call α)) : a.KeepsBlockRule permitted (oneByOne cs) := by
  have hall : ∀ cs : List (Call α), (∀ c ∈ cs, ∀ a : Spool α, a.BlockRule permitted c) →
      ∀ a : Spool α, a.KeepsBlockRule permitted cs := by
    intro cs
    induction cs with
    | nil => exact fun _ _ => trivial
    | cons c cs ih =>
      exact fun h a => ⟨h c List.mem_cons_self a,
        ih (fun d hd => h d (List.mem_cons_of_mem c hd)) _⟩
  refine hall _ (fun c hc b => ?_) a
  obtain ⟨d, -, hd⟩ := List.mem_flatMap.mp hc
  cases d with
  | putblock ts tuplen owned =>
    obtain ⟨t, -, rfl⟩ := List.mem_map.mp hd
    exact trivial
  | _ =>
    rw [List.mem_singleton.mp hd]
    exact trivial

end Spool

/-! ## An empty block -/

/-- An address above all chunks. -/
def top (h : Heap α) : Nat := h.foldr (fun c m => max (max c.stop (c.addr + 1)) m) 8

theorem le_top {h : Heap α} {c : Chunk α} (hc : c ∈ h) : c.stop ≤ top h ∧ c.addr < top h := by
  induction h with
  | nil => cases hc
  | cons d h ih =>
    have htop : top (d :: h) = max (max d.stop (d.addr + 1)) (top h) := rfl
    rcases List.mem_cons.mp hc with rfl | hc
    · omega
    · have := ih hc
      omega

/-- A store with room for a few tuples of one word. -/
def smallEnv : Env α where
  allowedMem := 16584
  tupleSize := fun _ => 8
  tupleSize_pos := fun _ => by decide
  space := fun c => c.cells.length * c.stride
  overhead := 0
  scaled := fun n _ => n
  place := fun _ h _ => top h
  place_ne_zero := by
    intro _ h _
    have hpos : 8 ≤ top h := by
      induction h with
      | nil => exact Nat.le_refl _
      | cons d h ih => exact Nat.le_trans ih (Nat.le_max_right _ _)
    omega
  place_fresh := fun _ _ _ _ hc => ⟨Nat.ne_of_gt (le_top hc).2, .inr (le_top hc).1⟩

/-- The second read pointer reads a tuple and meets the end; then an empty block is handed over
while the first one is active, and one more tuple is put. -/
def emptyBlockCalls (t : α) : List (Call α) :=
  [.puttuple t, .selectReadPointer 1, .gettuple true, .gettuple true, .selectReadPointer 0,
    .putblock [] 8 true, .selectReadPointer 1, .puttuple t, .gettuple true]

theorem emptyBlockCalls_allowed (t : α) :
    (Spool.new [⟨false, false⟩, ⟨false, false⟩]).AllAllowed (emptyBlockCalls t) :=
  ⟨trivial, Nat.one_lt_two, nofun, nofun, Nat.two_pos, Nat.succ_pos 7, Nat.one_lt_two, trivial,
    nofun, trivial⟩

/-- The second read pointer has left end of file, and gets the tuple. -/
theorem history_emptyBlock (t : α) :
    history smallEnv ⟨false, false⟩ [⟨false, false⟩] (emptyBlockCalls t) =
      .ok ([.tuple (some t), .tuple none, .tuple (some t)], []) := by
  -- the store is in memory all the time
  simp [history, emptyBlockCalls, calls, call, setUp, beginHeap, setEflags, allocReadPointer,
    smallEnv, top, bind, Except.bind, pure, Except.pure, Except.map, puttuple, copytup, palloc,
    chunkSpace, puttupleCommon, leaveBehind, stash, makeRoom, memtupcount, selectReadPointer,
    gettuple, gettupleInmem, active, setActive, Function.update, deref, Heap.load, Chunk.cellAt,
    Chunk.stop, handOver, putblock, blockSpace, takeBlock, blockPointers, PG_INT32_MAX, finish,
    freeTuples, inBlock, freeChunk, pfree, Heap.remove]

/-- Put one by one nothing is put, and the read pointer stays at end of file. -/
theorem history_emptyBlock_oneByOne (t : α) :
    ∃ heap, history smallEnv ⟨false, false⟩ [⟨false, false⟩] (oneByOne (emptyBlockCalls t)) =
      .ok ([.tuple (some t), .tuple none, .tuple none], heap) := by
  obtain ⟨-, hallowed⟩ := Spool.calls_oneByOne _ _ (emptyBlockCalls_allowed t)
  obtain ⟨heap, hrun, -⟩ := history_eq smallEnv (fun _ _ => False) not_false hallowed
    (Spool.keepsBlockRule_oneByOne _ _ _)
  exact ⟨heap, hrun⟩

/-- **Blocks are single tuples.** Where the rule keeps empty blocks away from a store with another
read pointer at end of file, every history replies what it replies when each block comes as single
tuples, and all chunks of the two stores are freed. -/
theorem history_oneByOne (hrule : ¬ permitted true 0) {first : ExecFlags} {others : List ExecFlags}
    {cs : List (Call α)} (hcs : (Spool.new (first :: others)).AllAllowed cs)
    (hblock : (Spool.new (first :: others)).KeepsBlockRule permitted cs) (env env' : Env α) :
    ∃ replies heap heap', history env first others cs = .ok (replies, heap) ∧
      history env' first others (oneByOne cs) = .ok (replies, heap') ∧
      (∀ c ∈ heap, c.mine = false) ∧ ∀ c ∈ heap', c.mine = false := by
  obtain ⟨hcalls, hallowed⟩ := Spool.calls_oneByOne _ _ hcs
  obtain ⟨heap, hrun, hmine⟩ := history_eq env permitted hrule hcs hblock
  obtain ⟨heap', hrun', hmine'⟩ := history_eq env' permitted hrule hallowed
    (Spool.keepsBlockRule_oneByOne permitted _ _)
  rw [hcalls] at hrun'
  exact ⟨_, heap, heap', hrun, hrun', hmine, hmine'⟩

/-- A store cannot be told from one that gets every block as single tuples, and frees each of its
chunks once, just if no empty block is handed over while a read pointer other than the active one
is at end of file. The two stores may have different budgets and memory. -/
theorem history_oneByOne_iff [Inhabited α] (permitted : Bool → Nat → Prop) :
    (∀ (first : ExecFlags) (others : List ExecFlags) (cs : List (Call α)),
      (Spool.new (first :: others)).AllAllowed cs →
      (Spool.new (first :: others)).KeepsBlockRule permitted cs →
      ∀ env env' : Env α, ∃ replies heap heap',
        history env first others cs = .ok (replies, heap) ∧
        history env' first others (oneByOne cs) = .ok (replies, heap') ∧
        (∀ c ∈ heap, c.mine = false) ∧ ∀ c ∈ heap', c.mine = false) ↔
      ¬ permitted true 0 := by
  constructor
  · intro hall hperm
    have hrule : (Spool.new [⟨false, false⟩, ⟨false, false⟩]).KeepsBlockRule permitted
        (emptyBlockCalls (default : α)) :=
      ⟨trivial, trivial, trivial, trivial, trivial, hperm, trivial, trivial, trivial, trivial⟩
    obtain ⟨replies, heap, heap', hrun, hrun', -⟩ := hall _ _ _
      (emptyBlockCalls_allowed default) hrule smallEnv smallEnv
    obtain ⟨heap'', hone⟩ := history_emptyBlock_oneByOne (default : α)
    rw [history_emptyBlock] at hrun
    rw [hone] at hrun'
    simp only [Except.ok.injEq, Prod.mk.injEq] at hrun hrun'
    rw [← hrun'.1] at hrun
    simp at hrun
  · intro hrule first others cs hcs hblock env env'
    exact history_oneByOne hrule hcs hblock env env'

/-- An empty block takes the second read pointer from end of file. -/
theorem emptyBlock_moves_pointer : ∃ heap,
    history smallEnv ⟨false, false⟩ [⟨false, false⟩] (emptyBlockCalls 7) =
      .ok ([.tuple (some 7), .tuple none, .tuple (some 7)], []) ∧
    history smallEnv ⟨false, false⟩ [⟨false, false⟩] (oneByOne (emptyBlockCalls 7)) =
      .ok ([.tuple (some 7), .tuple none, .tuple none], heap) := by
  obtain ⟨heap, hone⟩ := history_emptyBlock_oneByOne 7
  exact ⟨heap, history_emptyBlock 7, hone⟩

end Tuplestore

end HolLambdas
