import HolLambdas.Tuplestore.Simulation

/-!
# Handing over a block

`tuplestore_putblock` either copies the tuples of the block, one put each, or takes the block as
it is. The second way moves the read pointers at end of file as the first put would, also when
there is no tuple to put; so the two ways agree if there is one, or if no read pointer waits at
end of file (`Sim.handOver`).
-/

namespace HolLambdas

namespace Tuplestore

open Heap Tuplestorestate

variable {α : Type} {env : Env α} {others : Heap α} {s : Tuplestorestate α} {a : Spool α}
variable {c : Chunk α}

/-! ## Another chunk -/

section Heap

variable {base : Nat} {block : Option (Chunk α)} {entries : List (Entry α)} {others' heap : Heap α}

theorem Held.withHeap (h : Held others s a base block entries) (tick : Nat)
    (hlive : Live heap (entries.filterMap Entry.chunk ++ (block.toList ++ others'))) :
    Held others' { s with heap := heap, allocs := tick } a base block entries :=
  { h with
    pointers := { h.pointers with }
    slots := ⟨hlive, h.slots.cell, h.slots.noBlock, h.slots.isBlock⟩ }

theorem OnFile.withHeap (h : OnFile others s a base) (tick : Nat) (hlive : Live heap others') :
    OnFile others' { s with heap := heap, allocs := tick } a base :=
  { h with
    pointers := { h.pointers with }
    live := hlive }

end Heap

/-- The caller's block is one more chunk that is live. -/
theorem Sim.palloc (env : Env α) (h : Sim others s a) {stride : Nat} (hstride : 0 < stride)
    (cells : List α) (mine : Bool) :
    Sim (⟨(s.palloc env stride cells mine).1, stride, cells, mine⟩ :: others)
      (s.palloc env stride cells mine).2 a := by
  have hfresh := env.place_apart s.allocs s.heap stride cells mine
  cases h with
  | held h hroom =>
    refine .held (h.withHeap _ ((h.slots.live.alloc hstride hfresh).trans ?_)) hroom
    rw [← List.append_assoc, ← List.append_assoc]
    exact List.perm_middle.symm
  | onFile h => exact .onFile (h.withHeap _ (h.live.alloc hstride hfresh))

theorem Sim.load (h : Sim others s a) (hc : c ∈ others) {p : Nat} {t : α}
    (ht : c.cellAt p = some t) : s.heap.load p = some t := by
  cases h with
  | held h => exact h.slots.live.load (by simp [hc]) ht
  | onFile h => exact h.live.load hc ht

theorem Sim.remove (h : Sim (c :: others) s a) :
    ∃ heap, s.heap.remove c.addr c.mine = some heap ∧ Sim others { s with heap := heap } a := by
  cases h with
  | held h hroom =>
    have hlive := h.slots.live
    rw [← List.append_assoc] at hlive
    obtain ⟨heap, hremove, hlive'⟩ := (hlive.trans List.perm_middle).remove
    rw [List.append_assoc] at hlive'
    exact ⟨heap, hremove, .held (h.withHeap s.allocs hlive') hroom⟩
  | onFile h =>
    obtain ⟨heap, hremove, hlive⟩ := h.live.remove
    exact ⟨heap, hremove, .onFile (h.withHeap s.allocs hlive)⟩

/-! ## Copying the tuples -/

theorem Sim.copyTuples (env : Env α) (hc : c ∈ others) {ps : List Nat} {ts : List α}
    (hcells : List.Forall₂ (fun p t => c.cellAt p = some t) ps ts) (h : Sim others s a)
    (hsound : a.Sound) : ∃ s', s.copyTuples env ps = .ok s' ∧ Sim others s' (a.puts ts) := by
  induction hcells generalizing s a with
  | nil => exact ⟨s, rfl, h⟩
  | @cons p t ps ts hp hps ih =>
    obtain ⟨s₁, hput, hsim⟩ := h.puttuple env hsound t
    obtain ⟨s₂, hrest, hsim'⟩ := ih hsim (hsound.put t)
    refine ⟨s₂, ?_, hsim'⟩
    unfold copyTuples
    rw [h.load hc hp]
    change Except.bind (s.puttuple env t) _ = _
    rw [hput]
    exact hrest

/-- The pointers into a block are to its cells. -/
theorem blockPointers_cells (hstride : 0 < c.stride) :
    List.Forall₂ (fun p t => c.cellAt p = some t)
      (blockPointers c.addr c.cells.length c.stride) c.cells := by
  refine List.forall₂_iff_get.mpr ⟨by simp [blockPointers], fun i hi hi' => ?_⟩
  simp only [blockPointers, List.get_eq_getElem, List.getElem_map,
    List.getElem_range]
  exact Chunk.cellAt_index hstride (List.getElem?_eq_getElem hi')

/-! ## Taking the block -/

/-- After one put no cursor but the active one is at end of file. -/
theorem Spool.puts_cursors (a : Spool α) (t : α) (ts : List α) :
    ((a.put t).puts ts).cursors = (a.put t).cursors := by
  induction ts generalizing a t with
  | nil => rfl
  | cons u ts ih =>
    change (((a.put t).put u).puts ts).cursors = _
    rw [ih]
    funext i
    have hno : (((a.put t).cursors i).eof && i != (a.put t).active) = false := by
      simp only [Spool.put]
      split
      · rfl
      · next hc => exact Bool.eq_false_iff.mpr hc
    exact if_neg (by rw [hno]; exact Bool.false_ne_true)

theorem Spool.puts_eq (a : Spool α) (ts : List α) :
    (a.puts ts).tuples = a.tuples ++ ts ∧ (a.puts ts).floor = a.floor ∧
      (a.puts ts).count = a.count ∧ (a.puts ts).active = a.active := by
  induction ts generalizing a with
  | nil => simp [Spool.puts]
  | cons t ts ih =>
    obtain ⟨htuples, hfloor, hcount, hactive⟩ := ih (a.put t)
    exact ⟨htuples.trans (List.append_cons a.tuples t ts).symm, hfloor, hcount, hactive⟩

/-- The read pointers move as with the first of the single puts. -/
theorem Held.puts_pointers {base : Nat} {block : Option (Chunk α)} {entries : List (Entry α)}
    (h : Held others s a base block entries) {ts : List α} (hwait : a.waiting = true → ts ≠ []) :
    Pointers base (s.leaveBehind fun r => { r with current := s.memtupcount }) (a.puts ts) := by
  have hmark : ∀ r : TSReadPointer,
      base + ({ r with current := s.memtupcount } : TSReadPointer).place s.status =
        a.tuples.length := by
    intro r
    rw [h.status]
    exact h.length
  cases ts with
  | nil =>
    -- no read pointer is at end of file, the active one apart
    have hnone : ∀ i < a.count, ((a.cursors i).eof && i != a.active) = false := by
      intro i hi
      refine Bool.eq_false_iff.mpr fun hc => hwait ?_ rfl
      exact List.any_eq_true.mpr ⟨i, List.mem_range.mpr hi, hc⟩
    refine h.pointers.congr rfl rfl rfl rfl rfl (fun i => ?_) fun i hi hp => ?_
    · simp only [leaveBehind]
      split
      · rfl
      · rfl
    · have hsame : (s.leaveBehind fun r => { r with current := s.memtupcount }).readptrs i =
          s.readptrs i := by
        refine if_neg ?_
        rw [hp.eof, h.pointers.active, hnone i hi]
        exact Bool.false_ne_true
      rw [position_of_ne (by simp [h.status])] at hp
      rw [position_of_ne (by simp [leaveBehind, h.status]), hsame]
      exact hp
  | cons t ts =>
    have hput := h.pointers.leaveBehind t (by simp [h.status])
      (fun r => { r with current := s.memtupcount }) fun r => ⟨rfl, rfl, hmark r⟩
    obtain ⟨-, -, hcount, hactive⟩ := Spool.puts_eq (a.put t) ts
    refine hput.congr rfl rfl rfl hcount hactive (fun _ => rfl) fun i hi hp => ?_
    change Points _ _ (((a.put t).puts ts).cursors i)
    rw [Spool.puts_cursors]
    exact hp

/-- The tuples of a block, as entries of the array. -/
def blockEntries (c : Chunk α) : List (Entry α) :=
  c.cells.mapIdx fun i t => .inBlock (c.addr + i * c.stride) t

theorem map_addr_blockEntries (c : Chunk α) : (blockEntries c).map Entry.addr =
    blockPointers c.addr c.cells.length c.stride :=
  List.ext_getElem (by simp [blockEntries, blockPointers])
    (by simp [blockEntries, blockPointers, Entry.addr])

theorem map_tuple_blockEntries (c : Chunk α) : (blockEntries c).map Entry.tuple = c.cells :=
  List.ext_getElem (by simp [blockEntries]) (by simp [blockEntries, Entry.tuple])

theorem filterMap_chunk_blockEntries (c : Chunk α) :
    (blockEntries c).filterMap Entry.chunk = [] := by
  refine List.filterMap_eq_nil_iff.mpr fun e he => ?_
  obtain ⟨i, hi, rfl⟩ := List.mem_mapIdx.mp he
  rfl

theorem cell_blockEntries (hstride : 0 < c.stride) {p : Nat} {t : α}
    (h : .inBlock p t ∈ blockEntries c) : c.cellAt p = some t := by
  obtain ⟨i, hi, heq⟩ := List.mem_mapIdx.mp h
  cases heq
  exact Chunk.cellAt_index hstride (List.getElem?_eq_getElem hi)

/-- The store with a block that it has taken, however the array has grown. -/
theorem Held.takes {base : Nat} {entries : List (Entry α)} (h : Held others s a base none entries)
    {heap : Heap α} (hlive : Live heap (c :: (entries.filterMap Entry.chunk ++ others)))
    (hne : c.addr ≠ 0) (hwait : a.waiting = true → c.cells ≠ []) (tick size : Nat) (mem : Int) :
    Held others
      { (s.leaveBehind fun r => { r with current := s.memtupcount }) with
        heap := heap
        allocs := tick
        availMem := mem
        memtuples := s.memtuples ++
          blockPointers c.addr c.cells.length c.stride
        memtupsize := size
        tuples := s.tuples + c.cells.length
        block := c.addr
        blockend := c.stop
        ownblock := c.mine }
      (a.puts c.cells) base (some c) (entries ++ blockEntries c) := by
  have hptr := h.puts_pointers hwait
  obtain ⟨htuples, hfloor, -, -⟩ := a.puts_eq c.cells
  exact
    { status := h.status
      pointers := { hptr with }
      slots :=
        { live := by
            refine hlive.trans ?_
            rw [List.filterMap_append, filterMap_chunk_blockEntries, List.append_nil]
            exact List.perm_middle.symm
          cell := by
            intro p t ht
            rcases List.mem_append.mp ht with ht | ht
            · obtain ⟨d, hd, -⟩ := h.slots.cell p t ht
              cases hd
            · exact ⟨c, rfl, cell_blockEntries (hlive.stride c List.mem_cons_self) ht⟩
          noBlock := nofun
          isBlock := by
            intro d hd
            cases hd
            exact ⟨rfl, rfl, rfl, hne⟩ }
      array := by
        rw [List.map_append, map_addr_blockEntries, ← List.append_assoc]
        exact congrArg (· ++ _) h.array
      contents := by
        have hle : base + s.memtupdeleted ≤ a.tuples.length := by
          have hlen := h.length
          rw [memtupcount, h.array, List.length_append,
            List.length_replicate] at hlen
          omega
        rw [List.map_append, map_tuple_blockEntries, ← h.contents, htuples]
        exact List.drop_append_of_le_length hle
      length := by
        have hlen := h.length
        rw [htuples]
        simp only [memtupcount, List.length_append,
          blockPointers, List.length_map, List.length_range] at hlen ⊢
        omega
      kept := hfloor ▸ h.kept
      tuples := by
        rw [htuples, List.length_append, ← h.tuples]
      truncated := hfloor ▸ h.truncated }

theorem Sim.copyBlock (env : Env α) (h : Sim (c :: others) s a) (hstride : 0 < c.stride)
    (hsound : a.Sound) :
    ∃ s', s.copyBlock env c.addr c.cells.length c.stride c.mine = .ok s' ∧
      Sim others s' (a.puts c.cells) := by
  obtain ⟨s₁, hcopy, hsim⟩ :=
    Sim.copyTuples env List.mem_cons_self (blockPointers_cells hstride) h hsound
  obtain ⟨heap, hremove, hsim'⟩ := hsim.remove
  refine ⟨_, ?_, hsim'⟩
  rw [Tuplestorestate.copyBlock, hcopy]
  change (if c.mine then s₁.pfree c.addr else .ok (s₁.letGo c.addr)) = _
  cases hmine : c.mine with
  | true =>
    rw [hmine] at hremove
    simp only [pfree, hremove, if_true]
  | false =>
    rw [hmine] at hremove
    simp only [letGo, hremove, Bool.false_eq_true, if_false]

theorem takeBlock_room (env : Env α) (s : Tuplestorestate α) (p ntuples tuplen : Nat)
    (owned : Bool) : (s.takeBlock env p ntuples tuplen owned).memtupcount <
      (s.takeBlock env p ntuples tuplen owned).memtupsize := by
  have hlen : (s.takeBlock env p ntuples tuplen owned).memtupcount = s.memtupcount + ntuples := by
    simp [memtupcount, takeBlock, blockPointers]
  rw [hlen, takeBlock]
  split
  · exact Nat.lt_succ_self _
  · next hfits => exact Nat.not_le.mp hfits

/-- A block is as good as its tuples put one by one. -/
theorem Sim.handOver (env : Env α) (h : Sim others s a) (hsound : a.Sound) (ts : List α)
    {tuplen : Nat} (hlen : 0 < tuplen) (owned : Bool) (hwait : a.waiting = true → ts ≠ []) :
    ∃ s', handOver env s ts tuplen owned = .ok s' ∧ Sim others s' (a.puts ts) := by
  have hsim := h.palloc env hlen ts owned
  unfold Tuplestore.handOver putblock
  split
  · exact hsim.copyBlock env hlen hsound
  · next hkeep =>
    rw [not_or, not_or, not_not, not_not] at hkeep
    cases h with
    | @held base block entries h hroom =>
      -- the store has no block yet
      have hblock : block = none := by
        cases hb : block with
        | none => rfl
        | some c =>
          obtain ⟨haddr, -, -, hne⟩ := h.slots.isBlock c hb
          exact absurd (haddr.symm.trans hkeep.2.1) hne
      subst hblock
      have hlive := h.slots.live.alloc (c := ⟨_, tuplen, ts, owned⟩) hlen
        (env.place_apart s.allocs s.heap tuplen ts owned)
      refine ⟨_, rfl, .held (h.takes hlive (env.place_ne_zero _ _ _) hwait _ _ _)
        (takeBlock_room ..)⟩
    | onFile h => exact absurd hkeep.1 h.status

end Tuplestore

end HolLambdas
