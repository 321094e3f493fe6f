import HolLambdas.Tuplestore.Store

/-!
# What the array of tuples points to

A pointer of the array is either to a chunk of its own or into the block. `Slots` says which,
tuple by tuple, and that the heap holds just these chunks, the block and whatever else is live.
From it follow that the address test `INBLOCK` decides ownership, and that freeing and dumping
the tuples take every chunk out of the heap once.
-/

namespace HolLambdas

namespace Tuplestore

open Heap

/-- A tuple of the array, with where it is. -/
inductive Entry (α : Type)
  | own (p size : Nat) (t : α)
  | inBlock (p : Nat) (t : α)

namespace Entry

variable {α : Type}

def addr : Entry α → Nat
  | own p _ _ => p
  | inBlock p _ => p

def tuple : Entry α → α
  | own _ _ t => t
  | inBlock _ t => t

/-- The chunk that has to be freed with the tuple. -/
def chunk : Entry α → Option (Chunk α)
  | own p size t => some ⟨p, size, [t], true⟩
  | inBlock _ _ => none

end Entry

variable {α : Type}

/-- The chunks the store has, next to others that are live. -/
structure Slots (s : Tuplestorestate α) (others : Heap α) (block : Option (Chunk α))
    (entries : List (Entry α)) : Prop where
  live : Live s.heap (entries.filterMap Entry.chunk ++ (block.toList ++ others))
  cell : ∀ p t, .inBlock p t ∈ entries → ∃ c, block = some c ∧ c.cellAt p = some t
  noBlock : block = none → s.block = 0 ∧ s.blockend = 0
  isBlock : ∀ c, block = some c →
    s.block = c.addr ∧ s.blockend = c.stop ∧ s.ownblock = c.mine ∧ c.addr ≠ 0

namespace Slots

variable {s : Tuplestorestate α} {others : Heap α} {block : Option (Chunk α)}
  {entries : List (Entry α)}

section

variable (h : Slots s others block entries)

include h

/-- Nothing but the heap and the block matters. -/
theorem congr {s' : Tuplestorestate α} (hheap : s'.heap = s.heap) (hblock : s'.block = s.block)
    (hend : s'.blockend = s.blockend) (hown : s'.ownblock = s.ownblock) :
    Slots s' others block entries where
  live := hheap ▸ h.live
  cell := h.cell
  noBlock := by rw [hblock, hend]; exact h.noBlock
  isBlock := by rw [hblock, hend, hown]; exact h.isBlock

theorem block_mem {c : Chunk α} (hc : block = some c) : 0 < c.stride :=
  h.live.stride c (by simp [hc])

theorem load {e : Entry α} (he : e ∈ entries) : s.heap.load e.addr = some e.tuple := by
  cases e with
  | own p size t =>
    have hmem : (⟨p, size, [t], true⟩ : Chunk α) ∈ entries.filterMap Entry.chunk :=
      List.mem_filterMap.mpr ⟨_, he, rfl⟩
    have hmem' := List.mem_append_left (block.toList ++ others) hmem
    have hcell := Chunk.cellAt_index (i := 0) (h.live.stride _ hmem') rfl
    rw [Nat.zero_mul] at hcell
    exact h.live.load hmem' hcell
  | inBlock p t =>
    obtain ⟨c, hc, hcell⟩ := h.cell p t he
    exact h.live.load (by simp [hc]) hcell

/-- The address test tells the tuples of the block from the others. -/
theorem inBlock_own {p size : Nat} {t : α} (he : .own p size t ∈ entries) :
    s.inBlock p = false := by
  unfold Tuplestorestate.inBlock
  cases hb : block with
  | none =>
    have := h.noBlock hb
    simp [this]
  | some c =>
    obtain ⟨haddr, hend, -, -⟩ := h.isBlock c hb
    have hmem : (⟨p, size, [t], true⟩ : Chunk α) ∈ entries.filterMap Entry.chunk :=
      List.mem_filterMap.mpr ⟨_, he, rfl⟩
    have hapart := (List.pairwise_append.mp h.live.apart).2.2 _ hmem c (by simp [hb])
    have hpos := h.live.stride _ (List.mem_append_left _ hmem)
    simp only [Chunk.Apart, Chunk.stop, List.length_singleton, Nat.one_mul] at hapart hend
    simp only [haddr, hend, Bool.and_eq_false_imp, decide_eq_true_eq, decide_eq_false_iff_not]
    have hsize : 0 < size := hpos
    omega

theorem inBlock_cell {p : Nat} {t : α} (he : .inBlock p t ∈ entries) : s.inBlock p = true := by
  obtain ⟨c, hc, hcell⟩ := h.cell p t he
  obtain ⟨haddr, hend, -, -⟩ := h.isBlock c hc
  have := Chunk.cellAt_range (h.block_mem hc) hcell
  simp [Tuplestorestate.inBlock, haddr, hend, this]

end

theorem of_inBlock {p : Nat} {t : α} (h : Slots s others block (.inBlock p t :: entries)) :
    Slots s others block entries where
  live := h.live
  cell := fun q u hu => h.cell q u (List.mem_cons_of_mem _ hu)
  noBlock := h.noBlock
  isBlock := h.isBlock

variable (env : Env α)

theorem freeChunk {p size : Nat} {t : α} (h : Slots s others block (.own p size t :: entries)) :
    ∃ heap availMem, s.freeChunk env p = .ok { s with heap := heap, availMem := availMem } ∧
      Slots { s with heap := heap, availMem := availMem } others block entries := by
  obtain ⟨heap, hremove, hlive⟩ :=
    Live.remove (c := ⟨p, size, [t], true⟩) h.live
  refine ⟨heap, s.availMem + s.chunkSpace env p, ?_, hlive,
    fun q u hu => h.cell q u (List.mem_cons_of_mem _ hu), h.noBlock, h.isBlock⟩
  simp only [Tuplestorestate.freeChunk, Tuplestorestate.pfree, hremove]

/-- Freeing tuples of the array. -/
theorem freeTuples {freed kept : List (Entry α)} (h : Slots s others block (freed ++ kept)) :
    ∃ heap availMem,
      s.freeTuples env (freed.map Entry.addr) = .ok { s with heap := heap, availMem := availMem } ∧
      Slots { s with heap := heap, availMem := availMem } others block kept := by
  induction freed generalizing s with
  | nil => exact ⟨s.heap, s.availMem, rfl, h⟩
  | cons e freed ih =>
    rw [List.map_cons]
    unfold Tuplestorestate.freeTuples
    cases e with
    | own p size t =>
      obtain ⟨heap₁, mem₁, hfree, hslots⟩ := freeChunk env h
      obtain ⟨heap₂, mem₂, hrest, hslots'⟩ := ih hslots
      refine ⟨heap₂, mem₂, ?_, hslots'⟩
      rw [Entry.addr, h.inBlock_own List.mem_cons_self, if_neg Bool.false_ne_true, hfree]
      exact hrest
    | inBlock p t =>
      obtain ⟨heap, mem, hrest, hslots⟩ := ih h.of_inBlock
      refine ⟨heap, mem, ?_, hslots⟩
      rw [Entry.addr, h.inBlock_cell List.mem_cons_self, if_pos rfl]
      exact hrest

/-- When no tuple is left the block can go. -/
theorem freeBlock (h : Slots s others block []) :
    ∃ heap availMem, s.freeBlock env =
        .ok { s with heap := heap, availMem := availMem, block := 0, blockend := 0 } ∧
      Live heap others := by
  unfold Tuplestorestate.freeBlock
  cases hb : block with
  | none =>
    obtain ⟨hblock, hend⟩ := h.noBlock hb
    refine ⟨s.heap, s.availMem, ?_, by simpa [hb] using h.live⟩
    rw [if_pos hblock]
    cases s
    cases hblock
    cases hend
    rfl
  | some c =>
    subst hb
    obtain ⟨haddr, -, hmine, hne⟩ := h.isBlock c rfl
    obtain ⟨heap, hremove, hlive⟩ := Live.remove h.live
    rw [haddr, if_neg hne]
    cases hown : c.mine with
    | true =>
      rw [hown] at hmine hremove
      refine ⟨heap, s.availMem + s.chunkSpace env c.addr, ?_, hlive⟩
      simp only [hmine, if_true, Tuplestorestate.freeChunk, Tuplestorestate.pfree, hremove,
        Except.map]
    | false =>
      rw [hown] at hmine hremove
      refine ⟨heap, s.availMem, ?_, hlive⟩
      simp only [hmine, Bool.false_eq_true, if_false, Tuplestorestate.letGo, hremove, Except.map]

/-- A tuple is written and, if it is not in the block, freed. -/
theorem writetup {e : Entry α} (h : Slots s others block (e :: entries))
    (hend : s.seekpos = s.myfile.length) :
    ∃ heap availMem, s.writetup env e.addr = .ok { s with
        heap := heap, availMem := availMem, myfile := s.myfile ++ [e.tuple]
        seekpos := s.seekpos + 1 } ∧
      Slots { s with heap := heap, availMem := availMem, myfile := s.myfile ++ [e.tuple]
                     seekpos := s.seekpos + 1 } others block entries := by
  have hwrite : Slots { s with myfile := s.myfile ++ [e.tuple], seekpos := s.seekpos + 1 }
      others block (e :: entries) := h.congr rfl rfl rfl rfl
  have heq : s.writetup env e.addr =
      let w := { s with myfile := s.myfile ++ [e.tuple], seekpos := s.seekpos + 1 }
      if w.inBlock e.addr then .ok w else w.freeChunk env e.addr := by
    unfold Tuplestorestate.writetup
    rw [h.load List.mem_cons_self]
    exact if_neg (not_not_intro hend)
  rw [heq]
  cases e with
  | own p size t =>
    have hin : ¬ Tuplestorestate.inBlock _ p = true :=
      Bool.eq_false_iff.mp (hwrite.inBlock_own List.mem_cons_self)
    obtain ⟨heap, mem, hfree, hslots⟩ := freeChunk env hwrite
    exact ⟨heap, mem, (if_neg hin).trans hfree, hslots⟩
  | inBlock p t =>
    exact ⟨s.heap, s.availMem, if_pos (hwrite.inBlock_cell List.mem_cons_self), hwrite.of_inBlock⟩

end Slots

/-- A read pointer after `n` tuples from the array index `i` on went to the file from the
position `start` on. -/
def TSReadPointer.dumped (r : TSReadPointer) (i n start : Nat) : TSReadPointer :=
  if r.eof_reached = false ∧ i ≤ r.current ∧ r.current ≤ i + n then
    { r with offset := start + (r.current - i) }
  else r

theorem TSReadPointer.dumped_eflags (r : TSReadPointer) (i n start : Nat) :
    (r.dumped i n start).eflags = r.eflags := by
  unfold dumped
  split
  · rfl
  · rfl

theorem TSReadPointer.dumped_zero (r : TSReadPointer) (i start : Nat) : r.dumped i 0 start =
    if r.current = i ∧ r.eof_reached = false then { r with offset := start } else r := by
  unfold dumped
  by_cases hi : r.current = i
  · simp [hi]
  · rw [if_neg fun h => hi (Nat.le_antisymm h.2.2 h.2.1), if_neg fun h => hi h.1]

/-- The loop of `dumptuples` at one read pointer. -/
theorem TSReadPointer.dumped_succ (r : TSReadPointer) (i n start : Nat) :
    (r.dumped i 0 start).dumped (i + 1) n (start + 1) = r.dumped i (n + 1) start := by
  rw [dumped_zero]
  by_cases heq : r.current = i ∧ r.eof_reached = false
  · rw [if_pos heq, dumped, if_neg (by simp [heq]), dumped, if_pos (by simp [heq]), heq.1,
      Nat.sub_self, Nat.add_zero]
  · rw [if_neg heq, dumped, dumped]
    -- from here on the pointer is below the tuple, above it or at end of file
    have hiff : (r.eof_reached = false ∧ i + 1 ≤ r.current ∧ r.current ≤ i + 1 + n) ↔
        r.eof_reached = false ∧ i ≤ r.current ∧ r.current ≤ i + (n + 1) := by
      constructor
      · rintro ⟨heof, hle, hge⟩
        exact ⟨heof, by omega, by omega⟩
      · rintro ⟨heof, hle, hge⟩
        have hne : r.current ≠ i := fun h => heq ⟨h, heof⟩
        exact ⟨heof, by omega, by omega⟩
    simp only [hiff]
    split
    · next h =>
      have hne : r.current ≠ i := fun hi => heq ⟨hi, h.1⟩
      have hoff : start + 1 + (r.current - (i + 1)) = start + (r.current - i) := by omega
      rw [hoff]
    · rfl

namespace Slots

variable {s : Tuplestorestate α} {others : Heap α} {block : Option (Chunk α)}
  {entries : List (Entry α)} (env : Env α)

/-- The state after writing out the tuples. -/
theorem dumpLoop (h : Slots s others block entries) (hend : s.seekpos = s.myfile.length) (i : Nat) :
    ∃ heap availMem,
      s.dumpLoop env (entries.map Entry.addr) i = .ok { s with
        heap := heap, availMem := availMem
        myfile := s.myfile ++ entries.map Entry.tuple
        seekpos := s.seekpos + entries.length
        readptrs := fun j => (s.readptrs j).dumped i entries.length s.seekpos } ∧
      Slots { s with heap := heap, availMem := availMem } others block [] := by
  induction entries generalizing s i with
  | nil =>
    refine ⟨s.heap, s.availMem, ?_, h⟩
    simp only [List.map_nil, Tuplestorestate.dumpLoop, Tuplestorestate.convertPointers,
      List.append_nil, List.length_nil, Nat.add_zero, TSReadPointer.dumped_zero]
  | cons e entries ih =>
    have hconv : Slots (s.convertPointers i) others block (e :: entries) :=
      h.congr rfl rfl rfl rfl
    obtain ⟨heap₁, mem₁, hwrite, hslots⟩ := writetup env hconv hend
    obtain ⟨heap₂, mem₂, hrest, hslots'⟩ :=
      ih hslots (by simp [hend, Tuplestorestate.convertPointers])
      (i + 1)
    refine ⟨heap₂, mem₂, ?_, hslots'.congr rfl rfl rfl rfl⟩
    rw [List.map_cons, Tuplestorestate.dumpLoop, hwrite]
    refine hrest.trans ?_
    simp only [Tuplestorestate.convertPointers, ← TSReadPointer.dumped_zero,
      TSReadPointer.dumped_succ, List.append_assoc, List.singleton_append, List.map_cons,
      List.length_cons, Nat.add_assoc, Nat.add_comm 1]

/-- The tuples go to the file in order and their memory is freed. -/
theorem dumptuples (h : Slots s others block entries) (hend : s.seekpos = s.myfile.length)
    (harray : s.memtuples.drop s.memtupdeleted = entries.map Entry.addr) :
    ∃ heap availMem,
      s.dumptuples env = .ok { s with
        heap := heap, availMem := availMem, block := 0, blockend := 0
        myfile := s.myfile ++ entries.map Entry.tuple
        seekpos := s.seekpos + entries.length
        memtupdeleted := 0, memtuples := []
        readptrs := fun j => (s.readptrs j).dumped s.memtupdeleted entries.length s.seekpos } ∧
      Live heap others := by
  obtain ⟨heap₁, mem₁, hloop, hslots⟩ := dumpLoop env h hend s.memtupdeleted
  obtain ⟨heap₂, mem₂, hblock, hlive⟩ := freeBlock env
    (s := { s with
      heap := heap₁, availMem := mem₁
      myfile := s.myfile ++ entries.map Entry.tuple
      seekpos := s.seekpos + entries.length
      readptrs := fun j => (s.readptrs j).dumped s.memtupdeleted entries.length s.seekpos })
    (hslots.congr rfl rfl rfl rfl)
  refine ⟨heap₂, mem₂, ?_, hlive⟩
  rw [Tuplestorestate.dumptuples, harray, hloop]
  change Except.bind (Tuplestorestate.freeBlock env _) _ = _
  rw [hblock]
  rfl

end Slots

end Tuplestore

end HolLambdas
