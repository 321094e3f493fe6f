import HolLambdas.Tuplestore.Spool
import HolLambdas.Tuplestore.Slots

/-!
# A tuplestore stands for a spool

`Sim` relates a store to the spool it stands for. In memory the array holds the tuples from some
`base` on, the first `memtupdeleted` of which are gone; on file it is the file that holds the
tuples from `base` on. Read pointers are at the places of the cursors, those at end of file
apart, whose place is not kept.

Here are the relation and the calls that write. A put keeps the relation whether the store
stays in memory, spills, or is on file already.
-/

namespace HolLambdas

namespace Tuplestore

open Heap Tuplestorestate

variable {α : Type}

/-- Where a read pointer says it is, by the state of the store. -/
def TSReadPointer.place (r : TSReadPointer) : TupStoreStatus → Nat
  | .inmem => r.current
  | .writefile | .readfile => r.offset

/-- While reading from the file the active read pointer is where the file is. -/
def Tuplestorestate.position (s : Tuplestorestate α) (i : Nat) : Nat :=
  if s.status = .readfile ∧ i = s.activeptr then s.seekpos else (s.readptrs i).place s.status

theorem Tuplestorestate.position_of_ne {s : Tuplestorestate α} (h : s.status ≠ .readfile)
    (i : Nat) : s.position i = (s.readptrs i).place s.status :=
  if_neg fun hc => h hc.1

/-- A read pointer at a position stands for a cursor. -/
structure Points (pos : Nat) (r : TSReadPointer) (c : Cursor) : Prop where
  flags : r.eflags = c.flags
  eof : r.eof_reached = c.eof
  pos_eq : c.eof = false → pos = c.pos

/-- Read pointers and cursors agree. -/
structure Pointers (base : Nat) (s : Tuplestorestate α) (a : Spool α) : Prop where
  count : s.readptrcount = a.count
  active : s.activeptr = a.active
  eflags : s.eflags = s.allFlags
  points : ∀ i < a.count, Points (base + s.position i) (s.readptrs i) (a.cursors i)

/-- The tuples are in memory. -/
structure Held (others : Heap α) (s : Tuplestorestate α) (a : Spool α) (base : Nat)
    (block : Option (Chunk α)) (entries : List (Entry α)) : Prop where
  status : s.status = .inmem
  pointers : Pointers base s a
  slots : Slots s others block entries
  array : s.memtuples = List.replicate s.memtupdeleted 0 ++ entries.map Entry.addr
  contents : a.tuples.drop (base + s.memtupdeleted) = entries.map Entry.tuple
  length : base + s.memtupcount = a.tuples.length
  kept : base + s.memtupdeleted ≤ a.floor
  tuples : s.tuples = a.tuples.length
  truncated : s.truncated = true → a.floor ≠ 0

/-- The tuples are in the file. -/
structure OnFile (others : Heap α) (s : Tuplestorestate α) (a : Spool α) (base : Nat) : Prop where
  status : s.status ≠ .inmem
  pointers : Pointers base s a
  live : Live s.heap others
  noBlock : s.block = 0 ∧ s.blockend = 0
  array : s.memtuples = [] ∧ s.memtupdeleted = 0 ∧ 0 < s.memtupsize
  contents : s.myfile = a.tuples.drop base
  nonempty : base < a.tuples.length
  kept : base ≤ a.floor
  backward : s.eflags.backward = true → s.backward = true
  writing : s.status = .writefile → s.seekpos = s.myfile.length
  reading : s.status = .readfile → s.writepos = s.myfile.length ∧
    (s.active.eof_reached = true → s.seekpos = s.myfile.length)
  tuples : s.tuples = a.tuples.length
  truncated : s.truncated = true → a.floor ≠ 0

/-- The store holds the tuples of the spool, in memory or in the file. -/
inductive Sim (others : Heap α) (s : Tuplestorestate α) (a : Spool α) : Prop
  | held {base : Nat} {block : Option (Chunk α)} {entries : List (Entry α)}
      (h : Held others s a base block entries) (room : s.memtupcount < s.memtupsize)
  | onFile {base : Nat} (h : OnFile others s a base)

/-! ## Read pointers -/

namespace Pointers

variable {base : Nat} {s : Tuplestorestate α} {a : Spool α}

theorem active_points (h : Pointers base s a) (hlt : a.active < a.count) :
    Points (base + s.position s.activeptr) s.active a.current := by
  have := h.points _ hlt
  unfold Tuplestorestate.active
  rwa [h.active]

/-- Only where the read pointers are matters. -/
theorem congr {base' : Nat} (h : Pointers base s a) {s' : Tuplestorestate α} {a' : Spool α}
    (hcount : s'.readptrcount = s.readptrcount) (hactive : s'.activeptr = s.activeptr)
    (heflags : s'.eflags = s.eflags) (hcount' : a'.count = a.count)
    (hactive' : a'.active = a.active) (hflags : ∀ i, (s'.readptrs i).eflags = (s.readptrs i).eflags)
    (hpoints : ∀ i < a.count, Points (base + s.position i) (s.readptrs i) (a.cursors i) →
      Points (base' + s'.position i) (s'.readptrs i) (a'.cursors i)) : Pointers base' s' a' where
  count := by rw [hcount, hcount', h.count]
  active := by rw [hactive, hactive', h.active]
  eflags := by
    rw [heflags, h.eflags, allFlags, allFlags, hcount]
    exact orFlags_congr fun i _ => (hflags i).symm
  points := fun i hi => hpoints i (hcount' ▸ hi) (h.points i (hcount' ▸ hi))

/-- Read pointers at end of file stay behind where the next tuple goes. -/
theorem leaveBehind (h : Pointers base s a) (t : α) (hst : s.status ≠ .readfile)
    (mark : TSReadPointer → TSReadPointer)
    (hmark : ∀ r, (mark r).eflags = r.eflags ∧ (mark r).eof_reached = r.eof_reached ∧
      base + (mark r).place s.status = a.tuples.length) :
    Pointers base (s.leaveBehind mark) (a.put t) := by
  have hptr : ∀ i, (s.leaveBehind mark).readptrs i =
      if (s.readptrs i).eof_reached && i != s.activeptr then
        mark { s.readptrs i with eof_reached := false }
      else s.readptrs i := fun _ => rfl
  refine h.congr rfl rfl rfl rfl rfl (fun i => ?_) fun i hi hp => ?_
  · rw [hptr]
    split
    · exact (hmark _).1
    · rfl
  · have hcur : (a.put t).cursors i =
        if (s.readptrs i).eof_reached && i != s.activeptr then
          { a.cursors i with eof := false, pos := a.tuples.length }
        else a.cursors i := by
      rw [hp.eof, h.active]
      rfl
    have hpos : (s.leaveBehind mark).position i =
        ((s.leaveBehind mark).readptrs i).place s.status :=
      position_of_ne (s := s.leaveBehind mark) hst i
    rw [position_of_ne hst] at hp
    rw [hpos, hptr, hcur]
    split
    · exact ⟨(hmark _).1.trans hp.flags, (hmark _).2.1, fun _ => (hmark _).2.2⟩
    · exact hp

end Pointers

/-! ## Putting a tuple -/

/-- The memory manager gives a chunk that is apart from all others. -/
theorem Env.place_apart (env : Env α) (n : Nat) (heap : Heap α) (stride : Nat) (cells : List α)
    (mine : Bool) : ∀ c ∈ heap,
      (⟨env.place n heap (cells.length * stride), stride, cells, mine⟩ : Chunk α).Apart c :=
  fun c hc => env.place_fresh n heap (cells.length * stride) c hc

section Put

variable {env : Env α} {others : Heap α} {s : Tuplestorestate α} {a : Spool α} {base : Nat}
  {block : Option (Chunk α)} {entries : List (Entry α)}

theorem copytup_live (env : Env α) {cs : Heap α} (h : Live s.heap cs) (t : α) :
    Live (s.copytup env t).2.heap
      (⟨(s.copytup env t).1, env.tupleSize t, [t], true⟩ :: cs) :=
  h.alloc (env.tupleSize_pos t) (env.place_apart s.allocs s.heap (env.tupleSize t) [t] true)

/-- A tuple in a new chunk at the end of the array. -/
theorem Slots.copytup (h : Slots s others block entries) (t : α) :
    Slots (s.copytup env t).2 others block
      (entries ++ [.own (s.copytup env t).1 (env.tupleSize t) t]) where
  live := by
    refine (copytup_live env h.live t).trans ?_
    rw [List.filterMap_append, List.append_assoc]
    exact List.perm_middle.symm
  cell := by
    intro p u hu
    rcases List.mem_append.mp hu with hu | hu
    · exact h.cell p u hu
    · cases List.mem_singleton.mp hu
  noBlock := h.noBlock
  isBlock := h.isBlock

/-- The array does not get smaller, and nothing else changes. -/
theorem growMemtuples_spec (env : Env α) (s : Tuplestorestate α) :
    ∃ grow size availMem, s.growMemtuples env = .ok { s with
        growmemtuples := grow, memtupsize := size, availMem := availMem } ∧
      s.memtupsize ≤ size := by
  unfold growMemtuples
  split
  · exact ⟨_, _, _, rfl, Nat.le_refl _⟩
  · extract_lets memNowUsed doubles size
    split
    · exact ⟨_, _, _, rfl, Nat.le_refl _⟩
    · next hsize =>
      rw [not_or, Int.not_le, Int.not_lt] at hsize
      -- the overhead of the array is the same before and after
      have hmem : ¬ s.availMem + (8 * s.memtupsize + env.overhead : Nat) -
          (8 * size.toNat + env.overhead : Nat) < 0 := by
        push_cast
        omega
      exact ⟨_, _, _, if_neg hmem, by omega⟩

theorem Held.put_pointers (h : Held others s a base block entries) (t : α) :
    Pointers base
      ({ s with tuples := s.tuples + 1 }.leaveBehind fun r => { r with current := s.memtupcount })
      (a.put t) := by
  have hptr : Pointers base { s with tuples := s.tuples + 1 } a :=
    { h.pointers with }
  refine hptr.leaveBehind t (by simp [h.status]) (fun r => { r with current := s.memtupcount })
    fun r => ⟨rfl, rfl, ?_⟩
  simp only [h.status]
  exact h.length

/-- The places a read pointer of an array can be at. -/
theorem Held.current_range (h : Held others s a base block entries) (hsound : a.Sound) {i : Nat}
    (hi : i < a.count) (heof : (s.readptrs i).eof_reached = false) :
    s.memtupdeleted ≤ (s.readptrs i).current ∧
      (s.readptrs i).current ≤ s.memtupdeleted + entries.length := by
  have hp := h.pointers.points i hi
  have heof' : (a.cursors i).eof = false := hp.eof.symm.trans heof
  have hpos := hp.pos_eq heof'
  rw [position_of_ne (by simp [h.status]), h.status] at hpos
  have hle := hsound.pos_le i hi heof'
  have hlt := fun h0 => hsound.floor_lt_pos h0 i hi heof'
  have hkept := h.kept
  have hlen := h.length
  simp only [memtupcount, h.array, List.length_append, List.length_replicate,
    List.length_map] at hlen
  have hcur : base + (s.readptrs i).current = (a.cursors i).pos := hpos
  omega

/-- Writing all tuples out. -/
theorem Held.spill (env : Env α) (h : Held others s a base block entries) (hsound : a.Sound)
    (hne : entries ≠ []) (hsize : 0 < s.memtupsize) :
    ∃ s', dumptuples env { s with
        myfile := [], seekpos := 0, backward := s.eflags.backward, status := .writefile } = .ok s' ∧
      OnFile others s' a (base + s.memtupdeleted) := by
  have harray : s.memtuples.drop s.memtupdeleted = entries.map Entry.addr := by
    rw [h.array, List.drop_left' (List.length_replicate ..)]
  have hslots : Slots { s with
      myfile := [], seekpos := 0, backward := s.eflags.backward, status := .writefile }
      others block entries := h.slots.congr rfl rfl rfl rfl
  obtain ⟨heap, mem, hdump, hlive⟩ := hslots.dumptuples env rfl harray
  refine ⟨_, hdump, ?_⟩
  have hlen : base + s.memtupdeleted + entries.length = a.tuples.length := by
    rw [← h.length, memtupcount, h.array]
    simp [Nat.add_assoc]
  refine
    { status := nofun
      pointers := ?_
      live := hlive
      noBlock := ⟨rfl, rfl⟩
      array := ⟨rfl, rfl, hsize⟩
      contents := h.contents.symm
      nonempty := by
        have := List.length_pos_iff.mpr hne
        omega
      kept := h.kept
      backward := id
      writing := fun _ => by simp
      reading := nofun
      tuples := h.tuples
      truncated := h.truncated }
  refine h.pointers.congr rfl rfl rfl rfl rfl (fun i => (s.readptrs i).dumped_eflags _ _ _)
    fun i hi hp => ?_
  · rw [position_of_ne (by simp [h.status]), h.status] at hp
    simp only [position, reduceCtorEq, false_and, if_false]
    -- a pointer at end of file has no place in it
    cases heof : (s.readptrs i).eof_reached with
    | true =>
      have hsame : (s.readptrs i).dumped s.memtupdeleted entries.length 0 = s.readptrs i :=
        if_neg (by simp [heof])
      simp only [hsame]
      exact ⟨hp.flags, hp.eof, fun he => by simp [← hp.eof, heof] at he⟩
    | false =>
      obtain ⟨hlo, hhi⟩ := h.current_range hsound hi heof
      have hmoved : (s.readptrs i).dumped s.memtupdeleted entries.length 0 =
          { s.readptrs i with offset := 0 + ((s.readptrs i).current - s.memtupdeleted) } :=
        if_pos ⟨heof, hlo, hhi⟩
      simp only [hmoved]
      refine ⟨hp.flags, hp.eof, fun he => ?_⟩
      rw [← hp.pos_eq he]
      simp only [TSReadPointer.place]
      omega

/-- The array after a put, however it has grown. -/
theorem Held.pushed (h : Held others s a base block entries) (t : α) (grow : Bool) (size : Nat)
    (mem : Int) :
    Held others
      { ({ (s.copytup env t).2 with tuples := s.tuples + 1 }.leaveBehind
          fun r => { r with current := s.memtupcount }) with
        growmemtuples := grow, memtupsize := size, availMem := mem
        memtuples := s.memtuples ++ [(s.copytup env t).1] }
      (a.put t) base block (entries ++ [.own (s.copytup env t).1 (env.tupleSize t) t]) where
  status := h.status
  pointers :=
    ⟨(h.put_pointers t).count, (h.put_pointers t).active, (h.put_pointers t).eflags,
      (h.put_pointers t).points⟩
  slots := (h.slots.copytup t).congr rfl rfl rfl rfl
  array := by
    rw [List.map_append, ← List.append_assoc]
    exact congrArg (· ++ _) h.array
  contents := by
    have hle : base + s.memtupdeleted ≤ a.tuples.length := by
      have hlen := h.length
      rw [memtupcount, h.array, List.length_append, List.length_replicate] at hlen
      omega
    rw [List.map_append, ← h.contents]
    exact List.drop_append_of_le_length hle
  length := by
    have := h.length
    simp only [memtupcount, Spool.put, List.length_append,
      List.length_singleton] at this ⊢
    omega
  kept := h.kept
  tuples := by
    have := h.tuples
    simp only [leaveBehind, Spool.put, List.length_append, List.length_singleton,
      this]
  truncated := h.truncated

theorem stash_spec {p : Nat} (hroom : s.memtupcount < s.memtupsize) (hsound : a.Sound)
    (hne : entries ≠ []) (hheld : ∀ grow size mem, Held others { s with
      growmemtuples := grow, memtupsize := size, availMem := mem, memtuples := s.memtuples ++ [p] }
      a base block entries) :
    ∃ s', s.stash env p = .ok s' ∧ Sim others s' a := by
  have hgrow : ∃ grow size mem, s.makeRoom env =
        .ok { s with growmemtuples := grow, memtupsize := size, availMem := mem } ∧
      s.memtupsize ≤ size := by
    unfold makeRoom
    split
    · exact growMemtuples_spec env s
    · exact ⟨_, _, _, rfl, Nat.le_refl _⟩
  obtain ⟨grow, size, mem, heq, hsize⟩ := hgrow
  have hlt : ¬ size ≤ s.memtupcount := by omega
  have hthis := hheld grow size mem
  unfold stash
  rw [heq]
  by_cases hfits : (s.memtuples ++ [p]).length < size ∧ 0 ≤ mem
  · exact ⟨_, (if_neg hlt).trans (if_pos hfits), .held hthis hfits.1⟩
  · obtain ⟨s', hdump, hfile⟩ := hthis.spill env hsound hne (Nat.zero_lt_of_lt (Nat.not_le.mp hlt))
    exact ⟨s', (if_neg hlt).trans ((if_neg hfits).trans hdump), .onFile hfile⟩

/-- Saving the active read pointer makes every read pointer say where it is. -/
theorem saveActive_readptrs (hst : s.status = .readfile) (i : Nat) :
    (s.saveActive.readptrs i).eflags = (s.readptrs i).eflags ∧
      (s.saveActive.readptrs i).eof_reached = (s.readptrs i).eof_reached ∧
      ((s.readptrs i).eof_reached = false → (s.saveActive.readptrs i).offset = s.position i) := by
  unfold saveActive setActive position
  by_cases hi : i = s.activeptr
  · subst hi
    cases heof : (s.readptrs s.activeptr).eof_reached with
    | true => simp [heof]
    | false => simp [heof, hst]
  · simp [hi, hst, TSReadPointer.place]

theorem OnFile.startWriting (h : OnFile others s a base) (hst : s.status = .readfile) :
    OnFile others s.startWriting a base where
  __ := h
  status := nofun
  pointers := by
    refine h.pointers.congr rfl rfl rfl rfl rfl (fun i => (saveActive_readptrs hst i).1)
      fun i hi hp => ?_
    obtain ⟨hflags, heof, hoff⟩ := saveActive_readptrs hst i
    refine ⟨hflags.trans hp.flags, heof.trans hp.eof, fun he => ?_⟩
    rw [← hp.pos_eq he, ← hoff (hp.eof.trans he)]
    rfl
  writing := fun _ => (h.reading hst).1
  reading := nofun

/-- A tuple at the end of the file. -/
theorem OnFile.write (h : OnFile others s a base) (hst : s.status = .writefile) (t : α) (tick : Nat)
    (mem : Int) (heap : Heap α) (p : Nat)
    (hlive : Live heap (⟨p, env.tupleSize t, [t], true⟩ :: others)) :
    ∃ s', writetup env
        ({ s with
            tuples := s.tuples + 1, heap := heap, availMem := mem, allocs := tick }.leaveBehind
          fun r => { r with offset := s.seekpos }) p = .ok s' ∧
      OnFile others s' (a.put t) base := by
  have hslots : Slots ({ s with
      tuples := s.tuples + 1, heap := heap, availMem := mem, allocs := tick }.leaveBehind
        fun r => { r with offset := s.seekpos }) others none [.own p (env.tupleSize t) t] :=
    ⟨hlive, fun q u hu => absurd (List.mem_singleton.mp hu) nofun, fun _ => h.noBlock, nofun⟩
  have hend : s.seekpos = s.myfile.length := h.writing hst
  obtain ⟨heap', mem', hwrite, hslots'⟩ := hslots.writetup env hend
  refine ⟨_, hwrite, ?_⟩
  have hlen : base + s.myfile.length = a.tuples.length := by
    have := h.nonempty
    rw [h.contents, List.length_drop]
    omega
  have hptr : Pointers base { s with
      tuples := s.tuples + 1, heap := heap, availMem := mem, allocs := tick } a :=
    { h.pointers with }
  have hput := hptr.leaveBehind t (by simp [hst]) (fun r => { r with offset := s.seekpos })
    fun r => ⟨rfl, rfl, by simp only [hst, hend]; exact hlen⟩
  refine
    { h with
      pointers := hput.congr rfl rfl rfl rfl rfl (fun _ => rfl) fun i hi hp => ?_
      live := hslots'.live
      contents := ?_
      nonempty := ?_
      writing := fun _ => ?_
      reading := fun hr => ?_
      tuples := ?_ }
  · rw [position_of_ne (by simp [leaveBehind, hst])] at hp ⊢
    exact hp
  · have hle : base ≤ a.tuples.length := Nat.le_of_lt h.nonempty
    simp only [leaveBehind, Spool.put, List.drop_append_of_le_length hle,
      h.contents, Entry.tuple]
  · have := h.nonempty
    simp only [Spool.put, List.length_append, List.length_singleton]
    omega
  · simp only [leaveBehind, List.length_append, List.length_singleton, hend]
  · cases hst.symm.trans hr
  · simp only [leaveBehind, Spool.put, List.length_append, List.length_singleton,
      h.tuples]

section Cases

variable (env) (tuple : Nat)

theorem puttupleCommon_inmem (h : s.status = .inmem) : s.puttupleCommon env tuple =
    ({ s with tuples := s.tuples + 1 }.leaveBehind
      fun r => { r with current := s.memtupcount }).stash env tuple := by
  cases s
  cases h
  rfl

theorem puttupleCommon_writefile (h : s.status = .writefile) : s.puttupleCommon env tuple =
    ({ s with tuples := s.tuples + 1 }.leaveBehind
      fun r => { r with offset := s.seekpos }).writetup env tuple := by
  cases s
  cases h
  rfl

theorem puttupleCommon_readfile (h : s.status = .readfile) : s.puttupleCommon env tuple =
    ({ s with tuples := s.tuples + 1 }.startWriting.leaveBehind
      fun r => { r with offset := s.writepos }).writetup env tuple := by
  cases s
  cases h
  rfl

end Cases

/-- `tuplestore_puttuple` puts a tuple. -/
theorem Sim.puttuple (env : Env α) (h : Sim others s a) (hsound : a.Sound) (t : α) :
    ∃ s', s.puttuple env t = .ok s' ∧ Sim others s' (a.put t) := by
  unfold Tuplestorestate.puttuple
  cases h with
  | held h hroom =>
    rw [puttupleCommon_inmem env _ (show (s.copytup env t).2.status = .inmem from h.status)]
    exact stash_spec hroom (hsound.put t) (List.concat_ne_nil _ _) (h.pushed t)
  | onFile h =>
    have hlive := copytup_live env h.live t
    cases hst : s.status with
    | inmem => exact absurd hst h.status
    | writefile =>
      rw [puttupleCommon_writefile env _ (show (s.copytup env t).2.status = .writefile from hst)]
      obtain ⟨s', hwrite, hfile⟩ := h.write hst t _ _ _ _ hlive
      exact ⟨s', hwrite, .onFile hfile⟩
    | readfile =>
      rw [puttupleCommon_readfile env _ (show (s.copytup env t).2.status = .readfile from hst)]
      obtain ⟨s', hwrite, hfile⟩ := (h.startWriting hst).write rfl t _ _ _ _ hlive
      exact ⟨s', hwrite, .onFile hfile⟩

end Put

end Tuplestore

end HolLambdas
