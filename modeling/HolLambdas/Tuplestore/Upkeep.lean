import HolLambdas.Tuplestore.Reads

/-!
# Read pointers, trimming and clearing

The calls that move read pointers without reading, and those that give tuples up. Trimming frees
the tuples before the oldest read pointer but one, and keeps the rest where it is or slides it
down; clearing and ending free what is left. The block goes as a whole.
-/

namespace HolLambdas

namespace Tuplestore

open Heap Tuplestorestate

variable {α : Type} {others : Heap α} {s : Tuplestorestate α} {a : Spool α} {base : Nat}
  {block : Option (Chunk α)} {entries : List (Entry α)}

/-! ## Selecting and copying read pointers -/

theorem Pointers.select (h : Pointers base s a) (hst : s.status ≠ .readfile) (ptr : Nat) :
    Pointers base { s with activeptr := ptr } { a with active := ptr } := by
  refine ⟨h.count, rfl, h.eflags, fun i hi => ?_⟩
  have hp := h.points i hi
  rw [position_of_ne hst] at hp
  rw [position_of_ne (s := { s with activeptr := ptr }) hst]
  exact hp

/-- The position of the old active read pointer is saved, that of the new one is sought. -/
theorem OnFile.select (h : OnFile others s a base) (hst : s.status = .readfile) {ptr : Nat}
    (hne : ptr ≠ s.activeptr) :
    OnFile others { s.saveActive with
      seekpos := if (s.saveActive.readptrs ptr).eof_reached then s.writepos
        else (s.saveActive.readptrs ptr).offset
      activeptr := ptr } { a with active := ptr } base := by
  have hlen := (h.reading hst).1
  refine { h with
    pointers := ⟨h.pointers.count, rfl, ?_, fun i hi => ?_⟩
    writing := fun hw => TupStoreStatus.noConfusion (hst.symm.trans hw)
    reading := fun _ => ⟨hlen, fun heof => ?_⟩ }
  · refine h.pointers.eflags.trans (orFlags_congr fun i _ => ?_)
    exact (saveActive_readptrs hst i).1.symm
  · obtain ⟨hflags, heof, hoff⟩ := saveActive_readptrs hst i
    have hp := h.pointers.points i hi
    refine ⟨hflags.trans hp.flags, heof.trans hp.eof, fun he => ?_⟩
    rw [← hp.pos_eq he, ← hoff (hp.eof.trans he)]
    by_cases hptr : i = ptr
    · subst hptr
      have heof' : (s.saveActive.readptrs i).eof_reached = false := (heof.trans hp.eof).trans he
      have hpos : s.saveActive.status = .readfile := hst
      simp [position, hpos, heof']
    · have hpos : s.saveActive.status = .readfile := hst
      simp [position, hptr, hpos, TSReadPointer.place]
  · have heof' : (s.saveActive.readptrs ptr).eof_reached = true := heof
    exact (if_pos heof').trans hlen

/-- Selecting saves the place of the pointer that was active. -/
theorem Sim.select (h : Sim others s a) {ptr : Nat} (hptr : ptr < a.count) :
    ∃ s', s.selectReadPointer ptr = .ok s' ∧ Sim others s' { a with active := ptr } := by
  obtain ⟨base, hpts⟩ := h.pointers
  unfold selectReadPointer
  rw [if_neg (by rw [hpts.count]; omega)]
  by_cases hact : ptr = s.activeptr
  · refine ⟨s, if_pos hact, ?_⟩
    rw [hact, hpts.active]
    exact h
  · rw [if_neg hact]
    cases h with
    | held h hroom =>
      have hst : s.status ≠ .readfile := by simp [h.status]
      exact ⟨_, if_neg hst, .held { h with
        pointers := h.pointers.select hst ptr
        slots := h.slots.congr rfl rfl rfl rfl } hroom⟩
    | onFile h =>
      by_cases hst : s.status = .readfile
      · exact ⟨_, if_pos hst, .onFile (h.select hst hact)⟩
      · exact ⟨_, if_neg hst, .onFile { h with
          pointers := h.pointers.select hst ptr
          reading := fun hr => absurd hr hst }⟩

section Assign

variable {srcptr destptr q : Nat} {sptr : TSReadPointer}

theorem allFlags_assign (h : s.eflags = s.allFlags) :
    (s.assignPointer destptr sptr).eflags = (s.assignPointer destptr sptr).allFlags := by
  unfold assignPointer
  dsimp only
  split
  · next hsame =>
    rw [h]
    refine orFlags_congr fun i _ => ?_
    by_cases hi : i = destptr
    · simp [hi, hsame]
    · simp [hi]
  · rfl

/-- A copied read pointer has no flags that were not there before. -/
theorem backward_assign (h : s.eflags = s.allFlags) (hsrc : srcptr < s.readptrcount)
    (hflags : sptr.eflags = (s.readptrs srcptr).eflags)
    (hback : (s.assignPointer destptr sptr).eflags.backward = true) :
    s.eflags.backward = true := by
  rw [allFlags_assign h] at hback
  rw [h, ← Bool.not_eq_false]
  intro hoff
  have hall := orFlags_backward.mp hoff
  refine Bool.false_ne_true (Eq.trans ?_ hback)
  refine (orFlags_backward.mpr fun i hi => ?_).symm
  by_cases hd : i = destptr
  · simpa [assignPointer, hd, hflags] using hall srcptr hsrc
  · simpa [assignPointer, hd] using hall i hi

theorem Pointers.assign (h : Pointers base s a)
    (hq : s.status = .readfile → destptr ≠ s.activeptr → q = s.seekpos)
    (hp : Points (base + { s.assignPointer destptr sptr with seekpos := q }.position destptr) sptr
      (a.cursors srcptr)) :
    Pointers base { s.assignPointer destptr sptr with seekpos := q }
      { a with cursors := Function.update a.cursors destptr (a.cursors srcptr) } where
  count := h.count
  active := h.active
  eflags := allFlags_assign h.eflags
  points := by
    intro i hi
    by_cases hd : i = destptr
    · subst hd
      simpa [assignPointer] using hp
    · have hold := h.points i hi
      have hpos : { s.assignPointer destptr sptr with seekpos := q }.position i =
          s.position i := by
        unfold position
        by_cases hc : s.status = .readfile ∧ i = s.activeptr
        · have hq' := hq hc.1 fun hd' => hd (hc.2.trans hd'.symm)
          rw [if_pos hc]
          exact (if_pos hc).trans hq'
        · rw [if_neg hc]
          refine (if_neg hc).trans ?_
          simp [assignPointer, hd]
      rw [hpos]
      simpa [assignPointer, hd] using hold

/-- A copied read pointer is where it says, unless it is the active one of a file. -/
theorem position_assign (hc : ¬ (s.status = .readfile ∧ destptr = s.activeptr)) :
    { s.assignPointer destptr sptr with seekpos := q }.position destptr =
      sptr.place s.status := by
  refine (if_neg hc).trans ?_
  simp [assignPointer]

theorem OnFile.assign (h : OnFile others s a base) (hsrc : srcptr < a.count)
    (hflags : sptr.eflags = (s.readptrs srcptr).eflags)
    (hq : s.status = .readfile → destptr ≠ s.activeptr → q = s.seekpos)
    (hwrite : s.status = .writefile → q = s.seekpos)
    (hend : s.status = .readfile → destptr = s.activeptr → sptr.eof_reached = true →
      q = s.myfile.length)
    (hp : Points (base + { s.assignPointer destptr sptr with seekpos := q }.position destptr) sptr
      (a.cursors srcptr)) :
    OnFile others { s.assignPointer destptr sptr with seekpos := q }
      { a with cursors := Function.update a.cursors destptr (a.cursors srcptr) } base :=
  { h with
    pointers := h.pointers.assign hq hp
    backward := fun hb =>
      h.backward (backward_assign h.pointers.eflags (h.pointers.count ▸ hsrc) hflags hb)
    writing := fun hw => (hwrite hw).trans (h.writing hw)
    reading := by
      intro hr
      obtain ⟨hpos, hold⟩ := h.reading hr
      refine ⟨hpos, fun heof => ?_⟩
      by_cases hd : destptr = s.activeptr
      · refine hend hr hd ?_
        simpa [active, assignPointer, ← hd] using heof
      · refine (hq hr hd).trans (hold ?_)
        simpa [active, assignPointer, Ne.symm hd] using heof }

end Assign

/-- Copying a read pointer, the place in the file included. -/
theorem Sim.copy (h : Sim others s a) {srcptr destptr : Nat}
    (hsrc : srcptr < a.count) (hdest : destptr < a.count) :
    ∃ s', s.copyReadPointer srcptr destptr = .ok s' ∧ Sim others s'
      { a with cursors := Function.update a.cursors destptr (a.cursors srcptr) } := by
  obtain ⟨_, hpts⟩ := h.pointers
  have hsrc' : srcptr < s.readptrcount := hpts.count ▸ hsrc
  have hguard : ¬ (s.readptrcount ≤ srcptr ∨ s.readptrcount ≤ destptr) := by
    rw [hpts.count]
    omega
  unfold copyReadPointer
  rw [if_neg hguard]
  by_cases hsame : srcptr = destptr
  · refine ⟨s, if_pos hsame, ?_⟩
    rw [hsame, Function.update_eq_self]
    exact h
  · rw [if_neg hsame]
    cases h with
    | held h hroom =>
      have hst : s.status ≠ .readfile := by simp [h.status]
      have hp := h.pointers.points srcptr hsrc
      rw [position_of_ne hst] at hp
      refine ⟨_, (if_neg fun hc => hst hc.1).trans (if_neg fun hc => hst hc.1), .held { h with
        pointers := h.pointers.assign (q := s.seekpos) (fun hr => absurd hr hst) ?_
        slots := h.slots.congr rfl rfl rfl rfl } hroom⟩
      rw [position_assign fun hc => hst hc.1]
      exact hp
    | @onFile base h =>
      have hp := h.pointers.points srcptr hsrc
      by_cases hto : s.status = .readfile ∧ destptr = s.activeptr
      · -- to the active one: the file goes where the other one is
        have hne : ¬ (s.status = .readfile ∧ srcptr = s.activeptr) := fun hc =>
          hsame (hc.2.trans hto.2.symm)
        have hplace : s.position srcptr = (s.readptrs srcptr).offset := by
          rw [position, if_neg hne, hto.1]
          rfl
        refine ⟨_, if_pos hto, .onFile (h.assign hsrc rfl (fun _ hd => absurd hto.2 hd)
          (fun hw => TupStoreStatus.noConfusion (hto.1.symm.trans hw))
          (fun _ _ heof => (if_pos heof).trans (h.reading hto.1).1)
            ⟨hp.flags, hp.eof, fun he => ?_⟩)⟩
        rw [← hp.pos_eq he, hplace]
        refine congrArg (base + ·) ((if_pos hto).trans (if_neg ?_))
        rw [hp.eof, he]
        exact Bool.false_ne_true
      · rw [if_neg hto]
        by_cases hfrom : s.status = .readfile ∧ srcptr = s.activeptr ∧
            (s.readptrs srcptr).eof_reached = false
        · -- from the active one: it is where the file is
          refine ⟨_, if_pos hfrom, .onFile (h.assign (q := s.seekpos) hsrc rfl (fun _ _ => rfl)
            (fun _ => rfl) (fun hr hd => absurd ⟨hr, hd⟩ hto) ⟨hp.flags, hp.eof, fun he => ?_⟩)⟩
          rw [position_assign hto, ← hp.pos_eq he, hfrom.1, position,
            if_pos ⟨hfrom.1, hfrom.2.1⟩]
          rfl
        · refine ⟨_, if_neg hfrom, .onFile (h.assign (q := s.seekpos) hsrc rfl (fun _ _ => rfl)
            (fun _ => rfl) (fun hr hd => absurd ⟨hr, hd⟩ hto) ⟨hp.flags, hp.eof, fun he => ?_⟩)⟩
          have hne : ¬ (s.status = .readfile ∧ srcptr = s.activeptr) := fun hc =>
            hfrom ⟨hc.1, hc.2, hp.eof.trans he⟩
          rw [position_assign hto, ← hp.pos_eq he, position, if_neg hne]

/-- Rewinding is allowed only where nothing has been trimmed. -/
theorem Sim.rescan (h : Sim others s a) (hsound : a.Sound) (hflag : a.current.flags.rewind = true) :
    ∃ s', s.rescan = .ok s' ∧
      Sim others s' (a.setCurrent fun c => { c with eof := false, pos := 0 }) := by
  have hfloor : a.floor = 0 := by
    by_contra h0
    exact Bool.false_ne_true ((hsound.no_rewind h0 _ hsound.active_lt).symm.trans hflag)
  obtain ⟨base, hpts⟩ := h.pointers
  have hp := hpts.active_points hsound.active_lt
  have hguard : s.truncated = false →
      ¬ (s.active.eflags.rewind = false ∨ s.truncated = true) := by
    intro htrunc hc
    rw [hp.flags, hflag, htrunc] at hc
    simp at hc
  unfold Tuplestorestate.rescan
  cases h with
  | held h hroom =>
    have hkept := h.kept
    have htrunc : s.truncated = false := Bool.eq_false_iff.mpr fun ht => h.truncated ht hfloor
    rw [if_neg (hguard htrunc), if_pos h.status]
    exact ⟨_, rfl, .held (h.move (fun r => { r with eof_reached := false, current := 0 })
      (fun c => { c with eof := false, pos := 0 }) rfl
      ⟨hp.flags, rfl, fun _ => by simp only; omega⟩) hroom⟩
  | onFile h =>
    have hkept := h.kept
    have htrunc : s.truncated = false := Bool.eq_false_iff.mpr fun ht => h.truncated ht hfloor
    rw [if_neg (hguard htrunc), if_neg h.status]
    by_cases hst : s.status = .writefile
    · have hptr := h.pointers.move (f := fun r => { r with eof_reached := false, offset := 0 })
        (g := fun c => { c with eof := false, pos := 0 }) s.seekpos rfl
        ⟨hp.flags, rfl, fun _ => by
          simp only [position, setActive, hst, reduceCtorEq,
            false_and, if_false, Function.update_self, TSReadPointer.place]
          omega⟩
      exact ⟨_, if_pos hst, .onFile { h with
        pointers := hptr
        reading := fun hr => TupStoreStatus.noConfusion (hst.symm.trans hr) }⟩
    · have hread : s.status = .readfile := by
        cases hs : s.status with
        | inmem => exact absurd hs h.status
        | writefile => exact absurd hs hst
        | readfile => rfl
      exact ⟨_, if_neg hst, .onFile (h.move hread (fun r => { r with eof_reached := false })
        (fun c => { c with eof := false, pos := 0 }) 0 s.allocs s.availMem rfl
        ⟨hp.flags, rfl, fun _ => by simp only; omega⟩ fun he => Bool.noConfusion he)⟩

/-! ## Trimming -/

theorem Pointers.rewind_eq (h : Pointers base s a) : s.eflags.rewind = a.mayRewind := by
  rw [h.eflags, allFlags, h.count, Spool.mayRewind,
    orFlags_congr fun i hi => (h.points i hi).flags]

/-- A higher floor is the client's concern only. -/
theorem Sim.raise (h : Sim others s a) {floor : Nat} (hle : a.floor ≤ floor) :
    Sim others s { a with floor := floor } := by
  cases h with
  | held h hroom =>
    exact .held { h with
      pointers := { h.pointers with }
      kept := Nat.le_trans h.kept hle
      truncated := fun ht => by
        have := h.truncated ht
        simp only
        omega } hroom
  | onFile h =>
    exact .onFile { h with
      pointers := { h.pointers with }
      kept := Nat.le_trans h.kept hle
      truncated := fun ht => by
        have := h.truncated ht
        simp only
        omega }

theorem Held.oldest_eq (h : Held others s a base block entries) : a.oldest = base + s.oldest := by
  unfold Spool.oldest oldest
  rw [← h.length, h.pointers.count]
  refine furthestBack_shift (fun i hi => (h.pointers.points i hi).eof) fun i hi he => ?_
  have hp := (h.pointers.points i hi).pos_eq he
  rwa [position_of_ne (by simp [h.status]), h.status] at hp

/-- Trimming never goes back. -/
theorem Held.deleted_le (h : Held others s a base block entries) (hsound : a.Sound)
    (hpos : 0 < s.oldest - 1) : s.memtupdeleted ≤ s.oldest - 1 := by
  have hkept := h.kept
  by_cases h0 : a.floor = 0
  · omega
  · have hlt : a.floor < a.oldest := lt_furthestBack (hsound.floor_lt h0) (hsound.floor_lt_pos h0)
    rw [h.oldest_eq] at hlt
    omega

/-- The array with its first `n` tuples gone. -/
theorem Held.releaseFirst (env : Env α) (h : Held others s a base block entries) {n : Nat}
    (hlo : s.memtupdeleted ≤ n) (hhi : n ≤ s.memtupcount) (hn : 0 < n) (floor : Nat)
    (hfloor : base + n ≤ floor) :
    ∃ s', s.releaseFirst env n = .ok s' ∧
      Held others s' { a with floor := floor } base block (entries.drop (n - s.memtupdeleted)) ∧
      s'.memtupdeleted = n ∧ s'.memtupsize = s.memtupsize ∧ s'.readptrs = s.readptrs := by
  have hsplit : (s.memtuples.take n).drop s.memtupdeleted =
      (entries.take (n - s.memtupdeleted)).map Entry.addr := by
    rw [List.drop_take, h.array, List.drop_left' (List.length_replicate ..), List.map_take]
  have hslots := h.slots
  rw [← List.take_append_drop (n - s.memtupdeleted) entries] at hslots
  obtain ⟨heap, mem, hfree, hslots'⟩ := hslots.freeTuples env
  have hrel : s.releaseFirst env n = .ok { s with
      heap := heap
      availMem := mem
      memtuples := List.replicate n 0 ++ s.memtuples.drop n
      memtupdeleted := n
      truncated := true } := by
    rw [Tuplestorestate.releaseFirst, hsplit, hfree]
    rfl
  refine ⟨_, hrel, ?_, rfl, rfl, rfl⟩
  exact
    { status := h.status
      pointers := { h.pointers with }
      slots := hslots'.congr rfl rfl rfl rfl
      array := by
        refine congrArg (List.replicate n 0 ++ ·) ?_
        rw [h.array, List.drop_append, List.length_replicate,
          List.drop_eq_nil_of_le (by simpa using hlo), List.nil_append, List.map_drop]
      contents := by
        have hidx : base + n = base + s.memtupdeleted + (n - s.memtupdeleted) := by omega
        rw [List.map_drop, ← h.contents, List.drop_drop, hidx]
      length := by
        have hlen := h.length
        simp only [memtupcount, List.length_append, List.length_replicate,
          List.length_drop] at hlen hhi ⊢
        omega
      kept := hfloor
      tuples := h.tuples
      truncated := fun _ => by
        simp only
        omega }

/-- Sliding the array down. -/
theorem Held.slide (h : Held others s a base block entries) {n : Nat} (hn : n = s.memtupdeleted)
    (hcur : ∀ i < a.count, (s.readptrs i).eof_reached = false → n ≤ (s.readptrs i).current) :
    Held others (s.slide n) a (base + n) block entries where
  status := h.status
  pointers := by
    refine h.pointers.congr rfl rfl rfl rfl rfl (fun i => ?_) fun i hi hp => ?_
    · simp only [Tuplestorestate.slide]
      split
      · rfl
      · rfl
    · rw [position_of_ne (by simp [h.status]), h.status] at hp
      rw [position_of_ne (by simp [Tuplestorestate.slide, h.status])]
      simp only [Tuplestorestate.slide, h.status]
      cases heof : (s.readptrs i).eof_reached with
      | true =>
        exact ⟨hp.flags, hp.eof, fun he =>
          Bool.noConfusion ((hp.eof.symm.trans heof).symm.trans he)⟩
      | false =>
        have hle := hcur i hi heof
        refine ⟨hp.flags, heof.symm.trans hp.eof, fun he => ?_⟩
        rw [← hp.pos_eq he]
        simp only [TSReadPointer.place, Bool.false_eq_true, if_false]
        omega
  slots := h.slots.congr rfl rfl rfl rfl
  array := by
    simp only [Tuplestorestate.slide, h.array, hn]
    simp
  contents := by
    simpa [Tuplestorestate.slide, hn] using h.contents
  length := by
    have hlen := h.length
    have hle : n ≤ s.memtupcount := by
      rw [h.count_eq, hn]
      omega
    simp only [Tuplestorestate.slide, memtupcount, List.length_drop] at hlen hle ⊢
    omega
  kept := by
    simpa [Tuplestorestate.slide, hn] using h.kept
  tuples := h.tuples
  truncated := h.truncated

/-- `tuplestore_trim` gives up tuples that no one may read any more. -/
theorem Sim.trim (env : Env α) (h : Sim others s a) (hsound : a.Sound) :
    ∃ s', s.trim env = .ok s' ∧ Sim others s' a.trim := by
  obtain ⟨_, hpts⟩ := h.pointers
  unfold Tuplestorestate.trim Spool.trim
  rw [hpts.rewind_eq]
  cases hrew : a.mayRewind with
  | true => exact ⟨s, if_pos (.inl rfl), h⟩
  | false =>
    have hraise := h.raise (Nat.le_max_left a.floor (a.oldest - 1))
    cases h with
    | onFile h => exact ⟨s, if_pos (.inr h.status), hraise⟩
    | @held base block entries h hroom =>
      rw [if_neg (by simp [h.status]), if_neg Bool.false_ne_true]
      by_cases hzero : s.oldest - 1 = 0
      · exact ⟨s, if_pos hzero, hraise⟩
      · have hlo := h.deleted_le hsound (by omega)
        have hhi : s.oldest ≤ s.memtupcount := furthestBack_le
        have hguard : ¬ (s.oldest - 1 < s.memtupdeleted ∨ s.memtupcount < s.oldest - 1) := by omega
        obtain ⟨t, hrel, hheld, hdel, hsize, hptrs⟩ := h.releaseFirst env hlo (by omega)
          (Nat.pos_of_ne_zero hzero) (max a.floor (a.oldest - 1))
          (by rw [h.oldest_eq]; omega)
        have hlen : t.memtupcount = s.memtupcount := by
          have := hheld.length
          have := h.length
          simp only at *
          omega
        refine ⟨_, (if_neg hzero).trans ((if_neg hguard).trans (congrArg (Except.map _) hrel)), ?_⟩
        simp only
        split
        · exact .held hheld (by rw [hlen, hsize]; exact hroom)
        · refine .held (hheld.slide hdel.symm fun i hi heof => ?_) ?_
          · rw [hptrs] at heof ⊢
            have hle : s.oldest ≤ (s.readptrs i).current :=
              furthestBack_le_pos (h.pointers.count ▸ hi) heof
            omega
          · have hdrop : (t.slide (s.oldest - 1)).memtupcount ≤ t.memtupcount := by
              simp [slide, memtupcount]
            change (t.slide (s.oldest - 1)).memtupcount < t.memtupsize
            omega

/-! ## Clearing and ending -/

/-- An empty store. -/
theorem held_cleared (hptr : Pointers base s a) (hlive : Live s.heap others)
    (hblock : s.block = 0 ∧ s.blockend = 0) :
    Held others { s with
      myfile := [], seekpos := 0, status := .inmem, truncated := false, memtuples := []
      memtupdeleted := 0, tuples := 0
      readptrs := fun i => { s.readptrs i with eof_reached := false, current := 0 } }
      a.clear 0 none [] where
  status := rfl
  pointers := hptr.congr rfl rfl rfl rfl rfl (fun _ => rfl)
    fun _ _ hp => ⟨hp.flags, rfl, fun _ => rfl⟩
  slots := ⟨hlive, nofun, fun _ => hblock, nofun⟩
  array := rfl
  contents := rfl
  length := rfl
  kept := Nat.le_refl _
  tuples := rfl
  truncated := nofun

/-- What is left to free. -/
theorem Sim.slots (h : Sim others s a) : ∃ block entries, Slots s others block entries ∧
    s.memtuples.drop s.memtupdeleted = entries.map Entry.addr := by
  cases h with
  | held h hroom =>
    refine ⟨_, _, h.slots, ?_⟩
    rw [h.array, List.drop_left' (List.length_replicate ..)]
  | onFile h =>
    refine ⟨none, [], ⟨h.live, nofun, fun _ => h.noBlock, nofun⟩, ?_⟩
    rw [h.array.1, List.drop_nil]
    rfl

theorem Sim.tuples_eq (h : Sim others s a) : s.tuples = a.tuples.length := by
  cases h with
  | held h hroom => exact h.tuples
  | onFile h => exact h.tuples

theorem Sim.size_pos (h : Sim others s a) : 0 < s.memtupsize := by
  cases h with
  | held h hroom => exact Nat.zero_lt_of_lt hroom
  | onFile h => exact h.array.2.2

theorem Sim.clear (env : Env α) (h : Sim others s a) :
    ∃ s', s.clear env = .ok s' ∧ Sim others s' a.clear := by
  obtain ⟨base, hptr⟩ := h.pointers
  obtain ⟨block, entries, hslots, harray⟩ := h.slots
  rw [← List.append_nil entries] at hslots
  obtain ⟨heap₁, mem₁, hfree, hslots₁⟩ := hslots.freeTuples env
  obtain ⟨heap₂, mem₂, hblock, hlive⟩ := hslots₁.freeBlock env
  unfold Tuplestorestate.clear
  rw [harray, hfree]
  have hptr' : Pointers base { s with
      heap := heap₂, availMem := mem₂, block := 0, blockend := 0 } a :=
    { hptr with }
  exact ⟨_, congrArg (Except.map _) hblock,
    .held (held_cleared hptr' hlive ⟨rfl, rfl⟩) h.size_pos⟩

/-- `tuplestore_end` leaves nothing of the store's own behind. -/
theorem Sim.finish (env : Env α) (h : Sim [] s a) :
    ∃ heap, s.finish env = .ok heap ∧ ∀ c ∈ heap, c.mine = false := by
  obtain ⟨block, entries, hslots, harray⟩ := h.slots
  rw [← List.append_nil entries] at hslots
  obtain ⟨heap, mem, hfree, hslots'⟩ := hslots.freeTuples env
  unfold Tuplestorestate.finish
  rw [harray, hfree]
  have hlive := hslots'.live
  cases block with
  | none =>
    have hzero : s.block = 0 := (hslots'.noBlock rfl).1
    refine ⟨heap, congrArg (Except.map _) (if_neg fun hc => hc.1 hzero), fun c hc => ?_⟩
    cases hlive.perm.mem_iff.mp hc
  | some c =>
    obtain ⟨haddr, -, hmine, hne⟩ := hslots'.isBlock c rfl
    have hown : s.ownblock = c.mine := hmine
    have hblock : s.block = c.addr := haddr
    cases hc : c.mine with
    | true =>
      obtain ⟨heap', hremove, hlive'⟩ := Live.remove hlive
      rw [hc] at hremove
      have hfreed : pfree { s with heap := heap, availMem := mem } s.block =
          .ok { s with heap := heap', availMem := mem } := by
        rw [pfree, hblock]
        simp only [hremove]
      refine ⟨heap', congrArg (Except.map _)
        ((if_pos ⟨hblock ▸ hne, hown.trans hc⟩).trans hfreed), fun d hd => ?_⟩
      cases hlive'.perm.mem_iff.mp hd
    | false =>
      refine ⟨heap, congrArg (Except.map _) (if_neg fun hcond => ?_), fun d hd => ?_⟩
      · exact Bool.false_ne_true ((hown.trans hc).symm.trans hcond.2)
      · rw [List.mem_singleton.mp (hlive.perm.mem_iff.mp hd)]
        exact hc

end Tuplestore

end HolLambdas
