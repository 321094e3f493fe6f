import HolLambdas.Tuplestore.Simulation

/-!
# Reading from a tuplestore

The read pointers of a store and the cursors of the spool it stands for give the same tuples, in
both directions, in memory and on file. In memory a fetch follows a pointer of the array, which
is live; on file it reads at the position of the file. A step back never meets what has been
trimmed, as far as the store allows it.
-/

namespace HolLambdas

namespace Tuplestore

open Tuplestorestate

variable {α : Type}
variable {n : Nat}
variable {a : Spool α}

theorem Spool.setCurrent_self (a : Spool α) {f : Cursor → Cursor} (h : f a.current = a.current) :
    a.setCurrent f = a := by
  rw [Spool.setCurrent, h, Function.update_eq_self]

theorem Tuplestorestate.setActive_self (s : Tuplestorestate α)
    {f : TSReadPointer → TSReadPointer} (h : f s.active = s.active) : s.setActive f = s := by
  rw [setActive, h, Function.update_eq_self]

theorem Spool.next_eof (h : a.current.eof = true) : a.next = (a, none) := if_pos h

theorem Spool.next_some (h : a.current.eof = false) {t : α}
    (ht : a.tuples[a.current.pos]? = some t) :
    a.next = (a.setCurrent fun c => { c with pos := c.pos + 1 }, some t) := by
  rw [Spool.next, h, ht]
  rfl

theorem Spool.next_none (h : a.current.eof = false) (ht : a.tuples[a.current.pos]? = none) :
    a.next = (a.setCurrent fun c => { c with eof := true }, none) := by
  rw [Spool.next, h, ht]
  rfl

/-- A step back to the start of the tuples. -/
theorem Spool.previous_start
    (h : (if a.current.eof then a.tuples.length else a.current.pos - 1) = 0) :
    a.previous = (a.setCurrent fun c => { c with eof := false, pos := 0 }, none) := by
  rw [Spool.previous, h]
  rfl

theorem Spool.previous_to {q : Nat} {t : α}
    (h : (if a.current.eof then a.tuples.length else a.current.pos - 1) = q) (hq : 0 < q)
    (ht : a.tuples[q - 1]? = some t) :
    a.previous = (a.setCurrent fun c => { c with eof := false, pos := q }, some t) := by
  rw [Spool.previous, h]
  exact Prod.ext rfl ((if_neg (Nat.pos_iff_ne_zero.mp hq)).trans ht)

section Move

variable {others : Heap α} {s : Tuplestorestate α} {a : Spool α} {base : Nat}
  {block : Option (Chunk α)} {entries : List (Entry α)} {f : TSReadPointer → TSReadPointer}
  {g : Cursor → Cursor}

/-- Moving the active read pointer. -/
theorem Pointers.move (h : Pointers base s a) (q : Nat)
    (hflags : (f s.active).eflags = s.active.eflags)
    (hp : Points (base + { s.setActive f with seekpos := q }.position s.activeptr) (f s.active)
      (g a.current)) :
    Pointers base { s.setActive f with seekpos := q } (a.setCurrent g) := by
  refine h.congr rfl rfl rfl rfl rfl (fun i => ?_) fun i hi hold => ?_
  · by_cases hact : i = s.activeptr
    · subst hact
      simpa [setActive] using hflags
    · simp [setActive, hact]
  · by_cases hact : i = s.activeptr
    · subst hact
      simpa [setActive, Spool.setCurrent, ← h.active] using hp
    · have hact' : i ≠ a.active := h.active ▸ hact
      simpa [setActive, Spool.setCurrent, hact, hact',
        position] using hold

theorem Held.move (h : Held others s a base block entries) (f : TSReadPointer → TSReadPointer)
    (g : Cursor → Cursor) (hflags : (f s.active).eflags = s.active.eflags)
    (hp : Points (base + (f s.active).current) (f s.active) (g a.current)) :
    Held others (s.setActive f) (a.setCurrent g) base block entries := by
  have hpos : (s.setActive f).position s.activeptr = (f s.active).current := by
    simp [position, setActive, h.status, TSReadPointer.place]
  exact { h with
    pointers := h.pointers.move s.seekpos hflags (hpos ▸ hp)
    slots := h.slots.congr rfl rfl rfl rfl }

theorem OnFile.move (h : OnFile others s a base) (hst : s.status = .readfile)
    (f : TSReadPointer → TSReadPointer) (g : Cursor → Cursor) (q tick : Nat) (mem : Int)
    (hflags : (f s.active).eflags = s.active.eflags)
    (hp : Points (base + q) (f s.active) (g a.current))
    (hend : (f s.active).eof_reached = true → q = s.myfile.length) :
    OnFile others { s.setActive f with seekpos := q, availMem := mem, allocs := tick }
      (a.setCurrent g) base := by
  have hpos : { s.setActive f with seekpos := q }.position s.activeptr = q :=
    if_pos ⟨hst, rfl⟩
  have hptr := h.pointers.move q hflags (hpos ▸ hp)
  exact { h with
    pointers := { hptr with }
    writing := fun hw => TupStoreStatus.noConfusion (hst.symm.trans hw)
    reading := fun _ => ⟨(h.reading hst).1, by
      simpa [active, setActive] using hend⟩ }

end Move

/-! ## In memory -/

section InMemory

variable {others : Heap α} {s : Tuplestorestate α} {a : Spool α} {base : Nat}
  {block : Option (Chunk α)} {entries : List (Entry α)}

variable (h : Held others s a base block entries)

include h

theorem Held.count_eq : s.memtupcount = s.memtupdeleted + entries.length := by
  simp [memtupcount, h.array]

/-- The active read pointer, if it is not at end of file. -/
theorem Held.active_current (hlt : a.active < a.count) (heof : a.current.eof = false) :
    base + s.active.current = a.current.pos := by
  have hp := (h.pointers.active_points hlt).pos_eq heof
  rwa [position_of_ne (by simp [h.status]), h.status] at hp

/-- What the array points to is live and is the tuple of the spool. -/
theorem Held.deref {i : Nat} (hlo : s.memtupdeleted ≤ i) (hhi : i < s.memtupcount) :
    ∃ t, a.tuples[base + i]? = some t ∧ s.deref i = .ok (some t) := by
  have hlt : i - s.memtupdeleted < entries.length := by
    have := h.count_eq
    omega
  have hentry := List.getElem?_eq_getElem hlt
  have hptr : s.memtuples[i]? = some entries[i - s.memtupdeleted].addr := by
    rw [h.array, List.getElem?_append_right (by simpa using hlo), List.length_replicate,
      List.getElem?_map, hentry, Option.map_some]
  have htuple : a.tuples[base + i]? = some entries[i - s.memtupdeleted].tuple := by
    have hidx : base + i = base + s.memtupdeleted + (i - s.memtupdeleted) := by omega
    rw [hidx, ← List.getElem?_drop, h.contents, List.getElem?_map, hentry, Option.map_some]
  refine ⟨_, htuple, ?_⟩
  unfold Tuplestorestate.deref
  rw [hptr, Option.bind_some, h.slots.load (List.getElem_mem hlt)]

/-- The start of the array is the start of the tuples, or no one may go there. -/
theorem Held.at_start (hback : a.CanGoBack n)
    (hpos : (if a.current.eof then a.tuples.length + 1 else a.current.pos) ≤
      base + s.memtupdeleted + n) :
    base = 0 ∧ s.memtupdeleted = 0 ∧ s.truncated = false := by
  have hkept := h.kept
  have hfloor : a.floor = 0 := by
    rcases hback.2 with h0 | hlt
    · exact h0
    · omega
  refine ⟨by omega, by omega, ?_⟩
  rw [← Bool.not_eq_true]
  exact fun ht => h.truncated ht hfloor

/-- Reading forward from memory. -/
theorem Held.next (hsound : a.Sound) (hroom : s.memtupcount < s.memtupsize) :
    ∃ s', s.gettupleInmem true = .ok (s', a.next.2) ∧ Sim others s' a.next.1 := by
  have hp := h.pointers.active_points hsound.active_lt
  unfold gettupleInmem
  rw [if_pos rfl]
  cases heof : a.current.eof with
  | true =>
    rw [if_pos (hp.eof.trans heof), Spool.next_eof heof]
    exact ⟨s, rfl, .held h hroom⟩
  | false =>
    have hcur := h.active_current hsound.active_lt heof
    have heof' : s.active.eof_reached = false := hp.eof.trans heof
    obtain ⟨hlo, -⟩ := h.current_range hsound (h.pointers.active ▸ hsound.active_lt) heof'
    rw [if_neg (by simp [heof'])]
    by_cases hlt : s.active.current < s.memtupcount
    · obtain ⟨t, ht, hderef⟩ := h.deref hlo hlt
      rw [if_pos hlt, hderef, Spool.next_some heof (hcur ▸ ht)]
      exact ⟨_, rfl, .held (h.move (fun r => { r with current := r.current + 1 })
        (fun c => { c with pos := c.pos + 1 }) rfl
        ⟨hp.flags, hp.eof, fun _ => congrArg Nat.succ hcur⟩) hroom⟩
    · have hnone : a.tuples[a.current.pos]? = none := by
        have := h.length
        exact List.getElem?_eq_none (by omega)
      rw [if_neg hlt, Spool.next_none heof hnone]
      exact ⟨_, rfl, .held (h.move (fun r => { r with eof_reached := true })
        (fun c => { c with eof := true }) rfl ⟨hp.flags, rfl, fun he => Bool.noConfusion he⟩) hroom⟩

/-- A read pointer that goes back is where the cursor goes. -/
theorem Held.stepBack (hsound : a.Sound)
    (hgo : ¬ (s.active.eof_reached = false ∧ s.active.current ≤ s.memtupdeleted)) :
    (s.active.stepBack s.memtupcount).eflags = s.active.eflags ∧
      (s.active.stepBack s.memtupcount).eof_reached = false ∧
      base + (s.active.stepBack s.memtupcount).current =
        if a.current.eof then a.tuples.length else a.current.pos - 1 := by
  have hp := h.pointers.active_points hsound.active_lt
  unfold TSReadPointer.stepBack
  cases heof : a.current.eof with
  | true =>
    rw [if_pos (hp.eof.trans heof), if_pos rfl]
    exact ⟨rfl, rfl, h.length⟩
  | false =>
    have heof' : s.active.eof_reached = false := hp.eof.trans heof
    have hcur := h.active_current hsound.active_lt heof
    have hlt : ¬ s.active.current ≤ s.memtupdeleted := fun hle => hgo ⟨heof', hle⟩
    rw [if_neg (by simp [heof']), if_neg Bool.false_ne_true]
    exact ⟨rfl, heof', by simp only; omega⟩

/-- Reading backward from memory: at end of file the last tuple comes again. -/
theorem Held.previous (hsound : a.Sound) (hroom : s.memtupcount < s.memtupsize)
    (hback : a.CanGoBack 1) :
    ∃ s', s.gettupleInmem false = .ok (s', a.previous.2) ∧ Sim others s' a.previous.1 := by
  have hp := h.pointers.active_points hsound.active_lt
  have hlen := h.length
  have hcount := h.count_eq
  unfold gettupleInmem
  rw [if_neg Bool.false_ne_true]
  split
  · next hstart =>
    -- at the start already
    have heof : a.current.eof = false := hp.eof.symm.trans hstart.1
    have hcur := h.active_current hsound.active_lt heof
    obtain ⟨hbase, hdel, htrunc⟩ := h.at_start hback (by
      rw [heof, if_neg Bool.false_ne_true]
      omega)
    have hzero : a.current.pos = 0 := by omega
    rw [Spool.previous_start (by rw [heof, hzero]; rfl), atStart, htrunc]
    refine ⟨s, rfl, ?_⟩
    rw [a.setCurrent_self (by rw [← heof, ← hzero])]
    exact .held h hroom
  · next hgo =>
    obtain ⟨hflags, heof, hpos⟩ := h.stepBack hsound hgo
    have hcur : (s.setActive fun r => r.stepBack s.memtupcount).active.current =
        (s.active.stepBack s.memtupcount).current := by
      simp [active, setActive]
    have hmove : ∀ q, base + (s.active.stepBack s.memtupcount).current = q →
        Sim others (s.setActive fun r => r.stepBack s.memtupcount)
          (a.setCurrent fun c => { c with eof := false, pos := q }) := fun q hq =>
      .held (h.move (fun r => r.stepBack s.memtupcount) (fun c => { c with eof := false, pos := q })
        hflags ⟨hflags.trans hp.flags, heof, fun _ => hq⟩) hroom
    simp only [hcur]
    split
    · next hstart =>
      have hlow : (s.active.stepBack s.memtupcount).current ≤ s.memtupdeleted := hstart
      obtain ⟨hbase, hdel, htrunc⟩ := h.at_start hback (by
        cases hc : a.current.eof with
        | true =>
          rw [hc, if_pos rfl] at hpos
          rw [if_pos rfl]
          omega
        | false =>
          rw [hc, if_neg Bool.false_ne_true] at hpos
          rw [if_neg Bool.false_ne_true]
          omega)
      rw [Spool.previous_start (by omega)]
      refine ⟨_, ?_, hmove 0 (by omega)⟩
      rw [atStart, if_neg (by simp [setActive, htrunc])]
    · next hmore =>
      have hlow : ¬ (s.active.stepBack s.memtupcount).current ≤ s.memtupdeleted := hmore
      have hle : (if a.current.eof then a.tuples.length else a.current.pos - 1) ≤
          a.tuples.length := by
        cases hc : a.current.eof with
        | true => exact Nat.le_refl _
        | false => exact Nat.le_trans (Nat.sub_le _ _) (hsound.pos_le _ hsound.active_lt hc)
      have hhigh : (s.active.stepBack s.memtupcount).current - 1 < s.memtupcount := by omega
      obtain ⟨t, ht, hderef⟩ := h.deref (i := (s.active.stepBack s.memtupcount).current - 1)
        (by omega) hhigh
      rw [← Nat.add_sub_assoc (by omega)] at ht
      rw [Spool.previous_to hpos.symm (by omega) ht]
      exact ⟨_, congrArg (Except.map _) hderef, hmove _ rfl⟩

end InMemory

/-! ## From the file -/

section File

variable {env : Env α} {others : Heap α} {s : Tuplestorestate α} {a : Spool α} {base : Nat}

variable (h : OnFile others s a base)

include h

theorem OnFile.length_eq :
    base + s.myfile.length = a.tuples.length := by
  have := h.nonempty
  rw [h.contents, List.length_drop]
  omega

theorem OnFile.getElem? (i : Nat) :
    s.myfile[i]? = a.tuples[base + i]? := by
  rw [h.contents, List.getElem?_drop]

theorem OnFile.startReading (hst : s.status = .writefile) :
    OnFile others s.startReading a base :=
  { h with
    status := nofun
    pointers := by
      refine h.pointers.congr rfl rfl rfl rfl rfl (fun _ => rfl) fun i hi hp => ⟨hp.flags, hp.eof,
        fun he => ?_⟩
      rw [← hp.pos_eq he, position_of_ne (s := s) (by simp [hst]), hst]
      by_cases hact : i = s.activeptr
      · subst hact
        have heof : s.active.eof_reached = false := hp.eof.trans he
        simp [position, Tuplestorestate.startReading, heof, TSReadPointer.place]
      · simp [position, Tuplestorestate.startReading, hact, TSReadPointer.place]
    writing := nofun
    reading := fun _ => ⟨h.writing hst, fun heof => by
      have heof' : s.active.eof_reached = true := heof
      simpa [Tuplestorestate.startReading, heof'] using h.writing hst⟩ }

/-- Where the file is while reading. -/
theorem OnFile.seekpos_eq (hst : s.status = .readfile) (hlt : a.active < a.count) :
    base + s.seekpos = if a.current.eof then a.tuples.length else a.current.pos := by
  have hp := h.pointers.active_points hlt
  cases heof : a.current.eof with
  | true =>
    rw [(h.reading hst).2 (hp.eof.trans heof)]
    exact h.length_eq
  | false =>
    have hpos := hp.pos_eq heof
    rwa [position, if_pos ⟨hst, rfl⟩] at hpos

/-- Reading forward from the file. -/
theorem OnFile.next (env : Env α) (hst : s.status = .readfile) (hsound : a.Sound) :
    ∃ s', s.gettupleFile env true = .ok (s', a.next.2) ∧ Sim others s' a.next.1 := by
  have hp := h.pointers.active_points hsound.active_lt
  have hseek := h.seekpos_eq hst hsound.active_lt
  have hlen := h.length_eq
  unfold gettupleFile
  rw [if_pos rfl, h.getElem?]
  cases heof : a.current.eof with
  | true =>
    rw [heof, if_pos rfl] at hseek
    rw [Spool.next_eof heof, hseek, List.getElem?_eq_none (Nat.le_refl _)]
    have hmove := h.move hst (fun r => { r with eof_reached := true }) id s.seekpos s.allocs
      s.availMem rfl ⟨hp.flags, heof.symm, fun he => Bool.noConfusion (heof.symm.trans he)⟩
      (fun _ => by omega)
    rw [a.setCurrent_self rfl] at hmove
    exact ⟨_, rfl, .onFile hmove⟩
  | false =>
    rw [heof, if_neg Bool.false_ne_true] at hseek
    rw [hseek]
    cases ht : a.tuples[a.current.pos]? with
    | some t =>
      rw [Spool.next_some heof ht]
      have hmove := h.move hst id (fun c => { c with pos := c.pos + 1 }) (s.seekpos + 1)
        (s.allocs + 1) (s.readtup env t).availMem rfl
        ⟨hp.flags, hp.eof, fun _ => congrArg Nat.succ hseek⟩
        (fun he => Bool.noConfusion ((hp.eof.trans heof).symm.trans he))
      rw [s.setActive_self rfl] at hmove
      exact ⟨_, rfl, .onFile hmove⟩
    | none =>
      rw [Spool.next_none heof ht]
      have hge := List.getElem?_eq_none_iff.mp ht
      have hle : a.current.pos ≤ a.tuples.length := hsound.pos_le _ hsound.active_lt heof
      exact ⟨_, rfl, .onFile (h.move hst (fun r => { r with eof_reached := true })
        (fun c => { c with eof := true }) s.seekpos s.allocs s.availMem rfl
        ⟨hp.flags, rfl, fun he => Bool.noConfusion he⟩ (fun _ => by omega))⟩

/-- The start of the file is the start of the tuples, or no one may go there. -/
theorem OnFile.at_start (hback : a.CanGoBack n)
    (hpos : (if a.current.eof then a.tuples.length + 1 else a.current.pos) ≤ base + n) :
    base = 0 ∧ s.truncated = false := by
  have hkept := h.kept
  have hfloor : a.floor = 0 := by
    rcases hback.2 with h0 | hlt
    · exact h0
    · omega
  refine ⟨by omega, ?_⟩
  rw [← Bool.not_eq_true]
  exact fun ht => h.truncated ht hfloor

theorem OnFile.readtup (env : Env α) (t : α) :
    OnFile others (s.readtup env t) a base :=
  { h with
    pointers := { h.pointers with } }

theorem OnFile.readPrevious (env : Env α) (hpos : 0 < s.seekpos)
    (hle : s.seekpos ≤ s.myfile.length) :
    ∃ t, a.tuples[base + s.seekpos - 1]? = some t ∧
      s.readPrevious env = .ok (s.readtup env t, some t) := by
  have hidx : s.seekpos - 1 < s.myfile.length := by omega
  refine ⟨s.myfile[s.seekpos - 1], ?_, ?_⟩
  · rw [Nat.add_sub_assoc hpos, ← h.getElem?, List.getElem?_eq_getElem hidx]
  · rw [Tuplestorestate.readPrevious, List.getElem?_eq_getElem hidx]

/-- A pointer that may go backward has the length words it needs. -/
theorem OnFile.backward_of_active (hsound : a.Sound) (hflag : a.current.flags.backward = true) :
    s.backward = true := by
  refine h.backward ?_
  rw [h.pointers.eflags, ← Bool.not_eq_false]
  intro hoff
  have hp := h.pointers.active_points hsound.active_lt
  have := orFlags_backward.mp hoff s.activeptr
    (by rw [h.pointers.active, h.pointers.count]; exact hsound.active_lt)
  rw [← hp.flags] at hflag
  exact Bool.false_ne_true (this.symm.trans hflag)

/-- Reading backward from the file. -/
theorem OnFile.previous (env : Env α) (hst : s.status = .readfile) (hsound : a.Sound)
    (hback : a.CanGoBack 1) :
    ∃ s', s.gettupleFile env false = .ok (s', a.previous.2) ∧ Sim others s' a.previous.1 := by
  have hp := h.pointers.active_points hsound.active_lt
  have hseek := h.seekpos_eq hst hsound.active_lt
  have hlen := h.length_eq
  have hne := h.nonempty
  unfold gettupleFile
  rw [if_neg Bool.false_ne_true, if_neg (by simp [h.backward_of_active hsound hback.1])]
  cases heof : a.current.eof with
  | true =>
    -- the last tuple, and the read pointer stays at the end of the file
    rw [heof, if_pos rfl] at hseek
    rw [if_neg (by omega), if_pos (hp.eof.trans heof)]
    have hmove := h.move hst (fun r => { r with eof_reached := false })
      (fun c => { c with eof := false, pos := base + s.seekpos }) s.seekpos s.allocs s.availMem rfl
      ⟨hp.flags, rfl, fun _ => rfl⟩ fun he => Bool.noConfusion he
    obtain ⟨t, ht, hread⟩ := hmove.readPrevious env (by simp only; omega)
      (by simp only [setActive]; omega)
    rw [Spool.previous_to (a := a) (q := base + s.seekpos) (by rw [heof, if_pos rfl, hseek])
      (by omega) ht]
    exact ⟨_, hread, .onFile (hmove.readtup env t)⟩
  | false =>
    rw [heof, if_neg Bool.false_ne_true] at hseek
    have heof' : s.active.eof_reached = false := hp.eof.trans heof
    have hle : a.current.pos ≤ a.tuples.length := hsound.pos_le _ hsound.active_lt heof
    by_cases hlow : s.seekpos ≤ 1
    · -- the tuple before is the first, or there is none
      obtain ⟨hbase, htrunc⟩ := h.at_start hback (by
        rw [heof, if_neg Bool.false_ne_true]
        omega)
      rw [Spool.previous_start (by rw [heof, if_neg Bool.false_ne_true]; omega)]
      by_cases hzero : s.seekpos = 0
      · have hmove := h.move hst (fun r => { r with eof_reached := false })
          (fun c => { c with eof := false, pos := 0 }) s.seekpos s.allocs s.availMem rfl
          ⟨hp.flags, rfl, fun _ => by simp only; omega⟩ fun he => Bool.noConfusion he
        rw [if_pos hzero]
        exact ⟨_, if_neg (by simp [setActive, htrunc]), .onFile hmove⟩
      · have hmove := h.move hst id (fun c => { c with eof := false, pos := 0 }) 0 s.allocs
          s.availMem rfl ⟨hp.flags, heof', fun _ => hbase⟩
          (fun he => Bool.noConfusion (heof'.symm.trans he))
        rw [s.setActive_self rfl] at hmove
        rw [if_neg hzero, if_neg (by simp [heof']), if_pos (by omega)]
        exact ⟨_, if_neg (by simp [htrunc]), .onFile hmove⟩
    · rw [if_neg (by omega), if_neg (by simp [heof']), if_neg (by omega)]
      have hmove := h.move hst id
        (fun c => { c with eof := false, pos := base + (s.seekpos - 1) }) (s.seekpos - 1)
        s.allocs s.availMem rfl ⟨hp.flags, heof', fun _ => rfl⟩
        (fun he => Bool.noConfusion (heof'.symm.trans he))
      rw [s.setActive_self rfl] at hmove
      obtain ⟨t, ht, hread⟩ := hmove.readPrevious env (by simp only; omega) (by simp only; omega)
      rw [Spool.previous_to (a := a) (q := base + (s.seekpos - 1))
        (by rw [heof, if_neg Bool.false_ne_true]; omega) (by omega) ht]
      exact ⟨_, hread, .onFile (hmove.readtup env t)⟩

end File

section Get

variable {others : Heap α} {s : Tuplestorestate α} {a : Spool α}

theorem Sim.pointers (h : Sim others s a) : ∃ base, Pointers base s a := by
  cases h with
  | held h => exact ⟨_, h.pointers⟩
  | onFile h => exact ⟨_, h.pointers⟩

/-- The store does not assert the flags of the active read pointer in vain. -/
theorem Sim.backward_flag (h : Sim others s a) (hsound : a.Sound) {forward : Bool}
    (hback : forward = false → a.CanGoBack n) :
    ¬ (forward = false ∧ s.active.eflags.backward = false) := by
  rintro ⟨hf, hoff⟩
  obtain ⟨base, hptr⟩ := h.pointers
  have hon := (hback hf).1
  rw [← (hptr.active_points hsound.active_lt).flags, hoff] at hon
  cases hon

theorem OnFile.gettupleFile (env : Env α) {base : Nat} (h : OnFile others s a base)
    (hst : s.status = .readfile) (hsound : a.Sound) (forward : Bool)
    (hback : forward = false → a.CanGoBack 1) :
    ∃ s', s.gettupleFile env forward = .ok (s', (a.get forward).2) ∧
      Sim others s' (a.get forward).1 := by
  cases forward with
  | true => exact h.next env hst hsound
  | false => exact h.previous env hst hsound (hback rfl)

/-- `tuplestore_gettuple` gives the tuple the cursor gives. -/
theorem Sim.gettuple (env : Env α) (h : Sim others s a) (hsound : a.Sound) (forward : Bool)
    (hback : forward = false → a.CanGoBack 1) :
    ∃ s', s.gettuple env forward = .ok (s', (a.get forward).2) ∧
      Sim others s' (a.get forward).1 := by
  unfold Tuplestorestate.gettuple
  rw [if_neg (h.backward_flag hsound hback)]
  cases h with
  | held h hroom =>
    rw [h.status]
    cases forward with
    | true => exact h.next hsound hroom
    | false => exact h.previous hsound hroom (hback rfl)
  | onFile h =>
    cases hst : s.status with
    | inmem => exact absurd hst h.status
    | readfile => exact h.gettupleFile env hst hsound forward hback
    | writefile =>
      simp only
      split
      · next hend =>
        have heof : a.current.eof = true :=
          (h.pointers.active_points hsound.active_lt).eof.symm.trans hend.1
        refine ⟨s, ?_, ?_⟩
        · rw [hend.2, Spool.get, if_pos rfl, Spool.next_eof heof]
        · rw [hend.2, Spool.get, if_pos rfl, Spool.next_eof heof]
          exact .onFile h
      · exact (h.startReading hst).gettupleFile env rfl hsound forward hback

/-! ## Skipping -/

theorem Sim.skipLoop (env : Env α) (h : Sim others s a) (hsound : a.Sound) {forward : Bool}
    (hback : forward = false → a.CanGoBack n) :
    ∃ s', s.skipLoop env forward n = .ok (s', (Spool.skip forward n a).2) ∧
      Sim others s' (Spool.skip forward n a).1 := by
  induction n generalizing s a with
  | zero => exact ⟨s, rfl, h⟩
  | succ n ih =>
    obtain ⟨s₁, hget, hsim⟩ := h.gettuple env hsound forward fun hf => (hback hf).one
    unfold skipLoop Spool.skip
    rw [hget]
    cases hnone : (a.get forward).2.isNone with
    | true => exact ⟨s₁, by simp [bind, Except.bind, pure, Except.pure, hnone], hsim⟩
    | false =>
      obtain ⟨s₂, hloop, hsim'⟩ := ih hsim (hsound.get fun hf => (hback hf).one) fun hf => by
        subst hf
        exact (hback rfl).previous
      exact ⟨s₂, by simpa [bind, Except.bind, hnone] using hloop, hsim'⟩

end Get

namespace Spool

variable {a : Spool α}

theorem setCurrent_setCurrent (a : Spool α) (f g : Cursor → Cursor) :
    (a.setCurrent f).setCurrent g = a.setCurrent fun c => g (f c) := by
  rw [setCurrent, setCurrent_current]
  simp only [setCurrent, Function.update_idem]

theorem skip_next_none {b : Spool α} (h : a.next = (b, none)) :
    skip true (n + 1) a = (b, false) := by
  rw [skip, get, if_pos rfl, h]
  rfl

theorem skip_next_some {b : Spool α} {t : α} (h : a.next = (b, some t)) :
    skip true (n + 1) a = skip true n b := by
  rw [skip, get, if_pos rfl, h]
  rfl

theorem skip_previous_none {b : Spool α} (h : a.previous = (b, none)) :
    skip false (n + 1) a = (b, false) := by
  rw [skip, get, if_neg Bool.false_ne_true, h]
  rfl

theorem skip_previous_some {b : Spool α} {t : α} (h : a.previous = (b, some t)) :
    skip false (n + 1) a = skip false n b := by
  rw [skip, get, if_neg Bool.false_ne_true, h]
  rfl

/-- Skipping forward stops at the end of the tuples. -/
theorem skip_forward (heof : a.current.eof = false) (hle : a.current.pos ≤ a.tuples.length) :
    skip true n a =
      if n ≤ a.tuples.length - a.current.pos then
        (a.setCurrent fun c => { c with pos := c.pos + n }, true)
      else (a.setCurrent fun c => { c with eof := true, pos := a.tuples.length }, false) := by
  induction n generalizing a with
  | zero =>
    rw [if_pos (Nat.zero_le _), a.setCurrent_self rfl]
    rfl
  | succ n ih =>
    by_cases hlt : a.current.pos < a.tuples.length
    · rw [skip_next_some (next_some heof (List.getElem?_eq_getElem hlt)),
        ih (by simpa using heof) (by simpa using Nat.succ_le_of_lt hlt)]
      simp only [setCurrent_setCurrent, setCurrent_current, setCurrent_tuples]
      by_cases hn : n + 1 ≤ a.tuples.length - a.current.pos
      · rw [if_pos (by omega), if_pos hn]
        simp only [Nat.add_assoc, Nat.add_comm 1]
      · rw [if_neg (by omega), if_neg hn]
    · have hend : a.current.pos = a.tuples.length := by omega
      rw [skip_next_none (next_none heof (List.getElem?_eq_none (by omega))), if_neg (by omega)]
      rw [← hend]
      rfl

/-- Skipping backward stops at the start of the tuples. -/
theorem skip_back (heof : a.current.eof = false) (hle : a.current.pos ≤ a.tuples.length) :
    skip false (n + 1) a =
      if n + 1 < a.current.pos then
        (a.setCurrent fun c => { c with eof := false, pos := a.current.pos - (n + 1) }, true)
      else (a.setCurrent fun c => { c with eof := false, pos := 0 }, false) := by
  induction n generalizing a with
  | zero =>
    by_cases hone : 1 < a.current.pos
    · rw [if_pos hone, skip_previous_some (previous_to (a := a) (q := a.current.pos - 1)
        (by rw [heof, if_neg Bool.false_ne_true]) (by omega)
        (List.getElem?_eq_getElem (by omega)))]
      rfl
    · rw [if_neg hone, skip_previous_none (previous_start (a := a)
        (by rw [heof, if_neg Bool.false_ne_true]; omega))]
  | succ n ih =>
    by_cases hone : 1 < a.current.pos
    · rw [skip_previous_some (previous_to (a := a) (q := a.current.pos - 1)
        (by rw [heof, if_neg Bool.false_ne_true]) (by omega)
        (List.getElem?_eq_getElem (by omega))), ih (by simp) (by simp; omega)]
      simp only [setCurrent_setCurrent, setCurrent_current]
      by_cases hn : n + 1 + 1 < a.current.pos
      · rw [if_pos (by omega), if_pos hn, Nat.sub_sub, Nat.add_comm 1]
      · rw [if_neg (by omega), if_neg hn]
    · rw [if_neg (by omega), skip_previous_none (previous_start (a := a)
        (by rw [heof, if_neg Bool.false_ne_true]; omega))]

/-- Skipping backward from end of file: the first step is to the last tuple. -/
theorem skip_back_eof (heof : a.current.eof = true) :
    skip false (n + 1) a =
      if n < a.tuples.length then
        (a.setCurrent fun c => { c with eof := false, pos := a.tuples.length - n }, true)
      else (a.setCurrent fun c => { c with eof := false, pos := 0 }, false) := by
  by_cases hlen : 0 < a.tuples.length
  · rw [skip_previous_some (previous_to (a := a) (by rw [heof, if_pos rfl]) hlen
      (List.getElem?_eq_getElem (by omega)))]
    cases n with
    | zero =>
      rw [if_pos hlen]
      rfl
    | succ n =>
      rw [skip_back (by simp) (by simp)]
      simp only [setCurrent_setCurrent, setCurrent_current]
  · rw [if_neg (by omega),
      skip_previous_none (previous_start (a := a) (by rw [heof, if_pos rfl]; omega))]

end Spool

section Skip

variable {others : Heap α} {s : Tuplestorestate α} {a : Spool α} {base : Nat}
  {block : Option (Chunk α)} {entries : List (Entry α)}

/-- A skip in one go ends where reading one by one does. -/
theorem Held.skip_forward (h : Held others s a base block entries) (hsound : a.Sound)
    (hroom : s.memtupcount < s.memtupsize) (n : Nat) :
    ∃ s', s.skipInmem (n + 1) true = .ok (s', (Spool.skip true (n + 1) a).2) ∧
      Sim others s' (Spool.skip true (n + 1) a).1 := by
  have hp := h.pointers.active_points hsound.active_lt
  have hlen := h.length
  unfold skipInmem
  rw [if_pos rfl]
  cases heof : a.current.eof with
  | true =>
    rw [if_pos (hp.eof.trans heof), Spool.skip_next_none (Spool.next_eof heof)]
    exact ⟨s, rfl, .held h hroom⟩
  | false =>
    have hcur := h.active_current hsound.active_lt heof
    have hle : a.current.pos ≤ a.tuples.length := hsound.pos_le _ hsound.active_lt heof
    rw [if_neg (by simp [hp.eof, heof]), Spool.skip_forward heof hle]
    by_cases hn : n + 1 ≤ s.memtupcount - s.active.current
    · rw [if_pos hn, if_pos (by omega)]
      exact ⟨_, rfl, .held (h.move (fun r => { r with current := r.current + (n + 1) })
        (fun c => { c with pos := c.pos + (n + 1) }) rfl
        ⟨hp.flags, hp.eof, fun _ => by simp only; omega⟩) hroom⟩
    · rw [if_neg hn, if_neg (by omega)]
      exact ⟨_, rfl, .held (h.move
        (fun r => { r with current := s.memtupcount, eof_reached := true })
        (fun c => { c with eof := true, pos := a.tuples.length }) rfl
        ⟨hp.flags, rfl, fun he => Bool.noConfusion he⟩) hroom⟩

theorem Held.skip_back (h : Held others s a base block entries) (hsound : a.Sound)
    (hroom : s.memtupcount < s.memtupsize) (hback : a.CanGoBack (n + 1)) :
    ∃ s', s.skipInmem (n + 1) false = .ok (s', (Spool.skip false (n + 1) a).2) ∧
      Sim others s' (Spool.skip false (n + 1) a).1 := by
  have hp := h.pointers.active_points hsound.active_lt
  have hlen := h.length
  have hkept := h.kept
  have hstart := h.at_start hback
  have hfloor := hback.2
  have hmove : ∀ q q', base + q = q' → Sim others
      (s.setActive fun r => { r with current := q, eof_reached := false })
      (a.setCurrent fun c => { c with eof := false, pos := q' }) := fun q q' hq =>
    .held (h.move (fun r => { r with current := q, eof_reached := false })
      (fun c => { c with eof := false, pos := q' }) rfl ⟨hp.flags, rfl, fun _ => hq⟩) hroom
  unfold skipInmem
  rw [if_neg Bool.false_ne_true]
  cases heof : a.current.eof with
  | true =>
    rw [heof, if_pos rfl] at hstart hfloor
    rw [Spool.skip_back_eof heof]
    simp only [hp.eof, heof, if_true, Nat.add_sub_cancel]
    by_cases hn : n < s.memtupcount - s.memtupdeleted
    · rw [if_pos hn, if_pos (by omega)]
      exact ⟨_, rfl, hmove _ _ (by omega)⟩
    · obtain ⟨hbase, hdel, htrunc⟩ := hstart (by omega)
      rw [if_neg hn, htrunc, if_neg Bool.false_ne_true, if_neg (by omega)]
      exact ⟨_, rfl, hmove _ _ (by omega)⟩
  | false =>
    have hcur := h.active_current hsound.active_lt heof
    have hle : a.current.pos ≤ a.tuples.length := hsound.pos_le _ hsound.active_lt heof
    rw [heof, if_neg Bool.false_ne_true] at hstart hfloor
    rw [Spool.skip_back heof hle]
    simp only [hp.eof, heof, Bool.false_eq_true, if_false]
    by_cases hn : n + 1 < s.active.current - s.memtupdeleted
    · rw [if_pos hn, if_pos (by omega)]
      exact ⟨_, rfl, hmove _ _ (by omega)⟩
    · obtain ⟨hbase, hdel, htrunc⟩ := hstart (by omega)
      rw [if_neg hn, htrunc, if_neg Bool.false_ne_true, if_neg (by omega)]
      exact ⟨_, rfl, hmove _ _ (by omega)⟩

/-- `tuplestore_skiptuples` goes as far as so many fetches. -/
theorem Sim.skiptuples (env : Env α) (h : Sim others s a) (hsound : a.Sound) (n : Nat)
    (forward : Bool) (hback : forward = false → a.CanGoBack n) :
    ∃ s', s.skiptuples env n forward = .ok (s', (Spool.skip forward n a).2) ∧
      Sim others s' (Spool.skip forward n a).1 := by
  unfold Tuplestorestate.skiptuples
  rw [if_neg (h.backward_flag hsound hback)]
  cases n with
  | zero => exact ⟨s, rfl, h⟩
  | succ n =>
    rw [if_neg (Nat.succ_ne_zero n)]
    cases hst : s.status with
    | inmem =>
      cases h with
      | held h hroom =>
        cases forward with
        | true => exact h.skip_forward hsound hroom n
        | false => exact h.skip_back hsound hroom (hback rfl)
      | onFile h => exact absurd hst h.status
    | writefile | readfile => exact h.skipLoop env hsound hback

end Skip

end Tuplestore

end HolLambdas
