import HolLambdas.Catalog.SigKey

/-!
# Which texts are keys

`SigKey` shows that the parser reads back what the printer writes. Here is what
else it reads. `LambdaSigParseOid` leaves the number to `strtoul`, so `(023)->16`
is accepted and stands for the signature that is printed as `(23)->16`: an
accepted text need not be the key of what it stands for. This is the only
liberty: `lambdaSigParseKey_accepts_iff` says that the texts accepted for a
signature are those that become its key when the leading zeros of their numbers
are dropped.

One direction (`parse_spells`) is by induction on the rounds of the parser; what
is read is followed by a text that begins no number. For the other
(`parse_of_dropLeadingZeros`) the parser is run on a text and on its reduced form
side by side.
-/

namespace HolLambdas.Catalog

/-- The text without the leading zeros of its numbers; `inNumber` says that the
character before is a digit that stays. -/
def dropLeadingZeros (inNumber : Bool) : List Char → List Char
  | [] => []
  | c :: cs =>
    if !inNumber && c == '0' && cs.head?.any Char.isDigit then dropLeadingZeros false cs
    else c :: dropLeadingZeros c.isDigit cs

theorem length_dropLeadingZeros_le (b : Bool) (s : List Char) :
    (dropLeadingZeros b s).length ≤ s.length := by
  induction s generalizing b with
  | nil => exact Nat.le_refl _
  | cons c cs ih =>
    unfold dropLeadingZeros
    split
    · exact Nat.le_succ_of_le (ih false)
    · exact Nat.succ_le_succ (ih _)

/-! ## Symbols and numbers -/

theorem dropLeadingZeros_symbol {c : Char} (hc : c.isDigit = false) (b : Bool) (cs : List Char) :
    dropLeadingZeros b (c :: cs) = c :: dropLeadingZeros false cs := by
  have hzero : (c == '0') = false := by
    rw [beq_eq_false_iff_ne]
    intro h
    rw [h] at hc
    exact absurd hc (by decide)
  rw [dropLeadingZeros, hzero, hc]
  simp

/-- Inside a number every digit stays. -/
theorem dropLeadingZeros_digits {ds rest : List Char} (hds : ∀ c ∈ ds, c.isDigit = true)
    (hrest : EndsNumber rest) :
    dropLeadingZeros true (ds ++ rest) = ds ++ dropLeadingZeros false rest := by
  induction ds with
  | nil =>
    cases rest with
    | nil => rfl
    | cons c cs =>
      have hc : c.isDigit = false := hrest
      rw [List.nil_append, List.nil_append, dropLeadingZeros_symbol hc, dropLeadingZeros_symbol hc]
  | cons d ds ih =>
    have hd := hds d List.mem_cons_self
    rw [List.cons_append, dropLeadingZeros, hd, ih fun c hc => hds c (List.mem_cons_of_mem _ hc)]
    simp

theorem digit_value {c : Char} (hc : c.isDigit = true) :
    c.toNat - '0'.toNat < 10 ∧ Nat.toDigits 10 (c.toNat - '0'.toNat) = [c] := by
  have hbounds : 48 ≤ c.toNat ∧ c.toNat ≤ 57 := by
    rw [Char.isDigit, Bool.and_eq_true, decide_eq_true_eq, decide_eq_true_eq] at hc
    exact hc
  have hzero : '0'.toNat = 48 := rfl
  have hlt : c.toNat - '0'.toNat < 10 := by omega
  have hchar : ∀ n < 10, Nat.digitChar n = Char.ofNat (48 + n) := by decide
  refine ⟨hlt, ?_⟩
  rw [Nat.toDigits_of_lt_base hlt, hchar _ hlt, hzero, Nat.add_sub_cancel' hbounds.1,
    Char.ofNat_toNat]

/-- Reading digits on from a positive value. -/
theorem toDigits_ofDigitChars {ds : List Char} (hds : ∀ c ∈ ds, c.isDigit = true) {v : Nat}
    (hv : 0 < v) : Nat.toDigits 10 (Nat.ofDigitChars 10 ds v) = Nat.toDigits 10 v ++ ds := by
  induction ds generalizing v with
  | nil => simp
  | cons d ds ih =>
    obtain ⟨hlt, hdigit⟩ := digit_value (hds d List.mem_cons_self)
    rw [Nat.ofDigitChars_cons, ih (fun c hc => hds c (List.mem_cons_of_mem _ hc)) (by omega),
      ← Nat.toDigits_append_toDigits (by omega) hv hlt, hdigit, List.append_assoc]
    rfl

/-- A number without leading zero is what is printed for its value. -/
theorem toDigits_number {d : Char} {ds : List Char} (hds : ∀ c ∈ d :: ds, c.isDigit = true)
    (hd : d ≠ '0') : Nat.toDigits 10 (Nat.ofDigitChars 10 (d :: ds) 0) = d :: ds := by
  obtain ⟨_, hdigit⟩ := digit_value (hds d List.mem_cons_self)
  have hpos : 0 < d.toNat - '0'.toNat := by
    refine Nat.pos_of_ne_zero fun h => hd ?_
    rw [h, Nat.toDigits_zero] at hdigit
    exact (List.cons.inj hdigit).1.symm
  rw [Nat.ofDigitChars_cons, Nat.mul_zero, Nat.zero_add,
    toDigits_ofDigitChars (fun c hc => hds c (List.mem_cons_of_mem _ hc)) hpos, hdigit]
  rfl

/-- A number, up to where it ends. -/
theorem dropLeadingZeros_number {ds rest : List Char} (hne : ds ≠ [])
    (hds : ∀ c ∈ ds, c.isDigit = true) (hrest : EndsNumber rest) :
    dropLeadingZeros false (ds ++ rest) =
      Nat.toDigits 10 (Nat.ofDigitChars 10 ds 0) ++ dropLeadingZeros false rest := by
  induction ds with
  | nil => exact absurd rfl hne
  | cons d ds ih =>
    have hds' : ∀ c ∈ ds, c.isDigit = true := fun c hc => hds c (List.mem_cons_of_mem _ hc)
    by_cases hd : d = '0'
    · subst hd
      cases ds with
      | nil =>
        have hend : rest.head?.any Char.isDigit = false := hrest
        rw [List.cons_append, List.nil_append, dropLeadingZeros, hend]
        have hdigits : dropLeadingZeros true ([] ++ rest) = [] ++ dropLeadingZeros false rest :=
          dropLeadingZeros_digits (by simp) hrest
        simpa [Nat.ofDigitChars] using hdigits
      | cons e ds =>
        have he : (e :: ds ++ rest).head?.any Char.isDigit = true := hds' e List.mem_cons_self
        have hvalue : Nat.ofDigitChars 10 ('0' :: e :: ds) 0 = Nat.ofDigitChars 10 (e :: ds) 0 := by
          rw [Nat.ofDigitChars_cons]
          rfl
        rw [List.cons_append, dropLeadingZeros, he, hvalue]
        exact ih (List.cons_ne_nil e ds) hds'
    · have hzero : (d == '0') = false := beq_eq_false_iff_ne.mpr hd
      rw [toDigits_number hds hd, List.cons_append, dropLeadingZeros, hzero,
        hds d List.mem_cons_self]
      rw [dropLeadingZeros_digits hds' hrest]
      rfl

/-! ## What is read is a spelling of what is returned -/

section Parse

variable {key : List Char} {src : Option String}

variable {ch : Char} {s r : List Char}

theorem lambdaSigConsume_eq_some {cs : List Char} (h : lambdaSigConsume ch s = some cs) :
    s = ch :: cs := by
  cases s with
  | nil => cases h
  | cons c s =>
    by_cases hc : c = ch
    · rw [hc, lambdaSigConsume_self] at h
      cases h
      rw [hc]
    · rw [lambdaSigConsume_ne hc] at h
      cases h

theorem lambdaSigExpect_eq_ok {cs : List Char} (h : lambdaSigExpect key src ch s = .ok cs) :
    s = ch :: cs := by
  unfold lambdaSigExpect at h
  cases hc : lambdaSigConsume ch s with
  | none =>
    rw [hc] at h
    cases h
  | some cs' =>
    rw [hc] at h
    cases h
    exact lambdaSigConsume_eq_some hc

/-- The digits at the beginning of a text, and the rest. -/
theorem number_split (h : s.head?.any Char.isDigit = true) :
    ∃ ds rest, s = ds ++ rest ∧ ds ≠ [] ∧ (∀ c ∈ ds, c.isDigit = true) ∧ EndsNumber rest ∧
      s.takeWhile Char.isDigit = ds ∧ s.dropWhile Char.isDigit = rest := by
  refine ⟨s.takeWhile Char.isDigit, s.dropWhile Char.isDigit, List.takeWhile_append_dropWhile.symm,
    ?_, fun c hc => List.all_eq_true.mp List.all_takeWhile c hc, ?_, rfl, rfl⟩
  · cases s with
    | nil => cases h
    | cons c cs =>
      have hc : c.isDigit = true := h
      rw [List.takeWhile_cons_of_pos hc]
      exact List.cons_ne_nil _ _
  · unfold EndsNumber
    cases hd : s.dropWhile Char.isDigit with
    | nil => rfl
    | cons c cs =>
      have hne : s.dropWhile Char.isDigit ≠ [] := by rw [hd]; exact List.cons_ne_nil _ _
      have hhead := List.head_dropWhile_not Char.isDigit hne
      simpa [hd] using hhead

/-- `LambdaSigParseOid`: it reads a number below `2 ^ 32`, with leading zeros. -/
theorem lambdaSigParseOid_eq_ok {rest : List Char} {t : Oid} :
    lambdaSigParseOid key src s = .ok (t, rest) ↔
      ∃ ds, s = ds ++ rest ∧ ds ≠ [] ∧ (∀ c ∈ ds, c.isDigit = true) ∧ EndsNumber rest ∧
        Nat.ofDigitChars 10 ds 0 = t.toNat := by
  unfold lambdaSigParseOid
  constructor
  · intro h
    by_cases hd : s.head?.any Char.isDigit = true
    · rw [if_pos hd] at h
      obtain ⟨ds, rest', hs, hne, hds, hend, htake, hdrop⟩ := number_split hd
      rw [htake, hdrop] at h
      dsimp only at h
      split at h
      · cases h
      · next hle =>
        cases h
        refine ⟨ds, hs, hne, hds, hend, ?_⟩
        rw [UInt32.toNat_ofNat_of_lt']
        unfold PG_UINT32_MAX at hle
        exact Nat.lt_of_le_of_lt (Nat.le_of_not_lt hle) (by decide)
    · rw [if_neg hd] at h
      cases h
  · rintro ⟨ds, rfl, hne, hds, hend, hvalue⟩
    have hhead : (ds ++ rest).head?.any Char.isDigit = true := by
      cases ds with
      | nil => exact absurd rfl hne
      | cons d ds => exact hds d List.mem_cons_self
    obtain ⟨htake, hdrop⟩ := span_digits hds hend
    rw [if_pos hhead, htake, hdrop, hvalue]
    have hle : ¬ t.toNat > PG_UINT32_MAX := by
      have := t.toNat_lt
      unfold PG_UINT32_MAX
      omega
    rw [if_neg hle, UInt32.ofNat_toNat]

theorem orNoArgs_eq_ok {rest : List Char} {ts : List LambdaSigType}
    {args : Except SigError (List LambdaSigType × List Char)}
    (h : orNoArgs s args = .ok (ts, rest)) :
    (ts = [] ∧ s = ')' :: rest) ∨ lambdaSigConsume ')' s = none ∧ args = .ok (ts, rest) := by
  unfold orNoArgs at h
  cases hc : lambdaSigConsume ')' s with
  | none =>
    rw [hc] at h
    exact Or.inr ⟨rfl, h⟩
  | some cs =>
    rw [hc] at h
    cases h
    exact Or.inl ⟨rfl, lambdaSigConsume_eq_some hc⟩

theorem argsKey_cons {t : LambdaSigType} {ts : List LambdaSigType} (hts : ts ≠ []) :
    argsKey true (t :: ts) = typeKey t ++ ',' :: argsKey true ts := by
  cases ts with
  | nil => exact absurd rfl hts
  | cons t' ts => simp [argsKey]

/-- **One round after the other**: what each function reads is the key of what it
returns, with leading zeros. -/
theorem parse_spells (n : Nat) :
    (∀ {s rest : List Char} {sig : LambdaSignature},
        lambdaSigParseSignature key src n s = .ok (sig, rest) →
          dropLeadingZeros false s = lambdaSigAppendKey sig ++ dropLeadingZeros false rest) ∧
      (∀ {s rest : List Char} {ts : List LambdaSigType},
        lambdaSigParseArgs key src n s = .ok (ts, rest) → ts ≠ [] ∧
          dropLeadingZeros false s = argsKey true ts ++ ')' :: dropLeadingZeros false rest) ∧
      ∀ {s rest : List Char} {t : LambdaSigType},
        lambdaSigParseType key src n s = .ok (t, rest) →
          dropLeadingZeros false s = typeKey t ++ dropLeadingZeros false rest := by
  induction n with
  | zero =>
    refine ⟨fun h => ?_, fun h => ?_, fun h => ?_⟩
    · cases h
    · cases h
    · cases h
  | succ n ih =>
    obtain ⟨ihSig, ihArgs, ihType⟩ := ih
    have hsymbol : ∀ {c : Char}, c.isDigit = false → ∀ cs,
        dropLeadingZeros false (c :: cs) = c :: dropLeadingZeros false cs := fun hc cs =>
      dropLeadingZeros_symbol hc false cs
    refine ⟨fun h => ?_, fun h => ?_, fun h => ?_⟩
    · rw [lambdaSigParseSignature] at h
      obtain ⟨s₁, h₁, h⟩ := bind_eq_ok.mp h
      obtain ⟨⟨ts, s₂⟩, h₂, h⟩ := bind_eq_ok.mp h
      obtain ⟨s₃, h₃, h⟩ := bind_eq_ok.mp h
      obtain ⟨s₄, h₄, h⟩ := bind_eq_ok.mp h
      obtain ⟨⟨t, s₅⟩, h₅, h⟩ := bind_eq_ok.mp h
      cases h
      have hargs : dropLeadingZeros false s₁ =
          argsKey true ts ++ ')' :: dropLeadingZeros false s₂ := by
        obtain ⟨rfl, rfl⟩ | ⟨_, hargs⟩ := orNoArgs_eq_ok h₂
        · rw [hsymbol (by decide)]
          rfl
        · exact (ihArgs hargs).2
      have hs₂ : s₂ = '-' :: s₃ := lambdaSigExpect_eq_ok h₃
      rw [lambdaSigExpect_eq_ok h₁, hsymbol (by decide), hargs, hs₂, hsymbol (by decide),
        lambdaSigExpect_eq_ok h₄, hsymbol (by decide), ihType h₅]
      simp [lambdaSigAppendKey]
    · rw [lambdaSigParseArgs] at h
      obtain ⟨⟨t, s₁⟩, h₁, h⟩ := bind_eq_ok.mp h
      rw [ihType h₁]
      cases hc : lambdaSigConsume ',' s₁ with
      | some s₂ =>
        simp only [hc] at h
        obtain ⟨⟨ts, s₃⟩, h₃, h⟩ := bind_eq_ok.mp h
        cases h
        obtain ⟨hne, hts⟩ := ihArgs h₃
        refine ⟨List.cons_ne_nil t ts, ?_⟩
        rw [lambdaSigConsume_eq_some hc, hsymbol (by decide), hts, argsKey_cons hne]
        simp
      | none =>
        simp only [hc] at h
        obtain ⟨s₂, h₂, h⟩ := bind_eq_ok.mp h
        cases h
        refine ⟨List.cons_ne_nil t [], ?_⟩
        rw [lambdaSigExpect_eq_ok h₂, hsymbol (by decide)]
        simp [argsKey]
    · rw [lambdaSigParseType] at h
      split at h
      · obtain ⟨⟨sig, s₁⟩, h₁, h⟩ := bind_eq_ok.mp h
        cases h
        rw [typeKey_func]
        exact ihSig h₁
      · obtain ⟨⟨t, s₁⟩, h₁, h⟩ := bind_eq_ok.mp h
        cases h
        obtain ⟨ds, rfl, hne, hds, hend, hvalue⟩ := lambdaSigParseOid_eq_ok.mp h₁
        rw [dropLeadingZeros_number hne hds hend, hvalue, typeKey]

/-! ## Every spelling is accepted -/

/-- Dropping zeros leaves a number where there is one. -/
theorem head_dropLeadingZeros (s : List Char) :
    (dropLeadingZeros false s).head?.any Char.isDigit = s.head?.any Char.isDigit := by
  induction s with
  | nil => rfl
  | cons c cs ih =>
    unfold dropLeadingZeros
    split
    · next h =>
      rw [Bool.and_eq_true, Bool.and_eq_true, beq_iff_eq] at h
      rw [ih, h.2, h.1.2]
      rfl
    · rfl

/-- A symbol at the beginning stood there before. -/
theorem eq_symbol_of_dropLeadingZeros (hch : ch.isDigit = false)
    (h : dropLeadingZeros false s = ch :: r) :
    ∃ cs, s = ch :: cs ∧ dropLeadingZeros false cs = r := by
  cases s with
  | nil => cases h
  | cons c cs =>
    have hhead := head_dropLeadingZeros (c :: cs)
    rw [h] at hhead
    have hc : c.isDigit = false := by
      have : (some ch).any Char.isDigit = (some c).any Char.isDigit := hhead
      rw [← hch]
      exact this.symm
    rw [dropLeadingZeros_symbol hc] at h
    obtain ⟨rfl, hr⟩ := List.cons.inj h
    exact ⟨cs, rfl, hr⟩

theorem expect_of_dropLeadingZeros (hch : ch.isDigit = false)
    (h : lambdaSigExpect key src ch (dropLeadingZeros false s) = .ok r) :
    ∃ cs, lambdaSigExpect key src ch s = .ok cs ∧ dropLeadingZeros false cs = r := by
  obtain ⟨cs, rfl, hcs⟩ := eq_symbol_of_dropLeadingZeros hch (lambdaSigExpect_eq_ok h)
  exact ⟨cs, lambdaSigExpect_self ch cs, hcs⟩

/-- A symbol is consumed in both texts or in neither. -/
theorem consume_dropLeadingZeros (hch : ch.isDigit = false) (s : List Char) :
    lambdaSigConsume ch (dropLeadingZeros false s) =
      (lambdaSigConsume ch s).map (dropLeadingZeros false) := by
  cases hc : lambdaSigConsume ch s with
  | some cs =>
    rw [lambdaSigConsume_eq_some hc, dropLeadingZeros_symbol hch, lambdaSigConsume_self]
    rfl
  | none =>
    cases hd : lambdaSigConsume ch (dropLeadingZeros false s) with
    | none => rfl
    | some r =>
      obtain ⟨cs, rfl, _⟩ := eq_symbol_of_dropLeadingZeros hch (lambdaSigConsume_eq_some hd)
      rw [lambdaSigConsume_self] at hc
      cases hc

theorem parseOid_of_dropLeadingZeros {t : Oid}
    (h : lambdaSigParseOid key src (dropLeadingZeros false s) = .ok (t, r)) :
    ∃ rest, lambdaSigParseOid key src s = .ok (t, rest) ∧ dropLeadingZeros false rest = r := by
  obtain ⟨ds, hs, hne, hds, hend, hvalue⟩ := lambdaSigParseOid_eq_ok.mp h
  have hhead : s.head?.any Char.isDigit = true := by
    rw [← head_dropLeadingZeros, hs]
    cases ds with
    | nil => exact absurd rfl hne
    | cons d ds => exact hds d List.mem_cons_self
  obtain ⟨es, rest, rfl, hne', hes, hend', _, _⟩ := number_split hhead
  -- the two numbers are the digits at the beginning of one text
  rw [dropLeadingZeros_number hne' hes hend'] at hs
  have hends : EndsNumber (dropLeadingZeros false rest) := by
    unfold EndsNumber
    rw [head_dropLeadingZeros]
    exact hend'
  have hprinted : ∀ c ∈ Nat.toDigits 10 (Nat.ofDigitChars 10 es 0), c.isDigit = true :=
    fun c hc => Nat.isDigit_of_mem_toDigits (by omega) (by omega) hc
  have hspan := span_digits hprinted hends
  rw [hs, (span_digits hds hend).1, (span_digits hds hend).2] at hspan
  refine ⟨rest, lambdaSigParseOid_eq_ok.mpr ⟨es, rfl, hne', hes, hend', ?_⟩, hspan.2.symm⟩
  rw [← hvalue, hspan.1, Nat.ofDigitChars_ten_toDigits]

/-- **Side by side**: if the reduced text is parsed, so is the text, with the same
result. -/
theorem parse_of_dropLeadingZeros (n : Nat) :
    (∀ {s r : List Char} {sig : LambdaSignature},
        lambdaSigParseSignature key src n (dropLeadingZeros false s) = .ok (sig, r) →
          ∃ rest, lambdaSigParseSignature key src n s = .ok (sig, rest) ∧
            dropLeadingZeros false rest = r) ∧
      (∀ {s r : List Char} {ts : List LambdaSigType},
        lambdaSigParseArgs key src n (dropLeadingZeros false s) = .ok (ts, r) →
          ∃ rest, lambdaSigParseArgs key src n s = .ok (ts, rest) ∧
            dropLeadingZeros false rest = r) ∧
      ∀ {s r : List Char} {t : LambdaSigType},
        lambdaSigParseType key src n (dropLeadingZeros false s) = .ok (t, r) →
          ∃ rest, lambdaSigParseType key src n s = .ok (t, rest) ∧
            dropLeadingZeros false rest = r := by
  induction n with
  | zero =>
    refine ⟨fun h => ?_, fun h => ?_, fun h => ?_⟩
    · cases h
    · cases h
    · cases h
  | succ n ih =>
    obtain ⟨ihSig, ihArgs, ihType⟩ := ih
    refine ⟨fun {s r sig} h => ?_, fun {s r ts} h => ?_, fun {s r t} h => ?_⟩
    · rw [lambdaSigParseSignature] at h ⊢
      obtain ⟨r₁, h₁, h⟩ := bind_eq_ok.mp h
      obtain ⟨⟨ts, r₂⟩, h₂, h⟩ := bind_eq_ok.mp h
      obtain ⟨r₃, h₃, h⟩ := bind_eq_ok.mp h
      obtain ⟨r₄, h₄, h⟩ := bind_eq_ok.mp h
      obtain ⟨⟨t, r₅⟩, h₅, h⟩ := bind_eq_ok.mp h
      cases h
      obtain ⟨s₁, hs₁, rfl⟩ := expect_of_dropLeadingZeros (by decide) h₁
      obtain ⟨s₂, hs₂, rfl⟩ : ∃ s₂, orNoArgs s₁ (lambdaSigParseArgs key src n s₁) = .ok (ts, s₂) ∧
          dropLeadingZeros false s₂ = r₂ := by
        unfold orNoArgs at h₂ ⊢
        rw [consume_dropLeadingZeros (by decide)] at h₂
        cases hc : lambdaSigConsume ')' s₁ with
        | none =>
          rw [hc] at h₂
          exact ihArgs h₂
        | some s₂ =>
          rw [hc] at h₂
          cases h₂
          exact ⟨s₂, rfl, rfl⟩
      obtain ⟨s₃, hs₃, rfl⟩ := expect_of_dropLeadingZeros (by decide) h₃
      obtain ⟨s₄, hs₄, rfl⟩ := expect_of_dropLeadingZeros (by decide) h₄
      obtain ⟨s₅, hs₅, rfl⟩ := ihType h₅
      exact ⟨s₅, bind_eq_ok.mpr ⟨s₁, hs₁, bind_eq_ok.mpr ⟨(ts, s₂), hs₂, bind_eq_ok.mpr
        ⟨s₃, hs₃, bind_eq_ok.mpr ⟨s₄, hs₄, bind_eq_ok.mpr ⟨(t, s₅), hs₅, rfl⟩⟩⟩⟩⟩, rfl⟩
    · rw [lambdaSigParseArgs] at h ⊢
      obtain ⟨⟨t, r₁⟩, h₁, h⟩ := bind_eq_ok.mp h
      obtain ⟨s₁, hs₁, rfl⟩ := ihType h₁
      simp only [consume_dropLeadingZeros (show (',').isDigit = false by decide)] at h
      rw [hs₁, ok_bind]
      cases hc : lambdaSigConsume ',' s₁ with
      | some s₂ =>
        rw [hc] at h
        obtain ⟨⟨ts, r₃⟩, h₃, h⟩ := bind_eq_ok.mp h
        cases h
        obtain ⟨s₃, hs₃, rfl⟩ := ihArgs h₃
        exact ⟨s₃, bind_eq_ok.mpr ⟨(ts, s₃), hs₃, rfl⟩, rfl⟩
      | none =>
        rw [hc] at h
        obtain ⟨r₂, h₂, h⟩ := bind_eq_ok.mp h
        cases h
        obtain ⟨s₂, hs₂, rfl⟩ := expect_of_dropLeadingZeros (by decide) h₂
        exact ⟨s₂, bind_eq_ok.mpr ⟨s₂, hs₂, rfl⟩, rfl⟩
    · rw [lambdaSigParseType] at h ⊢
      by_cases hhead : (dropLeadingZeros false s).head? = some '('
      · obtain ⟨r', hr'⟩ := List.head?_eq_some_iff.mp hhead
        obtain ⟨cs, rfl, _⟩ := eq_symbol_of_dropLeadingZeros (by decide) hr'
        rw [if_pos hhead] at h
        rw [if_pos (show ('(' :: cs).head? = some '(' from rfl)]
        obtain ⟨⟨sig, r₁⟩, h₁, h⟩ := bind_eq_ok.mp h
        cases h
        obtain ⟨s₁, hs₁, rfl⟩ := ihSig h₁
        exact ⟨s₁, bind_eq_ok.mpr ⟨(sig, s₁), hs₁, rfl⟩, rfl⟩
      · have hhead' : ¬ s.head? = some '(' := by
          intro hs
          obtain ⟨cs, rfl⟩ := List.head?_eq_some_iff.mp hs
          rw [dropLeadingZeros_symbol (by decide)] at hhead
          exact hhead rfl
        rw [if_neg hhead] at h
        rw [if_neg hhead']
        obtain ⟨⟨t, r₁⟩, h₁, h⟩ := bind_eq_ok.mp h
        cases h
        obtain ⟨s₁, hs₁, rfl⟩ := parseOid_of_dropLeadingZeros h₁
        exact ⟨s₁, bind_eq_ok.mpr ⟨(t, s₁), hs₁, rfl⟩, rfl⟩

/-- The key of a signature, with rounds to spare. -/
theorem parseSignature_key {n : Nat} (sig : LambdaSignature)
    (hn : 3 * (lambdaSigAppendKey sig).length ≤ n + 1) :
    lambdaSigParseSignature key src n (lambdaSigAppendKey sig) = .ok (sig, []) := by
  have htype : lambdaSigParseType key src (n + 1)
      (typeKey (.func sig.argtypes sig.rettype) ++ []) = .ok (.func sig.argtypes sig.rettype, []) :=
    parseType_key _ (by rw [typeKey_func]; exact hn) endsNumber_nil
  rw [List.append_nil, typeKey_func, lambdaSigParseType,
    if_pos (show (lambdaSigAppendKey sig).head? = some '(' from rfl)] at htype
  obtain ⟨⟨sig', rest⟩, h, htype⟩ := bind_eq_ok.mp htype
  obtain ⟨hfunc, rfl⟩ := Prod.mk.inj (Except.ok.inj htype)
  obtain ⟨hargs, hret⟩ := LambdaSigType.func.inj hfunc
  rw [h]
  cases sig
  cases sig'
  cases hargs
  cases hret
  rfl

theorem dropLeadingZeros_eq_nil (h : dropLeadingZeros false s = []) : s = [] := by
  cases s with
  | nil => rfl
  | cons c cs =>
    have hhead := head_dropLeadingZeros (c :: cs)
    rw [h] at hhead
    have hc : c.isDigit = false := hhead.symm
    rw [dropLeadingZeros_symbol hc] at h
    cases h

end Parse

/-- The parser returns a signature when it has read the whole text and the types
are valid. -/
theorem lambdaSigParseKey_eq_ok {pgType : Oid → Option PgType} {src : Option String}
    {s : List Char} {sig : LambdaSignature} :
    lambdaSigParseKey s src pgType = .ok sig ↔
      lambdaSigParseSignature s src (3 * s.length + 1) s = .ok (sig, []) ∧
        lambdaSigValidateSignature pgType sig = .ok () := by
  unfold lambdaSigParseKey
  rw [bind_eq_ok]
  constructor
  · rintro ⟨⟨sig', rest⟩, h, hrest⟩
    dsimp only at hrest
    split at hrest
    · cases hrest
    · next hnil =>
      obtain ⟨u, hu, hrest⟩ := bind_eq_ok.mp hrest
      cases hrest
      rw [h, not_not.mp hnil, hu]
      exact ⟨rfl, rfl⟩
  · rintro ⟨h, hvalid⟩
    refine ⟨(sig, []), h, ?_⟩
    exact bind_eq_ok.mpr ⟨(), hvalid, rfl⟩

/-- The texts accepted for a signature are those that become its key. -/
theorem lambdaSigParseKey_spells {pgType : Oid → Option PgType} {src : Option String}
    {s : List Char} {sig : LambdaSignature} :
    lambdaSigParseKey s src pgType = .ok sig ↔
      dropLeadingZeros false s = lambdaSigAppendKey sig ∧
        lambdaSigValidateSignature pgType sig = .ok () := by
  rw [lambdaSigParseKey_eq_ok]
  refine and_congr_left fun _ => ⟨fun h => ?_, fun h => ?_⟩
  · have hs := (parse_spells _).1 h
    rwa [show dropLeadingZeros false [] = [] from rfl, List.append_nil] at hs
  · have hlen := length_dropLeadingZeros_le false s
    rw [h] at hlen
    have hkey : lambdaSigParseSignature s src (3 * s.length + 1) (dropLeadingZeros false s) =
        .ok (sig, []) := by
      rw [h]
      exact parseSignature_key sig (by omega)
    obtain ⟨rest, hrest, hnil⟩ := (parse_of_dropLeadingZeros _).1 hkey
    rw [hrest, dropLeadingZeros_eq_nil hnil]

/-- **What the parser accepts.** A text is accepted for a signature exactly when
it is the signature's key once the leading zeros of its numbers are dropped, and
the types of the signature are valid. So the key of what was read is the text
itself when no number in it has a leading zero, and not otherwise; and the keys
the printer writes are equal for equal signatures only. -/
theorem lambdaSigParseKey_accepts_iff (pgType : Oid → Option PgType) (src : Option String)
    (s : List Char) (sig : LambdaSignature) :
    (lambdaSigParseKey s src pgType = .ok sig ↔
        dropLeadingZeros false s = lambdaSigAppendKey sig ∧
          lambdaSigValidateSignature pgType sig = .ok ()) ∧
      (lambdaSigParseKey s src pgType = .ok sig →
        (lambdaSigAppendKey sig = s ↔ dropLeadingZeros false s = s)) ∧
      ∀ sig', lambdaSigAppendKey sig = lambdaSigAppendKey sig' ↔ sig = sig' := by
  refine ⟨lambdaSigParseKey_spells, fun h => ?_, fun sig' => ?_⟩
  · rw [(lambdaSigParseKey_spells.mp h).1]
  · exact lambdaSigAppendKey_injective.eq_iff

/-- `(023)->16` is accepted. Its signature has another key. -/
theorem leadingZero_accepted :
    lambdaSigParseKey "(023)->16".toList none (fun _ => some ⟨"t", true, false⟩) =
        .ok ⟨[.scalar 23], .scalar 16⟩ ∧
      lambdaSigAppendKey ⟨[.scalar 23], .scalar 16⟩ = "(23)->16".toList ∧
      lambdaSigAppendKey ⟨[.scalar 23], .scalar 16⟩ ≠ "(023)->16".toList := by
  refine ⟨lambdaSigParseKey_spells.mpr ⟨?_, rfl⟩, ?_, ?_⟩
  · decide
  · decide
  · decide

end HolLambdas.Catalog
