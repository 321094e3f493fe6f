import HolLambdas.Signature
import HolLambdas.Fuel

/-!
# The canonical key of a signature

`pg_lambdasig.c` stores a signature as text, `((23)->16,25)->114`, and the text
is what identifies it: two columns have one type when their keys are equal
strings. That the key may stand for the signature is a fact about a printer and
a parser written independently of each other, and it is proved here:

* `parseType_key`, the step: the parser, on the key of a type followed by any
  text that does not begin with a digit, returns the type and leaves exactly
  that text. The condition is what makes decimal numbers end;
* `lambdaSigParseKey_key`: on a whole key the parser returns the signature, to
  be validated;
* `lambdaSigAppendKey_injective`.

The parser's recursion is on the unread text, of which every round takes some;
the embedding counts rounds instead, and `lambdaSigParseSignature_total` says
that the count it starts with is never used up.

A C string is a list of characters. Node locations and the `typeoid` of a
function type are not part of `LambdaSignature`.
-/

namespace HolLambdas.Catalog

/-- The errors of `pg_lambdasig.c` that concern signatures and their storage. -/
inductive SigError where
  /-- The round count of the embedding was used up. -/
  | outOfFuel
  /-- "invalid lambda signature key", with the detail and its byte offset, and
  the source signature if there is one. -/
  | parse (key : List Char) (msg : String) (offset : Nat) (src : Option String)
  /-- "invalid type in lambda signature" -/
  | invalidType
  /-- "cache lookup failed for type %u" -/
  | typeLookupFailed (typeoid : Oid)
  /-- "type \"%s\" is only a shell" -/
  | shellType (typname : String)
  /-- "pseudo-type \"%s\" is not allowed in a stored lambda signature" -/
  | pseudoType (typname : String)
  /-- "lambda typmod %d does not reference a stored lambda signature" -/
  | noStoredSignature (typmod : Int)
  /-- "cache lookup failed for lambda signature typmod %d" -/
  | lookupFailed (typmod : Int)
  /-- "too many lambda signatures" -/
  | tooMany
  /-- A duplicate in one of the unique indexes. -/
  | uniqueViolation (index : String)
  /-- "row is too big: size %zu, maximum size %zu" -/
  | rowTooBig
  /-- "index row size %zu exceeds btree version %u maximum %zu for index \"%s\"" -/
  | indexRowSize
deriving DecidableEq, Repr

/-! ## Printing -/

mutual

/-- `LambdaSigTypeAppendKey`. -/
def typeKey : LambdaSigType → List Char
  | .scalar t => Nat.toDigits 10 t.toNat
  | .func argtypes rettype =>
    '(' :: (argsKey true argtypes ++ ')' :: '-' :: '>' :: typeKey rettype)

/-- The argument loop of `LambdaSigAppendKey`, with its `first` flag. -/
def argsKey (first : Bool) : List LambdaSigType → List Char
  | [] => []
  | t :: ts => (if first then [] else [',']) ++ (typeKey t ++ argsKey false ts)

end

/-- `LambdaSigAppendKey` on an empty buffer. -/
def lambdaSigAppendKey (sig : LambdaSignature) : List Char :=
  '(' :: (argsKey true sig.argtypes ++ ')' :: '-' :: '>' :: typeKey sig.rettype)

mutual

/-- `LambdaSigTypeAppendSource`; `formatType` is `format_type_be`. -/
def typeSource (formatType : Oid → String) : LambdaSigType → String
  | .scalar t => formatType t
  | .func argtypes rettype =>
    "(" ++ argsSource formatType true argtypes ++ ") -> " ++ typeSource formatType rettype

def argsSource (formatType : Oid → String) (first : Bool) : List LambdaSigType → String
  | [] => ""
  | t :: ts =>
    (if first then "" else ", ") ++ typeSource formatType t ++ argsSource formatType false ts

end

/-- `LambdaSigAppendSource` on an empty buffer: the display form. -/
def lambdaSigAppendSource (formatType : Oid → String) (sig : LambdaSignature) : String :=
  "(" ++ argsSource formatType true sig.argtypes ++ ") -> " ++ typeSource formatType sig.rettype

/-! ## Validation -/

/-- The columns of `pg_type` that are consulted. -/
structure PgType where
  typname : String
  typisdefined : Bool
  /-- `typtype = TYPTYPE_PSEUDO` -/
  isPseudo : Bool
deriving DecidableEq, Repr

section Validate

variable (pgType : Oid → Option PgType)
variable {rest : List Char}

/-- `LambdaSigCheckScalarOid`. -/
def lambdaSigCheckScalarOid (typeoid : Oid) : Except SigError Unit :=
  if typeoid = 0 then .error .invalidType
  else
    match pgType typeoid with
    | none => .error (.typeLookupFailed typeoid)
    | some typ =>
      if !typ.typisdefined then .error (.shellType typ.typname)
      else if typ.isPseudo then .error (.pseudoType typ.typname)
      else .ok ()

mutual

/-- `LambdaSigValidateType`. -/
def lambdaSigValidateType : LambdaSigType → Except SigError Unit
  | .scalar t => lambdaSigCheckScalarOid pgType t
  | .func argtypes rettype => do
    lambdaSigValidateTypes argtypes
    lambdaSigValidateType rettype

def lambdaSigValidateTypes : List LambdaSigType → Except SigError Unit
  | [] => .ok ()
  | t :: ts => do
    lambdaSigValidateType t
    lambdaSigValidateTypes ts

end

/-- `LambdaSigValidateSignature`. -/
def lambdaSigValidateSignature (sig : LambdaSignature) : Except SigError Unit := do
  lambdaSigValidateTypes pgType sig.argtypes
  lambdaSigValidateType pgType sig.rettype

end Validate

/-! ## Parsing

`key` is where the parser started and `src` the display form, both for its
errors; the state is the text not read yet. -/

section Parse

variable (key : List Char) (src : Option String)

/-- `LambdaSigParseError`. -/
def lambdaSigParseError {α : Type} (msg : String) (rest : List Char) : Except SigError α :=
  .error (.parse key msg (key.length - rest.length) src)

/-- `LambdaSigConsume`: the text after the character, if it is the next one. -/
def lambdaSigConsume (ch : Char) : List Char → Option (List Char)
  | [] => none
  | c :: cs => if c = ch then some cs else none

/-- `LambdaSigExpect`. -/
def lambdaSigExpect (ch : Char) (rest : List Char) : Except SigError (List Char) :=
  match lambdaSigConsume ch rest with
  | some cs => .ok cs
  | none => lambdaSigParseError key src
    ("expected '" ++ ch.toString ++ "' in lambda signature key") rest

def PG_UINT32_MAX : Nat := 4294967295

/-- `LambdaSigParseOid`. The first character is a digit, so `strtoul` reads the
digits from here on. -/
def lambdaSigParseOid (rest : List Char) : Except SigError (Oid × List Char) :=
  if (rest.head?.any Char.isDigit) then
    let value := Nat.ofDigitChars 10 (rest.takeWhile Char.isDigit) 0
    if value > PG_UINT32_MAX then
      lambdaSigParseError key src "invalid type OID in lambda signature key" rest
    else .ok (UInt32.ofNat value, rest.dropWhile Char.isDigit)
  else lambdaSigParseError key src "expected type OID in lambda signature key" rest

/-- The arguments up to the closing parenthesis, which may come at once. -/
def orNoArgs (rest : List Char) (args : Except SigError (List LambdaSigType × List Char)) :
    Except SigError (List LambdaSigType × List Char) :=
  match lambdaSigConsume ')' rest with
  | some rest => .ok ([], rest)
  | none => args

mutual

/-- `LambdaSigParseSignature`. -/
def lambdaSigParseSignature : (rounds : Nat) → List Char →
    Except SigError (LambdaSignature × List Char)
  | 0, _ => .error .outOfFuel
  | n + 1, rest => do
    let rest ← lambdaSigExpect key src '(' rest
    let args ← orNoArgs rest (lambdaSigParseArgs n rest)
    let rest ← lambdaSigExpect key src '-' args.2
    let rest ← lambdaSigExpect key src '>' rest
    let ret ← lambdaSigParseType n rest
    return (⟨args.1, ret.1⟩, ret.2)

/-- The argument loop. -/
def lambdaSigParseArgs : (rounds : Nat) → List Char →
    Except SigError (List LambdaSigType × List Char)
  | 0, _ => .error .outOfFuel
  | n + 1, rest => do
    let t ← lambdaSigParseType n rest
    match lambdaSigConsume ',' t.2 with
    | some rest => do
      let ts ← lambdaSigParseArgs n rest
      return (t.1 :: ts.1, ts.2)
    | none => do
      let rest ← lambdaSigExpect key src ')' t.2
      return ([t.1], rest)

/-- `LambdaSigParseType`: an opening parenthesis begins a nested signature. -/
def lambdaSigParseType : (rounds : Nat) → List Char →
    Except SigError (LambdaSigType × List Char)
  | 0, _ => .error .outOfFuel
  | n + 1, rest =>
    if rest.head? = some '(' then do
      let sig ← lambdaSigParseSignature n rest
      return (.func sig.1.argtypes sig.1.rettype, sig.2)
    else do
      let typeoid ← lambdaSigParseOid key src rest
      return (.scalar typeoid.1, typeoid.2)

end

/-- `LambdaSigParseKey`. -/
def lambdaSigParseKey (pgType : Oid → Option PgType) : Except SigError LambdaSignature := do
  let sig ← lambdaSigParseSignature key src (3 * key.length + 1) key
  if sig.2 ≠ [] then
    lambdaSigParseError key src "trailing junk after lambda signature key" sig.2
  lambdaSigValidateSignature pgType sig.1
  return sig.1

end Parse

/-! ## The parser inverts the printer -/

section RoundTrip

variable {key : List Char} {src : Option String}

/-- A text in front of which a number ends. -/
def EndsNumber (rest : List Char) : Prop :=
  rest.head?.any Char.isDigit = false

theorem endsNumber_nil : EndsNumber [] := rfl

theorem endsNumber_cons {c : Char} (h : c.isDigit = false) :
    EndsNumber (c :: rest) := h

theorem lambdaSigConsume_self (ch : Char) (rest : List Char) :
    lambdaSigConsume ch (ch :: rest) = some rest := if_pos rfl

theorem lambdaSigConsume_ne {ch c : Char} (h : c ≠ ch) (rest : List Char) :
    lambdaSigConsume ch (c :: rest) = none := if_neg h

theorem lambdaSigExpect_self (ch : Char) (rest : List Char) :
    lambdaSigExpect key src ch (ch :: rest) = .ok rest := by
  rw [lambdaSigExpect, lambdaSigConsume_self]

theorem span_digits {ds rest : List Char} (hds : ∀ c ∈ ds, c.isDigit = true)
    (hrest : EndsNumber rest) :
    (ds ++ rest).takeWhile Char.isDigit = ds ∧ (ds ++ rest).dropWhile Char.isDigit = rest := by
  rw [List.takeWhile_append_of_pos hds, List.dropWhile_append_of_pos hds]
  cases rest with
  | nil => simp
  | cons c rest =>
    have hc : c.isDigit = false := hrest
    simp [hc]

/-- A printed OID is read back. -/
theorem lambdaSigParseOid_digits (t : Oid) (hrest : EndsNumber rest) :
    lambdaSigParseOid key src (Nat.toDigits 10 t.toNat ++ rest) = .ok (t, rest) := by
  have hds : ∀ c ∈ Nat.toDigits 10 t.toNat, c.isDigit = true := fun c hc =>
    Nat.isDigit_of_mem_toDigits (by omega) (by omega) hc
  have hhead : ((Nat.toDigits 10 t.toNat ++ rest).head?.any Char.isDigit) = true := by
    cases h : Nat.toDigits 10 t.toNat with
    | nil => exact absurd h Nat.toDigits_ne_nil
    | cons c cs => exact hds c (by rw [h]; exact List.mem_cons_self)
  unfold lambdaSigParseOid
  obtain ⟨htake, hdrop⟩ := span_digits hds hrest
  rw [if_pos hhead, htake, hdrop, Nat.ofDigitChars_ten_toDigits]
  have hle : ¬ t.toNat > PG_UINT32_MAX := by
    have := t.toNat_lt
    unfold PG_UINT32_MAX
    omega
  rw [if_neg hle, UInt32.ofNat_toNat]

theorem toDigits_head (n : Nat) : ∃ c cs, Nat.toDigits 10 n = c :: cs ∧ c.isDigit = true := by
  cases h : Nat.toDigits 10 n with
  | nil => exact absurd h Nat.toDigits_ne_nil
  | cons c cs =>
    have hmem : c ∈ Nat.toDigits 10 n := by rw [h]; exact List.mem_cons_self
    exact ⟨c, cs, rfl, Nat.isDigit_of_mem_toDigits (by omega) (by omega) hmem⟩

/-- A printed type begins with a parenthesis or a digit. -/
theorem typeKey_head (t : LambdaSigType) :
    ∃ c cs, typeKey t = c :: cs ∧ (c = '(' ∨ c.isDigit = true) := by
  cases t with
  | func σs ρ => exact ⟨'(', _, by rw [typeKey], Or.inl rfl⟩
  | scalar t =>
    obtain ⟨c, cs, hdigits, hc⟩ := toDigits_head t.toNat
    exact ⟨c, cs, by rw [typeKey, hdigits], Or.inr hc⟩

theorem typeKey_length_pos (t : LambdaSigType) : 0 < (typeKey t).length := by
  obtain ⟨c, cs, h, _⟩ := typeKey_head t
  rw [h]
  exact Nat.succ_pos _

/-- What is printed between the parentheses does not begin with the closing
one, unless nothing is. -/
theorem lambdaSigConsume_argsKey (t : LambdaSigType) (ts : List LambdaSigType) (rest : List Char) :
    lambdaSigConsume ')' (argsKey true (t :: ts) ++ rest) = none := by
  obtain ⟨c, cs, h, hc⟩ := typeKey_head t
  rw [argsKey, h]
  apply lambdaSigConsume_ne
  intro he
  rcases hc with hc | hc
  · rw [hc] at he
    exact absurd he (by decide)
  · rw [he] at hc
    exact absurd hc (by decide)

theorem typeKey_func (argtypes : List LambdaSigType) (rettype : LambdaSigType) :
    typeKey (.func argtypes rettype) = lambdaSigAppendKey ⟨argtypes, rettype⟩ := by
  rw [typeKey]
  rfl

theorem lambdaSigAppendKey_length (sig : LambdaSignature) :
    (lambdaSigAppendKey sig).length =
      (argsKey true sig.argtypes).length + (typeKey sig.rettype).length + 4 := by
  simp only [lambdaSigAppendKey, List.length_cons, List.length_append]
  omega

/-- A signature is read back once its parts are. -/
theorem parseSignature_of {n : Nat} {argtypes : List LambdaSigType} {rettype : LambdaSigType}
    (hargs : argtypes ≠ [] → ∀ rest', lambdaSigParseArgs key src n
      (argsKey true argtypes ++ ')' :: rest') = .ok (argtypes, rest'))
    (hret : lambdaSigParseType key src n (typeKey rettype ++ rest) = .ok (rettype, rest)) :
    lambdaSigParseSignature key src (n + 1) (lambdaSigAppendKey ⟨argtypes, rettype⟩ ++ rest) =
      .ok (⟨argtypes, rettype⟩, rest) := by
  unfold lambdaSigAppendKey lambdaSigParseSignature
  simp only [List.cons_append, List.append_assoc, lambdaSigExpect_self, ok_bind]
  cases argtypes with
  | nil =>
    simp only [argsKey, List.nil_append, orNoArgs, lambdaSigConsume_self, lambdaSigExpect_self,
      ok_bind, hret]
    rfl
  | cons t ts =>
    simp only [orNoArgs, lambdaSigConsume_argsKey, hargs (List.cons_ne_nil t ts),
      lambdaSigExpect_self, ok_bind, hret]
    rfl

mutual

/-- The key of a type, before a text that ends its numbers. -/
theorem parseType_key : ∀ (t : LambdaSigType) {n : Nat} {rest : List Char},
    3 * (typeKey t).length ≤ n → EndsNumber rest →
      lambdaSigParseType key src n (typeKey t ++ rest) = .ok (t, rest)
  | .scalar t, n, rest, hn, hrest => by
    have hpos := typeKey_length_pos (.scalar t)
    obtain ⟨m, rfl⟩ : ∃ m, n = m + 1 := ⟨n - 1, by omega⟩
    have hhead : ¬ (Nat.toDigits 10 t.toNat ++ rest).head? = some '(' := by
      obtain ⟨c, cs, hdigits, hc⟩ := toDigits_head t.toNat
      rw [hdigits]
      intro he
      rw [Option.some.inj he] at hc
      exact absurd hc (by decide)
    rw [typeKey, lambdaSigParseType, if_neg hhead, lambdaSigParseOid_digits t hrest]
    rfl
  | .func argtypes rettype, n, rest, hn, hrest => by
    rw [typeKey_func] at hn ⊢
    rw [lambdaSigAppendKey_length] at hn
    dsimp only at hn
    obtain ⟨m, rfl⟩ : ∃ m, n = m + 2 := ⟨n - 2, by omega⟩
    have hargs : argtypes ≠ [] → ∀ rest', lambdaSigParseArgs key src m
        (argsKey true argtypes ++ ')' :: rest') = .ok (argtypes, rest') := by
      intro hne rest'
      exact parseArgs_key argtypes hne (by omega)
    have hret : lambdaSigParseType key src m (typeKey rettype ++ rest) = .ok (rettype, rest) :=
      parseType_key rettype (by omega) hrest
    have hhead : (lambdaSigAppendKey ⟨argtypes, rettype⟩ ++ rest).head? = some '(' := rfl
    rw [lambdaSigParseType, if_pos hhead, parseSignature_of hargs hret]
    rfl

/-- The keys of a list of types, before the closing parenthesis. -/
theorem parseArgs_key : ∀ (ts : List LambdaSigType), ts ≠ [] → ∀ {n : Nat} {rest : List Char},
    3 * (argsKey true ts).length + 1 ≤ n →
      lambdaSigParseArgs key src n (argsKey true ts ++ ')' :: rest) = .ok (ts, rest)
  | [], h, _, _, _ => absurd rfl h
  | [t], _, n, rest, hn => by
    obtain ⟨m, rfl⟩ : ∃ m, n = m + 1 := ⟨n - 1, by omega⟩
    simp only [argsKey, if_true, List.nil_append, List.append_nil] at hn ⊢
    have ht : lambdaSigParseType key src m (typeKey t ++ ')' :: rest) = .ok (t, ')' :: rest) :=
      parseType_key t (by omega) (endsNumber_cons (by decide))
    rw [lambdaSigParseArgs, ht]
    simp only [ok_bind, lambdaSigConsume_ne (show ')' ≠ ',' by decide), lambdaSigExpect_self]
    rfl
  | t :: t' :: ts, _, n, rest, hn => by
    obtain ⟨m, rfl⟩ : ∃ m, n = m + 1 := ⟨n - 1, by omega⟩
    have hkey : argsKey true (t :: t' :: ts) = typeKey t ++ ',' :: argsKey true (t' :: ts) := by
      simp [argsKey]
    rw [hkey] at hn ⊢
    simp only [List.length_append, List.length_cons] at hn
    have ht : lambdaSigParseType key src m
        (typeKey t ++ (',' :: argsKey true (t' :: ts) ++ ')' :: rest)) =
          .ok (t, ',' :: argsKey true (t' :: ts) ++ ')' :: rest) :=
      parseType_key t (by omega) (endsNumber_cons (by decide))
    have hts : lambdaSigParseArgs key src m (argsKey true (t' :: ts) ++ ')' :: rest) =
        .ok (t' :: ts, rest) :=
      parseArgs_key (t' :: ts) (List.cons_ne_nil t' ts) (by omega)
    rw [lambdaSigParseArgs, List.append_assoc, ht]
    simp only [ok_bind, List.cons_append, lambdaSigConsume_self, hts]
    rfl

end

variable (key src) in
/-- The whole key. -/
theorem lambdaSigParseSignature_key (sig : LambdaSignature) :
    lambdaSigParseSignature key src (3 * (lambdaSigAppendKey sig).length + 1)
      (lambdaSigAppendKey sig) = .ok (sig, []) := by
  have hlen := lambdaSigAppendKey_length sig
  have hargs : sig.argtypes ≠ [] → ∀ rest', lambdaSigParseArgs key src
      (3 * (lambdaSigAppendKey sig).length) (argsKey true sig.argtypes ++ ')' :: rest') =
        .ok (sig.argtypes, rest') := by
    intro hne rest'
    exact parseArgs_key sig.argtypes hne (by omega)
  have hret : lambdaSigParseType key src (3 * (lambdaSigAppendKey sig).length)
      (typeKey sig.rettype ++ []) = .ok (sig.rettype, []) :=
    parseType_key sig.rettype (by omega) endsNumber_nil
  have hsig := parseSignature_of hargs hret
  rwa [List.append_nil] at hsig

/-- The parser returns the printed signature, to be validated. -/
theorem lambdaSigParseKey_key (pgType : Oid → Option PgType) (src : Option String)
    (sig : LambdaSignature) :
    lambdaSigParseKey (lambdaSigAppendKey sig) src pgType =
      (fun _ => sig) <$> lambdaSigValidateSignature pgType sig := by
  rw [lambdaSigParseKey, lambdaSigParseSignature_key]
  cases h : lambdaSigValidateSignature pgType sig with
  | error e =>
    simp only [ok_bind, ne_eq, not_true_eq_false, if_false]
    rw [h]
    rfl
  | ok u =>
    simp only [ok_bind, ne_eq, not_true_eq_false, if_false]
    rw [h]
    rfl

theorem lambdaSigAppendKey_injective : Function.Injective lambdaSigAppendKey := by
  intro sig sig' h
  have hsig := lambdaSigParseSignature_key [] none sig
  rw [h, lambdaSigParseSignature_key] at hsig
  exact (Prod.mk.inj (Except.ok.inj hsig)).1.symm

/-- **The codec round-trips.** On the key of a signature the parser reads the
whole text and returns the signature, once its types are found valid; and two
signatures with one key are equal. -/
theorem lambdaSigKey_roundTrip (pgType : Oid → Option PgType) (src : Option String)
    (sig : LambdaSignature) :
    lambdaSigParseSignature (lambdaSigAppendKey sig) src
        (3 * (lambdaSigAppendKey sig).length + 1) (lambdaSigAppendKey sig) = .ok (sig, []) ∧
      lambdaSigParseKey (lambdaSigAppendKey sig) src pgType =
        (fun _ => sig) <$> lambdaSigValidateSignature pgType sig ∧
      ∀ sig', lambdaSigAppendKey sig = lambdaSigAppendKey sig' → sig = sig' :=
  ⟨lambdaSigParseSignature_key _ _ sig, lambdaSigParseKey_key pgType src sig,
    fun _ h => lambdaSigAppendKey_injective h⟩

/-- `((int4) → bool, text) → json`, as in the comment of `pg_lambdasig.h`. -/
def documentedSignature : LambdaSignature :=
  ⟨[.func [.scalar 23] (.scalar 16), .scalar 25], .scalar 114⟩

theorem lambdaSigKey_roundTrip_documented :
    lambdaSigAppendKey documentedSignature = "((23)->16,25)->114".toList ∧
      lambdaSigParseKey "((23)->16,25)->114".toList none
          (fun _ => some ⟨"t", true, false⟩) = .ok documentedSignature ∧
      lambdaSigAppendKey documentedSignature ≠
        lambdaSigAppendKey ⟨[.func [.scalar 23] (.scalar 16)], .scalar 114⟩ := by
  have hkey : lambdaSigAppendKey documentedSignature = "((23)->16,25)->114".toList := by decide
  obtain ⟨_, hparse, hinj⟩ := lambdaSigKey_roundTrip (fun _ => some ⟨"t", true, false⟩) none
    documentedSignature
  rw [hkey] at hparse
  exact ⟨hkey, hparse, fun h => absurd (hinj _ h) (by decide)⟩

end RoundTrip

/-! ## The parser ends -/

section Total

variable {key : List Char} {src : Option String}

/-- The parsing result `r` comes about without the rounds being used up, and
after reading `k` characters of `rest` or more. -/
def Reads {α : Type} (k : Nat) (rest : List Char) (r : Except SigError (α × List Char)) : Prop :=
  r ≠ .error .outOfFuel ∧ ∀ x rest', r = .ok (x, rest') → rest'.length + k ≤ rest.length

theorem reads_parseError {α : Type} (k : Nat) (rest rest' : List Char) (msg : String) :
    Reads k rest (lambdaSigParseError key src msg rest' : Except SigError (α × List Char)) :=
  ⟨by simp [lambdaSigParseError], by simp [lambdaSigParseError]⟩

theorem reads_pure {α : Type} (x : α) (rest : List Char) :
    Reads 0 rest (pure (x, rest) : Except SigError (α × List Char)) := by
  refine ⟨by simp [pure, Except.pure], fun y rest' h => ?_⟩
  cases h
  exact Nat.le_refl _

theorem Reads.zero {α : Type} {k : Nat} {r : Except SigError (α × List Char)} (h : Reads k rest r) :
    Reads 0 rest r :=
  ⟨h.1, fun x rest' he => by have := h.2 x rest' he; omega⟩

/-- Going on after a result. -/
theorem Reads.bind {α β : Type} {k : Nat} {r : Except SigError (α × List Char)}
    {f : α × List Char → Except SigError (β × List Char)} (hr : Reads k rest r)
    (hf : ∀ x rest', rest'.length + k ≤ rest.length → Reads 0 rest' (f (x, rest'))) :
    Reads k rest (r >>= f) := by
  cases h : r with
  | error e =>
    refine ⟨fun he => hr.1 ?_, fun x rest' he => ?_⟩
    · cases he
      exact h
    · cases he
  | ok p =>
    have hp := hr.2 p.1 p.2 h
    refine ⟨(hf p.1 p.2 hp).1, fun x rest' he => ?_⟩
    have := (hf p.1 p.2 hp).2 x rest' he
    omega

theorem lambdaSigConsume_length {ch : Char} {rest rest' : List Char}
    (h : lambdaSigConsume ch rest = some rest') : rest'.length + 1 = rest.length := by
  cases rest with
  | nil => cases h
  | cons c cs =>
    by_cases hc : c = ch
    · subst hc
      rw [lambdaSigConsume_self] at h
      cases h
      rfl
    · rw [lambdaSigConsume_ne hc] at h
      cases h

/-- `LambdaSigExpect` takes one character or raises. -/
theorem Reads.expect {β : Type} {ch : Char} {f : List Char → Except SigError (β × List Char)}
    (hf : ∀ rest', rest'.length + 1 = rest.length → Reads 0 rest' (f rest')) :
    Reads 1 rest (lambdaSigExpect key src ch rest >>= f) := by
  unfold lambdaSigExpect
  cases h : lambdaSigConsume ch rest with
  | none => exact reads_parseError _ _ _ _
  | some rest' =>
    have hlen := lambdaSigConsume_length h
    refine ⟨(hf rest' hlen).1, fun x rest'' he => ?_⟩
    have := (hf rest' hlen).2 x rest'' he
    omega

theorem lambdaSigParseOid_reads (rest : List Char) :
    Reads 1 rest (lambdaSigParseOid key src rest) := by
  unfold lambdaSigParseOid
  by_cases hd : rest.head?.any Char.isDigit = true
  · rw [if_pos hd]
    dsimp only
    split
    · exact reads_parseError _ _ _ _
    · refine ⟨by simp, fun x rest' h => ?_⟩
      obtain ⟨_, rfl⟩ := Prod.mk.inj (Except.ok.inj h)
      cases rest with
      | nil => exact absurd hd (by simp)
      | cons c cs =>
        have hc : c.isDigit = true := hd
        rw [List.dropWhile_cons_of_pos hc]
        exact Nat.succ_le_succ (List.dropWhile_suffix _).length_le
  · rw [if_neg hd]
    exact reads_parseError _ _ _ _

theorem orNoArgs_reads {args : Except SigError (List LambdaSigType × List Char)}
    (h : Reads 1 rest args) :
    Reads 1 rest (orNoArgs rest args) := by
  unfold orNoArgs
  cases hc : lambdaSigConsume ')' rest with
  | none => exact h
  | some rest' =>
    refine ⟨by simp, fun x rest'' he => ?_⟩
    cases he
    exact Nat.le_of_eq (lambdaSigConsume_length hc)

/-- The three parsing functions, given three rounds for each character. -/
theorem lambdaSigParse_reads (n : Nat) :
    (∀ rest : List Char, 3 * rest.length + 1 ≤ n →
        Reads 1 rest (lambdaSigParseSignature key src n rest)) ∧
      (∀ rest : List Char, 3 * rest.length + 3 ≤ n →
        Reads 1 rest (lambdaSigParseArgs key src n rest)) ∧
      ∀ rest : List Char, 3 * rest.length + 2 ≤ n →
        Reads 1 rest (lambdaSigParseType key src n rest) := by
  induction n with
  | zero => exact ⟨fun _ h => by omega, fun _ h => by omega, fun _ h => by omega⟩
  | succ n ih =>
    obtain ⟨ihSig, ihArgs, ihType⟩ := ih
    refine ⟨fun rest hn => ?_, fun rest hn => ?_, fun rest hn => ?_⟩
    · rw [lambdaSigParseSignature]
      refine Reads.expect fun rest₁ h₁ => ?_
      refine ((orNoArgs_reads (ihArgs rest₁ (by omega))).bind fun argtypes rest₂ h₂ => ?_).zero
      refine (Reads.expect fun rest₃ h₃ => (Reads.expect fun rest₄ h₄ => ?_).zero).zero
      refine ((ihType rest₄ (by omega)).bind fun rettype rest₅ _ => ?_).zero
      exact reads_pure _ _
    · rw [lambdaSigParseArgs]
      refine (ihType rest (by omega)).bind fun t rest₁ h₁ => ?_
      cases hc : lambdaSigConsume ',' rest₁ with
      | none => exact (Reads.expect fun rest₂ _ => reads_pure _ _).zero
      | some rest₂ =>
        have hlen := lambdaSigConsume_length hc
        have hts : Reads 1 rest₂ (lambdaSigParseArgs key src n rest₂ >>= fun ts =>
            pure (t :: ts.1, ts.2)) :=
          (ihArgs rest₂ (by omega)).bind fun ts rest₃ _ => reads_pure _ _
        exact ⟨hts.1, fun x rest' he => by have := hts.2 x rest' he; omega⟩
    · rw [lambdaSigParseType]
      split
      · refine (ihSig rest (by omega)).bind fun sig rest₁ _ => ?_
        exact reads_pure _ _
      · refine (lambdaSigParseOid_reads rest).bind fun t rest₁ _ => ?_
        exact reads_pure _ _

/-- On every text the parser returns or raises an error of its own. -/
theorem lambdaSigParseSignature_total (key : List Char) (src : Option String) :
    lambdaSigParseSignature key src (3 * key.length + 1) key ≠ .error .outOfFuel :=
  ((lambdaSigParse_reads _).1 key (Nat.le_refl _)).1

end Total

end HolLambdas.Catalog
