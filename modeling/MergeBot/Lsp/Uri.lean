import Mathlib.Data.List.Basic

/-!
# URIs

A URI is printed with its components percent-encoded and parsed by cutting the text at the
first colon, at a double slash and at the next slash. `URI.parse_toString`: what is printed
is parsed to the same URI. `URI.parse_returns_iff`: a text with an authority that no slash
follows makes the parser throw, and no other text does.
-/

namespace MergeBot

abbrev Bytes := List UInt8

/-- The code of a character in a string literal. -/
def byte (c : Char) : UInt8 := c.toUInt8

/-! ## Hexadecimal digits -/

/-- The value of a hexadecimal digit, or `-1U`. -/
def hexDigitValue (c : UInt8) : UInt32 :=
  if byte '0' ≤ c ∧ c ≤ byte '9' then (c - byte '0').toUInt32
  else if byte 'A' ≤ c ∧ c ≤ byte 'F' then (c - byte 'A' + 10).toUInt32
  else if byte 'a' ≤ c ∧ c ≤ byte 'f' then (c - byte 'a' + 10).toUInt32
  else 4294967295

/-- The digit for a number less than 16. -/
def hexdigit (x : Nat) (lowerCase : Bool := false) : UInt8 :=
  ("0123456789ABCDEF".toList.map byte).getD x 0 ||| if lowerCase then 32 else 0

def isHexDigit (c : UInt8) : Bool :=
  hexDigitValue c ≠ 4294967295

def tryGetHexFromNibbles (msb lsb : UInt8) : Option UInt8 :=
  let u1 := hexDigitValue msb
  let u2 := hexDigitValue lsb
  if u1 = 4294967295 ∨ u2 = 4294967295 then none else some (u1 <<< 4 ||| u2).toUInt8

def hexFromNibbles (msb lsb : UInt8) : UInt8 :=
  (tryGetHexFromNibbles msb lsb).getD 0

/-! ## Percent-encoding -/

def isalpha (c : UInt8) : Bool :=
  (byte 'a' ≤ c ∧ c ≤ byte 'z') ∨ (byte 'A' ≤ c ∧ c ≤ byte 'Z')

def isalnum (c : UInt8) : Bool :=
  isalpha c || (byte '0' ≤ c ∧ c ≤ byte '9')

/-- All but the unreserved characters, slashes and colons. -/
def shouldEscape (ch : UInt8) : Bool :=
  !isalnum ch && ch ∉ ['-', '_', '.', '~', '/', ':'].map byte

def percentEncode (content : Bytes) : Bytes :=
  content.flatMap fun c =>
    if shouldEscape c then
      [byte '%', hexdigit (c.toNat / 16), hexdigit (c.toNat % 16)]
    else [c]

/-- A percent sign in front of fewer than two digits stands for itself. -/
def percentDecode : Bytes → Bytes
  | c :: msb :: lsb :: rest =>
      if c = byte '%' ∧ isHexDigit msb ∧ isHexDigit lsb then
        hexFromNibbles msb lsb :: percentDecode rest
      else c :: percentDecode (msb :: lsb :: rest)
  | content => content

def isValidScheme : Bytes → Bool
  | [] => false
  | first :: rest =>
      isalpha first && rest.all fun c => isalnum c || c ∈ ['+', '.', '-'].map byte

/-! ## URIs -/

structure URI where
  scheme : Bytes
  authority : Bytes
  body : Bytes
deriving DecidableEq, Repr

def startsWith (str front : Bytes) : Bool :=
  front.isPrefixOf str

/-- What the constructor asserts. -/
def URI.Constructible (uri : URI) : Prop :=
  uri.scheme ≠ [] ∧ (uri.authority = [] ∨ startsWith uri.body [byte '/'] = true)

def URI.toString (uri : URI) : Bytes :=
  let out := percentEncode uri.scheme ++ [byte ':']
  if uri.authority.isEmpty && uri.body.isEmpty then out
  else
    let out :=
      if !uri.authority.isEmpty || startsWith uri.body [byte '/'] then
        out ++ [byte '/', byte '/'] ++ percentEncode uri.authority
      else out
    out ++ percentEncode uri.body

/-- A start position beyond the string. -/
inductive OutOfRange where
  | substr
deriving DecidableEq, Repr

/-- `substr` from a position on; `none` is `npos`, which is beyond every string. -/
def substr (str : Bytes) : Option Nat → Except OutOfRange Bytes
  | some pos => if pos ≤ str.length then .ok (str.drop pos) else .error .substr
  | none => .error .substr

/-- The position of a character. -/
def findByte (c : UInt8) (str : Bytes) : Option Nat :=
  str.findIdx? fun other => other = c

/-- The parser behind the colon of the scheme. -/
def URI.parseRest (scheme uri : Bytes) : Except OutOfRange URI := do
  if startsWith uri [byte '/', byte '/'] then
    let uri ← substr uri (some 2)
    let pos := findByte (byte '/') uri
    let authority := percentDecode (pos.elim uri uri.take)
    let uri ← substr uri pos
    return { scheme := scheme, authority := authority, body := percentDecode uri }
  else return { scheme := scheme, authority := [], body := percentDecode uri }

def URI.parse (origUri : Bytes) : Except OutOfRange (Option URI) := do
  match findByte (byte ':') origUri with
  | none => return none
  | some pos =>
      let scheme := percentDecode (origUri.take pos)
      if !isValidScheme scheme then return none
      else
        let uri ← substr origUri (some (pos + 1))
        return some (← URI.parseRest scheme uri)

/-! ## Decoding what was encoded -/

/-- The digits of a byte are read back. -/
theorem hexdigits_spec (c : UInt8) :
    isHexDigit (hexdigit (c.toNat / 16)) = true ∧ isHexDigit (hexdigit (c.toNat % 16)) = true ∧
      hexFromNibbles (hexdigit (c.toNat / 16)) (hexdigit (c.toNat % 16)) = c := by
  have all : ∀ n : Fin 256, isHexDigit (hexdigit (n.val / 16)) = true ∧
      isHexDigit (hexdigit (n.val % 16)) = true ∧
        hexFromNibbles (hexdigit (n.val / 16)) (hexdigit (n.val % 16)) = UInt8.ofNat n.val := by
    decide +kernel
  have own := all ⟨c.toNat, c.toNat_lt⟩
  rwa [UInt8.ofNat_toNat] at own

theorem percentDecode_cons {c : UInt8} (plain : c ≠ byte '%') (rest : Bytes) :
    percentDecode (c :: rest) = c :: percentDecode rest := by
  match rest with
  | [] | [_] => rfl
  | _ :: _ :: _ => rw [percentDecode, if_neg fun escaped => plain escaped.1]

@[simp]
theorem percentEncode_nil : percentEncode [] = [] := rfl

theorem percentEncode_cons_of_escape {c : UInt8} (escape : shouldEscape c = true)
    (content : Bytes) : percentEncode (c :: content) =
      byte '%' :: hexdigit (c.toNat / 16) :: hexdigit (c.toNat % 16) :: percentEncode content := by
  simp [percentEncode, escape]

theorem percentEncode_cons_of_plain {c : UInt8} (plain : shouldEscape c = false)
    (content : Bytes) : percentEncode (c :: content) = c :: percentEncode content := by
  simp [percentEncode, plain]

/-- Decoding undoes encoding, on every byte string. -/
theorem percentDecode_percentEncode (content : Bytes) :
    percentDecode (percentEncode content) = content := by
  induction content with
  | nil => rfl
  | cons c content inductionHypothesis =>
      cases escape : shouldEscape c with
      | true =>
          obtain ⟨high, low, value⟩ := hexdigits_spec c
          rw [percentEncode_cons_of_escape escape, percentDecode, if_pos ⟨rfl, high, low⟩, value,
            inductionHypothesis]
      | false =>
          have plain : c ≠ byte '%' := by
            rintro rfl
            exact absurd escape (by decide)
          rw [percentEncode_cons_of_plain escape, percentDecode_cons plain, inductionHypothesis]

/-- A byte that no escape is made of is encoded only where it stands. -/
theorem mem_of_mem_percentEncode {c : UInt8} (noPercent : c ≠ byte '%')
    (noDigit : isHexDigit c = false) {content : Bytes} (member : c ∈ percentEncode content) :
    c ∈ content := by
  have notHex {other : UInt8} (digit : isHexDigit other = true) : c ≠ other := by
    rintro rfl
    simp [noDigit] at digit
  obtain ⟨own, inContent, inCode⟩ := List.mem_flatMap.mp member
  obtain ⟨high, low, -⟩ := hexdigits_spec own
  split at inCode
  · simp [noPercent, notHex high, notHex low] at inCode
  · rwa [List.mem_singleton.mp inCode]

/-! ## Cutting a text -/

theorem findByte_append {c : UInt8} {front : Bytes} (fresh : c ∉ front) (back : Bytes) :
    findByte c (front ++ c :: back) = some front.length := by
  have none_ : front.findIdx? (fun other => other = c) = none := by
    rw [List.findIdx?_eq_none_iff]
    intro other member
    simpa using fun same : other = c => fresh (same ▸ member)
  simp [findByte, List.findIdx?_append, none_, List.findIdx?_cons]

theorem findByte_of_fresh {c : UInt8} {str : Bytes} (fresh : c ∉ str) : findByte c str = none := by
  rw [findByte, List.findIdx?_eq_none_iff]
  intro other member
  simpa using fun same : other = c => fresh (same ▸ member)

/-- There is one way to cut a text at the first place of a byte. -/
theorem cut_unique {c : UInt8} {front other back rest : Bytes} (fresh : c ∉ front)
    (otherFresh : c ∉ other) (same : front ++ c :: back = other ++ c :: rest) :
    front = other ∧ back = rest := by
  have position := findByte_append fresh back
  rw [same, findByte_append otherFresh, Option.some_inj] at position
  obtain ⟨fronts, backs⟩ := List.append_inj same position.symm
  exact ⟨fronts, (List.cons.inj backs).2⟩

theorem substr_append (front back : Bytes) :
    substr (front ++ back) (some front.length) = .ok back := by
  simp [substr]

namespace URI

/-- Without a colon there is no scheme. -/
theorem parse_of_fresh {origUri : Bytes} (fresh : byte ':' ∉ origUri) :
    parse origUri = .ok none := by
  rw [parse, findByte_of_fresh fresh]
  rfl

/-- The text is cut at the first colon. -/
theorem parse_colon {front : Bytes} (fresh : byte ':' ∉ front) (rest : Bytes) :
    parse (front ++ byte ':' :: rest) =
      if isValidScheme (percentDecode front) then
        (parseRest (percentDecode front) rest).map some
      else .ok none := by
  have behind : substr (front ++ byte ':' :: rest) (some (front.length + 1)) = .ok rest := by
    have cut := substr_append (front ++ [byte ':']) rest
    rwa [List.append_assoc, List.singleton_append, List.length_append, List.length_singleton]
      at cut
  rw [parse, findByte_append fresh]
  simp only [List.take_left, behind, bind, Except.bind]
  cases isValidScheme (percentDecode front)
  · rfl
  · cases parseRest (percentDecode front) rest <;> rfl

/-- Without a double slash there is no authority. -/
theorem parseRest_path {uri : Bytes} (path : startsWith uri [byte '/', byte '/'] = false)
    (scheme : Bytes) : parseRest scheme uri = .ok ⟨scheme, [], percentDecode uri⟩ := by
  rw [parseRest, path]
  rfl

/-- The authority goes up to the next slash. -/
theorem parseRest_authority {authority : Bytes} (fresh : byte '/' ∉ authority)
    (scheme rest : Bytes) :
    parseRest scheme ([byte '/', byte '/'] ++ (authority ++ byte '/' :: rest)) =
      .ok ⟨scheme, percentDecode authority, percentDecode (byte '/' :: rest)⟩ := by
  have double : startsWith ([byte '/', byte '/'] ++ (authority ++ byte '/' :: rest))
      [byte '/', byte '/'] = true := by
    simp [startsWith]
  have behind : substr ([byte '/', byte '/'] ++ (authority ++ byte '/' :: rest)) (some 2) =
      .ok (authority ++ byte '/' :: rest) :=
    substr_append [byte '/', byte '/'] _
  rw [parseRest, if_pos double, behind]
  simp only [bind, Except.bind, findByte_append fresh, Option.elim_some, List.take_left,
    substr_append]
  rfl

/-- An authority that no slash follows makes the parser throw. -/
theorem parseRest_throws {authority : Bytes} (fresh : byte '/' ∉ authority) (scheme : Bytes) :
    parseRest scheme ([byte '/', byte '/'] ++ authority) = .error .substr := by
  have double : startsWith ([byte '/', byte '/'] ++ authority) [byte '/', byte '/'] = true := by
    simp [startsWith]
  have behind : substr ([byte '/', byte '/'] ++ authority) (some 2) = .ok authority :=
    substr_append [byte '/', byte '/'] authority
  rw [parseRest, if_pos double, behind]
  simp only [bind, Except.bind, findByte_of_fresh fresh]
  rfl

/-- A text that begins with a double slash throws unless a slash follows. -/
theorem parseRest_returns_iff (scheme uri : Bytes) :
    (∃ result, parseRest scheme uri = .ok result) ↔
      ∀ rest, uri = [byte '/', byte '/'] ++ rest → byte '/' ∈ rest := by
  cases double : startsWith uri [byte '/', byte '/'] with
  | false =>
      refine iff_of_true ⟨_, parseRest_path double scheme⟩ fun rest split => ?_
      simp [split, startsWith] at double
  | true =>
      obtain ⟨rest, rfl⟩ := List.isPrefixOf_iff_prefix.mp double
      by_cases slash : byte '/' ∈ rest
      · obtain ⟨authority, body, rfl, fresh⟩ := List.eq_append_cons_of_mem slash
        refine iff_of_true ⟨_, parseRest_authority fresh scheme body⟩ fun other same => ?_
        rwa [← List.append_cancel_left same]
      · refine iff_of_false ?_ fun all => slash (all rest rfl)
        rintro ⟨result, returns⟩
        rw [parseRest_throws slash] at returns
        cases returns

/-- The parser returns exactly for the texts that have no valid scheme, no authority, or a slash
behind the authority. -/
theorem parse_returns_iff (origUri : Bytes) :
    (∃ result, parse origUri = .ok result) ↔
      ∀ front rest, origUri = front ++ byte ':' :: ([byte '/', byte '/'] ++ rest) →
        byte ':' ∉ front → isValidScheme (percentDecode front) = true → byte '/' ∈ rest := by
  by_cases colon : byte ':' ∈ origUri
  · obtain ⟨front, uri, rfl, fresh⟩ := List.eq_append_cons_of_mem colon
    rw [parse_colon fresh]
    cases valid : isValidScheme (percentDecode front) with
    | false =>
        refine iff_of_true ⟨none, rfl⟩ fun other rest split otherFresh otherValid => ?_
        obtain ⟨rfl, -⟩ := cut_unique fresh otherFresh split
        exact absurd valid (by simp [otherValid])
    | true =>
        have returns : (∃ result, (parseRest (percentDecode front) uri).map some = .ok result) ↔
            ∃ result, parseRest (percentDecode front) uri = .ok result := by
          cases parseRest (percentDecode front) uri <;> simp [Except.map]
        rw [if_pos rfl, returns, parseRest_returns_iff]
        constructor
        · intro slash other rest split otherFresh _
          exact slash rest (cut_unique fresh otherFresh split).2
        · rintro slash rest rfl
          exact slash front rest rfl fresh valid
  · refine iff_of_true ⟨_, parse_of_fresh colon⟩ fun front rest split => ?_
    simp [split] at colon

/-- An authority without a path is no malformed text for the parser. -/
theorem parse_throws : ¬ ∀ origUri, ∃ result, parse origUri = .ok result := by
  intro returns
  obtain ⟨result, found⟩ := returns ("file://server".toList.map byte)
  have thrown : parse ("file://server".toList.map byte) = .error .substr := by decide +kernel
  rw [thrown] at found
  cases found

/-- What is parsed meets the assertions of the constructor, which the parser does not call. -/
theorem constructible_of_parse {origUri : Bytes} {uri : URI}
    (parsed : parse origUri = .ok (some uri)) :
    uri.Constructible ∧ isValidScheme uri.scheme = true := by
  by_cases colon : byte ':' ∈ origUri
  · obtain ⟨front, rest, rfl, fresh⟩ := List.eq_append_cons_of_mem colon
    rw [parse_colon fresh] at parsed
    split at parsed
    · rename_i valid
      have nonempty : percentDecode front ≠ [] := by
        intro empty
        simp [empty, isValidScheme] at valid
      cases double : startsWith rest [byte '/', byte '/'] with
      | false =>
          rw [parseRest_path double] at parsed
          cases parsed
          exact ⟨⟨nonempty, .inl rfl⟩, valid⟩
      | true =>
          obtain ⟨rest, rfl⟩ := List.isPrefixOf_iff_prefix.mp double
          by_cases slash : byte '/' ∈ rest
          · obtain ⟨authority, body, rfl, slashFree⟩ := List.eq_append_cons_of_mem slash
            rw [parseRest_authority slashFree] at parsed
            cases parsed
            refine ⟨⟨nonempty, .inr ?_⟩, valid⟩
            rw [percentDecode_cons (by decide)]
            simp [startsWith]
          · rw [parseRest_throws slash] at parsed
            cases parsed
    · cases parsed
  · rw [parse_of_fresh colon] at parsed
    cases parsed

/-! ## The round trip -/

/-- A scheme has no colon. -/
theorem colon_not_mem_of_isValidScheme {scheme : Bytes} (valid : isValidScheme scheme = true) :
    byte ':' ∉ scheme := by
  intro member
  cases scheme with
  | nil => simp at member
  | cons first rest =>
      obtain ⟨letter, others⟩ : isalpha first = true ∧ _ := Bool.and_eq_true _ _ ▸ valid
      rcases List.mem_cons.mp member with isFirst | inRest
      · exact absurd (isFirst ▸ letter) (by decide)
      · exact absurd (List.all_eq_true.mp others _ inRest) (by decide)

theorem startsWith_slash {body : Bytes} (rooted : startsWith body [byte '/'] = true) :
    ∃ rest, body = byte '/' :: rest ∧
      percentEncode body = byte '/' :: percentEncode rest := by
  obtain ⟨rest, rfl⟩ := List.isPrefixOf_iff_prefix.mp rooted
  exact ⟨rest, rfl, percentEncode_cons_of_plain (by decide) rest⟩

theorem startsWith_cons {c first : UInt8} (differs : c ≠ first) (rest more : Bytes) :
    startsWith (c :: rest) (first :: more) = false := by
  simp [startsWith, List.isPrefixOf, Ne.symm differs]

/-- A body that does not begin with a slash is not taken for an authority. -/
theorem startsWith_percentEncode {body : Bytes} (relative : startsWith body [byte '/'] = false) :
    startsWith (percentEncode body) [byte '/', byte '/'] = false := by
  cases body with
  | nil => rfl
  | cons c rest =>
      have noSlash : c ≠ byte '/' := by
        rintro rfl
        simp [startsWith] at relative
      cases escape : shouldEscape c with
      | true =>
          rw [percentEncode_cons_of_escape escape]
          exact startsWith_cons (by decide) _ _
      | false =>
          rw [percentEncode_cons_of_plain escape]
          exact startsWith_cons noSlash _ _

/-- What is printed is parsed to the same URI, and decoding undoes encoding. -/
theorem parse_toString :
    (∀ uri : URI, uri.Constructible → isValidScheme uri.scheme = true →
      byte '/' ∉ uri.authority → parse uri.toString = .ok (some uri)) ∧
    ∀ content, percentDecode (percentEncode content) = content := by
  refine ⟨fun uri constructible valid noSlash => ?_, percentDecode_percentEncode⟩
  obtain ⟨scheme, authority, body⟩ := uri
  have noColon : byte ':' ∉ percentEncode scheme := fun member =>
    colon_not_mem_of_isValidScheme valid
      (mem_of_mem_percentEncode (by decide) (by decide) member)
  have slashFree : byte '/' ∉ percentEncode authority := fun member =>
    noSlash (mem_of_mem_percentEncode (by decide) (by decide) member)
  have reads (rest : Bytes)
      (parsed : parseRest scheme rest = .ok ⟨scheme, authority, body⟩) :
      parse (percentEncode scheme ++ byte ':' :: rest) = .ok (some ⟨scheme, authority, body⟩) := by
    rw [parse_colon noColon, percentDecode_percentEncode, if_pos valid, parsed]
    rfl
  cases rooted : startsWith body [byte '/'] with
  | true =>
      obtain ⟨rest, rfl, encoded⟩ := startsWith_slash rooted
      have printed : toString ⟨scheme, authority, byte '/' :: rest⟩ = percentEncode scheme ++
          byte ':' :: ([byte '/', byte '/'] ++
            (percentEncode authority ++ byte '/' :: percentEncode rest)) := by
        simp [toString, rooted, encoded]
      rw [printed]
      apply reads _
      rw [parseRest_authority slashFree, ← encoded, percentDecode_percentEncode,
        percentDecode_percentEncode]
  | false =>
      obtain rfl : authority = [] := constructible.2.resolve_right (by simp [rooted])
      have printed : toString ⟨scheme, [], body⟩ =
          percentEncode scheme ++ byte ':' :: percentEncode body := by
        cases body with
        | nil => rfl
        | cons c rest => simp [toString, rooted]
      rw [printed]
      apply reads _
      rw [parseRest_path (startsWith_percentEncode rooted), percentDecode_percentEncode]

/-- The URI of a file on a server, with a space and a percent sign. -/
theorem parse_toString_file :
    parse (toString ⟨"file".toList.map byte, "my server".toList.map byte,
        "//a%20 b".toList.map byte⟩) =
      .ok (some ⟨"file".toList.map byte, "my server".toList.map byte,
        "//a%20 b".toList.map byte⟩) :=
  parse_toString.1 _ ⟨by decide, .inr (by decide)⟩ (by decide) (by decide)

end URI

end MergeBot
