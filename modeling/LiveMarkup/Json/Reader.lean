import LiveMarkup.Json.Basic
import LiveMarkup.Markup.Reference

/-!
Reading JSON. The reader accepts the grammar of the standard and nothing else. A text whose escapes
name half a surrogate pair is read as `none`: it is well formed, but no string.
-/
namespace LiveMarkup.Json

/-- The blanks between the parts of a document. -/
def skipBlanks (s : List Char) : List Char :=
  s.dropWhile fun c => c == ' ' || c == '\n' || c == '\t' || c == '\r'

/-- The value of four hexadecimal digits, and what comes after them. -/
def readHex? : List Char → Option (Nat × List Char)
  | a :: b :: c :: d :: rest => (Markup.hexValue? 0 [a, b, c, d]).map fun n => (n, rest)
  | _ => none

/-- The character of a one-letter escape. -/
def escaped? (c : Char) : Option Char :=
  if c = '\x22' ∨ c = '\\' ∨ c = '/' then some c
  else if c = 'b' then some '\x08'
  else if c = 'f' then some '\x0c'
  else if c = 'n' then some '\n'
  else if c = 'r' then some '\r'
  else if c = 't' then some '\t'
  else none

/-- A unit of a text: a character, or the code of an escape. -/
inductive Unit16 where
  | char (c : Char)
  | code (n : Nat)

/-- The units of a text up to its closing quote, and what comes after that. -/
def readUnits? : Nat → List Char → Option (List Unit16 × List Char)
  | 0, _ => none
  | fuel + 1, s =>
    match s with
    | [] => none
    | '\x22' :: rest => some ([], rest)
    | '\\' :: 'u' :: rest =>
      (readHex? rest).bind fun (n, rest) =>
        (readUnits? fuel rest).map fun (units, after) => (.code n :: units, after)
    | '\\' :: c :: rest =>
      (escaped? c).bind fun e =>
        (readUnits? fuel rest).map fun (units, after) => (.char e :: units, after)
    | c :: rest =>
      if c.toNat < 0x20 ∨ c = '\\' then none
      else (readUnits? fuel rest).map fun (units, after) => (.char c :: units, after)

/-- The characters of the units; escapes outside the basic plane come in pairs. -/
def joinUnits? : List Unit16 → Option (List Char)
  | [] => some []
  | .char c :: rest => (joinUnits? rest).map (c :: ·)
  | .code high :: .code low :: rest =>
    if 0xD800 ≤ high ∧ high < 0xDC00 then
      if 0xDC00 ≤ low ∧ low < 0xE000 then
        (joinUnits? rest).map
          (Char.ofNat (0x10000 + (high - 0xD800) * 0x400 + (low - 0xDC00)) :: ·)
      else none
    else if 0xDC00 ≤ high ∧ high < 0xE000 then none
    else (joinUnits? (.code low :: rest)).map (Char.ofNat high :: ·)
  | .code n :: rest =>
    if 0xD800 ≤ n ∧ n < 0xE000 then none
    else (joinUnits? rest).map (Char.ofNat n :: ·)

/-- A text after its opening quote. -/
def readText? (s : List Char) : Option (Option String × List Char) :=
  (readUnits? (s.length + 1) s).map fun (units, rest) =>
    ((joinUnits? units).map String.ofList, rest)

/-- Drops the fraction of a number, if it has one. -/
def readFraction? : List Char → Option (Bool × List Char)
  | '.' :: rest =>
    let digits := rest.takeWhile Char.isDigit
    if digits.isEmpty then none else some (true, rest.drop digits.length)
  | s => some (false, s)

/-- Drops the exponent of a number, if it has one. -/
def readExponent? (s : List Char) : Option (Bool × List Char) :=
  match s with
  | c :: rest =>
    if c = 'e' ∨ c = 'E' then
      let rest :=
        match rest with
        | '+' :: rest | '-' :: rest => rest
        | rest => rest
      let digits := rest.takeWhile Char.isDigit
      if digits.isEmpty then none else some (true, rest.drop digits.length)
    else some (false, s)
  | [] => some (false, [])

/-- A number. -/
def readNumber? {σ : Type} (s : List Char) : Option (Json σ × List Char) :=
  let negative := s.head? == some '-'
  let s := if negative then s.drop 1 else s
  let digits := s.takeWhile Char.isDigit
  if digits.isEmpty || (digits.head? == some '0' && digits.length != 1) then none
  else
    (readFraction? (s.drop digits.length)).bind fun (fraction, rest) =>
      (readExponent? rest).map fun (exponent, rest) =>
        (if negative || fraction || exponent then .number
         else .natural (Decimal.digitsValue 0 digits), rest)

/-- A word that stands for a value. -/
def readWord? {σ : Type} (s : List Char) : Option (Json σ × List Char) :=
  if "null".toList.isPrefixOf s then some (.null, s.drop 4)
  else if "true".toList.isPrefixOf s then some (.bool true, s.drop 4)
  else if "false".toList.isPrefixOf s then some (.bool false, s.drop 5)
  else none

mutual

/-- A value; every nested part takes one unit of fuel. -/
def readValue? : Nat → List Char → Option (Json (Option String) × List Char)
  | 0, _ => none
  | fuel + 1, s =>
    match skipBlanks s with
    | '\x22' :: rest => (readText? rest).map fun (t, rest) => (.text t, rest)
    | '[' :: rest =>
      match skipBlanks rest with
      | ']' :: rest => some (.array [], rest)
      | rest => (readItems? fuel rest).map fun (items, rest) => (.array items, rest)
    | '\x7b' :: rest =>
      match skipBlanks rest with
      | '\x7d' :: rest => some (.object [], rest)
      | rest => (readMembers? fuel rest).map fun (members, rest) => (.object members, rest)
    | rest => readWord? rest <|> readNumber? rest

/-- The items of an array that is not empty, up to its end. -/
def readItems? : Nat → List Char → Option (List (Json (Option String)) × List Char)
  | 0, _ => none
  | fuel + 1, s =>
    (readValue? fuel s).bind fun (item, rest) =>
      match skipBlanks rest with
      | ']' :: rest => some ([item], rest)
      | ',' :: rest => (readItems? fuel rest).map fun (items, rest) => (item :: items, rest)
      | _ => none

/-- The members of an object that is not empty, up to its end. -/
def readMembers? :
    Nat → List Char → Option (List (Option String × Json (Option String)) × List Char)
  | 0, _ => none
  | fuel + 1, s =>
    match skipBlanks s with
    | '\x22' :: rest =>
      (readText? rest).bind fun (key, rest) =>
        match skipBlanks rest with
        | ':' :: rest =>
          (readValue? fuel rest).bind fun (value, rest) =>
            match skipBlanks rest with
            | '\x7d' :: rest => some ([(key, value)], rest)
            | ',' :: rest =>
              (readMembers? fuel rest).map fun (members, rest) => ((key, value) :: members, rest)
            | _ => none
        | _ => none
    | _ => none

end

/-- Reads a whole document. -/
def read? (s : String) : Option (Json (Option String)) :=
  let chars := s.toList
  match readValue? (2 * chars.length + 2) chars with
  | some (value, rest) => if (skipBlanks rest).isEmpty then some value else none
  | none => none

end LiveMarkup.Json
