import LiveMarkup.Json.Basic

/-!
Writing JSON over several lines, with two blanks of indentation for each level.
-/
namespace LiveMarkup.Json

/-- The written form of a character of a text. -/
def escapeChar (c : Char) : List Char :=
  if c = '\x22' ∨ c = '\\' then ['\\', c]
  else if c = '\n' then ['\\', 'n']
  else if c = '\r' then ['\\', 'r']
  else if c = '\t' then ['\\', 't']
  else if c = '\x08' then ['\\', 'b']
  else if c = '\x0c' then ['\\', 'f']
  else if c.toNat < 0x20 then
    let digits := Nat.toDigits 16 c.toNat
    ['\\', 'u'] ++ List.replicate (4 - digits.length) '0' ++ digits
  else [c]

/-- A text in quotes. -/
def printText (s : String) : String :=
  String.ofList ('\x22' :: s.toList.flatMap escapeChar ++ ['\x22'])

/-- The start of a line at a depth. -/
def newline (depth : Nat) : String :=
  String.ofList ('\n' :: List.replicate (2 * depth) ' ')

/-- Parts between two brackets, each on a line of its own. -/
def bracketed (opening closing : Char) (depth : Nat) (parts : List String) : String :=
  if parts.isEmpty then String.ofList [opening, closing]
  else
    String.singleton opening ++ newline (depth + 1) ++
      ("," ++ newline (depth + 1)).intercalate parts ++ newline depth ++ String.singleton closing

mutual

/-- The text of a document whose first line is already indented to `depth`. -/
def print (depth : Nat) : Json String → String
  | .null => "null"
  | .bool b => if b then "true" else "false"
  | .natural n => toString n
  | .number => "0"
  | .text s => printText s
  | .array items => bracketed '[' ']' depth (printItems (depth + 1) items)
  | .object members => bracketed '\x7b' '\x7d' depth (printMembers (depth + 1) members)

/-- The texts of the items of an array. -/
def printItems (depth : Nat) : List (Json String) → List String
  | [] => []
  | item :: rest => item.print depth :: printItems depth rest

/-- The texts of the members of an object. -/
def printMembers (depth : Nat) : List (String × Json String) → List String
  | [] => []
  | (key, value) :: rest => (printText key ++ ": " ++ value.print depth) :: printMembers depth rest

end

end LiveMarkup.Json
