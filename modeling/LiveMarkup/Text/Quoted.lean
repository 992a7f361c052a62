import LiveMarkup.Text.Graphic

/-!
Quoted text for diagnostics: the text between two marks, with the mark, the backslash and
everything that is not graphic written as an escape.
-/
namespace LiveMarkup.Text

/-- The escape of one character inside a text quoted with `mark`. -/
def escapeIn (mark : Char) (c : Char) : List Char :=
  if c = Char.ofNat 0 then ['\\', '0']
  else if c = '\t' then ['\\', 't']
  else if c = '\r' then ['\\', 'r']
  else if c = '\n' then ['\\', 'n']
  else if c = mark ∨ c = '\\' then ['\\', c]
  else if isGraphic c then [c]
  else ['\\', 'u', Char.ofNat 0x7B] ++ Nat.toDigits 16 c.toNat ++ [Char.ofNat 0x7D]

/-- The text between two `mark`s. -/
def quoteWith (mark : Char) (s : List Char) : List Char :=
  mark :: s.flatMap (escapeIn mark) ++ [mark]

/-- A string in double quotes. -/
def quoted (s : String) : String :=
  String.ofList (quoteWith '"' s.toList)

/-- A character in single quotes. -/
def quotedChar (c : Char) : String :=
  String.ofList (quoteWith (Char.ofNat 0x27) [c])

end LiveMarkup.Text
