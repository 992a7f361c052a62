import LiveMarkup.Decimal.Reading
import LiveMarkup.Text.Search

/-!
Character references in text and attribute values: six names, and code points in decimal or
hexadecimal digits. What is no reference stays as it stands.
-/
namespace LiveMarkup.Markup

/-- The character of a code point, surrogates and numbers beyond the last one excepted. -/
def charOf? (n : Nat) : Option Char :=
  if n.isValidChar then some (Char.ofNat n) else none

/-- The value of a hexadecimal digit. -/
def hexDigit? (c : Char) : Option Nat :=
  let n := c.toNat
  if '0'.toNat ≤ n ∧ n ≤ '9'.toNat then some (n - '0'.toNat)
  else if 'a'.toNat ≤ n ∧ n ≤ 'f'.toNat then some (n - 'a'.toNat + 10)
  else if 'A'.toNat ≤ n ∧ n ≤ 'F'.toNat then some (n - 'A'.toNat + 10)
  else none

/-- The value of hexadecimal digits read after `start`. -/
def hexValue? (start : Nat) : List Char → Option Nat
  | [] => some start
  | c :: rest => (hexDigit? c).bind fun d => hexValue? (16 * start + d) rest

/-- A run of digits that a plus sign may precede. -/
def withoutPlus : List Char → List Char
  | '+' :: rest => rest
  | s => s

/-- A number in decimal digits. -/
def decimalCode? (s : List Char) : Option Nat :=
  let digits := withoutPlus s
  if digits.isEmpty || !digits.all Char.isDigit then none else some (Decimal.digitsValue 0 digits)

/-- A number in hexadecimal digits. -/
def hexCode? (s : List Char) : Option Nat :=
  let digits := withoutPlus s
  if digits.isEmpty then none else hexValue? 0 digits

/-- The character that a reference names, given what stands between its ampersand and its
semicolon. -/
def named? (name : List Char) : Option Char :=
  match name with
  | '#' :: 'x' :: digits | '#' :: 'X' :: digits => (hexCode? digits).bind charOf?
  | '#' :: digits => (decimalCode? digits).bind charOf?
  | _ =>
    if name = "amp".toList then some '&'
    else if name = "lt".toList then some '<'
    else if name = "gt".toList then some '>'
    else if name = "quot".toList then some '\x22'
    else if name = "apos".toList then some '\x27'
    else if name = "nbsp".toList then some (Char.ofNat 0xA0)
    else none

/-- The reference at the start of what follows an ampersand, and what comes after it. A name has at
most nine characters. -/
def reference? (s : List Char) : Option (Char × List Char) :=
  match Text.cut? [';'] s with
  | none => none
  | some (name, after) =>
    if name.length ≤ 9 then (named? name).map fun c => (c, after) else none

theorem length_of_reference? {s after : List Char} {c : Char}
    (h : reference? s = some (c, after)) : after.length < s.length := by
  unfold reference? at h
  split at h
  · simp at h
  · rename_i name rest hcut
    split at h
    · simp only [Option.map_eq_some_iff, Prod.mk.injEq] at h
      obtain ⟨_, _, _, rfl⟩ := h
      have := congrArg List.length (Text.eq_append_of_cut? hcut)
      simp at this
      omega
    · simp at h

/-- The text with its references replaced. -/
def decode (s : List Char) : List Char :=
  match s with
  | [] => []
  | c :: rest =>
    if c = '&' then
      match h : reference? rest with
      | some (c, after) =>
        have := length_of_reference? h
        c :: decode after
      | none => '&' :: decode rest
    else c :: decode rest
termination_by s.length
decreasing_by all_goals simp only [List.length_cons]; omega

end LiveMarkup.Markup
