import LiveMarkup.Decimal.Layout
import LiveMarkup.Decimal.Reading
import LiveMarkup.Text.Blank

/-!
Calendar dates and their text `year-month-day`. Only dates that exist, in the years from -262143 to
262142, are values of the type.
-/
namespace LiveMarkup

/-- The Gregorian rule for leap years. -/
def isLeapYear (year : Int) : Bool :=
  year % 4 == 0 && (year % 100 != 0 || year % 400 == 0)

/-- The length of a month; zero for a month that does not exist. -/
def daysIn (year : Int) (month : Nat) : Nat :=
  match month with
  | 2 => if isLeapYear year then 29 else 28
  | 1 | 3 | 5 | 7 | 8 | 10 | 12 => 31
  | 4 | 6 | 9 | 11 => 30
  | _ => 0

/-- Whether there is such a day in the supported years. -/
def isDate (year : Int) (month day : Nat) : Bool :=
  -262143 ≤ year && year ≤ 262142 && 1 ≤ day && day ≤ daysIn year month

/-- A calendar date. -/
structure Date where
  year : Int
  month : Nat
  day : Nat
  valid : isDate year month day = true
deriving DecidableEq

namespace Date
open Decimal

/-- The date with these parts, if there is one. -/
def of? (year : Int) (month day : Nat) : Option Date :=
  if h : isDate year month day = true then some ⟨year, month, day, h⟩ else none

/-- The year: four digits, and a sign outside the years 0 to 9999. -/
def yearText (year : Int) : List Char :=
  if 0 ≤ year ∧ year ≤ 9999 then padded 4 year.toNat
  else (if year < 0 then '-' else '+') :: padded 4 year.natAbs

/-- The text of a date. -/
def text (d : Date) : String :=
  String.ofList (yearText d.year ++ '-' :: padded 2 d.month ++ '-' :: padded 2 d.day)

/-- Up to `most` digits after blanks, as a number, and the rest. -/
def readDigits? (most : Nat) (s : List Char) : Option (Nat × List Char) :=
  let digits := (s.take most).takeWhile Char.isDigit
  if digits.isEmpty then none else some (digitsValue 0 digits, s.drop digits.length)

/-- A year: up to four digits, or any number of digits after a sign. -/
def readYear? (s : List Char) : Option (Int × List Char) :=
  match Text.trimStart s with
  | '-' :: rest => (readDigits? rest.length rest).map fun (n, rest) => (-n, rest)
  | '+' :: rest => (readDigits? rest.length rest).map fun (n, rest) => (n, rest)
  | rest => (readDigits? 4 rest).map fun (n, rest) => (n, rest)

/-- A hyphen, blanks, and a number of one or two digits. -/
def readPart? : List Char → Option (Nat × List Char)
  | '-' :: rest => readDigits? 2 (Text.trimStart rest)
  | _ => none

/-- Reads a date; the text must hold nothing else, blanks before its numbers apart. -/
def read? (s : List Char) : Option Date :=
  match readYear? s with
  | none => none
  | some (year, rest) =>
    match readPart? rest with
    | none => none
    | some (month, rest) =>
      match readPart? rest with
      | some (day, []) => of? year month day
      | _ => none

end Date
end LiveMarkup
