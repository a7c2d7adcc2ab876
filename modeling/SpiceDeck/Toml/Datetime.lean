import SpiceDeck.Toml.Number

/-!
Dates and times, checked against the calendar.
-/

namespace SpiceDeck
namespace Toml
open Text

/-- A number of exactly `n` digits between two bounds. -/
def field? (n lo hi : Nat) : Reader Nat := fun t =>
  let digits := t.take n
  let value := ofDigits 10 digits
  if digits.length = n && digits.all Char.isDigit && lo ≤ value && value ≤ hi then
    some (value, t.drop n)
  else none

def daysIn (year month : Nat) : Nat :=
  if month = 2 then
    if year % 4 = 0 && (year % 100 != 0 || year % 400 = 0) then 29 else 28
  else if month = 4 || month = 6 || month = 9 || month = 11 then 30
  else 31

def afterDate? (t : Text) : Option Text := do
  let (year, r) ← field? 4 0 9999 t
  let (month, r) ← field? 2 1 12 (← after? ['-'] r)
  let (_, r) ← field? 2 1 (daysIn year month) (← after? ['-'] r)
  return r

def afterMinutes? (t : Text) : Option Text := do
  let (_, r) ← field? 2 0 23 t
  let (_, r) ← field? 2 0 59 (← after? [':'] r)
  return r

def afterTime? (t : Text) : Option Text := do
  let (_, r) ← field? 2 0 60 (← after? [':'] (← afterMinutes? t))
  match r with
  | '.' :: s => if s.head?.any Char.isDigit then return s.dropWhile Char.isDigit else return r
  | _ => return r

/-- What follows the offset of a time, if there is one. -/
def afterOffset : Text → Text
  | [] => []
  | c :: r =>
      if c == 'Z' || c == 'z' then r
      else if c == '+' || c == '-' then (afterMinutes? r).getD (c :: r)
      else c :: r

/-- What follows a date with or without time, or a time. -/
def afterDatetime? (t : Text) : Option Text :=
  match afterDate? t with
  | some [] => some []
  | some (c :: r) =>
      if c == 'T' || c == 't' || c == ' ' then
        match afterTime? r with
        | some rest => some (afterOffset rest)
        | none => some (c :: r)
      else some (c :: r)
  | none => afterTime? t

end Toml
end SpiceDeck
