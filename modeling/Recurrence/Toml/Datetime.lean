import Recurrence.Toml.Value
import Recurrence.Text.Digits

namespace Recurrence.Toml
open Text

def daysIn (year month : Nat) : Nat :=
  if month = 2 then if year % 4 = 0 ∧ (year % 100 ≠ 0 ∨ year % 400 = 0) then 29 else 28
  else if month = 4 ∨ month = 6 ∨ month = 9 ∨ month = 11 then 30 else 31

-- Two digits within bounds, and their text.
def pairWithin (low high : Nat) (text : List Char) : Option (Nat × List Char) := do
  let (n,rest) ← twoDigits text
  if low ≤ n ∧ n ≤ high then some (n,rest) else none

def expect (c : Char) : List Char → Option (List Char)
  | d :: rest => if d == c then some rest else none
  | [] => none

def date : Reader String := fun text => do
  let (century,rest) ← twoDigits text
  let (year,rest) ← twoDigits rest
  let (month,rest) ← pairWithin 1 12 (← expect '-' rest)
  let (day,rest) ← pairWithin 1 (daysIn (century * 100 + year) month) (← expect '-' rest)
  return (padded 2 century ++ padded 2 year ++ "-" ++ padded 2 month ++ "-" ++ padded 2 day,rest)

-- Parts of a second are kept to nine places, without zeros at the end.
def fractionText (digits : List Char) : String :=
  let kept := ((digits.take 9).reverse.dropWhile (· == '0')).reverse
  if kept.isEmpty then "" else String.ofList ('.' :: kept)

-- How far times and offsets may go. A document stays within the day; a text that is read as a point
-- in time later may go on to the hour 24, and its offset may be any that is no longer than a day.
structure Range where
  lastHour : Nat
  isOffset : Nat → Nat → Bool

def Range.strict : Range := ⟨23,fun hours minutes => hours ≤ 23 && minutes ≤ 59⟩
def Range.loose : Range := ⟨24,fun hours minutes => hours * 60 + minutes ≤ 1440⟩

def time (range : Range) : Reader String := fun text => do
  let (hour,rest) ← pairWithin 0 range.lastHour text
  let (minute,rest) ← pairWithin 0 59 (← expect ':' rest)
  let (second,rest) ← pairWithin 0 60 (← expect ':' rest)
  let clock := padded 2 hour ++ ":" ++ padded 2 minute ++ ":" ++ padded 2 second
  match rest with
  | '.' :: rest =>
    let digits := rest.takeWhile Char.isDigit
    if digits.isEmpty then none else some (clock ++ fractionText digits,rest.dropWhile Char.isDigit)
  | rest => some (clock,rest)

-- The offset from UTC behind a time, or nothing.
def zone (range : Range) : Reader String
  | [] => some ("",[])
  | c :: rest =>
    if c == 'Z' || c == 'z' then some ("Z",rest)
    else if c == '+' || c == '-' then do
      let (hours,rest) ← twoDigits rest
      let (minutes,rest) ← twoDigits (← expect ':' rest)
      let total := hours * 60 + minutes
      let sign := if c == '-' && total != 0 then "-" else "+"
      if range.isOffset hours minutes then
        some (sign ++ padded 2 (total / 60) ++ ":" ++ padded 2 (total % 60),rest)
      else none
    else some ("",c :: rest)

-- The time that may follow a date, after the letter `T` or one space.
def timeAfter (range : Range) : Reader String
  | c :: rest =>
    if c == 'T' || c == 't' || c == ' ' then do
      let (clock,rest) ← time range rest
      let (offset,rest) ← zone range rest
      return ("T" ++ clock ++ offset,rest)
    else none
  | [] => none

def datetime : Reader Value := fun text => do
  let (day,rest) ← date text
  match timeAfter .strict rest with
  | some (clock,rest) => return (.datetime (day ++ clock),rest)
  | none => return (.datetime day,rest)

def toEnd (found : Option (String × List Char)) : Option String :=
  match found with
  | some (text,[]) => some text
  | _ => none

-- A text that is a point in time from end to end.
def datetimeText? (text : List Char) : Option String :=
  if text[2]? == some ':' then toEnd (time .loose text)
  else match date text with
  | some (day,[]) => some day
  | some (day,rest) => (toEnd (timeAfter .loose rest)).map (day ++ ·)
  | none => none

-- The reserved key under which a table holds a point in time as text. It counts only where it is the
-- first key; the table then is that point in time, and whatever else is in it says nothing.
def datetimeKey : String := "$__toml_private_datetime"

def disguised? : List (String × Value) → Option Value
  | (key,value) :: _ => if key == datetimeKey then some value else none
  | [] => none

-- A value with the points in time that its tables stand for, or nothing when one of them holds no text
-- that is a point in time.
mutual
def Value.resolve : Value → Option Value
  | .table entries =>
    match disguised? entries with
    | none => (resolveEntries entries).map .table
    | some (.string text) => (datetimeText? text.toList).map .datetime
    | some _ => none
  | .array elements => (resolveElements elements).map .array
  | value => some value
def resolveEntries : List (String × Value) → Option (List (String × Value))
  | [] => some []
  | (key,value) :: rest => do return (key,← value.resolve) :: (← resolveEntries rest)
def resolveElements : List Value → Option (List Value)
  | [] => some []
  | value :: rest => do return (← value.resolve) :: (← resolveElements rest)
end

end Recurrence.Toml
