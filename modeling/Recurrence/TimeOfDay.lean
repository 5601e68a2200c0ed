import Recurrence.Offset

namespace Recurrence
open Text

structure TimeOfDay where
  hour : Fin 24
  minute : Fin 60
deriving DecidableEq, Repr

-- The time of day so many seconds after some midnight, before or after: whole days and the seconds
-- within the minute are dropped.
def TimeOfDay.ofSeconds (seconds : Int) : TimeOfDay :=
  let second := (seconds % secondsPerDay).toNat
  have bound : second < 86400 := by
    have := Int.emod_lt_of_pos seconds (show (0 : Int) < secondsPerDay by decide)
    have := Int.emod_nonneg seconds (show secondsPerDay ≠ 0 by decide)
    simp only [second,secondsPerDay] at *
    omega
  ⟨⟨second / 3600,by omega⟩,⟨second / 60 % 60,by omega⟩⟩

inductive Half where
  | am
  | pm
deriving DecidableEq, Repr

-- A clock time as it is written, before any of its numbers is checked: `5pm`, `5:15 am`, `14:00:30 +01:00`.
structure ClockText where
  hour : Nat
  minute : Option Nat
  second : Option Nat
  half : Option Half
  offset : Option Offset
deriving DecidableEq

namespace ClockText

-- A colon and two digits, if the text goes on so.
def colonPair : List Char → Option Nat × List Char
  | ':' :: rest =>
    match twoDigits rest with
    | some (n,rest) => (some n,rest)
    | none => (none,':' :: rest)
  | text => (none,text)

def halfOfDay : List Char → Option Half × List Char
  | 'a' :: 'm' :: rest => (some .am,rest)
  | 'p' :: 'm' :: rest => (some .pm,rest)
  | text => (none,text)

-- The end of the text: nothing, or an offset that is good.
def closing : List Char → Option (Option Offset)
  | [] => some none
  | text => (Offset.read? text).map some

def read? (text : List Char) : Option ClockText := do
  let (hour,rest) ← oneOrTwoDigits (trim text)
  let (minute,rest) := colonPair rest
  let (second,rest) := if minute.isSome then colonPair rest else (none,rest)
  let (half,rest) := halfOfDay (trimStart rest)
  let offset ← closing (trimStart rest)
  return ⟨hour,minute,second,half,offset⟩

-- The hour on the clock of 24 hours: with a half of the day it counts from 1 to 12, twelve first.
def hour24? (clock : ClockText) : Option Nat :=
  match clock.half with
  | none => if clock.hour < 24 then some clock.hour else none
  | some half =>
    if 1 ≤ clock.hour ∧ clock.hour ≤ 12 then
      some (clock.hour % 12 + match half with | .am => 0 | .pm => 12)
    else none

-- A number alone is no clock time: it needs minutes or a half of the day.
def time? (zone : Offset) (clock : ClockText) : Option TimeOfDay := do
  let hour ← clock.hour24?
  let minute := clock.minute.getD 0
  let second := clock.second.getD 0
  if (clock.minute.isSome ∨ clock.half.isSome) ∧ minute < 60 ∧ second < 60 then
    some (.ofSeconds (hour * 3600 + minute * 60 + second - (clock.offset.getD zone).seconds))
  else none

end ClockText

-- The clock time that the text spells, in UTC; `zone` is where it is read when it names no offset.
def TimeOfDay.parse? (zone : Offset) (text : List Char) : Option TimeOfDay :=
  (ClockText.read? text).bind (ClockText.time? zone)

end Recurrence
