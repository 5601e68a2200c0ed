import Recurrence.Text.Blank
import Recurrence.Text.Digits

namespace Recurrence
open Text

def secondsPerDay : Int := 86400

-- A distance from UTC, east positive, of less than a day.
structure Offset where
  seconds : Int
  within_day : -secondsPerDay < seconds ∧ seconds < secondsPerDay
deriving DecidableEq

namespace Offset

def utc : Offset := ⟨0,by decide⟩

def ofSeconds? (seconds : Int) : Option Offset :=
  if within : -secondsPerDay < seconds ∧ seconds < secondsPerDay then some ⟨seconds,within⟩ else none

-- A sign, two digits, a colon and two digits, and nothing else. The minutes stay below 60.
def read? : List Char → Option Offset
  | sign :: rest =>
    match twoDigits rest with
    | some (hours,':' :: rest) =>
      match twoDigits rest with
      | some (minutes,[]) =>
        let total : Int := (hours * 60 + minutes) * 60
        if 60 ≤ minutes then none
        else if sign = '+' then ofSeconds? total
        else if sign = '-' then ofSeconds? (-total)
        else none
      | _ => none
    | _ => none
  | [] => none

-- Blanks around an offset do not count.
def parse? (text : String) : Option Offset := read? (trim text.toList)

-- Seconds are shown only where there are some.
def text (offset : Offset) : String :=
  let total := offset.seconds.natAbs
  let sign := if offset.seconds < 0 then "-" else "+"
  let minutes := sign ++ padded 2 (total / 3600) ++ ":" ++ padded 2 (total / 60 % 60)
  if total % 60 = 0 then minutes else minutes ++ ":" ++ padded 2 (total % 60)

theorem ofSeconds?_seconds (offset : Offset) : ofSeconds? offset.seconds = some offset := by
  simp [ofSeconds?,offset.within_day]

theorem ofSeconds?_eq_some_iff {offset : Offset} : ofSeconds? n = some offset ↔ offset.seconds = n := by
  constructor
  · intro known
    unfold ofSeconds? at known
    split at known
    · cases known; rfl
    · cases known
  · intro equal; rw [← equal]; exact ofSeconds?_seconds offset

end Offset
end Recurrence
