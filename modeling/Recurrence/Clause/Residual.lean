import Recurrence.Draft
import Recurrence.TimeOfDay

namespace Recurrence.Clause.Residual
open Text

-- The texts between markers: the words of each run with single spaces, runs without text left out.
def segments (tokens : List Token) : List String :=
  ((tokens.splitOnP Token.isMarker).map (fun run => " ".intercalate (wordsOf run))).filter (· != "")

-- What a segment says: a time of day, days of the month, or nothing that is understood.
inductive Reading where
  | time (time : TimeOfDay)
  | days (numbers : List String)
  | other
deriving DecidableEq, Repr

def segmentWords (segment : String) : List String := (words segment.toList).map String.ofList

def reading (zone : Offset) (segment : String) : Reading :=
  match TimeOfDay.parse? zone segment.toList with
  | some time => .time time
  | none =>
    if segment.toList.all (fun c => c.isDigit || isBlank c) then .days (segmentWords segment) else .other

-- Segments are taken from the last to the first, so that the first time and the first days have the
-- final say. A segment that is not understood leaves its words.
def take (zone : Offset) (segment : String) (later : Draft) : Draft :=
  match reading zone segment with
  | .time time =>
    {later with fields := (later.fields.set .hour (.number time.hour)).set .minute (.number time.minute)}
  | .days numbers => {later with fields := later.fields.set .dayOfMonth (.days numbers)}
  | .other => {later with tokens := (segmentWords segment).map .word ++ later.tokens}

def read (zone : Offset) (draft : Draft) : Draft :=
  (segments draft.tokens).foldr (take zone) ⟨[],draft.fields⟩

end Recurrence.Clause.Residual
