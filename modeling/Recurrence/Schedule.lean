import Recurrence.Text.Blank

namespace Recurrence

-- A compiled phrase: the texts of the five fields, and the words no clause could place.
structure Schedule where
  minute : String
  hour : String
  dayOfMonth : String
  month : String
  dayOfWeek : String
  unparsed : String
deriving DecidableEq, Repr

namespace Schedule

def fields (schedule : Schedule) : List String :=
  [schedule.minute,schedule.hour,schedule.dayOfMonth,schedule.month,schedule.dayOfWeek]

def expression (schedule : Schedule) : String := " ".intercalate schedule.fields

def fullyParsed (schedule : Schedule) : Bool := (Text.trim schedule.unparsed.toList).isEmpty

-- February has no 31st day, so this schedule never comes round.
def never (unparsed : String) : Schedule := ⟨"0","0","31","2","0",unparsed⟩

end Schedule
end Recurrence
