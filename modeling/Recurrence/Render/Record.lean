import Recurrence.Schedule

namespace Recurrence.Render

-- A written value: text, or a yes-or-no answer.
inductive Scalar where
  | text (text : String)
  | flag (flag : Bool)
deriving DecidableEq, Repr

-- A record is written in the order of its entries, whatever the format.
abbrev Record := List (String × Scalar)

def flagText (flag : Bool) : String := if flag then "true" else "false"

def recordOf (schedule : Schedule) : Record := [
  ("expression",.text schedule.expression),
  ("minute",.text schedule.minute),
  ("hour",.text schedule.hour),
  ("day_of_month",.text schedule.dayOfMonth),
  ("month",.text schedule.month),
  ("day_of_week",.text schedule.dayOfWeek),
  ("unparsed",.text schedule.unparsed),
  ("fully_parsed",.flag schedule.fullyParsed)]

end Recurrence.Render
