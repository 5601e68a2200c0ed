import Recurrence.Main
import Recurrence.Proofs.ClockText
import Recurrence.Proofs.Replacement
import Recurrence.Proofs.Segments
import Recurrence.Proofs.Conservation
import Recurrence.Proofs.Never
import Recurrence.Proofs.CalendarItems
import Recurrence.Proofs.FieldShape
import Recurrence.Proofs.FieldGrammar
import Recurrence.Proofs.PlainText
import Recurrence.Proofs.Figures
import Recurrence.Proofs.Silence
import Recurrence.Proofs.DatedPhrase
import Recurrence.Proofs.DatedSchedule
import Recurrence.Proofs.ListText
import Recurrence.Proofs.ResidualFields
import Recurrence.Proofs.ListedNames
import Recurrence.Proofs.OffsetText
import Recurrence.Proofs.DefaultZone
import Recurrence.Proofs.Spacing
import Recurrence.Proofs.ClockWords
import Recurrence.Proofs.ClockGrammar
import Recurrence.Proofs.SpokenClock
import Recurrence.Proofs.FieldValues
import Recurrence.Proofs.WeeklyPhrase
import Recurrence.Proofs.WeeklySchedule
import Recurrence.Proofs.WeeklyMoments
import Recurrence.Proofs.Casing
import Recurrence.Proofs.MarkerKinds
import Recurrence.Proofs.IntervalSchedule
import Recurrence.Proofs.LooseText
import Recurrence.Proofs.WhiteSpace
import Recurrence.Proofs.Remainder
import Recurrence.Proofs.UnknownClause
import Recurrence.Proofs.OpenSchedule
import Recurrence.Proofs.StageFrames
import Recurrence.Proofs.ClockTimes
import Recurrence.Proofs.FieldRange
import Recurrence.Proofs.CommandRun
import Recurrence.Proofs.SegmentSweep
import Recurrence.Proofs.Leftovers
import Recurrence.Proofs.EveryClause
import Recurrence.Proofs.HolidayNames
import Recurrence.Proofs.FrequencyWords
import Recurrence.Proofs.ParityScan
import Recurrence.Proofs.JsonText
import Recurrence.Proofs.LineText
import Recurrence.Proofs.YamlText
import Recurrence.Proofs.Rendering
import Recurrence.Proofs.DayRanges
import Recurrence.Proofs.OffsetReading
import Recurrence.Proofs.MaximalRuns
