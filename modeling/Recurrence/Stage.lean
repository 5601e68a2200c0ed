import Recurrence.Clause.Markers
import Recurrence.Clause.Frequency
import Recurrence.Clause.Calendar
import Recurrence.Clause.Parity
import Recurrence.Clause.Never
import Recurrence.Clause.Residual

namespace Recurrence

-- The kinds of clause that are read, each in one pass over the draft.
inductive Stage where
  | markers
  | frequency
  | calendar
  | parity
  | never
  | residual
deriving DecidableEq, Repr

namespace Stage

def run (zone : Offset) : Stage → Draft → Draft
  | .markers => Clause.Markers.read
  | .frequency => Clause.Frequency.read
  | .calendar => Clause.Calendar.read
  | .parity => Clause.Parity.read
  | .never => Clause.Never.read
  | .residual => Clause.Residual.read zone

-- The order in which a phrase is read.
def inOrder : List Stage := [.markers,.frequency,.calendar,.parity,.never,.residual]

def runAll (zone : Offset) (stages : List Stage) (draft : Draft) : Draft :=
  stages.foldl (fun draft stage => stage.run zone draft) draft

end Stage

-- A draft can also be worked on step by step: stages in any order, and tokens added at the end.
inductive Step where
  | stages (chain : List Stage)
  | push (tokens : List Token)
deriving DecidableEq, Repr

namespace Step

def run (zone : Offset) : Step → Draft → Draft
  | .stages chain,draft => Stage.runAll zone chain draft
  | .push tokens,draft => {draft with tokens := draft.tokens ++ tokens}

def runAll (zone : Offset) (steps : List Step) (draft : Draft) : Draft :=
  steps.foldl (fun draft step => step.run zone draft) draft

end Step
end Recurrence
