import Recurrence.Phrase
import Recurrence.Stage

namespace Recurrence

-- The schedule that a phrase asks for. Every phrase has one; clock times that name no offset are
-- read in `zone`, and the schedule is in UTC.
def compileTokens (zone : Offset) (tokens : List Token) : Schedule :=
  (Stage.runAll zone Stage.inOrder ⟨tokens,{}⟩).schedule

def compile (zone : Offset) (phrase : String) : Schedule := compileTokens zone (Phrase.lex phrase)

end Recurrence
