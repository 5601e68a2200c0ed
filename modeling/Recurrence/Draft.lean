import Recurrence.Token
import Recurrence.Field
import Recurrence.Schedule

namespace Recurrence

-- A phrase while its clauses are read: the positions not yet used, and what has been said so far.
structure Draft where
  tokens : List Token
  fields : Fields := {}
deriving DecidableEq, Repr

namespace Draft

def words (draft : Draft) : List String := wordsOf draft.tokens
def text (draft : Draft) : String := textOf draft.tokens

-- The first position that is exactly this word.
def position? (draft : Draft) (word : String) : Option Nat := draft.tokens.idxOf? (.word word)
def contains (draft : Draft) (token : Token) : Bool := draft.tokens.contains token

def unparsed (draft : Draft) : String :=
  String.ofList (Text.trim (" ".intercalate draft.words).toList)

-- The schedule of the draft as it stands: words that are left are unparsed, and a disabled draft
-- gives the schedule that never comes round, whatever else was said.
def schedule (draft : Draft) : Schedule :=
  if draft.fields.disabled then .never draft.unparsed
  else ⟨draft.fields.shown .minute,draft.fields.shown .hour,draft.fields.shown .dayOfMonth,
    draft.fields.shown .month,draft.fields.shown .dayOfWeek,draft.unparsed⟩

end Draft
end Recurrence
