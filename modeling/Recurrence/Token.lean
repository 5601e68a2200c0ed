namespace Recurrence

-- A marker opens a clause of the phrase: `at` a clock time, `on` and `in` a calendar date.
inductive Marker where
  | time
  | date
deriving DecidableEq, Repr

-- One position of a phrase. A blank is a filler word, or a position whose word has been used;
-- it stays in place so that words that were apart do not become neighbours.
inductive Token where
  | word (text : String)
  | marker (kind : Marker)
  | blank
deriving DecidableEq, Repr

namespace Token

def isMarker : Token → Bool
  | .marker _ => true
  | _ => false

def word? : Token → Option String
  | .word text => some text
  | _ => none

def text : Token → String
  | .word text => text
  | .marker .time => "[TIME-CONTEXT]"
  | .marker .date => "[DATE-CONTEXT]"
  | .blank => ""

end Token

-- The words of a sequence, in order, without markers and blanks.
def wordsOf (tokens : List Token) : List String := tokens.filterMap Token.word?

-- Every position's text, one space between neighbours: blanks show as extra spaces.
def textOf (tokens : List Token) : String := " ".intercalate (tokens.map Token.text)

theorem wordsOf_append (left right : List Token) : wordsOf (left ++ right) = wordsOf left ++ wordsOf right := by
  simp [wordsOf]

end Recurrence
