import Recurrence.Draft
import Recurrence.Lexicon

namespace Recurrence.Clause.Calendar

-- The words of a calendar: weekdays and months by number, and the word for a range.
inductive Name where
  | day (index : Nat)
  | month (number : Nat)
  | range
deriving DecidableEq, Repr

def Name.ofWord? (word : String) : Option Name :=
  match Lexicon.dayIndex word with
  | some index => some (.day index)
  | none =>
    match Lexicon.monthNumber word with
    | some number => some (.month number)
    | none => if word = Lexicon.range then some .range else none

def nameOf (token : Token) : Option Name := token.word?.bind Name.ofWord?

inductive Part where
  | value (n : Nat)
  | range
deriving DecidableEq, Repr

-- Weekdays and months are told apart from left to right. A range word belongs with the names before
-- it: to the weekdays after a weekday, otherwise to the months.
def sort : Bool → List Name → List Part × List Part
  | _,[] => ([],[])
  | _,.day index :: rest => let sorted := sort true rest; (.value index :: sorted.1,sorted.2)
  | _,.month number :: rest => let sorted := sort false rest; (sorted.1,.value number :: sorted.2)
  | true,.range :: rest => let sorted := sort true rest; (.range :: sorted.1,sorted.2)
  | false,.range :: rest => let sorted := sort false rest; (sorted.1,.range :: sorted.2)

-- A value after a range word joins the item before it, any other value starts an item. The flag
-- says whether a range word has been seen since the last value.
def itemsAfter : Bool → List Nat → List Part → List (List Nat)
  | _,item,[] => [item]
  | _,item,.range :: rest => itemsAfter true item rest
  | true,item,.value n :: rest => itemsAfter false (item ++ [n]) rest
  | false,item,.value n :: rest => item :: itemsAfter false [n] rest

-- Range words before the first value, and after the last, say nothing.
def items : List Part → List (List Nat)
  | [] => []
  | .range :: rest => items rest
  | .value n :: rest => itemsAfter false [n] rest

def entriesOf (field : Field) (parts : List Part) : List (Field × Entry) :=
  match items parts with
  | [] => []
  | found => [(field,.listed found)]

def entries (tokens : List Token) : List (Field × Entry) :=
  let sorted := sort false (tokens.filterMap nameOf)
  entriesOf .dayOfWeek sorted.1 ++ entriesOf .month sorted.2

def used (tokens : List Token) : List Token :=
  tokens.map (fun token => if (nameOf token).isSome then .blank else token)

def read (draft : Draft) : Draft := ⟨used draft.tokens,draft.fields.write (entries draft.tokens)⟩

end Recurrence.Clause.Calendar
