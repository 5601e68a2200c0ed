import Recurrence.Draft

namespace Recurrence.Clause.Frequency

-- A clause starts with `every` and runs to the next marker or the next `every`.
def every : Token := .word "every"
def inClause (token : Token) : Bool := !token.isMarker && token != every

-- What the unit says when it follows `every` directly.
def wholeUnit : String → Option (List (Field × Entry))
  | "minute" => some [(.minute,.any)]
  | "hour" => some [(.hour,.any),(.minute,.number 0)]
  | "day" => some [(.dayOfMonth,.any),(.dayOfWeek,.any),(.hour,.number 0),(.minute,.number 0)]
  | "month" => some [(.minute,.number 1),(.hour,.number 1),(.dayOfMonth,.number 1),(.month,.any)]
  | "year" => some [(.minute,.number 1),(.hour,.number 1),(.month,.number 1),(.dayOfMonth,.number 1)]
  | _ => none

-- What the unit says at the end of a clause that counts it in intervals.
def inIntervals (intervals : List String) : String → Option (List (Field × Entry))
  | "minute" => some [(.minute,.every intervals)]
  | "hour" => some [(.minute,.number 0),(.hour,.every intervals)]
  | "day" => some [(.dayOfMonth,.every intervals)]
  | "month" => some [(.month,.every intervals)]
  | _ => none

def isNumeric (word : String) : Bool := word.toList.all Char.isDigit

-- Intervals and a unit, as in `every 5 and 10 minutes`: at least one interval, all of them numbers.
def counted (words : List String) : Option (List (Field × Entry)) :=
  match words.getLast? with
  | none => none
  | some unit =>
    let intervals := words.dropLast
    if !intervals.isEmpty && intervals.all isNumeric then inIntervals intervals unit else none

-- What became of the first `every`: there was none, its clause was empty, the clause was read and
-- so many positions were used, or only the word itself was dropped.
inductive Outcome where
  | absent
  | bare
  | taken (consumed : Nat) (draft : Draft)
  | dropped (draft : Draft)
deriving DecidableEq, Repr

def outcome (draft : Draft) : Outcome :=
  let before := draft.tokens.takeWhile (· != every)
  match draft.tokens.dropWhile (· != every) with
  | [] => .absent
  | _ :: after =>
    match after.takeWhile inClause with
    | [] => .bare
    | first :: others =>
      match first.word?.bind wholeUnit with
      | some entries => .taken 2 ⟨before ++ after.drop 1,draft.fields.write entries⟩
      | none =>
        match counted (wordsOf (first :: others)) with
        | some entries =>
          .taken (others.length + 2) ⟨before ++ after.dropWhile inClause,draft.fields.write entries⟩
        | none => .dropped ⟨before ++ after,draft.fields⟩

def read (draft : Draft) : Draft :=
  match outcome draft with
  | .absent | .bare => draft
  | .taken _ next | .dropped next => next

end Recurrence.Clause.Frequency
