import Recurrence.Toml.Value
import Recurrence.Text.Digits

namespace Recurrence.Settings
open Toml

-- A place in nested values: the key it starts from, then keys and positions.
inductive Selector where
  | key (name : String)
  | index (n : Int)
deriving DecidableEq, Repr

structure Path where
  start : String
  steps : List Selector
deriving DecidableEq, Repr

def isNameChar (c : Char) : Bool := c.isAlphanum || c == ' ' || c == '_' || c == '-'

-- Capitals are as good as small letters: a name is kept in lower case.
def readName (text : List Char) : Option (String × List Char) :=
  match text.takeWhile isNameChar with
  | [] => none
  | name => some (String.ofList (name.map Char.toLower),text.dropWhile isNameChar)

-- A position in brackets, perhaps with space around it, but on one line; below zero it counts from
-- the end.
def readIndex (text : List Char) : Option (Int × List Char) :=
  let text := skipSpace text
  let (negative,digits) := match text with
    | '-' :: rest => (true,rest)
    | rest => (false,rest)
  let size := Text.number (digits.takeWhile Char.isDigit)
  let n : Int := if negative then -size else size
  match digits.takeWhile Char.isDigit,skipSpace (digits.dropWhile Char.isDigit) with
  | [],_ => none
  | _,']' :: rest => if -Nat.pow 2 63 ≤ n ∧ n < Nat.pow 2 63 then some (n,rest) else none
  | _,_ => none

-- The number bounds how many steps there can be.
def readSteps : Nat → List Char → Option (List Selector)
  | _,[] => some []
  | 0,_ => none
  | count + 1,'.' :: rest => do
    let (name,rest) ← readName rest
    return .key name :: (← readSteps count rest)
  | count + 1,'[' :: rest => do
    let (n,rest) ← readIndex rest
    return .index n :: (← readSteps count rest)
  | _,_ => none

-- Names joined by dots, with positions in brackets: `output.format`, `list[0].name`.
def Path.parse? (text : String) : Option Path := do
  let (start,rest) ← readName text.toList
  return ⟨start,← readSteps rest.length rest⟩

-- The entries of a value as a table. What is no table counts as an empty one.
def entriesOf : Value → List (String × Value)
  | .table entries => entries
  | _ => []

def elementsOf : Value → List Value
  | .array elements => elements
  | _ => []

-- The value where there is nothing yet. It says no more than an empty list.
def nothing : Value := .array []

def insert (key : String) (value : Value) (entries : List (String × Value)) : List (String × Value) :=
  if (entries.lookup key).isSome then
    entries.map (fun entry => if entry.1 == key then (key,value) else entry)
  else entries ++ [(key,value)]

-- Keys that are set are written in lower case, here as in paths. A table is merged into what is there, key by key, and
-- an empty table changes nothing but a missing value; any other value takes the place of what is there.
mutual
def merge (root : Value) (key : String) (value : Value) : Value :=
  let entries := entriesOf root
  let name := key.toLower
  match value with
  | .table incoming =>
    .table (insert name (mergeAll ((entries.lookup name).getD (.table [])) incoming) entries)
  | value => .table (insert name value entries)
def mergeAll (root : Value) : List (String × Value) → Value
  | [] => root
  | (key,value) :: rest => mergeAll (merge root key value) rest
end

-- Positions behind the end make the list longer; a position in front of it is none.
def position? (n : Int) (size : Nat) : Option Nat :=
  if 0 ≤ n then some n.toNat else if n.natAbs ≤ size then some (size - n.natAbs) else none

def setAt (n : Nat) (value : Value) (elements : List Value) : List Value :=
  (elements ++ List.replicate (n + 1 - elements.length) nothing).set n value

-- Work on the value at the end of the steps, on the way to which whatever is of the wrong kind gives
-- way to an empty table or list.
def update (act : Value → Option Value) : List Selector → Value → Option Value
  | [],here => act here
  | .key name :: steps,here => do
    let entries := entriesOf here
    return .table (insert name (← update act steps ((entries.lookup name).getD nothing)) entries)
  | .index n :: steps,here => do
    let elements := elementsOf here
    let n ← position? n elements.length
    return .array (setAt n (← update act steps (elements.getD n nothing)) elements)

def Path.set (path : Path) (root value : Value) : Option Value :=
  match path.steps.getLast? with
  | none => some (merge root path.start value)
  | some (.key name) =>
    update (fun here => some (merge here name value)) (.key path.start :: path.steps.dropLast) root
  | some (.index n) =>
    update (fun here => do
      let elements := elementsOf here
      return .array (setAt (← position? n elements.length) value elements))
      (.key path.start :: path.steps.dropLast) root

end Recurrence.Settings
