import Recurrence.Toml.Value
import Recurrence.Text.Digits

namespace Recurrence.Toml
open Text

-- Basic strings stand in quotation marks and have escapes; literal strings stand in apostrophes and
-- have none. Three marks in a row open a string that may hold line breaks.

def charOf? (digits : List Char) (length : Nat) : Option Char :=
  let n := numberIn 16 digits
  if digits.length = length ∧ digits.all (isDigitIn 16) ∧ n.isValidChar then some (Char.ofNat n) else none

def escaped? : Char → Option Char
  | 'b' => some '\x08'
  | 't' => some '\t'
  | 'n' => some '\n'
  | 'f' => some '\x0C'
  | 'r' => some '\r'
  | '\x22' => some '\x22'
  | '\\' => some '\\'
  | _ => none

-- What stands for the text behind a backslash, and how much of that text it takes. A backslash at
-- the end of a line takes all space and line breaks up to the next other character.
def escape? : List Char → Option (List Char × Nat)
  | [] => none
  | e :: rest =>
    if e == 'u' then (charOf? (rest.take 4) 4).map (fun c => ([c],5))
    else if e == 'U' then (charOf? (rest.take 8) 8).map (fun c => ([c],9))
    else match escaped? e with
    | some c => some ([c],1)
    | none =>
      let gap := (e :: rest).takeWhile (fun c => isSpace c || c == '\n')
      if (gap.dropWhile isSpace).isEmpty then none else some ([],gap.length)

def unescape (text : List Char) : Option (List Char) :=
  match text with
  | [] => some []
  | c :: rest =>
    if c == '\\' then
      match escape? rest with
      | some (meaning,taken) => (unescape (rest.drop taken)).map (meaning ++ ·)
      | none => none
    else (unescape rest).map (c :: ·)
termination_by text.length
decreasing_by all_goals (simp only [List.length_cons,List.length_drop]; omega)

-- The characters before the mark that closes, backslashes left as they are.
def untilMark (mark : Char) (escapes : Bool) : Reader (List Char)
  | [] => none
  | c :: rest =>
    if c == mark then some ([],rest)
    else if escapes && c == '\\' then
      match rest with
      | d :: rest =>
        if isTextChar d then (untilMark mark escapes rest).map (fun (text,rest) => (c :: d :: text,rest)) else none
      | [] => none
    else if isTextChar c then (untilMark mark escapes rest).map (fun (text,rest) => (c :: text,rest))
    else none

-- The same up to three marks in a row. One or two marks more belong to the string, which they end.
-- Every line break reads as a line feed.
def untilMarks (mark : Char) (escapes : Bool) : Reader (List Char)
  | [] => none
  | '\r' :: '\n' :: rest => (untilMarks mark escapes rest).map (fun (text,rest) => ('\n' :: text,rest))
  | c :: rest =>
    if [mark,mark,mark].isPrefixOf (c :: rest) then
      let extra := ((c :: rest).drop 3 |>.take 2).takeWhile (· == mark)
      some (extra,(c :: rest).drop (3 + extra.length))
    else if escapes && c == '\\' then
      match rest with
      | '\r' :: '\n' :: rest => (untilMarks mark escapes rest).map (fun (text,rest) => (c :: '\n' :: text,rest))
      | d :: rest =>
        if isTextChar d || d == '\n' then
          (untilMarks mark escapes rest).map (fun (text,rest) => (c :: d :: text,rest))
        else none
      | [] => none
    else if isTextChar c || c == '\n' then
      (untilMarks mark escapes rest).map (fun (text,rest) => (c :: text,rest))
    else none

def meaningOf (escapes : Bool) (text : List Char) : Option String :=
  if escapes then (unescape text).map String.ofList else some (String.ofList text)

-- A string on one line, from its opening mark on.
def lineString : Reader String
  | [] => none
  | mark :: rest => do
    let escapes := mark == '\x22'
    let (text,rest) ← if escapes || mark == '\x27' then untilMark mark escapes rest else none
    return (← meaningOf escapes text,rest)

-- A string of either length. A line break directly after three opening marks does not count.
def string : Reader String
  | mark :: second :: third :: rest =>
    if second == mark && third == mark then do
      let escapes := mark == '\x22'
      let body := match rest with
        | '\n' :: rest => rest
        | '\r' :: '\n' :: rest => rest
        | rest => rest
      let (text,rest) ← if escapes || mark == '\x27' then untilMarks mark escapes body else none
      return (← meaningOf escapes text,rest)
    else lineString (mark :: second :: third :: rest)
  | text => lineString text

end Recurrence.Toml
