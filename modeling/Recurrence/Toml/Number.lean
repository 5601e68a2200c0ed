import Recurrence.Toml.Datetime
import Recurrence.Decimal.Shortest

namespace Recurrence.Toml
open Text

-- Digits, where one underscore may stand between two of them; the underscores are left out.
def digitRun (isDigit : Char → Bool) : List Char → List Char × List Char
  | [] => ([],[])
  | c :: rest =>
    if isDigit c then
      let (digits,rest') := match rest with
        | '_' :: d :: rest => if isDigit d then digitRun isDigit (d :: rest) else ([],'_' :: d :: rest)
        | rest => digitRun isDigit rest
      (c :: digits,rest')
    else ([],c :: rest)

def someDigits (isDigit : Char → Bool) (text : List Char) : Option (List Char × List Char) :=
  match digitRun isDigit text with
  | ([],_) => none
  | found => some found

-- Integers fit into 64 bits.
def inRange (n : Int) : Option Value :=
  if -Nat.pow 2 63 ≤ n ∧ n < Nat.pow 2 63 then some (.integer n) else none

def basedInteger (base : Nat) : Reader Value := fun text => do
  let (digits,rest) ← someDigits (isDigitIn base) text
  return (← inRange (numberIn base digits),rest)

-- The whole part of a decimal number has no zero in front.
def wholePart : Reader (List Char)
  | '0' :: rest => some (['0'],rest)
  | text => someDigits Char.isDigit text

def fractionPart : Reader (List Char)
  | '.' :: rest => someDigits Char.isDigit rest
  | text => some ([],text)

def takeSign : List Char → Bool × List Char
  | '+' :: rest => (false,rest)
  | '-' :: rest => (true,rest)
  | text => (false,text)

def exponentPart : Reader (Option Int)
  | e :: rest =>
    if e == 'e' || e == 'E' then do
      let (negative,rest) := takeSign rest
      let (digits,rest) ← someDigits Char.isDigit rest
      return (some (if negative then -(number digits : Int) else number digits),rest)
    else some (none,e :: rest)
  | [] => some (none,[])

-- A float too large to be finite is refused; below the other end of the range it becomes infinite.
def floatOf (negative : Bool) (whole fraction : List Char) (exponent : Int) : Option Value :=
  let size := Decimal.toFloat ⟨number (whole ++ fraction),exponent - fraction.length⟩
  if negative then some (.float (-size)) else if size.isInf then none else some (.float size)

def decimal (negative : Bool) : Reader Value := fun text => do
  let (whole,rest) ← wholePart text
  let (fraction,rest) ← fractionPart rest
  let (exponent,rest) ← exponentPart rest
  if fraction.isEmpty && exponent.isNone then
    return (← inRange (if negative then -(number whole : Int) else number whole),rest)
  else return (← floatOf negative whole fraction (exponent.getD 0),rest)

def signed (text : List Char) : Option (Value × List Char) :=
  let (negative,rest) := takeSign text
  match rest with
  | 'i' :: 'n' :: 'f' :: rest => some (.float (if negative then -(1.0 / 0.0) else 1.0 / 0.0),rest)
  | 'n' :: 'a' :: 'n' :: rest => some (.float (0.0 / 0.0),rest)
  | rest => decimal negative rest

def numeral : Reader Value
  | '0' :: 'x' :: rest => basedInteger 16 rest
  | '0' :: 'o' :: rest => basedInteger 8 rest
  | '0' :: 'b' :: rest => basedInteger 2 rest
  | text => signed text

-- Dates start with four digits and a hyphen, times with two digits and a colon; all else that starts
-- with a digit is a number.
def numberOrTime (text : List Char) : Option (Value × List Char) :=
  if (text.take 4).all Char.isDigit && text[4]? == some '-' then datetime text
  else if (text.take 2).all Char.isDigit && text[2]? == some ':' then
    (time .strict text).map (fun (clock,rest) => (.datetime clock,rest))
  else numeral text

end Recurrence.Toml
