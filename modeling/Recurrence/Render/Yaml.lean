import Recurrence.Render.Record
import Recurrence.Text.Digits

namespace Recurrence.Render.Yaml
open Text

-- A text is written plain when a reader gives it back as that text, otherwise in single quotes.
-- The texts written here stand on one line and hold no control characters.

-- Words that read back as nothing, as a truth value, or as a number without digits.
def reserved : List String := [
  "", "~", "null", "Null", "NULL", "true", "True", "TRUE", "false", "False", "FALSE",
  ".inf", ".Inf", ".INF", "+.inf", "+.Inf", "+.INF", "-.inf", "-.Inf", "-.INF", ".nan", ".NaN", ".NAN"]

def isNumeral (base limit : Nat) (digits : List Char) : Bool :=
  !digits.isEmpty && digits.all (isDigitIn base) && numberIn base digits ≤ limit

-- Numerals in base ten, or in base 16, 8 or 2 when `0x`, `0o` or `0b` is in front.
def isNatural (limit : Nat) : List Char → Bool
  | '0' :: 'x' :: digits => isNumeral 16 limit digits
  | '0' :: 'o' :: digits => isNumeral 8 limit digits
  | '0' :: 'b' :: digits => isNumeral 2 limit digits
  | digits => isNumeral 10 limit digits

-- Integers are read into 128 bits, without a sign where there is no minus.
def isInteger : List Char → Bool
  | '-' :: rest => isNatural (Nat.pow 2 127) rest
  | '+' :: rest => isNatural (Nat.pow 2 128 - 1) rest
  | text => isNatural (Nat.pow 2 128 - 1) text

def dropSign : List Char → List Char
  | '+' :: rest => rest
  | '-' :: rest => rest
  | text => text

-- Zeros in front make no number, but readers differ on them, so such digits are quoted too.
def isPaddedNumeral (text : List Char) : Bool :=
  match dropSign text with
  | '0' :: d :: rest => (d :: rest).all Char.isDigit
  | _ => false

-- Whether `mantissa · 10^exponent` is below the least number that rounds to infinity in double
-- precision. The exponent is compared first: it can be far too large to compute with.
def isFinite (mantissa : Nat) (exponent : Int) : Bool :=
  let bound := Nat.pow 2 1024 - Nat.pow 2 970
  if mantissa = 0 then true
  else if 400 < exponent then false
  else if 0 ≤ exponent then mantissa * Nat.pow 10 exponent.toNat < bound
  else if (toString mantissa).length ≤ exponent.natAbs then true
  else mantissa < bound * Nat.pow 10 exponent.natAbs

-- An exponent: the letter, a sign or none, and digits. Without the letter it is zero.
def exponent? : List Char → Option Int
  | [] => some 0
  | e :: rest =>
    let digits := dropSign rest
    if (e == 'e' || e == 'E') && !digits.isEmpty && digits.all Char.isDigit then
      some (if rest.head? = some '-' then -(number digits : Int) else number digits)
    else none

-- Digits, with a point anywhere among them, and perhaps an exponent.
def isDecimal (text : List Char) : Bool :=
  let whole := text.takeWhile Char.isDigit
  let (fraction,rest) :=
    match text.dropWhile Char.isDigit with
    | '.' :: rest => (rest.takeWhile Char.isDigit,rest.dropWhile Char.isDigit)
    | rest => ([],rest)
  match exponent? rest with
  | some exponent =>
    !(whole ++ fraction).isEmpty && isFinite (number (whole ++ fraction)) (exponent - fraction.length)
  | none => false

-- Numbers too large for double precision, and the words for infinity without a point, are text.
def isFloat (text : List Char) : Bool := isDecimal (dropSign text)

-- Signs that start something other than plain text.
def indicators : List Char := "#,[]\x7b\x7d&*!|>\x27\x22%@\x60".toList

def isGap : List Char → Bool
  | [] => true
  | c :: _ => c == ' ' || c == '\t'

-- A colon before a gap separates a key from its value, and a number sign after one starts a comment.
def hasSeparator : List Char → Bool
  | [] => false
  | c :: rest =>
    (c == ':' && isGap rest) || (isGap [c] && rest.head? == some '#') || hasSeparator rest

def breaksLayout (text : List Char) : Bool :=
  match text with
  | [] => true
  | c :: rest =>
    indicators.contains c || ((c == '-' || c == '?') && isGap rest) || isGap [c] ||
      text.getLast? == some ' ' || "---".toList.isPrefixOf text || "...".toList.isPrefixOf text ||
      hasSeparator text

def isPlain (text : String) : Bool :=
  let chars := text.toList
  !(reserved.contains text || isInteger chars || isPaddedNumeral chars || isFloat chars ||
    breaksLayout chars)

def singleQuoted (text : String) : String :=
  "\x27" ++ String.ofList (text.toList.flatMap (fun c => if c == '\x27' then ['\x27','\x27'] else [c])) ++ "\x27"

def scalar : Scalar → String
  | .text text => if isPlain text then text else singleQuoted text
  | .flag flag => flagText flag

-- One line for each entry, without a line break at the end.
def mapping (record : Record) : String :=
  "\n".intercalate (record.map (fun entry => entry.1 ++ ": " ++ scalar entry.2))

end Recurrence.Render.Yaml
