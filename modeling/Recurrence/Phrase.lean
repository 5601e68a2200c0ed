import Recurrence.Text.Blank
import Recurrence.Lexicon

namespace Recurrence.Phrase
open Text

-- What a phrase is made of once it is clean: lower-case letters, digits, spaces, colons and plus signs.
def isKept (c : Char) : Bool :=
  ('a' ≤ c && c ≤ 'z') || c.isDigit || c == ' ' || c == ':' || c == '+'

-- Lower case, as far as it can be seen in a clean phrase. Outside ASCII only two characters have a
-- lower case that begins with a kept one: the Kelvin sign and the dotted capital i.
def lower (c : Char) : Char :=
  if c == '\u212A' then 'k' else if c == '\u0130' then 'i' else c.toLower

-- A hyphen is the word `to`, a blank is a space, and what is not kept leaves nothing behind.
def cleanChar (c : Char) : List Char :=
  if c == '-' then " to ".toList
  else if isBlank c then [' ']
  else if isKept (lower c) then [lower c]
  else []

-- A phrase of blanks alone asks for nothing, so it is read as `never`.
def clean (phrase : List Char) : List Char :=
  match trim phrase with
  | [] => "never".toList
  | text => text.flatMap cleanChar

-- Words for a frequency, and what they are short for.
def frequencies : List (String × String) := [
  ("hourly","every hour"), ("daily","every day"), ("weekly","every week"),
  ("monthly","every month"), ("yearly","every year"), ("annually","every year")]

-- Holidays and their dates. A longer name comes before the names that it contains.
def holidays : List (String × String) := [
  ("christmas eve","24 dec"), ("christmas day","25 dec"), ("christmas","25 dec"),
  ("new years eve","31 dec"), ("new years day","1 jan"), ("new years","1 jan"), ("new year","1 jan"),
  ("valentines day","14 feb"), ("valentines","14 feb"), ("valentine","14 feb"),
  ("saint patricks day","17 mar"), ("st patricks day","17 mar"),
  ("halloween","31 oct"), ("independence day","4 jul"), ("independance day","4 jul")]

-- Every occurrence of `pattern`, from the left and without overlap, becomes `replacement`. The
-- number counts the characters that still belong to the occurrence last replaced.
def replaceFrom (pattern replacement : List Char) : Nat → List Char → List Char
  | _,[] => []
  | n + 1,_ :: rest => replaceFrom pattern replacement n rest
  | 0,c :: rest =>
    if pattern.isPrefixOf (c :: rest) then
      replacement ++ replaceFrom pattern replacement (pattern.length - 1) rest
    else c :: replaceFrom pattern replacement 0 rest
def replaceAll (pattern replacement : List Char) (text : List Char) : List Char :=
  replaceFrom pattern replacement 0 text

-- One name after the other, each over the whole text that its predecessors left.
def expand (text : List Char) : List Char :=
  (frequencies ++ holidays).foldl (fun text entry => replaceAll entry.1.toList entry.2.toList text) text

def normalize (phrase : String) : String := String.ofList (expand (clean phrase.toList))

-- Words are maximal runs of letters, digits, colons and plus signs; all else separates.
def isWordChar (c : Char) : Bool := ('a' ≤ c && c ≤ 'z') || c.isDigit || c == ':' || c == '+'
def wordRuns (text : List Char) : List (List Char) :=
  (text.splitOnP (fun c => !isWordChar c)).filter (fun run => !run.isEmpty)
def splitWords (text : String) : List String := (wordRuns text.toList).map String.ofList

def tokenize (text : String) : List Token := (splitWords text).map Lexicon.resolve
def lex (phrase : String) : List Token := tokenize (normalize phrase)

end Recurrence.Phrase
