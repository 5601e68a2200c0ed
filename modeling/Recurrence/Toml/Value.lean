namespace Recurrence.Toml

-- A point in time is kept as its text, in the one spelling that all its spellings share. The entries
-- of a table have different keys; of their order only the first place can mean something.
inductive Value where
  | string (text : String)
  | integer (n : Int)
  | float (f : Float)
  | boolean (flag : Bool)
  | datetime (text : String)
  | array (elements : List Value)
  | table (entries : List (String × Value))
deriving Inhabited

-- A reader takes its part from the front of the text and leaves the rest.
abbrev Reader (α : Type) := List Char → Option (α × List Char)

def isSpace (c : Char) : Bool := c == ' ' || c == '\t'
def skipSpace (text : List Char) : List Char := text.dropWhile isSpace

-- Everything but control characters may stand in strings and comments; of those, only the tab.
def isTextChar (c : Char) : Bool := c == '\t' || (32 ≤ c.toNat && c.toNat != 127)

-- The end of a line: a line feed, perhaps after a carriage return, or the end of the text.
def lineEnd : List Char → Option (List Char)
  | [] => some []
  | '\n' :: rest => some rest
  | '\r' :: '\n' :: rest => some rest
  | _ => none

-- What may follow on a line that is complete: space, and a comment.
def closeLine (text : List Char) : Option (List Char) :=
  match skipSpace text with
  | '#' :: rest => lineEnd (rest.dropWhile isTextChar)
  | rest => lineEnd rest

-- Space, line ends and comments, as they may stand between the elements of an array. The flag says
-- whether a comment is open.
def skipVoid : Bool → List Char → List Char
  | _,'\n' :: rest => skipVoid false rest
  | _,'\r' :: '\n' :: rest => skipVoid false rest
  | false,c :: rest =>
    if isSpace c then skipVoid false rest
    else if c == '#' then skipVoid true rest
    else c :: rest
  | true,c :: rest => if isTextChar c then skipVoid true rest else c :: rest
  | _,[] => []

end Recurrence.Toml
