import Recurrence.Toml.Quoted
import Recurrence.Toml.Number

namespace Recurrence.Toml

-- How a table came about: by its own header or as an element of an array, because a longer header
-- runs through it, or by a dotted key.
inductive Origin where
  | header
  | path
  | dotted
deriving DecidableEq, Repr

-- A document while it is read. Tables that are still open to further keys and headers are told apart
-- from finished values; in an array of tables the last one is open.
inductive Node where
  | value (value : Value)
  | table (origin : Origin) (entries : List (String × Node))
  | tables (elements : List (List (String × Node)))

abbrev Entries := List (String × Node)

def put (key : String) (node : Node) (entries : Entries) : Entries :=
  if (entries.lookup key).isSome then
    entries.map (fun entry => if entry.1 == key then (key,node) else entry)
  else entries ++ [(key,node)]

-- Work on the table at the end of a path. Tables that are missing on the way are made; values are in
-- the way, and for dotted keys so are tables that have a header.
def within (dotted : Bool) (act : Origin → Entries → Option Entries) :
    List String → Origin → Entries → Option Entries
  | [],origin,entries => act origin entries
  | key :: path,_,entries =>
    match entries.lookup key with
    | none => do
      let made := if dotted then Origin.dotted else Origin.path
      return put key (.table made (← within dotted act path made [])) entries
    | some (.value _) => none
    | some (.table origin inner) =>
      if dotted && origin == .header then none
      else do return put key (.table origin (← within dotted act path origin inner)) entries
    | some (.tables elements) =>
      match elements.getLast? with
      | none => none
      | some last => do
        return put key (.tables (elements.dropLast ++ [← within dotted act path .header last])) entries

-- A key with its value, in the table that is open. A key is set once, and a dotted key adds to no
-- table but those that dotted keys have made.
def assign (key : List String) (value : Value) (entries : Entries) : Option Entries :=
  match key.getLast? with
  | none => none
  | some name =>
    let path := key.dropLast
    within true (fun origin entries =>
      if (origin == .dotted) == path.isEmpty || (entries.lookup name).isSome then none
      else some (put name (.value value) entries)) path .header entries

-- A table is opened once. One that is there because of a longer header moves behind the others.
def openTable (key : List String) (entries : Entries) : Option Entries :=
  match key.getLast? with
  | none => none
  | some name =>
    within false (fun _ entries =>
      match entries.lookup name with
      | none => some (put name (.table .header []) entries)
      | some (.table .path inner) =>
        some (entries.filter (fun entry => entry.1 != name) ++ [(name,.table .header inner)])
      | some _ => none) key.dropLast .header entries

def openElement (key : List String) (entries : Entries) : Option Entries :=
  match key.getLast? with
  | none => none
  | some name =>
    within false (fun _ entries =>
      match entries.lookup name with
      | none => some (put name (.tables [[]]) entries)
      | some (.tables elements) => some (put name (.tables (elements ++ [[]])) entries)
      | some _ => none) key.dropLast .header entries

mutual
def Node.finish : Node → Value
  | .value value => value
  | .table _ entries => .table (finishEntries entries)
  | .tables elements => .array (finishElements elements)
def finishEntries : List (String × Node) → List (String × Value)
  | [] => []
  | (key,node) :: rest => (key,node.finish) :: finishEntries rest
def finishElements : List (List (String × Node)) → List Value
  | [] => []
  | entries :: rest => .table (finishEntries entries) :: finishElements rest
end

def isBareKey (c : Char) : Bool := c.isAlphanum || c == '_' || c == '-'

def simpleKey (text : List Char) : Option (String × List Char) :=
  match text with
  | [] => none
  | c :: _ =>
    if c == '\x22' || c == '\x27' then lineString text
    else match text.takeWhile isBareKey with
    | [] => none
    | name => some (String.ofList name,text.dropWhile isBareKey)

-- Keys joined by dots, with space around the dots. Paths and nested values are at most this deep.
def deepest : Nat := 79

def dottedKey : Nat → Reader (List String)
  | 0,_ => none
  | depth + 1,text => do
    let (name,rest) ← simpleKey (skipSpace text)
    match skipSpace rest with
    | '.' :: rest =>
      let (others,rest) ← dottedKey depth rest
      return (name :: others,rest)
    | rest => return ([name],rest)

-- The elements of an array behind its bracket; a comma may follow the last one. The number bounds
-- how many there can be.
def elements (item : Reader Value) : Nat → Reader (List Value)
  | 0,_ => none
  | count + 1,text =>
    match skipVoid false text with
    | ']' :: rest => some ([],rest)
    | text => do
      let (first,rest) ← item text
      match skipVoid false rest with
      | ']' :: rest => return ([first],rest)
      | ',' :: rest =>
        let (others,rest) ← elements item count rest
        return (first :: others,rest)
      | _ => none

def keyValue (item : Reader Value) : Reader (List String × Value) := fun text => do
  let (key,rest) ← dottedKey deepest text
  let (value,rest) ← item (skipSpace (← expect '=' rest))
  return ((key,value),rest)

-- The pairs of an inline table behind its brace, which stand on one line; no comma follows the last.
def pairs (item : Reader Value) : Nat → Reader (List (List String × Value))
  | 0,_ => none
  | count + 1,text => do
    let (first,rest) ← keyValue item text
    match skipSpace rest with
    | '\x7d' :: rest => return ([first],rest)
    | ',' :: rest =>
      let (others,rest) ← pairs item count rest
      return (first :: others,rest)
    | _ => none

def inlineTable (item : Reader Value) (text : List Char) : Option (Value × List Char) := do
  let (found,rest) ← match skipSpace text with
    | '\x7d' :: rest => some ([],rest)
    | text => pairs item text.length text
  let entries ← found.foldlM (fun entries pair => assign pair.1 pair.2 entries) []
  return (.table (finishEntries entries),rest)

-- One value, told by its first character. `inner` reads the values within it, if there may be any.
def valueWith (inner : Option (Reader Value)) : Reader Value
  | '[' :: rest => do
    let item ← inner
    let (found,rest) ← elements item (rest.length + 1) rest
    return (.array found,rest)
  | '\x7b' :: rest => do inlineTable (← inner) rest
  | 't' :: 'r' :: 'u' :: 'e' :: rest => some (.boolean true,rest)
  | 'f' :: 'a' :: 'l' :: 's' :: 'e' :: rest => some (.boolean false,rest)
  | c :: rest =>
    if c == '\x22' || c == '\x27' then (string (c :: rest)).map (fun (text,rest) => (.string text,rest))
    else numberOrTime (c :: rest)
  | [] => none

def value : Nat → Reader Value
  | 0 => valueWith none
  | depth + 1 => valueWith (some (value depth))

inductive Statement where
  | pair (key : List String) (value : Value)
  | table (key : List String)
  | element (key : List String)

def statement : Reader Statement
  | '[' :: '[' :: rest => do
    let (key,rest) ← dottedKey deepest rest
    return (.element key,← expect ']' (← expect ']' rest))
  | '[' :: rest => do
    let (key,rest) ← dottedKey deepest rest
    return (.table key,← expect ']' rest)
  | text => do
    let ((key,value),rest) ← keyValue (value deepest) text
    return (.pair key value,rest)

-- One statement a line; lines without one are passed over. The number bounds how many lines there are.
def statements : Nat → List Char → Option (List Statement)
  | 0,_ => none
  | count + 1,text =>
    match skipSpace text with
    | [] => some []
    | c :: rest =>
      if c == '\n' || c == '\r' || c == '#' then do statements count (← closeLine (c :: rest))
      else do
        let (first,rest) ← statement (c :: rest)
        return first :: (← statements count (← closeLine rest))

-- The entries of the whole document, and the header that keys are under.
structure Building where
  entries : Entries := []
  current : List String := []

def Building.add (building : Building) : Statement → Option Building
  | .pair key value => do
    let entries ← within false (fun _ entries => assign key value entries) building.current .header building.entries
    return {building with entries := entries}
  | .table key => do return ⟨← openTable key building.entries,key⟩
  | .element key => do return ⟨← openElement key building.entries,key⟩

-- The entries of a document, or nothing when it is not well-formed, or when it is itself a point in
-- time. One byte order mark in front of it does not count.
def parse? (text : List Char) : Option (List (String × Value)) := do
  let text := match text with
    | '\uFEFF' :: rest => rest
    | text => text
  let found ← statements (text.length + 1) text
  let building ← found.foldlM Building.add {}
  match (Value.table (finishEntries building.entries)).resolve with
  | some (.table entries) => some entries
  | _ => none

end Recurrence.Toml
