import Recurrence.Settings.Path
import Recurrence.Toml.Document
import Recurrence.Render
import Recurrence.Failure

namespace Recurrence

-- How phrases are read, and how their schedules are reported. The offset is text until it is needed.
structure Settings where
  defaultOffset : String
  format : Format
  showUnparsed : Bool
  strict : Bool
deriving DecidableEq, Repr

namespace Settings
open Toml

-- What is in force where nothing else is said.
def defaults : Value := .table [
  ("compile",.table [("default_offset",.string "+00:00")]),
  ("output",.table [
    ("format",.string "expression"), ("show_unparsed",.boolean true), ("strict",.boolean false)])]

-- A layer over what is in force: a file, or one value set by name. A file that does not exist has no
-- text, and may be missing unless it is required.
inductive Layer where
  | file (text : Option String) (required : Bool)
  | override (key : String) (value : Value)

-- The keys of a file are read as paths; one that is no path stands for itself.
def addEntry (root : Value) (entry : String × Value) : Option Value :=
  match Path.parse? entry.1 with
  | some path => path.set root entry.2
  | none => some (merge root entry.1 entry.2)

def addFile (root : Value) (text : String) : Except Failure Value :=
  match (parse? text.toList).bind (fun entries => entries.foldlM addEntry root) with
  | some root => .ok root
  | none => .error (.configuration .malformedFile)

def addOverride (root : Value) (key : String) (value : Value) : Except Failure Value :=
  match (Path.parse? key).bind (fun path => path.set root value) with
  | some root => .ok root
  | none => .error (.configuration (.badKey key))

-- Files count in their order, and before every value that is set by name.
def addFiles (root : Value) : List Layer → Except Failure Value
  | [] => .ok root
  | .file none true :: _ => .error (.configuration .missingFile)
  | .file none false :: rest => addFiles root rest
  | .file (some text) _ :: rest => do addFiles (← addFile root text) rest
  | .override _ _ :: rest => addFiles root rest
def addOverrides (root : Value) : List Layer → Except Failure Value
  | [] => .ok root
  | .file _ _ :: rest => addOverrides root rest
  | .override key value :: rest => do addOverrides (← addOverride root key value) rest

-- Any value with a text of its own is good for a text.
def textOf? : Value → Option String
  | .string text => some text
  | .boolean flag => some (Render.flagText flag)
  | .integer n => some (toString n)
  | .float f => some (Decimal.floatText f)
  | .datetime text => some text
  | .array _ | .table _ => none

-- Numbers other than zero are true, and so are the usual words, in any case.
def flagOf? : Value → Option Bool
  | .boolean flag => some flag
  | .integer n => some (n != 0)
  | .float f => some (f != 0.0)
  | .string text | .datetime text =>
    if ["1","true","on","yes"].contains text.toLower then some true
    else if ["0","false","off","no"].contains text.toLower then some false
    else none
  | .array _ | .table _ => none

-- A format goes by its name in any case; the name may also be the only key of a table.
def formatOf? : Value → Option Format
  | .string text => Format.ofName? text.toLower
  | .table [(name,_)] => Format.ofName? name.toLower
  | _ => none

-- A member of a section: by its name in a table, by its place in a list.
def member? (whole : Value) (name : String) (place : Nat) : Option Value :=
  match whole with
  | .table entries => entries.lookup name
  | .array elements => elements[place]?
  | _ => none

def require (root : Value) (sectionName name : String) (place : Nat) (decode : Value → Option α) : Except Failure α :=
  match (member? root sectionName 0).bind (fun found => (member? found name place).bind decode) with
  | some value => .ok value
  | none => .error (.configuration (.badValue (sectionName ++ "." ++ name)))

def ofValue (root : Value) : Except Failure Settings := do
  return {
    defaultOffset := ← require root "compile" "default_offset" 0 textOf?
    format := ← require root "output" "format" 0 formatOf?
    showUnparsed := ← require root "output" "show_unparsed" 1 flagOf?
    strict := ← require root "output" "strict" 2 flagOf?}

def load (layers : List Layer) : Except Failure Settings := do
  ofValue (← addOverrides (← addFiles defaults layers) layers)

end Settings
end Recurrence
