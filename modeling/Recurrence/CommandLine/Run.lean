import Recurrence.CommandLine.Arguments
import Recurrence.Settings
import Recurrence.Trace

namespace Recurrence.CommandLine

-- All that a run leaves behind.
structure Outcome where
  status : Nat
  output : String
  errors : String
deriving DecidableEq, Repr

def help : String :=
  "Compile English recurrence phrases into cron expressions\n\n" ++
  "Usage: cronphrase [OPTIONS] [phrase]...\n\n" ++
  "Arguments:\n" ++
  "  [phrase]...  Phrases to compile (reads one per line from stdin when omitted)\n\n" ++
  "Options:\n" ++
  "  -c, --config <config>  Configuration file layered over the built-in defaults\n" ++
  "  -f, --format <format>  Output format [possible values: expression, json, yaml]\n" ++
  "  -o, --offset <offset>  UTC offset (±HH:MM) for clock times without a timezone\n" ++
  "      --strict           Exit with status 1 if any phrase is not fully parsed\n" ++
  "  -v, --verbose          Log each pipeline stage to stderr\n" ++
  "  -h, --help             Print help\n" ++
  "  -V, --version          Print version\n"

def version : String := "cronphrase 0.1.0\n"

-- The file that was named, then what was said on the command line.
def layersOf (files : String → Option String) (request : Request) : List Settings.Layer :=
  (match request.config with | some path => [.file (files path) true] | none => []) ++
  (match request.format with | some format => [.override "output.format" (.string format.name)] | none => []) ++
  (match request.offset with | some offset => [.override "compile.default_offset" (.string offset)] | none => []) ++
  (if request.strict then [.override "output.strict" (.boolean true)] else [])

-- A session writes as it goes, and may fail on the way. What it wrote before stays written.
structure Console where
  output : String := ""
  errors : String := ""
deriving DecidableEq, Repr

abbrev Session := ExceptT Failure (StateM Console)

def say (text : String) : Session Unit :=
  modify (fun console => {console with output := console.output ++ text})

def warn (text : String) : Session Unit :=
  modify (fun console => {console with errors := console.errors ++ text})

-- A line is decoded before anything is taken from it; without its blanks it is a phrase, unless
-- nothing is left.
def decodeLine (line : List UInt8) : Except Failure String :=
  match String.fromUTF8? line.toByteArray with
  | some text => .ok text
  | none => .error .undecodableInput

def phraseOf? (line : String) : Option String :=
  match Text.trim line.toList with
  | [] => none
  | phrase => some (String.ofList phrase)

def inputLines (input : ByteArray) : List (List UInt8) := input.data.toList.splitOn 10

-- The lines are read one after the other, up to the first that cannot be decoded: then there are no
-- phrases at all, however late that line stands.
def readPhrases : List String → List (List UInt8) → Except Failure (List String)
  | phrases,[] => .ok phrases.reverse
  | phrases,line :: rest => do
    match phraseOf? (← decodeLine line) with
    | some phrase => readPhrases (phrase :: phrases) rest
    | none => readPhrases phrases rest

-- Phrases among the arguments leave the input unread.
def phrasesFor (input : ByteArray) (request : Request) : Except Failure (List String) :=
  if request.phrases.isEmpty then readPhrases [] (inputLines input) else .ok request.phrases

-- The log of one phrase, for those who ask for it.
def logOf (zone : Offset) (phrase : String) : String :=
  String.join (((Trace.ofPhrase (some zone) phrase).filter (fun event => event.level == .debug)).map
    (fun event => event.line ++ "\n"))

-- One phrase: its schedule, which in YAML is a document of its own, and then the words that were not
-- understood, if they are to be shown. The answer is whether all of it was understood.
def reportPhrase (settings : Settings) (zone : Offset) (verbose : Bool) (phrase : String) : Session Bool := do
  let schedule := compile zone phrase
  if verbose then warn (logOf zone phrase)
  if settings.format = .yaml then say "---\n"
  say (schedule.render settings.format ++ "\n")
  if !schedule.fullyParsed && settings.showUnparsed then
    warn ("unparsed in '" ++ phrase ++ "': " ++ schedule.unparsed ++ "\n")
  return schedule.fullyParsed

-- One phrase after the other; none ends the session. The answer is told by all of them.
def reportPhrases (settings : Settings) (zone : Offset) (verbose : Bool) : Bool → List String → Session Bool
  | allParsed,[] => return allParsed
  | allParsed,phrase :: rest => do
    let parsed ← reportPhrase settings zone verbose phrase
    reportPhrases settings zone verbose (allParsed && parsed) rest

-- Whatever can fail is done before the first phrase is compiled. The answer is the status.
def serve (files : String → Option String) (input : ByteArray) (request : Request) : Session Nat := do
  let settings ← Settings.load (layersOf files request)
  let zone ← Offset.parse settings.defaultOffset
  let phrases ← phrasesFor input request
  let allParsed ← reportPhrases settings zone request.verbose true phrases
  return if settings.strict && !allParsed then 1 else 0

-- A failure adds its message to the errors.
def run (files : String → Option String) (input : ByteArray) (arguments : List String) : Outcome :=
  match read arguments with
  | .help => ⟨0,help,""⟩
  | .version => ⟨0,version,""⟩
  | .refused error => ⟨2,"",error.message ++ "\n"⟩
  | .request request =>
    match (serve files input request).run.run {} with
    | (.ok status,console) => ⟨status,console.output,console.errors⟩
    | (.error failure,console) => ⟨2,console.output,console.errors ++ failure.message ++ "\n"⟩

end Recurrence.CommandLine
