import Recurrence.Render

namespace Recurrence.CommandLine

-- What the arguments ask for. Phrases keep their order, wherever options stand between them.
structure Request where
  phrases : List String := []
  config : Option String := none
  format : Option Format := none
  offset : Option String := none
  strict : Bool := false
  verbose : Bool := false
deriving DecidableEq, Repr

inductive UsageError where
  | unknown (argument : String)
  | repeated (name : String)
  | valueMissing (name : String)
  | valueUnwanted (name : String)
  | formatUnknown (value : String)
deriving DecidableEq, Repr

def UsageError.message : UsageError → String
  | .unknown argument => "error: unexpected argument '" ++ argument ++ "' found"
  | .repeated name => "error: the argument '--" ++ name ++ "' cannot be used multiple times"
  | .valueMissing name => "error: a value is required for '--" ++ name ++ "' but none was supplied"
  | .valueUnwanted name => "error: unexpected value for '--" ++ name ++ "' found; no more were expected"
  | .formatUnknown value => "error: invalid value '" ++ value ++ "' for '--format'"

-- Arguments are taken one after the other. The first that is wrong, or that asks for information,
-- decides.
inductive Reading where
  | request (request : Request)
  | help
  | version
  | refused (error : UsageError)
deriving DecidableEq, Repr

-- Options that need a value, and switches that take none.
inductive Setting where
  | config
  | format
  | offset
deriving DecidableEq, Repr

inductive Switch where
  | strict
  | verbose
deriving DecidableEq, Repr

inductive Item where
  | setting (setting : Setting)
  | switch (switch : Switch)
  | help
  | version
deriving DecidableEq, Repr

def Item.ofLong? : String → Option Item
  | "config" => some (.setting .config)
  | "format" => some (.setting .format)
  | "offset" => some (.setting .offset)
  | "strict" => some (.switch .strict)
  | "verbose" => some (.switch .verbose)
  | "help" => some .help
  | "version" => some .version
  | _ => none

def Item.ofShort? : Char → Option Item
  | 'c' => some (.setting .config)
  | 'f' => some (.setting .format)
  | 'o' => some (.setting .offset)
  | 'v' => some (.switch .verbose)
  | 'h' => some .help
  | 'V' => some .version
  | _ => none

def Setting.name : Setting → String
  | .config => "config"
  | .format => "format"
  | .offset => "offset"

def Switch.name : Switch → String
  | .strict => "strict"
  | .verbose => "verbose"

-- Only an offset may start with a hyphen: a value behind a space that does is no value of the others.
-- A hyphen alone is a value like any other.
def Setting.takes (setting : Setting) (argument : String) : Bool :=
  match setting,argument.toList with
  | .offset,_ => true
  | _,'-' :: _ :: _ => false
  | _,_ => true

-- A setting is given once; formats go by their exact names.
def Request.set (request : Request) : Setting → String → Except UsageError Request
  | .config,value =>
    if request.config.isSome then .error (.repeated "config") else .ok {request with config := some value}
  | .offset,value =>
    if request.offset.isSome then .error (.repeated "offset") else .ok {request with offset := some value}
  | .format,value =>
    if request.format.isSome then .error (.repeated "format")
    else match Format.ofName? value with
    | some format => .ok {request with format := some format}
    | none => .error (.formatUnknown value)

def Request.turnOn (request : Request) : Switch → Except UsageError Request
  | .strict => if request.strict then .error (.repeated "strict") else .ok {request with strict := true}
  | .verbose => if request.verbose then .error (.repeated "verbose") else .ok {request with verbose := true}

-- Where one argument leaves the reading: done with, waiting for a value, or decided.
inductive Taken where
  | done (request : Request)
  | awaiting (setting : Setting) (request : Request)
  | decided (reading : Reading)
deriving DecidableEq, Repr

def Taken.ofExcept : Except UsageError Request → Taken
  | .ok request => .done request
  | .error error => .decided (.refused error)

-- Letters behind one hyphen. Switches may be joined; what follows the letter of a setting is its
-- value, with or without an equals sign.
def takeLetters (argument : String) : List Char → Request → Taken
  | [],request => .done request
  | letter :: rest,request =>
    match Item.ofShort? letter with
    | none => .decided (.refused (.unknown argument))
    | some .help => .decided .help
    | some .version => .decided .version
    | some (.switch switch) =>
      match request.turnOn switch with
      | .ok request => takeLetters argument rest request
      | .error error => .decided (.refused error)
    | some (.setting setting) =>
      match rest with
      | [] => .awaiting setting request
      | '=' :: value => .ofExcept (request.set setting (String.ofList value))
      | value => .ofExcept (request.set setting (String.ofList value))

-- A name behind two hyphens, and its value if an equals sign follows.
def takeName (argument : String) (text : List Char) (request : Request) : Taken :=
  let value := match text.dropWhile (· != '=') with
    | [] => none
    | _ :: value => some (String.ofList value)
  match Item.ofLong? (String.ofList (text.takeWhile (· != '='))),value with
  | none,_ => .decided (.refused (.unknown argument))
  | some .help,none => .decided .help
  | some .version,none => .decided .version
  | some (.switch switch),none => .ofExcept (request.turnOn switch)
  | some (.setting setting),none => .awaiting setting request
  | some (.setting setting),some value => .ofExcept (request.set setting value)
  | some .help,some _ => .decided (.refused (.valueUnwanted "help"))
  | some .version,some _ => .decided (.refused (.valueUnwanted "version"))
  | some (.switch switch),some _ => .decided (.refused (.valueUnwanted switch.name))

-- A hyphen alone, and everything without one in front, is a phrase.
def takeArgument (argument : String) (request : Request) : Taken :=
  match argument.toList with
  | '-' :: '-' :: text => takeName argument text request
  | '-' :: letter :: rest => takeLetters argument (letter :: rest) request
  | _ => .done {request with phrases := request.phrases ++ [argument]}

-- Two hyphens alone end the options: all arguments behind them are phrases.
def readFrom : Request → List String → Reading
  | request,[] => .request request
  | request,argument :: rest =>
    if argument = "--" then .request {request with phrases := request.phrases ++ rest}
    else match takeArgument argument request with
    | .decided reading => reading
    | .done request => readFrom request rest
    | .awaiting setting request =>
      match rest with
      | [] => .refused (.valueMissing setting.name)
      | value :: rest =>
        if setting.takes value then
          match request.set setting value with
          | .ok request => readFrom request rest
          | .error error => .refused error
        else .refused (.valueMissing setting.name)

def read (arguments : List String) : Reading := readFrom {} arguments

end Recurrence.CommandLine
