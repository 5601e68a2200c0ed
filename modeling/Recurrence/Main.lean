import Recurrence.CommandLine.Run

open Recurrence CommandLine

-- The file that a request names, or nothing if it cannot be read.
def configText (arguments : List String) : IO (Option String) := do
  match read arguments with
  | .request request =>
    match request.config with
    | some path =>
      try return String.fromUTF8? (← IO.FS.readBinFile path)
      catch _ => return none
    | none => return none
  | _ => return none

-- Input is read only when there are no phrases among the arguments.
def inputBytes (arguments : List String) : IO ByteArray := do
  match read arguments with
  | .request request =>
    if request.phrases.isEmpty then
      let input ← IO.getStdin
      let mut bytes := ByteArray.empty
      let mut more := true
      while more do
        let chunk ← input.read 65536
        if chunk.isEmpty then more := false
        bytes := bytes ++ chunk
      return bytes
    else return .empty
  | _ => return .empty

def main (arguments : List String) : IO UInt32 := do
  let config ← configText arguments
  let input ← inputBytes arguments
  let outcome := run (fun _ => config) input arguments
  (← IO.getStdout).putStr outcome.output
  (← IO.getStderr).putStr outcome.errors
  return outcome.status.toUInt32
