import Recurrence.Offset

namespace Recurrence

-- Why a configuration does not load.
inductive Misconfiguration where
  | missingFile
  | malformedFile
  | badKey (key : String)
  | badValue (key : String)
deriving DecidableEq, Repr

-- Compiling a phrase never fails; these are the failures around it.
inductive Failure where
  | invalidOffset (text : String)
  | configuration (cause : Misconfiguration)
  | undecodableInput
deriving DecidableEq, Repr

def Misconfiguration.message : Misconfiguration → String
  | .missingFile => "configuration file not found"
  | .malformedFile => "configuration file is not well-formed"
  | .badKey key => "cannot set '" ++ key ++ "'"
  | .badValue key => "missing or unusable value for '" ++ key ++ "'"

def Failure.message : Failure → String
  | .invalidOffset text => "Invalid UTC offset '" ++ text ++ "': expected ±HH:MM"
  | .configuration cause => "Configuration error: " ++ cause.message
  | .undecodableInput => "I/O error: stream did not contain valid UTF-8"

-- The offset that a text names; the failure keeps the text as it was given.
def Offset.parse (text : String) : Except Failure Offset :=
  match Offset.parse? text with
  | some offset => .ok offset
  | none => .error (.invalidOffset text)

theorem Offset.parse_error_iff {text : String} {failure : Failure} :
    Offset.parse text = .error failure ↔ Offset.parse? text = none ∧ failure = .invalidOffset text := by
  unfold Offset.parse
  split <;> rename_i found <;> simp [found,eq_comm]

end Recurrence
