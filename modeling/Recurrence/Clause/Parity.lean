import Recurrence.Draft

namespace Recurrence.Clause.Parity

-- Every other value of a field, from the first odd or the first even one.
def meanings : List ((String × String) × (Field × Entry)) := [
  (("odd","minute"),(.minute,.alternate 1 59)), (("even","minute"),(.minute,.alternate 2 60)),
  (("odd","day"),(.dayOfMonth,.alternate 1 31)), (("even","day"),(.dayOfMonth,.alternate 2 30)),
  (("odd","month"),(.month,.alternate 1 11)), (("even","month"),(.month,.alternate 2 12))]

-- Two neighbours that are a parity and its unit.
def meaning? : Token → Token → Option (Field × Entry)
  | .word parity,.word unit => meanings.lookup (parity,unit)
  | _,_ => none

-- From left to right; the two positions of a pair are used and cannot pair again.
def entries : List Token → List (Field × Entry)
  | first :: second :: rest =>
    match meaning? first second with
    | some entry => entry :: entries rest
    | none => entries (second :: rest)
  | _ => []

def used : List Token → List Token
  | first :: second :: rest =>
    match meaning? first second with
    | some _ => .blank :: .blank :: used rest
    | none => first :: used (second :: rest)
  | tokens => tokens

def read (draft : Draft) : Draft := ⟨used draft.tokens,draft.fields.write (entries draft.tokens)⟩

end Recurrence.Clause.Parity
