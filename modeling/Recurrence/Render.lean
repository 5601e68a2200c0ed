import Recurrence.Render.Json
import Recurrence.Render.Yaml

namespace Recurrence

inductive Format where
  | expression
  | json
  | yaml
deriving DecidableEq, Repr

def Format.name : Format → String
  | .expression => "expression"
  | .json => "json"
  | .yaml => "yaml"

def Format.all : List Format := [.expression,.json,.yaml]

def Format.ofName? (name : String) : Option Format := Format.all.find? (fun format => format.name == name)

def Schedule.render (schedule : Schedule) : Format → String
  | .expression => schedule.expression
  | .json => Render.Json.object (Render.recordOf schedule)
  | .yaml => Render.Yaml.mapping (Render.recordOf schedule)

end Recurrence
