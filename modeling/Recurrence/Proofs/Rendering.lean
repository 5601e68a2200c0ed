import Recurrence.Proofs.JsonText
import Recurrence.Proofs.YamlText
import Recurrence.Render

namespace Recurrence
open Render

namespace Schedule
variable {schedule other : Schedule}

theorem writable (single : schedule.OneLine) : Yaml.Writable (recordOf schedule) where
  nonempty := List.cons_ne_nil _ _
  single := recordOf_oneLine single
  keys := fun _ member => (recordOf_key member).2

theorem read_json (schedule : Schedule) : Json.read? (schedule.render .json) = some (recordOf schedule) :=
  Json.read_object (List.cons_ne_nil _ _)

theorem read_yaml (single : schedule.OneLine) : Yaml.read? (schedule.render .yaml) = some (recordOf schedule) :=
  Yaml.read_mapping (writable single)

theorem render_inj {read? : String → Option Record} {format : Format}
    (one : read? (schedule.render format) = some (recordOf schedule))
    (two : read? (other.render format) = some (recordOf other)) :
    schedule.render format = other.render format ↔ schedule = other := by
  refine ⟨fun same => recordOf_inj.mp ?_,fun same => by rw [same]⟩
  rw [same,two] at one
  exact (Option.some.inj one).symm

theorem json_inj : schedule.render .json = other.render .json ↔ schedule = other :=
  render_inj (read_json schedule) (read_json other)

theorem yaml_inj (single : schedule.OneLine) (other_single : other.OneLine) :
    schedule.render .yaml = other.render .yaml ↔ schedule = other :=
  render_inj (read_yaml single) (read_yaml other_single)

theorem yaml_lines (single : schedule.OneLine) :
    (schedule.render .yaml).toList.splitOn '\n' = (recordOf schedule).map Yaml.entryLine :=
  Yaml.mapping_lines (writable single)

theorem yaml_line (single : schedule.OneLine) :
    ∀ line ∈ (schedule.render .yaml).toList.splitOn '\n', line ≠ [] ∧ ∀ c ∈ line, Text.isLineChar c = true := by
  rw [yaml_lines single]
  intro line member
  obtain ⟨entry,listed,rfl⟩ := List.mem_map.mp member
  obtain ⟨name,value⟩ := recordOf_oneLine single entry listed
  exact ⟨List.append_ne_nil_of_right_ne_nil _ (List.cons_ne_nil _ _),Yaml.entryLine_onLine name value⟩

end Schedule

theorem compile_unparsed_empty (zone : Offset) (phrase : String) :
    (compile zone phrase).fullyParsed = true ↔ (compile zone phrase).unparsed = "" := by
  obtain ⟨sound,_,joined⟩ := compile_leftover zone phrase
  rw [compile_fullyParsed,joined]
  exact (joined_eq_empty sound).symm

-- The two texts of a compiled phrase lose nothing. JSON stands on one line, YAML on eight without a line break
-- behind the last, and both give the record back, in which the expression is made of the five fields.
theorem renderings_lossless (zone other_zone : Offset) (phrase other_phrase : String) :
    ((compile zone phrase).render .json = (compile other_zone other_phrase).render .json ↔
      compile zone phrase = compile other_zone other_phrase) ∧
    ((compile zone phrase).render .yaml = (compile other_zone other_phrase).render .yaml ↔
      compile zone phrase = compile other_zone other_phrase) ∧
    (∀ c ∈ ((compile zone phrase).render .json).toList, Text.isLineChar c = true) ∧
    (((compile zone phrase).render .yaml).toList.splitOn '\n').length = 8 ∧
    (∀ line ∈ ((compile zone phrase).render .yaml).toList.splitOn '\n', line ≠ [] ∧ ∀ c ∈ line, Text.isLineChar c = true) ∧
    ((compile zone phrase).render .yaml).toList = Text.trimEnd (Yaml.document (recordOf (compile zone phrase))).toList ∧
    Json.read? ((compile zone phrase).render .json) = some (recordOf (compile zone phrase)) ∧
    Yaml.read? ((compile zone phrase).render .yaml) = some (recordOf (compile zone phrase)) ∧
    ["minute","hour","day_of_month","month","day_of_week"].map (fun key => (recordOf (compile zone phrase)).lookup key) =
      (compile zone phrase).fields.map (fun field => some (Scalar.text field)) ∧
    (recordOf (compile zone phrase)).lookup "expression" = some (.text (" ".intercalate (compile zone phrase).fields)) ∧
    (recordOf (compile zone phrase)).lookup "unparsed" = some (.text (compile zone phrase).unparsed) ∧
    ((recordOf (compile zone phrase)).lookup "fully_parsed" = some (.flag true) ↔ (compile zone phrase).unparsed = "") := by
  have single := compile_onLine zone phrase
  have other_single := compile_onLine other_zone other_phrase
  have parsed := compile_unparsed_empty zone phrase
  generalize compile zone phrase = schedule at single parsed ⊢
  generalize compile other_zone other_phrase = other at other_single ⊢
  refine ⟨Schedule.json_inj,Schedule.yaml_inj single other_single,Json.object_onLine (recordOf_oneLine single),?_,
    Schedule.yaml_line single,(Yaml.trimEnd_document (Schedule.writable single)).symm,schedule.read_json,
    Schedule.read_yaml single,rfl,rfl,rfl,?_⟩
  · rw [Schedule.yaml_lines single]
    rfl
  · rw [← parsed]
    have flag : (recordOf schedule).lookup "fully_parsed" = some (.flag schedule.fullyParsed) := rfl
    simp only [flag,Option.some.injEq,Scalar.flag.injEq]

end Recurrence
