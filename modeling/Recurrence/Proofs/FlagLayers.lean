import Recurrence.CommandLine.Run

namespace Recurrence
open Toml Settings

namespace Settings

theorem lookup_insert (key other : String) (value : Value) (entries : List (String × Value)) :
    (insert key value entries).lookup other = if other == key then some value else entries.lookup other := by
  have replaced (entries : List (String × Value)) :
      (entries.map (fun entry => if entry.1 == key then (key,value) else entry)).lookup other =
        if other == key && (entries.lookup key).isSome then some value else entries.lookup other := by
    induction entries with
    | nil => simp
    | cons entry rest ih =>
      obtain ⟨name,held⟩ := entry
      by_cases here : name = key <;> by_cases asked : other = name <;> grind
  unfold insert
  split
  case isTrue held => rw [replaced,held,Bool.and_true]
  case isFalse absent =>
    have nowhere : entries.lookup key = none := Option.not_isSome_iff_eq_none.mp absent
    rw [List.lookup_append]
    by_cases asked : other = key
    · subst asked
      simp [nowhere]
    · simp [List.lookup_cons,beq_false_of_ne asked]

-- A value that is set by name, in a section of the root.
def withMember (root : Value) (sectionName name : String) (value : Value) : Value :=
  .table (insert sectionName
    (.table (insert name value (entriesOf (((entriesOf root).lookup sectionName).getD nothing)))) (entriesOf root))

theorem addOverride_member {key sectionName name : String} {value : Value}
    (parsed : Path.parse? key = some ⟨sectionName,[.key name]⟩) (small : name.toLower = name)
    (leaf : ∀ entries, value ≠ .table entries) (root : Value) :
    addOverride root key value = .ok (withMember root sectionName name value) := by
  have merged (here : Value) : merge here name value = .table (insert name value (entriesOf here)) := by
    cases value <;> simp [merge,small] at leaf ⊢
  simp [addOverride,parsed,Path.set,update,merged,withMember]

variable {α : Type} {decode : Value → Option α} {place : Nat}

theorem require_ok_iff {root : Value} {sectionName name : String} {read : α} :
    require root sectionName name place decode = .ok read ↔
      ∃ found held, member? root sectionName 0 = some found ∧ member? found name place = some held ∧
        decode held = some read := by
  unfold require
  cases member? root sectionName 0 with
  | none => simp
  | some found =>
    cases inside : member? found name place with
    | none => simp [inside]
    | some held => cases decoded : decode held <;> simp [inside,decoded]

theorem member?_of_entries {whole held : Value} {name : String}
    (found : (entriesOf whole).lookup name = some held) : member? whole name place = some held := by
  cases whole with
  | table entries => exact found
  | _ => cases found

theorem require_withMember {root : Value} {sectionName name : String} {value : Value} {read : α}
    (found : require (withMember root sectionName name value) sectionName name place decode = .ok read) :
    decode value = some read := by
  obtain ⟨part,held,here,inside,decoded⟩ := require_ok_iff.mp found
  simp only [withMember,member?,lookup_insert,beq_self_eq_true,if_true,Option.some.injEq] at here
  subst here
  simp only [member?,lookup_insert,beq_self_eq_true,if_true,Option.some.injEq] at inside
  exact inside ▸ decoded

-- What is not set keeps its value. It can be lost, where a section that was a list becomes a table,
-- but then nothing takes its place.
theorem require_of_withMember {root : Value} {sectionName name otherSection other : String} {value : Value} {read : α}
    (different : otherSection = sectionName → other ≠ name)
    (found : require (withMember root sectionName name value) otherSection other place decode = .ok read) :
    require root otherSection other place decode = .ok read := by
  obtain ⟨part,held,here,inside,decoded⟩ := require_ok_iff.mp found
  rw [withMember,member?,lookup_insert] at here
  apply require_ok_iff.mpr
  by_cases same : otherSection = sectionName
  · subst same
    simp only [beq_self_eq_true,if_true,Option.some.injEq] at here
    subst here
    simp only [member?,lookup_insert,beq_iff_eq,if_neg (different rfl)] at inside
    cases whole : (entriesOf root).lookup otherSection with
    | none =>
      rw [whole] at inside
      cases inside
    | some part =>
      rw [whole,Option.getD_some] at inside
      exact ⟨part,held,member?_of_entries whole,member?_of_entries inside,decoded⟩
  · rw [if_neg (by simpa using same)] at here
    exact ⟨part,held,member?_of_entries here,inside,decoded⟩

-- A value that may be set.
def withChoice (root : Value) (sectionName name : String) : Option Value → Value
  | some value => withMember root sectionName name value
  | none => root

theorem require_of_withChoice {root : Value} {sectionName name otherSection other : String} {choice : Option Value}
    {read : α} (different : otherSection = sectionName → other ≠ name)
    (found : require (withChoice root sectionName name choice) otherSection other place decode = .ok read) :
    require root otherSection other place decode = .ok read := by
  cases choice with
  | none => exact found
  | some value => exact require_of_withMember different found

theorem bind_ok {β : Type} {result : Except Failure α} {next : α → Except Failure β} {value : β}
    (reached : (result >>= next) = .ok value) : ∃ middle, result = .ok middle ∧ next middle = .ok value := by
  cases result with
  | error failure => cases reached
  | ok middle => exact ⟨middle,rfl,reached⟩

theorem ok_of_toOption {result : Except Failure α} {value : α} (told : result.toOption = some value) :
    result = .ok value := by
  cases result with
  | error failure => cases told
  | ok other => exact congrArg Except.ok (Option.some.inj told)

theorem ofValue_ok {root : Value} {settings : Settings} (decoded : ofValue root = .ok settings) :
    require root "compile" "default_offset" 0 textOf? = .ok settings.defaultOffset ∧
      require root "output" "format" 0 formatOf? = .ok settings.format ∧
      require root "output" "show_unparsed" 1 flagOf? = .ok settings.showUnparsed ∧
      require root "output" "strict" 2 flagOf? = .ok settings.strict := by
  obtain ⟨_,offset,decoded⟩ := bind_ok decoded
  obtain ⟨_,format,decoded⟩ := bind_ok decoded
  obtain ⟨_,shown,decoded⟩ := bind_ok decoded
  obtain ⟨_,strict,decoded⟩ := bind_ok decoded
  cases decoded
  exact ⟨offset,format,shown,strict⟩

end Settings

namespace CommandLine

-- The defaults with the file that was named, if any.
def rootOf (files : String → Option String) (request : Request) : Except Failure Value :=
  match request.config with
  | none => .ok defaults
  | some path =>
    match files path with
    | some text => addFile defaults text
    | none => .error (.configuration .missingFile)

-- Where the settings come from: the flags that were given, else the root.
structure Layered (root : Value) (request : Request) (settings : Settings) : Prop where
  format : match request.format with
    | some format => settings.format = format
    | none => require root "output" "format" 0 formatOf? = .ok settings.format
  offset : match request.offset with
    | some offset => settings.defaultOffset = offset
    | none => require root "compile" "default_offset" 0 textOf? = .ok settings.defaultOffset
  strict : if request.strict then settings.strict = true
    else require root "output" "strict" 2 flagOf? = .ok settings.strict
  showUnparsed : require root "output" "show_unparsed" 1 flagOf? = .ok settings.showUnparsed

def flagged (root : Value) (request : Request) : Value :=
  let formatted := withChoice root "output" "format" (request.format.map (fun format => .string format.name))
  let placed := withChoice formatted "compile" "default_offset" (request.offset.map .string)
  withChoice placed "output" "strict" (if request.strict then some (.boolean true) else none)

theorem addFiles_layers (files : String → Option String) (request : Request) :
    addFiles defaults (layersOf files request) = rootOf files request := by
  unfold layersOf rootOf
  cases request.config with
  | none => cases request.format <;> cases request.offset <;> cases request.strict <;> rfl
  | some path =>
    dsimp only
    cases files path with
    | none => rfl
    | some text =>
      have added : (addFile defaults text).bind .ok = addFile defaults text := by
        cases addFile defaults text <;> rfl
      cases request.format <;> cases request.offset <;> cases request.strict <;> exact added

theorem addOverrides_layers (files : String → Option String) (request : Request) (root : Value) :
    addOverrides root (layersOf files request) = .ok (flagged root request) := by
  have format (text : String) (root : Value) : addOverride root "output.format" (.string text) =
      .ok (withMember root "output" "format" (.string text)) := addOverride_member rfl (by decide +kernel) (by simp) root
  have offset (text : String) (root : Value) : addOverride root "compile.default_offset" (.string text) =
      .ok (withMember root "compile" "default_offset" (.string text)) := addOverride_member rfl (by decide +kernel) (by simp) root
  have strict (root : Value) : addOverride root "output.strict" (.boolean true) =
      .ok (withMember root "output" "strict" (.boolean true)) := addOverride_member rfl (by decide +kernel) (by simp) root
  unfold layersOf flagged
  cases request.config <;> cases request.format <;> cases request.offset <;> cases request.strict <;>
    simp [addOverrides,bind,Except.bind,format,offset,strict,withChoice]

theorem load_layered {files : String → Option String} {request : Request} {settings : Settings}
    (loaded : Settings.load (layersOf files request) = .ok settings) :
    ∃ root, rootOf files request = .ok root ∧ Layered root request settings := by
  obtain ⟨root,based,later⟩ := bind_ok loaded
  obtain ⟨top,raised,decoded⟩ := bind_ok later
  rw [addFiles_layers] at based
  rw [addOverrides_layers] at raised
  cases raised
  obtain ⟨offset,format,shown,strict⟩ := ofValue_ok decoded
  refine ⟨root,based,?_,?_,?_,?_⟩
  · have chosen := require_of_withChoice (by simp) (require_of_withChoice (by simp) format)
    cases given : request.format with
    | none =>
      rw [given] at chosen
      exact chosen
    | some format =>
      rw [given] at chosen
      have named : formatOf? (.string format.name) = some format := by cases format <;> decide +kernel
      exact Option.some.inj ((require_withMember chosen).symm.trans named)
  · have chosen := require_of_withChoice (by simp) offset
    cases given : request.offset with
    | none =>
      rw [given] at chosen
      exact require_of_withChoice (by simp) chosen
    | some offset =>
      rw [given] at chosen
      have said : textOf? (.string offset) = some settings.defaultOffset := require_withMember chosen
      exact (Option.some.inj said).symm
  · cases given : request.strict with
    | false =>
      rw [flagged,given] at strict
      exact require_of_withChoice (by simp) (require_of_withChoice (by simp) strict)
    | true =>
      rw [flagged,given] at strict
      have said : flagOf? (.boolean true) = some settings.strict := require_withMember strict
      exact (Option.some.inj said).symm
  · exact require_of_withChoice (by simp) (require_of_withChoice (by simp) (require_of_withChoice (by simp) shown))

end CommandLine
end Recurrence
