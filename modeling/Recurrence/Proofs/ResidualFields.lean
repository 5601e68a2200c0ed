import Recurrence.Proofs.FieldEntries

namespace Recurrence
namespace Clause.Residual

-- What a segment says of a field.
def said : Field → Reading → Option Entry
  | .hour,.time time => some (.number time.hour)
  | .minute,.time time => some (.number time.minute)
  | .dayOfMonth,.days numbers => some (.days numbers)
  | _,_ => none

theorem lastOf_told (field : Field) (read : Reading) : lastOf (told read) field = said field read := by
  cases read <;> cases field <;> rfl

theorem take_get (zone : Offset) (segment : String) (later : Draft) (field : Field) :
    (take zone segment later).fields.get field = (said field (reading zone segment)).or (later.fields.get field) := by
  rw [take_told,Fields.get_write_last,lastOf_told]

theorem read_get (zone : Offset) (draft : Draft) (field : Field) : (read zone draft).fields.get field =
    ((segments draft.tokens).findSome? fun segment => said field (reading zone segment)).or (draft.fields.get field) := by
  unfold read
  induction segments draft.tokens with
  | nil => rfl
  | cons segment rest ih =>
    rw [List.foldr_cons,take_get,ih,List.findSome?_cons]
    cases said field (reading zone segment) <;> rfl

theorem read_named (zone : Offset) (draft : Draft) (kind : Calendar.Kind) :
    (read zone draft).fields.get kind.field = draft.fields.get kind.field := by
  have silent : (segments draft.tokens).findSome? (fun segment => said kind.field (reading zone segment)) = none := by
    rw [List.findSome?_eq_none_iff]
    intro segment _
    cases kind <;> cases reading zone segment <;> rfl
  rw [read_get,silent,Option.none_or]

end Clause.Residual

theorem Draft.schedule_timed {fields : Fields} (time : TimeOfDay) (enabled : fields.disabled = false) :
    (⟨[],(fields.set .hour (.number time.hour)).set .minute (.number time.minute)⟩ : Draft).schedule =
      ⟨toString time.minute.val,toString time.hour.val,fields.shown .dayOfMonth,fields.shown .month,
        fields.shown .dayOfWeek,""⟩ := by
  have still_enabled : ((fields.set .hour (.number time.hour)).set .minute (.number time.minute)).disabled = false := by
    rw [Fields.disabled_set,Fields.disabled_set,enabled]
  have said_minute : ((fields.set .hour (.number time.hour)).set .minute (.number time.minute)).get .minute =
      some (.number time.minute) := by simp [Fields.get_set]
  have said_hour : ((fields.set .hour (.number time.hour)).set .minute (.number time.minute)).get .hour =
      some (.number time.hour) := by simp [Fields.get_set]
  have minute := Fields.shown_entry said_minute trivial
  have hour := Fields.shown_entry said_hour trivial
  unfold Draft.schedule
  dsimp only
  rw [still_enabled,if_neg Bool.false_ne_true,minute,hour]
  rfl

end Recurrence
