import Recurrence.Proofs.CalendarItems
import Recurrence.Proofs.Conservation
import Recurrence.Proofs.FieldShape

namespace Recurrence

-- What is written last of a field, if anything is.
def lastOf (entries : List (Field × Entry)) (field : Field) : Option Entry := entries.reverse.lookup field

theorem lastOf_append (entries later : List (Field × Entry)) (field : Field) :
    lastOf (entries ++ later) field = (lastOf later field).or (lastOf entries field) := by
  rw [lastOf,List.reverse_append,List.lookup_append]
  rfl

theorem lastOf_single (field other : Field) (entry : Entry) :
    lastOf [(other,entry)] field = if field = other then some entry else none := by
  by_cases same : field = other
  · simp [lastOf,same]
  · simp [lastOf,List.lookup_cons,same,beq_false_of_ne same]

theorem lastOf_eq_none : lastOf entries field = none ↔ ∀ entry ∈ entries, entry.1 ≠ field := by
  rw [lastOf,List.lookup_eq_none_iff]
  simp only [List.mem_reverse,bne_iff_ne,ne_comm]

theorem mem_of_lastOf (last : lastOf entries field = some entry) : (field,entry) ∈ entries := by
  obtain ⟨later,earlier,split,_⟩ := List.lookup_eq_some_iff.mp last
  exact List.mem_reverse.mp (by simp [split])

namespace Fields

theorem eq_of_get {one two : Fields} (same : ∀ field, one.get field = two.get field)
    (disabled : one.disabled = two.disabled) : one = two := by
  have minute := same .minute
  have hour := same .hour
  have day := same .dayOfMonth
  have month := same .month
  have weekday := same .dayOfWeek
  cases one
  cases two
  cases disabled
  cases minute
  cases hour
  cases day
  cases month
  cases weekday
  rfl

theorem write_append (fields : Fields) (entries later : List (Field × Entry)) :
    fields.write (entries ++ later) = (fields.write entries).write later := List.foldl_append

theorem get_write_last (fields : Fields) (entries : List (Field × Entry)) (field : Field) :
    (fields.write entries).get field = (lastOf entries field).or (fields.get field) := by
  induction entries generalizing fields with
  | nil => rfl
  | cons first rest ih =>
    obtain ⟨other,entry⟩ := first
    have single : (fields.set other entry).get field = (lastOf [(other,entry)] field).or (fields.get field) := by
      rw [get_set,lastOf_single]
      split <;> rfl
    rw [← List.singleton_append,lastOf_append,Option.or_assoc,← single]
    exact ih (fields.set other entry)

theorem get_write (fields : Fields) (entries : List (Field × Entry)) (field : Field) :
    ((fields.write entries).get field = fields.get field ∧ ∀ entry ∈ entries, entry.1 ≠ field) ∨
      ∃ entry, (field,entry) ∈ entries ∧ (fields.write entries).get field = some entry := by
  rw [get_write_last]
  cases last : lastOf entries field with
  | none => exact .inl ⟨rfl,lastOf_eq_none.mp last⟩
  | some entry => exact .inr ⟨entry,mem_of_lastOf last,rfl⟩

theorem WellMade.write {fields : Fields} (made : fields.WellMade) (each : ∀ entry ∈ entries, entry.2.WellMade) :
    (fields.write entries).WellMade := by
  intro field entry known
  rcases fields.get_write entries field with ⟨kept,_⟩ | ⟨found,member,same⟩
  · exact made field entry (kept.symm.trans known)
  · rw [same] at known
    cases known
    exact each _ member

theorem chained_write (fields : Fields) (plain : ∀ entry ∈ entries, ¬ entry.2.Chained) (field : Field) :
    (fields.write entries).Chained field ↔ fields.Chained field ∧ ∀ entry ∈ entries, entry.1 ≠ field := by
  unfold Chained
  rcases fields.get_write entries field with ⟨kept,untouched⟩ | ⟨found,member,known⟩
  · rw [kept]
    exact ⟨fun chained => ⟨chained,untouched⟩,fun both => both.1⟩
  · rw [known]
    constructor
    · intro ⟨entry,same,chained⟩
      cases same
      exact absurd chained (plain _ member)
    · exact fun both => absurd rfl (both.2 _ member)

end Fields

namespace Clause

theorem Frequency.wholeUnit_plain (known : wholeUnit unit = some entries) :
    ∀ entry ∈ entries, entry.2.WellMade ∧ ¬ entry.2.Chained := by
  unfold wholeUnit at known
  split at known <;> cases known <;> simp [Entry.WellMade,Entry.Chained]

theorem Frequency.inIntervals_plain (known : inIntervals intervals unit = some entries) (nonempty : intervals ≠ [])
    (written : ∀ interval ∈ intervals, Numeral interval.toList) :
    ∀ entry ∈ entries, entry.2.WellMade ∧ ¬ entry.2.Chained := by
  unfold inIntervals at known
  split at known <;> cases known <;> simpa [Entry.WellMade,Entry.Chained] using ⟨nonempty,written⟩

theorem isNumeric_numeral (numeric : Frequency.isNumeric word = true) (sound : SoundWord word) :
    Numeral word.toList :=
  ⟨fun empty => sound.1 (String.toList_eq_nil_iff.mp empty),List.all_eq_true.mp numeric⟩

theorem Frequency.read_fields (draft : Draft) (sound : SoundWords draft.words) :
    ∃ entries, (read draft).fields = draft.fields.write entries ∧
      ∀ entry ∈ entries, entry.2.WellMade ∧ ¬ entry.2.Chained := by
  have step := read_step draft
  generalize read draft = next at step ⊢
  cases step with
  | idle => exact ⟨[],rfl,by simp⟩
  | dropped first => exact ⟨[],rfl,by simp⟩
  | whole first known => exact ⟨_,rfl,wholeUnit_plain known⟩
  | @counted before clause intervals unit entries after fields first within spoken some_interval numeric known =>
    refine ⟨_,rfl,inIntervals_plain known some_interval fun interval member => ?_⟩
    refine isNumeric_numeral (numeric interval member) (sound interval ?_)
    simp only [Draft.words,wordsOf_append,wordsOf_cons,spoken]
    simp [member]

theorem Calendar.entriesOf_made (kind : Kind) (names : List Name) (field : Field) :
    ∀ entry ∈ entriesOf field (kind.sorted (sort false names)), entry.2.WellMade := by
  unfold entriesOf
  rw [items_sort]
  intro entry member
  split at member
  · cases member
  · rename_i some_item
    rw [List.mem_singleton] at member
    subst member
    exact ⟨some_item,fun item => group_nonempty⟩

theorem Calendar.entries_made (tokens : List Token) : ∀ entry ∈ entries tokens, entry.2.WellMade := by
  intro entry member
  rw [entries_eq] at member
  rcases List.mem_append.mp member with member | member
  · exact entriesOf_made .weekday _ _ entry member
  · exact entriesOf_made .month _ _ entry member

theorem Parity.entries_plain (tokens : List Token) :
    ∀ entry ∈ entries tokens, entry.2.WellMade ∧ ¬ entry.2.Chained := by
  have plain : ∀ meaning ∈ meanings, meaning.2.2.WellMade ∧ ¬ meaning.2.2.Chained := by
    simp [meanings,Entry.WellMade,Entry.Chained]
  intro entry member
  obtain ⟨parity,unit,listed,_⟩ := (mem_entries tokens).mp member
  exact plain _ listed

theorem Residual.days_numerals {run : List Token} (sound : SoundWords (wordsOf run)) (nonempty : wordsOf run ≠ [])
    (said : reading zone (runText run) = .days numbers) :
    numbers ≠ [] ∧ ∀ number ∈ numbers, Numeral number.toList := by
  unfold reading at said
  split at said
  · cases said
  · split at said
    · rename_i digits
      cases said
      rw [runText,segmentWords_joined sound]
      refine ⟨nonempty,fun word member => ⟨fun empty => (sound word member).1 (String.toList_eq_nil_iff.mp empty),?_⟩⟩
      intro c inside
      have in_segment : c ∈ (runText run).toList := mem_joined member inside
      refine (Bool.or_eq_true_iff.mp (List.all_eq_true.mp digits c in_segment)).resolve_right ?_
      simp [(sound word member).2 c inside]
    · cases said

-- All that a segment says, in the order in which it is written.
def Residual.told : Reading → List (Field × Entry)
  | .time time => [(.hour,.number time.hour),(.minute,.number time.minute)]
  | .days numbers => [(.dayOfMonth,.days numbers)]
  | .other => []

theorem Residual.take_told (zone : Offset) (segment : String) (later : Draft) :
    (take zone segment later).fields = later.fields.write (told (reading zone segment)) := by
  unfold take
  cases reading zone segment <;> rfl

theorem Residual.read_told (zone : Offset) (draft : Draft) : (read zone draft).fields =
    draft.fields.write ((segments draft.tokens).reverse.flatMap fun segment => told (reading zone segment)) := by
  unfold read
  induction segments draft.tokens with
  | nil => rfl
  | cons segment rest ih =>
    rw [List.foldr_cons,take_told,ih,← Fields.write_append]
    simp

theorem Residual.told_clock (read : Reading) (member : entry ∈ told read) :
    entry.1 ∈ [.hour,.minute,.dayOfMonth] ∧ ¬ entry.2.Chained := by
  cases read with
  | time time =>
    simp only [told,List.mem_cons,List.not_mem_nil,or_false] at member
    rcases member with rfl | rfl <;> simp [Entry.Chained]
  | days numbers =>
    rw [List.mem_singleton.mp member]
    simp [Entry.Chained]
  | other => cases member

theorem Residual.told_made {said : Reading} (numerals : ∀ numbers, said = .days numbers →
    numbers ≠ [] ∧ ∀ number ∈ numbers, Numeral number.toList) : ∀ entry ∈ told said, entry.2.WellMade := by
  intro entry member
  cases said with
  | time time =>
    simp only [told,List.mem_cons,List.not_mem_nil,or_false] at member
    rcases member with rfl | rfl <;> trivial
  | days numbers =>
    rw [List.mem_singleton.mp member]
    exact numerals numbers rfl
  | other => cases member

theorem Residual.read_made (zone : Offset) (draft : Draft) (sound : SoundWords draft.words)
    (made : draft.fields.WellMade) : (read zone draft).fields.WellMade := by
  rw [read_told]
  refine made.write fun entry member => ?_
  obtain ⟨segment,listed,said⟩ := List.mem_flatMap.mp member
  refine told_made (fun numbers days => ?_) entry said
  rw [List.mem_reverse,segments_eq] at listed
  obtain ⟨run,inside,rfl⟩ := List.mem_map.mp (List.mem_filter.mp listed).1
  unfold Draft.words at sound
  rw [wordsOf_splitOnP] at sound
  have run_sound := sound.sublist (List.sublist_flatten_of_mem (List.mem_map_of_mem inside))
  refine days_numerals run_sound ?_ days
  intro silent
  simp [runText,silent,String.intercalate_nil] at listed

theorem Residual.read_chained (zone : Offset) (draft : Draft) (field : Field) :
    ((read zone draft).fields.Chained field → draft.fields.Chained field) ∧
      ∀ kind : Calendar.Kind, field = kind.field → draft.fields.Chained field →
        (read zone draft).fields.Chained field := by
  have clock : ∀ entry ∈ (segments draft.tokens).reverse.flatMap fun segment => told (reading zone segment),
      entry.1 ∈ [.hour,.minute,.dayOfMonth] ∧ ¬ entry.2.Chained := by
    intro entry member
    obtain ⟨segment,_,said⟩ := List.mem_flatMap.mp member
    exact told_clock _ said
  rw [read_told,Fields.chained_write _ fun entry member => (clock entry member).2]
  refine ⟨fun chained => chained.1,fun kind same chained => ⟨chained,fun entry member written => ?_⟩⟩
  have inside := (clock entry member).1
  rw [written,same] at inside
  cases kind <;> simp [Calendar.Kind.field] at inside

theorem Calendar.get_entriesOf (fields : Fields) (field other : Field) (parts : List Part) :
    (fields.write (entriesOf field parts)).get other =
      if other = field ∧ items parts ≠ [] then some (.listed (items parts)) else fields.get other := by
  unfold entriesOf
  split
  · rename_i empty
    simp [empty,Fields.write]
  · rename_i some_item
    have nonempty : items parts ≠ [] := some_item
    show (fields.set field (.listed (items parts))).get other = _
    rw [Fields.get_set]
    simp [nonempty]

theorem Calendar.get_read (draft : Draft) (kind : Kind) : (read draft).fields.get kind.field =
    if items (kind.sorted (sort false (draft.tokens.filterMap nameOf))) ≠ [] then
      some (.listed (items (kind.sorted (sort false (draft.tokens.filterMap nameOf)))))
    else draft.fields.get kind.field := by
  have written : (read draft).fields = (draft.fields.write (entriesOf .dayOfWeek
      (Kind.weekday.sorted (sort false (draft.tokens.filterMap nameOf))))).write (entriesOf .month
      (Kind.month.sorted (sort false (draft.tokens.filterMap nameOf)))) := by
    unfold read
    rw [entries_eq]
    exact Fields.write_append _ _ _
  rw [written,get_entriesOf,get_entriesOf]
  cases kind <;> simp [Kind.field]

theorem Calendar.entries_kind (member : entry ∈ entries tokens) : ∃ kind : Kind, entry.1 = kind.field := by
  have from_kind (kind : Kind) (parts : List Part) (listed : entry ∈ entriesOf kind.field parts) : entry.1 = kind.field := by
    unfold entriesOf at listed
    split at listed
    · cases listed
    · rw [List.mem_singleton.mp listed]
  rw [entries_eq] at member
  rcases List.mem_append.mp member with weekdays | months
  · exact ⟨.weekday,from_kind .weekday _ weekdays⟩
  · exact ⟨.month,from_kind .month _ months⟩

theorem Calendar.get_read_other (draft : Draft) (other : ∀ kind : Kind, field ≠ kind.field) :
    (read draft).fields.get field = draft.fields.get field := by
  refine Fields.get_write_of_not_mem _ _ _ fun entry member same => ?_
  obtain ⟨kind,known⟩ := entries_kind member
  exact other kind (same.symm.trans known)

theorem Calendar.read_chained (draft : Draft) (free : ∀ field, ¬ draft.fields.Chained field) (kind : Kind) :
    (read draft).fields.Chained kind.field ↔ Chained kind (draft.tokens.filterMap nameOf) := by
  rw [chained_iff]
  unfold Fields.Chained
  rw [get_read]
  split
  · simp [Entry.Chained]
  · rename_i empty
    rw [Decidable.not_not.mp empty]
    refine ⟨fun chained => absurd chained (free kind.field),?_⟩
    intro ⟨item,member,_⟩
    cases member

theorem Calendar.read_unchained (draft : Draft) (free : ∀ field, ¬ draft.fields.Chained field)
    (other : ∀ kind : Kind, field ≠ kind.field) : ¬ (read draft).fields.Chained field := by
  intro ⟨entry,known,chained⟩
  rw [get_read_other draft other] at known
  exact free field ⟨entry,known,chained⟩

end Clause
end Recurrence
