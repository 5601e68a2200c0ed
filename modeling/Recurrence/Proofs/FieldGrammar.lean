import Recurrence.Proofs.FieldEntries
import Recurrence.Proofs.Never

namespace Recurrence

theorem stage_made (zone : Offset) (stage : Stage) (draft : Draft) (sound : SoundWords draft.words)
    (made : draft.fields.WellMade) : (stage.run zone draft).fields.WellMade := by
  cases stage with
  | markers => exact made
  | frequency =>
    obtain ⟨entries,written,plain⟩ := Clause.Frequency.read_fields draft sound
    have after := made.write fun entry member => (plain entry member).1
    rwa [← written] at after
  | calendar => exact made.write (Clause.Calendar.entries_made draft.tokens)
  | parity => exact made.write fun entry member => (Clause.Parity.entries_plain draft.tokens entry member).1
  | never =>
    show (Clause.Never.read draft).fields.WellMade
    unfold Clause.Never.read
    split
    · intro field entry known
      rw [Fields.get_disable] at known
      exact made field entry known
    · exact made
  | residual => exact Clause.Residual.read_made zone draft sound made

theorem runAll_made (zone : Offset) (stages : List Stage) (draft : Draft) (sound : SoundWords draft.words)
    (made : draft.fields.WellMade) : (Stage.runAll zone stages draft).fields.WellMade := by
  induction stages generalizing draft with
  | nil => exact made
  | cons stage rest ih =>
    exact ih (stage.run zone draft) (sound.sublist (stage_kept zone stage draft sound).sublist)
      (stage_made zone stage draft sound made)

theorem names_kept (zone : Offset) (draft : Draft) (sound : SoundWords draft.words) :
    (Stage.runAll zone [.markers,.frequency] draft).tokens.filterMap Clause.Calendar.nameOf =
      draft.tokens.filterMap Clause.Calendar.nameOf := by
  have kept : Kept (fun word => Stage.uses .markers word || Stage.uses .frequency word) draft.words
      (Stage.runAll zone [.markers,.frequency] draft).words := by
    refine runAll_kept zone _ draft sound fun stage member word used => ?_
    rcases List.mem_cons.mp member with rfl | member
    · simp [used]
    · rw [List.mem_singleton.mp member] at used
      simp [used]
  have other : ∀ word, (Stage.uses .markers word || Stage.uses .frequency word) = true →
      Clause.Calendar.Name.ofWord? word = none := by
    intro word used
    refine Decidable.byContradiction fun named => ?_
    have names : ∀ name ∈ Lexicon.weekdays ++ Lexicon.months ++ [Lexicon.range],
        (Stage.uses .markers name || Stage.uses .frequency name) = false := by decide
    have listed := named_words (Option.isSome_iff_ne_none.mpr named)
    rw [names word (by simpa [or_assoc] using listed)] at used
    cases used
  have same := kept.filterMap other
  unfold Draft.words wordsOf at same
  rwa [List.filterMap_filterMap,List.filterMap_filterMap] at same

theorem calendar_chained (zone : Offset) (tokens : List Token) (sound : SoundWords (wordsOf tokens)) (field : Field) :
    (Stage.runAll zone [.markers,.frequency,.calendar] ⟨tokens,{}⟩).fields.Chained field ↔
      ∃ kind : Clause.Calendar.Kind, field = kind.field ∧
        Clause.Calendar.Chained kind (tokens.filterMap Clause.Calendar.nameOf) := by
  have names := names_kept zone ⟨tokens,{}⟩ sound
  have settled : SoundWords (Clause.Markers.read ⟨tokens,{}⟩).words := sound.sublist (markers_kept tokens).sublist
  obtain ⟨entries,written,plain⟩ := Clause.Frequency.read_fields _ settled
  have free : ∀ field, ¬ (Stage.runAll zone [.markers,.frequency] ⟨tokens,{}⟩).fields.Chained field := by
    intro field
    show ¬ (Clause.Frequency.read (Clause.Markers.read ⟨tokens,{}⟩)).fields.Chained field
    rw [written,Fields.chained_write _ fun entry member => (plain entry member).2]
    intro ⟨⟨entry,known,_⟩,_⟩
    rw [show (Clause.Markers.read ⟨tokens,{}⟩).fields = {} from rfl,Fields.get_empty] at known
    cases known
  show (Clause.Calendar.read (Stage.runAll zone [.markers,.frequency] ⟨tokens,{}⟩)).fields.Chained field ↔ _
  by_cases listed : ∃ kind : Clause.Calendar.Kind, field = kind.field
  · obtain ⟨kind,rfl⟩ := listed
    rw [Clause.Calendar.read_chained _ free,names]
    refine ⟨fun chained => ⟨kind,rfl,chained⟩,?_⟩
    intro ⟨other,same,chained⟩
    have equal : kind = other := by cases kind <;> cases other <;> first | rfl | cases same
    exact equal ▸ chained
  · refine ⟨fun chained => absurd chained (Clause.Calendar.read_unchained _ free fun kind same => listed ⟨kind,same⟩),?_⟩
    intro ⟨kind,same,_⟩
    exact absurd ⟨kind,same⟩ listed

-- Whether an `odd month` or an `even month` is left for the stage behind it to read.
def Phrase.AlternatesMonths (zone : Offset) (tokens : List Token) : Prop :=
  ∃ parity ∈ ["odd","even"], [.word parity,.word "month"] <:+:
    (Stage.runAll zone [.markers,.frequency,.calendar] ⟨tokens,{}⟩).tokens

theorem runAll_chained (zone : Offset) (tokens : List Token) (sound : SoundWords (wordsOf tokens)) (field : Field) :
    (Stage.runAll zone Stage.inOrder ⟨tokens,{}⟩).fields.Chained field ↔
      (∃ kind : Clause.Calendar.Kind, field = kind.field ∧
        Clause.Calendar.Chained kind (tokens.filterMap Clause.Calendar.nameOf)) ∧
      (field = .month → ¬ Phrase.AlternatesMonths zone tokens) := by
  have before := calendar_chained zone tokens sound field
  have split : Stage.runAll zone Stage.inOrder ⟨tokens,{}⟩ = Clause.Residual.read zone (Clause.Never.read
      (Clause.Parity.read (Stage.runAll zone [.markers,.frequency,.calendar] ⟨tokens,{}⟩))) := rfl
  unfold Phrase.AlternatesMonths
  rw [split,← Clause.Parity.says_month]
  generalize Stage.runAll zone [.markers,.frequency,.calendar] ⟨tokens,{}⟩ = late at before ⊢
  have parity : (Clause.Parity.read late).fields.Chained field ↔
      late.fields.Chained field ∧ ∀ entry ∈ Clause.Parity.entries late.tokens, entry.1 ≠ field :=
    Fields.chained_write _ (fun entry member => (Clause.Parity.entries_plain _ entry member).2) field
  have never (draft : Draft) : (Clause.Never.read draft).fields.Chained field ↔ draft.fields.Chained field := by
    unfold Clause.Never.read
    split
    · unfold Fields.Chained
      rw [Fields.get_disable]
    · exact Iff.rfl
  have residual := Clause.Residual.read_chained zone (Clause.Never.read (Clause.Parity.read late)) field
  rw [never,parity,before] at residual
  constructor
  · intro chained
    obtain ⟨listed,untouched⟩ := residual.1 chained
    refine ⟨listed,?_⟩
    rintro rfl ⟨entry,member,month⟩
    exact untouched entry member month
  · rintro ⟨⟨kind,rfl,chained⟩,unreplaced⟩
    refine residual.2 kind rfl ⟨⟨kind,rfl,chained⟩,?_⟩
    intro entry member same
    cases kind with
    | weekday => exact Clause.Parity.silent_on_weekdays late.tokens entry member same
    | month => exact unreplaced rfl ⟨entry,member,same⟩

theorem unchained_iff (zone : Offset) (tokens : List Token) (sound : SoundWords (wordsOf tokens)) :
    (∀ field, ¬ (Stage.runAll zone Stage.inOrder ⟨tokens,{}⟩).fields.Chained field) ↔
      ¬ Clause.Calendar.Chained .weekday (tokens.filterMap Clause.Calendar.nameOf) ∧
        (¬ Clause.Calendar.Chained .month (tokens.filterMap Clause.Calendar.nameOf) ∨
          Phrase.AlternatesMonths zone tokens) := by
  have chained := runAll_chained zone tokens sound
  constructor
  · intro unchained
    refine ⟨fun weekdays => ?_,?_⟩
    · exact unchained .dayOfWeek ((chained _).mpr ⟨⟨.weekday,rfl,weekdays⟩,fun same => by cases same⟩)
    · by_cases replaced : Phrase.AlternatesMonths zone tokens
      · exact .inr replaced
      · exact .inl fun months => unchained .month ((chained _).mpr ⟨⟨.month,rfl,months⟩,fun _ => replaced⟩)
  · intro ⟨weekdays,months⟩ field long
    obtain ⟨⟨kind,rfl,found⟩,unreplaced⟩ := (chained field).mp long
    cases kind with
    | weekday => exact weekdays found
    | month => exact months.elim (fun unchained => unchained found) (unreplaced rfl)

theorem clock_unchained (zone : Offset) (tokens : List Token) (sound : SoundWords (wordsOf tokens)) :
    ∀ field ∈ Field.all.take 3, ¬ (Stage.runAll zone Stage.inOrder ⟨tokens,{}⟩).fields.Chained field := by
  intro field among long
  obtain ⟨⟨kind,rfl,_⟩,_⟩ := (runAll_chained zone tokens sound field).mp long
  revert among
  cases kind <;> decide

theorem cancelled_iff (zone : Offset) (tokens : List Token) (sound : SoundWords (wordsOf tokens)) :
    (Stage.runAll zone Stage.inOrder ⟨tokens,{}⟩).fields.disabled = true ↔ Clause.Never.never ∈ tokens := by
  refine ⟨fun disabled => ?_,fun member => (runAll_never zone ⟨tokens,{}⟩ member sound).1⟩
  exact (runAll_disabled zone Stage.inOrder ⟨tokens,{}⟩ sound disabled).resolve_left Bool.false_ne_true

theorem never_shaped (unparsed : String) : ∀ text ∈ (Schedule.never unparsed).fields, Shaped text.toList := by
  have numerals : ∀ text ∈ ["0","0","31","2","0"], Numeral text.toList := by decide
  intro text member
  simpa [String.intercalate_singleton] using Entry.shaped_numbers (List.cons_ne_nil text [])
    (by simpa using numerals text member)

theorem schedule_enabled {draft : Draft} (enabled : ¬ draft.fields.disabled = true) :
    draft.schedule.fields = Field.all.map draft.fields.shown := by
  unfold Draft.schedule
  rw [if_neg enabled]
  rfl

theorem schedule_made {draft : Draft} (made : draft.fields.WellMade) :
    ∀ text ∈ draft.schedule.fields, ∃ entry : Entry, entry.WellMade ∧ text = entry.text := by
  intro text member
  by_cases disabled : draft.fields.disabled = true
  · rw [schedule_disabled disabled] at member
    have numbers : ∀ text ∈ (Schedule.never draft.unparsed).fields, ∃ n : Nat, text = (Entry.number n).text := by
      simp only [Schedule.never,Schedule.fields,List.mem_cons,List.not_mem_nil,or_false]
      rintro text (rfl | rfl | rfl | rfl | rfl)
      exacts [⟨0,rfl⟩,⟨0,rfl⟩,⟨31,rfl⟩,⟨2,rfl⟩,⟨0,rfl⟩]
    obtain ⟨n,written⟩ := numbers text member
    exact ⟨.number n,trivial,written⟩
  · rw [schedule_enabled disabled] at member
    obtain ⟨field,_,rfl⟩ := List.mem_map.mp member
    exact Fields.shown_made made field

theorem shown_shaped (made : Fields.WellMade fields) (chosen : List Field) :
    (∀ text ∈ chosen.map fields.shown, Shaped text.toList) ↔ ∀ field ∈ chosen, ¬ fields.Chained field := by
  simp only [List.mem_map,forall_exists_index,and_imp,forall_apply_eq_imp_iff₂,Fields.shown_shaped_iff made]

-- Every field of a compiled phrase has a text, and those for the clock and for the days of the month
-- always have the shape of a field. So have all five, except that range words can chain more than two
-- weekdays or months: then the schedule is in order only if it is cancelled, or, for the months, if
-- something else is said of them.
theorem field_shapes (zone : Offset) (phrase : String) :
    (∀ text ∈ (compile zone phrase).fields, text ≠ "") ∧
    (∀ text ∈ (compile zone phrase).fields.take 3, Shaped text.toList) ∧
    ((∀ text ∈ (compile zone phrase).fields, Shaped text.toList) ↔
      Clause.Never.never ∈ Phrase.lex phrase ∨
        ¬ Clause.Calendar.Chained .weekday ((Phrase.lex phrase).filterMap Clause.Calendar.nameOf) ∧
          (¬ Clause.Calendar.Chained .month ((Phrase.lex phrase).filterMap Clause.Calendar.nameOf) ∨
            Phrase.AlternatesMonths zone (Phrase.lex phrase))) := by
  have sound := Phrase.lex_sound phrase
  unfold compile compileTokens
  generalize Phrase.lex phrase = tokens at sound ⊢
  have made := runAll_made zone Stage.inOrder ⟨tokens,{}⟩ sound (by intro field entry known; cases field <;> cases known)
  have cancelled := cancelled_iff zone tokens sound
  have clock := clock_unchained zone tokens sound
  rw [← unchained_iff zone tokens sound]
  generalize Stage.runAll zone Stage.inOrder ⟨tokens,{}⟩ = last at made cancelled clock ⊢
  by_cases disabled : last.fields.disabled = true
  · rw [schedule_disabled disabled]
    have shaped := never_shaped last.unparsed
    refine ⟨?_,fun text member => shaped text (List.mem_of_mem_take member),
      fun _ => .inl (cancelled.mp disabled),fun _ => shaped⟩
    intro text member empty
    exact (shaped text member).nonempty (by rw [empty]; rfl)
  · rw [schedule_enabled disabled,← List.map_take,shown_shaped made,shown_shaped made,
      or_iff_right fun member => disabled (cancelled.mpr member)]
    have every_field : ∀ field, field ∈ Field.all := by intro field; cases field <;> decide
    refine ⟨?_,clock,fun unchained field => unchained field (every_field field),fun unchained field _ => unchained field⟩
    intro text member
    obtain ⟨field,_,rfl⟩ := List.mem_map.mp member
    exact last.fields.shown_nonempty field

theorem chained_weekdays : compile .utc "mon to fri to wed" = ⟨"*","*","*","*","1-5-3",""⟩ ∧
    ¬ ∀ text ∈ (compile .utc "mon to fri to wed").fields, Shaped text.toList := by
  have compiled : compile .utc "mon to fri to wed" = ⟨"*","*","*","*","1-5-3",""⟩ := by decide +kernel
  refine ⟨compiled,?_⟩
  rw [compiled]
  intro shaped
  have pieces := (shaped "1-5-3" (by decide)).single_hyphens
  revert pieces
  decide

end Recurrence
