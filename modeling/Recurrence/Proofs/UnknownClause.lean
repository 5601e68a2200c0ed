import Recurrence.Proofs.MarkerKinds
import Recurrence.Proofs.Remainder
import Recurrence.Proofs.Silence

namespace Recurrence

-- A draft with more tokens behind it.
def Draft.append (draft : Draft) (clause : List Token) : Draft := {draft with tokens := draft.tokens ++ clause}

-- A clause that begins with its marker, and has no word in it that a stage ahead of the segments reads.
structure Apart (clause : List Token) : Prop where
  opened : ∃ kind rest, clause = .marker kind :: rest
  silent : Silent clause
  unnamed : ∀ token ∈ clause, Clause.Calendar.nameOf token = none

namespace Clause

theorem Frequency.read_append (apart : Apart clause) (draft : Draft) :
    read (draft.append clause) = (read draft).append clause := by
  obtain ⟨kind,words,rfl⟩ := apart.opened
  have absent : every ∉ Token.marker kind :: words := fun member => apart.silent _ member (by decide)
  obtain ⟨tokens,fields⟩ := draft
  rcases clause_parts tokens with unspoken | ⟨before,clause,after,rfl,first,within,ends⟩
  · have still : every ∉ tokens ++ .marker kind :: words := by simp [unspoken,absent]
    rw [(read_absent ⟨tokens,fields⟩ unspoken).1]
    exact (read_absent ⟨tokens ++ .marker kind :: words,fields⟩ still).1
  · -- The clause of the `every` ends at the marker, where it ended with the phrase.
    have ends_still : ∀ token, (after ++ .marker kind :: words).head? = some token → inClause token = false := by
      intro token starts
      cases after with
      | nil => cases starts; rfl
      | cons other rest => exact ends token starts
    simp only [Draft.append,read_first first within ends,List.append_assoc,List.cons_append,
      read_first first within ends_still]

theorem Calendar.read_append (apart : Apart clause) (draft : Draft) :
    read (draft.append clause) = (read draft).append clause := by
  have unused : used clause = clause := by
    refine (List.map_congr_left fun token member => ?_).trans (List.map_id clause)
    simp [apart.unnamed token member]
  have unnamed : clause.filterMap nameOf = [] := List.filterMap_eq_nil_iff.mpr apart.unnamed
  have names : entries (draft.tokens ++ clause) = entries draft.tokens := by
    simp only [entries,List.filterMap_append,unnamed,List.append_nil]
  have tokens : used (draft.tokens ++ clause) = used draft.tokens ++ clause := by
    simp only [used,List.map_append] at unused ⊢
    rw [unused]
  simp only [read,Draft.append,names,tokens]

theorem Parity.read_append (apart : Apart clause) (draft : Draft) :
    read (draft.append clause) = (read draft).append clause := by
  obtain ⟨kind,rest,rfl⟩ := apart.opened
  simp only [read,Draft.append,entries_stop (meaning_marker kind),used_stop (meaning_marker kind),
    entries_silent apart.silent,used_unsaid (entries_silent apart.silent),List.append_nil]

theorem Never.read_append (apart : Apart clause) (draft : Draft) :
    read (draft.append clause) = (read draft).append clause := by
  have absent : never ∉ clause := fun member => apart.silent _ member (by decide)
  have kept : clause.filter (· != never) = clause :=
    List.filter_eq_self.mpr fun token member => bne_iff_ne.mpr fun same => absent (same ▸ member)
  by_cases spoken : never ∈ draft.tokens
  · simp [read,Draft.append,spoken,kept]
  · simp [read,Draft.append,spoken,absent]

theorem Markers.settledFrom_append (apart : Apart clause) (kind : Marker) (tokens : List Token) :
    settledFrom kind (tokens ++ clause) = settledFrom kind tokens ++ clause := by
  have absent : .word "from" ∉ clause := fun member => apart.silent _ member (by decide)
  have kept : clause.replace (.word "from") (.marker kind) = clause := List.replace_of_not_mem (by simpa using absent)
  simp only [settledFrom,List.replace_append,kept]
  split
  · rfl
  · rename_i unspoken
    rw [List.replace_of_not_mem unspoken]

theorem Residual.take_append (zone : Offset) (segment : String) (later : Draft) (rest : List Token) :
    take zone segment (later.append rest) = (take zone segment later).append rest := by
  unfold take Draft.append
  cases reading zone segment with
  | time time => rfl
  | days numbers => rfl
  | other => simp

theorem Residual.read_append (zone : Offset) (draft : Draft) (rest : List Token)
    (unread : (segments clause).foldr (take zone) ⟨[],draft.fields⟩ = ⟨rest,draft.fields⟩)
    (opened : ∃ kind rest, clause = .marker kind :: rest) :
    read zone (draft.append clause) = (read zone draft).append rest := by
  unfold read
  simp only [Draft.append,segments_append draft.tokens opened,List.foldr_append,unread]
  induction segments draft.tokens with
  | nil => rfl
  | cons segment others ih =>
    simp only [List.foldr_cons,ih]
    exact take_append zone segment _ rest

end Clause

namespace Stage

theorem between_append (zone : Offset) (apart : Apart clause) (draft : Draft) :
    ∀ stage ∈ [frequency,calendar,parity,never], stage.run zone (draft.append clause) = (stage.run zone draft).append clause := by
  intro stage listed
  simp only [List.mem_cons,List.not_mem_nil,or_false] at listed
  rcases listed with rfl | rfl | rfl | rfl
  · exact Clause.Frequency.read_append apart draft
  · exact Clause.Calendar.read_append apart draft
  · exact Clause.Parity.read_append apart draft
  · exact Clause.Never.read_append apart draft

theorem runAll_append {stages : List Stage}
    (each : ∀ draft, ∀ stage ∈ stages, stage.run zone (draft.append clause) = (stage.run zone draft).append clause)
    (draft : Draft) : runAll zone stages (draft.append clause) = (runAll zone stages draft).append clause := by
  induction stages generalizing draft with
  | nil => rfl
  | cons stage rest ih =>
    have here := each draft stage List.mem_cons_self
    have later := ih (fun draft stage listed => each draft stage (List.mem_cons_of_mem _ listed)) (stage.run zone draft)
    show runAll zone rest (stage.run zone (draft.append clause)) = _
    rw [here,later]
    rfl

theorem inOrder_append (zone : Offset) (apart : Apart clause) (tokens rest : List Token) (fields : Fields)
    (unread : ∀ fields, (Clause.Residual.segments clause).foldr (Clause.Residual.take zone) ⟨[],fields⟩ = ⟨rest,fields⟩) :
    runAll zone inOrder ⟨tokens ++ clause,fields⟩ = (runAll zone inOrder ⟨tokens,fields⟩).append rest := by
  have between := runAll_append (between_append zone apart) ⟨Clause.Markers.settledFrom .time tokens,fields⟩
  rw [inOrder_settled zone _ fields .time,inOrder_settled zone tokens fields .time,
    Clause.Markers.settledFrom_append apart,runAll_settled,runAll_settled]
  exact (congrArg (Clause.Residual.read zone) between).trans (Clause.Residual.read_append zone _ rest (unread _) apart.opened)

end Stage

-- Words without blanks that mean nothing in any clause.
def Unknown (words : List String) : Prop :=
  ∀ word ∈ words, (∀ c ∈ word.toList, Text.isBlank c = false) ∧ isRecognized word = false

instance (words : List String) : Decidable (Unknown words) :=
  decidable_of_iff (words.all (fun word => word.toList.all (fun c => !Text.isBlank c) && !isRecognized word) = true)
    (by simp [Unknown])

namespace Unknown

theorem unrecognized (unknown : Unknown words) (member : word ∈ words) : ¬ isRecognized word = true := by
  rw [(unknown word member).2]
  exact Bool.false_ne_true

theorem sound (unknown : Unknown words) : SoundWords words := by
  intro word member
  refine ⟨?_,(unknown word member).1⟩
  rintro rfl
  exact unknown.unrecognized member (by decide)

theorem apart (unknown : Unknown words) (kind : Marker) : Apart (.marker kind :: words.map .word) := by
  refine ⟨⟨kind,_,rfl⟩,?_,?_⟩
  · have marker_silent : Token.marker kind ∉ openers := by cases kind <;> decide
    have recognized : ∀ token ∈ openers, token.word?.all isRecognized = true := by decide
    intro token member opens
    rcases List.mem_cons.mp member with rfl | member
    · exact marker_silent opens
    · obtain ⟨word,listed,rfl⟩ := List.mem_map.mp member
      exact unknown.unrecognized listed (recognized _ opens)
  · intro token member
    rcases List.mem_cons.mp member with rfl | member
    · rfl
    · obtain ⟨word,listed,rfl⟩ := List.mem_map.mp member
      cases named : Clause.Calendar.Name.ofWord? word with
      | none => exact named
      | some name => exact absurd (named_recognized (Option.isSome_of_eq_some named)) (unknown.unrecognized listed)

theorem reading_other (unknown : Unknown words) (some_word : words ≠ []) (zone : Offset) :
    Clause.Residual.reading zone (" ".intercalate words) = .other := by
  obtain ⟨word,rest,rfl⟩ := List.exists_cons_of_ne_nil some_word
  have written : ¬ ∀ c ∈ word.toList, ClockText.isClockChar c = true := fun all =>
    unknown.unrecognized List.mem_cons_self (Bool.or_eq_true_iff.mpr (.inr (List.all_eq_true.mpr all)))
  cases understood : Clause.Residual.isOther zone (" ".intercalate (word :: rest)) with
  | true => exact eq_of_beq understood
  | false =>
    refine absurd (fun c inside => ?_) written
    have on_clock := understood_chars understood c (mem_joined List.mem_cons_self inside)
    exact on_clock.resolve_right (by simp [(unknown.sound word List.mem_cons_self).2 c inside])

theorem unread (unknown : Unknown words) (kind : Marker) (zone : Offset) (fields : Fields) :
    (Clause.Residual.segments (.marker kind :: words.map .word)).foldr (Clause.Residual.take zone) ⟨[],fields⟩ =
      ⟨words.map .word,fields⟩ := by
  have unmarked : ∀ token ∈ words.map Token.word, token.isMarker = false := by
    intro token member
    obtain ⟨word,_,rfl⟩ := List.mem_map.mp member
    rfl
  have spoken : wordsOf (words.map Token.word) = words := Clause.Residual.wordsOf_words words
  rw [Clause.Residual.segments_opened]
  by_cases some_word : words = []
  · subst some_word
    rfl
  · have single := Clause.Residual.segments_spoken unmarked (by rw [spoken]; exact unknown.sound) (by rwa [spoken])
    have other := unknown.reading_other some_word zone
    rw [single,Clause.Residual.runText,spoken]
    simp [Clause.Residual.take,other,Clause.Residual.segmentWords_joined unknown.sound]

end Unknown

-- A clause of words that mean nothing is reported behind what else is left, and changes nothing of what
-- the phrase before it says.
theorem unknown_clause_reported (zone : Offset) (phrase : String) (kind : Marker) {words : List String}
    (unknown : Unknown words) :
    (compileTokens zone (Phrase.lex phrase ++ .marker kind :: words.map .word)).fields = (compile zone phrase).fields ∧
    (compileTokens zone (Phrase.lex phrase ++ .marker kind :: words.map .word)).leftover =
      (compile zone phrase).leftover ++ words ∧
    (compileTokens zone (Phrase.lex phrase ++ .marker kind :: words.map .word)).unparsed =
      " ".intercalate ((compile zone phrase).leftover ++ words) := by
  obtain ⟨left_sound,left,_⟩ := compile_leftover zone phrase
  have run := Stage.inOrder_append zone (unknown.apart kind) (Phrase.lex phrase) _ {} (unknown.unread kind zone)
  unfold compileTokens compile compileTokens at *
  rw [run]
  generalize Stage.runAll zone Stage.inOrder ⟨Phrase.lex phrase,{}⟩ = last at left left_sound ⊢
  have spoken : (last.append (words.map .word)).words = last.words ++ words := by
    unfold Draft.words Draft.append
    rw [wordsOf_append,Clause.Residual.wordsOf_words]
  have sound : SoundWords (last.append (words.map .word)).words := by
    rw [spoken,← left]
    intro word member
    rcases List.mem_append.mp member with earlier | later
    · exact left_sound word earlier
    · exact unknown.sound word later
  refine ⟨?_,?_,?_⟩
  · unfold Draft.schedule Draft.append
    split <;> rfl
  · rw [Draft.schedule_leftover _ sound,spoken,left]
  · rw [Draft.schedule_unparsed _ sound,spoken,left]

theorem unknown_clause_reported_behind_every : Unknown ["foo","week"] ∧
    (compileTokens .utc (Phrase.lex "9 bar from mon every 5 minutes" ++ .marker .date :: ["foo","week"].map .word)).fields =
      (compile .utc "9 bar from mon every 5 minutes").fields ∧
    (compileTokens .utc (Phrase.lex "9 bar from mon every 5 minutes" ++ .marker .date :: ["foo","week"].map .word)).leftover =
      ["9","bar","foo","week"] := by
  have unknown : Unknown ["foo","week"] := by decide
  obtain ⟨same,left,_⟩ := unknown_clause_reported .utc "9 bar from mon every 5 minutes" .date unknown
  have known : (compile .utc "9 bar from mon every 5 minutes").leftover = ["9","bar"] := by decide +kernel
  rw [known] at left
  exact ⟨unknown,same,left⟩

end Recurrence
