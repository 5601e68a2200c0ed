import Recurrence.Proofs.Never

namespace Recurrence

namespace Lexicon

-- The words with letters that others are second spellings of.
def standard : List String := units ++ ["week","every"] ++ weekdays ++ months

theorem standard_canonical : ∀ word ∈ standard, synonyms.lookup word = none := by decide +kernel

theorem synonyms_lettered : ∀ entry ∈ synonyms, entry.1.toList.any Char.isAlpha = true := by decide +kernel

theorem spellings_standard : ∀ entry ∈ spellings, (entry.2 ∈ standard ∨ entry.2.toList.any Char.isAlpha = false) ∧
    ('-' ∈ entry.2.toList → entry.2 = range) := by decide +kernel

theorem zones_signed : ∀ entry ∈ zones, entry.2.toList.any Char.isAlpha = false ∧ '-' ∉ entry.2.toList.tail := by
  decide +kernel

theorem ordinals_figures : ∀ entry ∈ ordinals, entry.2.toList.any Char.isAlpha = false ∧ '-' ∉ entry.2.toList := by
  decide +kernel

-- An offset west of UTC as the table of zones writes it: its sign is the only hyphen in it.
def WestOffset (word : String) : Prop :=
  ∃ name figures, (name,word) ∈ zones ∧ word.toList = '-' :: figures ∧ '-' ∉ figures

-- What the lexicon does not know as another spelling, and where a hyphen can come from.
structure Canonical (word : String) : Prop where
  itself : synonyms.lookup word = none
  hyphen : '-' ∈ word.toList → word = range ∨ WestOffset word

theorem lookup_mem_synonyms (found : synonyms.lookup word = some token) : (word,token) ∈ synonyms := by
  obtain ⟨before,after,split,_⟩ := List.lookup_eq_some_iff.mp found
  simp [split]

theorem unlettered_itself (unlettered : word.toList.any Char.isAlpha = false) : synonyms.lookup word = none := by
  cases found : synonyms.lookup word with
  | none => rfl
  | some token =>
    have lettered := synonyms_lettered _ (lookup_mem_synonyms found)
    exact absurd (lettered.symm.trans unlettered) (by decide)

theorem spelling_canonical (listed : (key,word) ∈ spellings) : Canonical word := by
  obtain ⟨known | unlettered,hyphen⟩ := spellings_standard _ listed
  · exact ⟨standard_canonical word known,fun inside => .inl (hyphen inside)⟩
  · exact ⟨unlettered_itself unlettered,fun inside => .inl (hyphen inside)⟩

theorem zone_canonical (listed : (key,word) ∈ zones) : Canonical word := by
  obtain ⟨unlettered,signed⟩ := zones_signed _ listed
  refine ⟨unlettered_itself unlettered,fun inside => .inr ?_⟩
  cases written : word.toList with
  | nil => simp [written] at inside
  | cons sign figures =>
    have apart : '-' ∉ figures := by simpa [written] using signed
    rcases List.mem_cons.mp (written ▸ inside) with rfl | later
    · exact ⟨key,figures,listed,written,apart⟩
    · exact absurd later apart

theorem ordinal_canonical (listed : (key,word) ∈ ordinals) : Canonical word := by
  obtain ⟨unlettered,solid⟩ := ordinals_figures _ listed
  exact ⟨unlettered_itself unlettered,fun inside => absurd inside solid⟩

theorem synonym_canonical (listed : (key,Token.word word) ∈ synonyms) : Canonical word := by
  have cases_of : (key,word) ∈ spellings ∨ (key,word) ∈ zones ∨ (key,word) ∈ ordinals := by
    simpa [synonyms,or_assoc] using listed
  rcases cases_of with spelling | zone | ordinal
  · exact spelling_canonical spelling
  · exact zone_canonical zone
  · exact ordinal_canonical ordinal

end Lexicon

namespace Phrase

theorem lexed_canonical (member : word ∈ wordsOf (tokenize text)) : Lexicon.Canonical word := by
  unfold wordsOf tokenize splitWords at member
  obtain ⟨token,inside,spoken⟩ := List.mem_filterMap.mp member
  obtain ⟨written,cut,rfl⟩ := List.mem_map.mp inside
  obtain ⟨run,found,rfl⟩ := List.mem_map.mp cut
  cases known : Lexicon.synonyms.lookup (String.ofList run) with
  | none =>
    have same : String.ofList run = word := by simpa [Lexicon.resolve_other known,Token.word?] using spoken
    refine ⟨same ▸ known,fun hyphen => ?_⟩
    have inside : '-' ∈ run := by simpa [← same] using hyphen
    exact absurd (Text.runs_solid found inside) (by decide)
  | some token =>
    have resolved : Lexicon.resolve (String.ofList run) = token := by simp [Lexicon.resolve,known]
    have word_token : token = .word word := by
      rw [resolved] at spoken
      cases token <;> cases spoken
      rfl
    exact Lexicon.synonym_canonical (word_token ▸ Lexicon.lookup_mem_synonyms known)

end Phrase

theorem Clause.Calendar.used_unnamed (tokens : List Token) (member : word ∈ wordsOf (used tokens)) :
    Name.ofWord? word = none := by
  obtain ⟨token,_,replaced⟩ := List.mem_map.mp (mem_wordsOf.mp member)
  split at replaced
  · cases replaced
  · rename_i unnamed
    simpa [replaced,nameOf,Token.word?] using unnamed

theorem name_named : ∀ name ∈ Lexicon.weekdays ++ Lexicon.months ++ [Lexicon.range],
    (Clause.Calendar.Name.ofWord? name).isSome = true := by decide

theorem runAll_unnamed (zone : Offset) (draft : Draft) (sound : SoundWords draft.words)
    (member : word ∈ (Stage.runAll zone Stage.inOrder draft).words) : Clause.Calendar.Name.ofWord? word = none := by
  have split : Stage.runAll zone Stage.inOrder draft = Stage.runAll zone [.parity,.never,.residual]
      (Clause.Calendar.read (Stage.runAll zone [.markers,.frequency] draft)) := rfl
  rw [split] at member
  have early := runAll_kept zone [.markers,.frequency] draft sound fun stage _ => uses_recognized stage
  generalize Stage.runAll zone [.markers,.frequency] draft = named at early member
  have read_sound := (sound.sublist early.sublist).sublist (calendar_kept named.tokens).sublist
  have late := runAll_kept zone [.parity,.never,.residual] (Clause.Calendar.read named) read_sound
    fun stage _ => uses_recognized stage
  exact Clause.Calendar.used_unnamed named.tokens (late.sublist.subset member)

theorem runAll_uncancelled (zone : Offset) (draft : Draft) (sound : SoundWords draft.words) :
    "never" ∉ (Stage.runAll zone Stage.inOrder draft).words := by
  by_cases spoken : Clause.Never.never ∈ draft.tokens
  · exact (runAll_never zone draft spoken sound).2
  · have kept := runAll_kept zone Stage.inOrder draft sound fun stage _ => uses_recognized stage
    exact fun member => spoken (mem_wordsOf.mp (kept.sublist.subset member))

theorem compile_leftover (zone : Offset) (phrase : String) : SoundWords (compile zone phrase).leftover ∧
    (compile zone phrase).leftover = (Stage.runAll zone Stage.inOrder ⟨Phrase.lex phrase,{}⟩).words ∧
    (compile zone phrase).unparsed = " ".intercalate (compile zone phrase).leftover := by
  have sound := Phrase.lex_sound phrase
  unfold compile compileTokens
  generalize Phrase.lex phrase = tokens at sound ⊢
  have kept := runAll_kept zone Stage.inOrder ⟨tokens,{}⟩ sound fun stage _ => uses_recognized stage
  have left_sound := sound.sublist kept.sublist
  rw [Draft.schedule_leftover _ left_sound]
  exact ⟨left_sound,rfl,Draft.schedule_unparsed _ left_sound⟩

theorem compile_fullyParsed (zone : Offset) (phrase : String) :
    (compile zone phrase).fullyParsed = true ↔ (compile zone phrase).leftover = [] := by
  obtain ⟨sound,_,joined⟩ := compile_leftover zone phrase
  unfold Schedule.fullyParsed
  rw [joined,trim_joined sound,List.isEmpty_iff,String.toList_eq_nil_iff]
  exact joined_eq_empty sound

theorem joined_no_gap (sound : SoundWords words) : ¬ [' ',' '] <:+: (" ".intercalate words).toList := by
  intro ⟨before,after,split⟩
  by_cases none_left : words = []
  · simp [none_left,String.intercalate_nil] at split
  · have pieces : (" ".intercalate words).toList.splitOn ' ' = words.map String.toList := by
      rw [toList_joined]
      refine List.splitOn_intercalate ' ' (fun word member space => ?_) (by simpa using none_left)
      exact absurd ((sound.lists word member).2 ' ' space) (by decide)
    have gap : [] ∈ (" ".intercalate words).toList.splitOn ' ' := by
      have between : before ++ [' ',' '] ++ after = before ++ ' ' :: ([] ++ ' ' :: after) := by simp
      rw [← split,between,List.splitOn,List.splitOnP_append_cons _ _ (by decide),List.splitOnP_append_cons _ _ (by decide)]
      simp
    rw [pieces] at gap
    exact (sound.lists [] gap).1 rfl

-- A word that no clause could place.
structure LeftWord (word : String) : Prop where
  nonempty : word ≠ ""
  written : ∀ c ∈ word.toList, Phrase.isLexed c = true
  unnamed : word ∉ Lexicon.weekdays ∧ word ∉ Lexicon.months ∧ word ≠ Lexicon.range
  uncancelled : word ≠ "never"
  canonical : Lexicon.synonyms.lookup word = none
  signed : '-' ∈ word.toList → Lexicon.WestOffset word

theorem leftover_word (zone : Offset) (phrase : String) (member : word ∈ (compile zone phrase).leftover) :
    LeftWord word := by
  have sound := Phrase.lex_sound phrase
  have written : ∀ word ∈ wordsOf (Phrase.lex phrase), word ≠ "" ∧ ∀ c ∈ word.toList, Phrase.isLexed c = true :=
    fun _ => Phrase.lexed_word
  have canonical : ∀ word ∈ wordsOf (Phrase.lex phrase), Lexicon.Canonical word := fun _ => Phrase.lexed_canonical
  rw [(compile_leftover zone phrase).2.1] at member
  generalize Phrase.lex phrase = tokens at sound written canonical member
  have kept := runAll_kept zone Stage.inOrder ⟨tokens,{}⟩ sound fun stage _ => uses_recognized stage
  have spoken : word ∈ wordsOf tokens := kept.sublist.subset member
  have no_name : word ∉ Lexicon.weekdays ++ Lexicon.months ++ [Lexicon.range] := by
    intro listed
    have named := name_named word listed
    simp [runAll_unnamed zone ⟨tokens,{}⟩ sound member] at named
  have unlisted : word ∉ Lexicon.weekdays ∧ word ∉ Lexicon.months ∧ word ≠ Lexicon.range := by
    simpa [and_assoc] using no_name
  refine ⟨(written word spoken).1,(written word spoken).2,unlisted,?_,(canonical word spoken).itself,?_⟩
  · rintro rfl
    exact runAll_uncancelled zone ⟨tokens,{}⟩ sound member
  · exact fun inside => ((canonical word spoken).hyphen inside).resolve_left unlisted.2.2

theorem leftover_unmarked (zone : Offset) (phrase : String) (kind : Marker) :
    ¬ (Token.marker kind).text.toList <:+: (" ".intercalate (compile zone phrase).leftover).toList := by
  intro inside
  have opening : '[' ∈ (Token.marker kind).text.toList := by cases kind <;> decide
  have shown := inside.subset opening
  rw [toList_joined] at shown
  rcases Text.mem_of_intercalate shown with space | ⟨text,listed,within⟩
  · exact absurd space (by decide)
  · obtain ⟨word,member,rfl⟩ := List.mem_map.mp listed
    exact absurd ((leftover_word zone phrase member).written '[' within) (by decide)

-- The remainder is made of words of the phrase that stand for themselves, one space between neighbours,
-- and a schedule is fully parsed when there is none.
theorem remainder_clean (zone : Offset) (phrase : String) :
    (compile zone phrase).unparsed = " ".intercalate (compile zone phrase).leftover ∧
    (∀ word ∈ (compile zone phrase).leftover, LeftWord word) ∧
    Text.trim (compile zone phrase).unparsed.toList = (compile zone phrase).unparsed.toList ∧
    ¬ [' ',' '] <:+: (compile zone phrase).unparsed.toList ∧
    (∀ kind, ¬ (Token.marker kind).text.toList <:+: (compile zone phrase).unparsed.toList) ∧
    ((compile zone phrase).fullyParsed = true ↔ (compile zone phrase).leftover = []) := by
  obtain ⟨sound,_,joined⟩ := compile_leftover zone phrase
  have parsed := compile_fullyParsed zone phrase
  refine ⟨joined,fun word member => leftover_word zone phrase member,?_,?_,?_,parsed⟩
  · simpa only [joined] using trim_joined sound
  · simpa only [joined] using joined_no_gap sound
  · simpa only [joined] using leftover_unmarked zone phrase

theorem remainder_clean_west : (compile .utc "from 9 from Foo EST").leftover = ["9","from","foo","-05:00"] ∧
    (compile .utc "from 9 from Foo EST").unparsed = "9 from foo -05:00" ∧
    ∀ word ∈ ["9","from","foo","-05:00"], LeftWord word := by
  have left : (compile .utc "from 9 from Foo EST").leftover = ["9","from","foo","-05:00"] := by decide +kernel
  obtain ⟨joined,each,_⟩ := remainder_clean .utc "from 9 from Foo EST"
  rw [left] at joined each
  exact ⟨left,joined,each⟩

end Recurrence
