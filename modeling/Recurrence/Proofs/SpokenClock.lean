import Recurrence.Proofs.ClockGrammar
import Recurrence.Proofs.ResidualFields

namespace Recurrence
open Clause Text

theorem Clause.Calendar.read_ranges (ranges : ∀ name ∈ tokens.filterMap nameOf, name = .range) :
    read ⟨tokens,{}⟩ = ⟨used tokens,{}⟩ := by
  have nothing (kind : Kind) : items (kind.sorted (sort false (tokens.filterMap nameOf))) = [] := by
    rw [items_sort,marks_silent fun name member => by rw [ranges name member]; exact value_range kind]
    rfl
  have unwritten : entries tokens = [] := by
    rw [entries_eq]
    unfold entriesOf
    rw [nothing .weekday,nothing .month]
    rfl
  unfold read
  rw [unwritten]
  rfl

theorem Draft.schedule_parsed (draft : Draft) (sound : SoundWords draft.words) :
    draft.schedule.fullyParsed = true ↔ draft.words = [] := by
  unfold Schedule.fullyParsed
  rw [draft.schedule_unparsed sound,trim_joined sound,List.isEmpty_iff,String.toList_eq_nil_iff,joined_eq_empty sound]

namespace Phrase

theorem compile_clause (zone : Offset) {phrase : String} {kind : Marker} {run : List Token} {words : List String}
    (lexed : lex phrase = .marker kind :: run) (silent : Silent run) (unmarked : ∀ token ∈ run, token.isMarker = false)
    (ranges : ∀ name ∈ run.filterMap Calendar.nameOf, name = .range) (kept : wordsOf (Calendar.used run) = words)
    (sound : SoundWords words) (some_word : words ≠ []) :
    compile zone phrase = (Residual.take zone (" ".intercalate words) ⟨[],{}⟩).schedule := by
  have opened : Silent (.marker kind :: run) := by
    intro token member
    rcases List.mem_cons.mp member with rfl | member
    · cases kind <;> decide
    · exact silent token member
  have left_unmarked : ∀ token ∈ Calendar.used run, token.isMarker = false := by
    intro token member
    obtain ⟨before,inside,rfl⟩ := List.mem_map.mp member
    split
    · rfl
    · exact unmarked before inside
  have single : Residual.segments (Calendar.used (.marker kind :: run)) = [" ".intercalate words] := by
    show Residual.segments (.marker kind :: Calendar.used run) = _
    rw [Residual.segments_opened,Residual.segments_spoken left_unmarked (by rwa [kept]) (by rwa [kept]),Residual.runText,kept]
  unfold compile compileTokens
  have names : (Token.marker kind :: run).filterMap Calendar.nameOf = run.filterMap Calendar.nameOf := rfl
  rw [lexed,runAll_silent zone opened ⟨kind,run,rfl⟩,Calendar.read_ranges (by rwa [names])]
  unfold Residual.read
  rw [single]
  rfl

theorem lex_clock {text : String} (onClock : ∀ c ∈ text.toList, ClockText.OnClock c) :
    lex ("at " ++ text) = .marker .time :: looked text.toList := by
  have parts : "at " ++ text = " ".intercalate ["at",text] := by
    apply String.toList_inj.mp
    rw [toList_joined,String.toList_append]
    simp [List.intercalate_cons_cons,List.intercalate_singleton]
  have marker : looked "at".toList = [.marker .time] := by decide +kernel
  rw [parts,lex_parts]
  · rw [List.flatMap_cons,marker,List.flatMap_singleton]
    rfl
  · exact ⟨"at",List.mem_cons_self,'a',by decide,by decide⟩
  · intro part member
    rcases List.mem_cons.mp member with rfl | member
    · unfold Keyless
      decide
    · rw [List.mem_singleton.mp member]
      exact clock_keyless onClock

theorem compile_clock (zone : Offset) {text : String} (front back : List String) (joint : List Token)
    (onClock : ∀ c ∈ text.toList, ClockText.OnClock c) (front_unused : ∀ word ∈ front, Unused word)
    (back_unused : ∀ word ∈ back, Unused word) (ranges : ∀ token ∈ joint, token = .word Lexicon.range) (some_word : front ≠ [])
    (run : looked text.toList = front.map .word ++ (joint ++ back.map .word)) :
    compile zone ("at " ++ text) = (Residual.take zone (" ".intercalate (front ++ back)) ⟨[],{}⟩).schedule := by
  obtain ⟨front_used,front_named⟩ := Unused.used_eq front_unused
  obtain ⟨back_used,back_named⟩ := Unused.used_eq back_unused
  have lexed := lex_clock onClock
  rw [run] at lexed
  have spelled : ∀ token ∈ front.map Token.word ++ (joint ++ back.map .word),
      ∃ word, token = .word word ∧ OnDial word := by
    intro token member
    rcases List.mem_append.mp member with member | member
    · obtain ⟨word,inside,rfl⟩ := List.mem_map.mp member
      exact ⟨word,rfl,(front_unused word inside).onDial⟩
    · rcases List.mem_append.mp member with member | member
      · exact ⟨_,ranges token member,List.all_eq_true.mp (by decide)⟩
      · obtain ⟨word,inside,rfl⟩ := List.mem_map.mp member
        exact ⟨word,rfl,(back_unused word inside).onDial⟩
  have sound : SoundWords (front ++ back) := by
    intro word member
    rcases List.mem_append.mp member with member | member
    · exact (front_unused word member).sound
    · exact (back_unused word member).sound
  refine compile_clause zone lexed ?_ ?_ ?_ ?_ sound (by simp [some_word])
  · intro token member
    obtain ⟨word,rfl,onDial⟩ := spelled token member
    exact onDial.silent
  · intro token member
    obtain ⟨word,rfl,_⟩ := spelled token member
    rfl
  · intro name member
    rw [List.filterMap_append,List.filterMap_append,front_named,back_named,List.nil_append,List.append_nil] at member
    obtain ⟨token,inside,named⟩ := List.mem_filterMap.mp member
    rw [ranges token inside] at named
    exact (Option.some.inj named).symm
  · have range_used : wordsOf (Calendar.used joint) = [] := by
      unfold wordsOf Calendar.used
      rw [List.filterMap_map,List.filterMap_eq_nil_iff]
      intro token inside
      rw [ranges token inside]
      rfl
    have split : Calendar.used (front.map .word ++ (joint ++ back.map .word)) =
        front.map .word ++ (Calendar.used joint ++ back.map .word) := by
      conv => rhs; rw [← front_used,← back_used]
      simp only [Calendar.used,List.map_append]
    rw [split,wordsOf_append,wordsOf_append,range_used,Residual.wordsOf_words,Residual.wordsOf_words]
    rfl

end Phrase

namespace ClockText

theorem joined_words (kept : List (List Char)) : (" ".intercalate (kept.map String.ofList)).toList = [' '].intercalate kept := by
  rw [toList_joined,List.map_map]
  simp [Function.comp_def]

theorem compile_unbroken {zone : Offset} {text : String} (known : TimeOfDay.parse? zone text.toList = some time)
    (unbroken : '-' ∉ text.toList) :
    compile zone ("at " ++ text) = ⟨toString time.minute.val,toString time.hour.val,"*","*","*",""⟩ := by
  obtain ⟨clock,read,timed⟩ := Option.bind_eq_some_iff.mp known
  have onClock := read_chars read
  have written := written_of_read read
  have spaced_read : TimeOfDay.parse? zone (spaced text.toList) = some time := by
    unfold TimeOfDay.parse?
    rw [read_of_written written.spaced]
    exact timed
  have some_word : (words text.toList).map String.ofList ≠ [] := by
    intro empty
    unfold spaced at spaced_read
    rw [List.map_eq_nil_iff.mp empty] at spaced_read
    cases spaced_read
  have single := Phrase.compile_clock zone ((words text.toList).map String.ofList) [] [] onClock
    (fun word member => (Phrase.unbroken_words onClock unbroken word member).unused) (by simp) (by simp) some_word (by rw [Phrase.looked_clock onClock unbroken]; simp)
  rw [List.append_nil] at single
  have reading : Residual.reading zone (" ".intercalate ((words text.toList).map String.ofList)) = .time time := by
    unfold Residual.reading
    rw [joined_words,← spaced,spaced_read]
  rw [single]
  unfold Residual.take
  rw [reading]
  exact Draft.schedule_timed time rfl

theorem parse_figures (zone : Offset) {parts : List String} {word : String} (sound : SoundWords (parts ++ [word]))
    (spoken : parts ≠ []) (begins : word.toList.head? = some c) (digit : c.isDigit = true) :
    TimeOfDay.parse? zone (" ".intercalate (parts ++ [word])).toList = none := by
  unfold TimeOfDay.parse?
  cases found : read? (" ".intercalate (parts ++ [word])).toList with
  | none => rfl
  | some clock =>
    have later := (written_of_read found).later_words
    rw [Residual.words_joined sound] at later
    obtain ⟨first,rest,rfl⟩ := List.exists_cons_of_ne_nil spoken
    have figure := later word.toList (by simp) c begins
    rw [digit] at figure
    cases figure

theorem take_unparsed (zone : Offset) {parts : List String} (sound : SoundWords parts) (spoken : parts ≠ [])
    (unread : TimeOfDay.parse? zone (" ".intercalate parts).toList = none) (inside : c ∈ (" ".intercalate parts).toList)
    (letter : c.isDigit = false ∧ isBlank c = false) :
    (Residual.take zone (" ".intercalate parts) ⟨[],{}⟩).schedule.fullyParsed = false := by
  have other : Residual.reading zone (" ".intercalate parts) = .other := by
    unfold Residual.reading
    rw [unread]
    dsimp only
    rw [if_neg]
    intro numbers
    have number := List.all_eq_true.mp numbers c inside
    rw [letter.1,letter.2] at number
    cases number
  have left : (Residual.take zone (" ".intercalate parts) ⟨[],{}⟩).words = parts := by
    unfold Residual.take Draft.words
    rw [other]
    dsimp only
    rw [Residual.segmentWords_joined sound,List.append_nil,Residual.wordsOf_words]
  rw [Bool.eq_false_iff,ne_eq,Draft.schedule_parsed _ (by rwa [left]),left]
  exact spoken

theorem compile_hyphen {zone : Offset} {text : String} (known : TimeOfDay.parse? zone text.toList = some time)
    (hyphen : '-' ∈ text.toList) : (compile zone ("at " ++ text)).fullyParsed = false := by
  obtain ⟨clock,read,_⟩ := Option.bind_eq_some_iff.mp known
  have onClock := read_chars read
  obtain ⟨front,back,last,split,front_unbroken,back_unbroken,some_word,single,⟨c,begins,digit⟩,colon⟩ :=
    (written_of_read read).hyphen hyphen
  rw [split] at onClock
  have onFront : ∀ c ∈ front, OnClock c := fun c inside => onClock c (List.mem_append_left _ inside)
  have onBack : ∀ c ∈ back, OnClock c := fun c inside => onClock c (List.mem_append_right _ (List.mem_cons_of_mem _ inside))
  have front_unused : ∀ word ∈ (words front).map String.ofList, Unused word :=
    fun word member => (Phrase.unbroken_words onFront front_unbroken word member).unused
  have back_unused : ∀ word ∈ (words back).map String.ofList, Unused word :=
    fun word member => (Phrase.unbroken_words onBack back_unbroken word member).unused
  have run := Phrase.looked_hyphen front back
  rw [← split,Phrase.looked_clock onFront front_unbroken,Phrase.looked_clock onBack back_unbroken] at run
  have compiled := Phrase.compile_clock zone _ _ [.word Lexicon.range] (read_chars read) front_unused back_unused
    (by simp) (by simpa using some_word) run
  rw [single,List.map_singleton] at compiled back_unused
  have sound : SoundWords ((words front).map String.ofList ++ [String.ofList last]) := by
    intro word member
    rcases List.mem_append.mp member with member | member
    · exact (front_unused word member).sound
    · exact (back_unused word member).sound
  have figure : (String.ofList last).toList.head? = some c := by rw [String.toList_ofList]; exact begins
  have unread := parse_figures zone sound (by simpa using some_word) figure digit
  have inside : ':' ∈ (" ".intercalate ((words front).map String.ofList ++ [String.ofList last])).toList :=
    mem_joined (List.mem_append_right _ List.mem_cons_self) (by rw [String.toList_ofList]; exact colon)
  rw [compiled]
  exact take_unparsed zone sound (by simp) unread inside (by decide)

end ClockText

-- A clock time behind `at` is understood, unless a hyphen in it says that its offset is west of UTC.
theorem clock_spoken {zone : Offset} {text : String} {time : TimeOfDay}
    (known : TimeOfDay.parse? zone text.toList = some time) :
    ((compile zone ("at " ++ text)).fullyParsed = true ∧ (compile zone ("at " ++ text)).expression =
      toString time.minute.val ++ " " ++ toString time.hour.val ++ " * * *") ↔ '-' ∉ text.toList := by
  constructor
  · intro ⟨parsed,_⟩ hyphen
    rw [ClockText.compile_hyphen known hyphen] at parsed
    cases parsed
  · intro unbroken
    rw [ClockText.compile_unbroken known unbroken]
    refine ⟨rfl,?_⟩
    apply String.toList_inj.mp
    unfold Schedule.expression Schedule.fields
    rw [toList_joined]
    simp [List.intercalate_cons_cons,List.intercalate_singleton]

theorem clock_spoken_evening : TimeOfDay.parse? .utc " 9:05\tpm +01:00".toList = some ⟨20,5⟩ ∧
    (compile .utc ("at " ++ " 9:05\tpm +01:00")).fullyParsed = true ∧
    (compile .utc ("at " ++ " 9:05\tpm +01:00")).expression = "5 20 * * *" := by
  have known : TimeOfDay.parse? .utc " 9:05\tpm +01:00".toList = some ⟨20,5⟩ := by decide
  obtain ⟨parsed,shown⟩ := (clock_spoken known).mpr (by decide)
  exact ⟨known,parsed,shown⟩

-- The hyphen has become a word for a range, and the offset a word that nothing reads.
theorem clock_west : TimeOfDay.parse? .utc "9:00 -05:00".toList = some ⟨14,0⟩ ∧
    compile .utc ("at " ++ "9:00 -05:00") = ⟨"*","*","*","*","*","9:00 05:00"⟩ ∧
    (compile .utc ("at " ++ "9:00 -05:00")).fullyParsed = false := by
  have compiled : compile .utc ("at " ++ "9:00 -05:00") = ⟨"*","*","*","*","*","9:00 05:00"⟩ := by decide +kernel
  rw [compiled]
  decide

end Recurrence
