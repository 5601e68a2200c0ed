import Recurrence.Compile
import Recurrence.Proofs.Replacement
import Recurrence.Proofs.Segments

namespace Recurrence

namespace Lexicon

theorem resolve_cases (word : String) : resolve word = .word word ∨ (word,resolve word) ∈ synonyms := by
  unfold resolve
  cases found : synonyms.lookup word with
  | none => exact .inl rfl
  | some token =>
    obtain ⟨before,after,split,_⟩ := List.lookup_eq_some_iff.mp found
    exact .inr (by rw [split]; simp)

end Lexicon

namespace Phrase

theorem wordChar_toNat (isWord : isWordChar c = true) :
    43 ≤ c.toNat ∧ c.toNat ≤ 58 ∨ 97 ≤ c.toNat ∧ c.toNat ≤ 122 := by
  simp only [isWordChar,Bool.or_eq_true,Bool.and_eq_true,decide_eq_true_eq,beq_iff_eq,Char.isDigit] at isWord
  rcases isWord with ((⟨low,high⟩ | ⟨low,high⟩) | rfl) | rfl
  · exact .inr ⟨low,high⟩
  · have low : 48 ≤ c.toNat := low
    have high : c.toNat ≤ 57 := high
    omega
  · decide
  · decide

theorem isBlank_toNat (blank : Text.isBlank c = true) : c.toNat ≤ 32 ∨ 133 ≤ c.toNat := by
  simp [Text.isBlank] at blank
  omega

theorem lower_eq_self {c : Char} (kelvin : c ≠ '\u212A') (dotted : c ≠ '\u0130')
    (uncased : c.toNat < 65 ∨ 90 < c.toNat) : lower c = c := by
  have outside : ¬ (c.val ≥ 'A'.val ∧ c.val ≤ 'Z'.val) := by
    intro ⟨low,high⟩
    have low : 65 ≤ c.toNat := low
    have high : c.toNat ≤ 90 := high
    omega
  have same : c.toLower = c := by
    unfold Char.toLower
    rw [dif_neg outside]
  simp [lower,kelvin,dotted,same]

theorem isBlank_of_lower (isWord : isWordChar (lower c) = true) : Text.isBlank c = false := by
  cases blank : Text.isBlank c with
  | false => rfl
  | true =>
    have range := isBlank_toNat blank
    have same : lower c = c := lower_eq_self (by rintro rfl; revert blank; decide)
      (by rintro rfl; revert blank; decide) (by omega)
    rw [same] at isWord
    have := wordChar_toNat isWord
    omega

theorem cleanChar_word (isWord : isWordChar (lower c) = true) : cleanChar c = [lower c] := by
  have hyphen : c ≠ '-' := by rintro rfl; revert isWord; decide
  have solid := isBlank_of_lower isWord
  have kept : isKept (lower c) = true := by
    simp only [isWordChar,Bool.or_eq_true] at isWord
    simp only [isKept,Bool.or_eq_true]
    rcases isWord with (word | colon) | plus
    · exact .inl (.inl (.inl word))
    · exact .inl (.inr colon)
    · exact .inr plus
  simp [cleanChar,hyphen,solid,kept]

theorem lower_wordChar (isWord : isWordChar c = true) : lower c = c := by
  have range := wordChar_toNat isWord
  exact lower_eq_self (by rintro rfl; revert isWord; decide) (by rintro rfl; revert isWord; decide) (by omega)

theorem isBlank_of_isWordChar (isWord : isWordChar c = true) : Text.isBlank c = false := by
  cases blank : Text.isBlank c with
  | false => rfl
  | true =>
    have := wordChar_toNat isWord
    have := isBlank_toNat blank
    omega

theorem clean_word {word : List Char} (isWord : ∀ c ∈ word, isWordChar (lower c) = true) :
    word.flatMap cleanChar = word.map lower := by
  induction word with
  | nil => rfl
  | cons c rest ih =>
    rw [List.flatMap_cons,cleanChar_word (isWord c List.mem_cons_self),
      ih fun d inside => isWord d (List.mem_cons_of_mem _ inside)]
    rfl

theorem lower_word {word : List Char} (isWord : ∀ c ∈ word, isWordChar c = true) : word.map lower = word := by
  have same : word.map lower = word.map id := List.map_congr_left fun c inside => lower_wordChar (isWord c inside)
  rw [same,List.map_id]

theorem clean_map {f : Char → Char} (blank : ∀ c, Text.isBlank (f c) = Text.isBlank c)
    (cleaned : ∀ c, cleanChar (f c) = cleanChar c) (text : List Char) : clean (text.map f) = clean text := by
  have blanks : Text.isBlank ∘ f = Text.isBlank := funext blank
  have trimmed : Text.trim (text.map f) = (Text.trim text).map f := by
    unfold Text.trim Text.trimEnd Text.trimStart
    rw [List.dropWhile_map,blanks,← List.map_reverse,List.dropWhile_map,blanks,List.map_reverse]
  have each : ((Text.trim text).map f).flatMap cleanChar = (Text.trim text).flatMap cleanChar := by
    rw [List.flatMap_map]
    exact congrArg (List.flatMap · (Text.trim text)) (funext cleaned)
  unfold clean
  rw [trimmed]
  cases spoken : Text.trim text with
  | nil => rfl
  | cons c rest =>
    rw [spoken] at each
    exact each

-- What a word of a clean phrase can hold once its synonyms are resolved: zones bring in a hyphen.
def isLexed (c : Char) : Bool := isWordChar c || c == '-'

theorem isBlank_of_isLexed (lexed : isLexed c = true) : Text.isBlank c = false := by
  rcases Bool.or_eq_true_iff.mp lexed with isWord | hyphen
  · exact isBlank_of_isWordChar isWord
  · rw [eq_of_beq hyphen]; decide

theorem synonyms_lexed : ∀ entry ∈ Lexicon.synonyms,
    entry.2.word?.all (fun word => word != "" && word.toList.all isLexed) = true := by decide +kernel

theorem lexed_word (member : word ∈ wordsOf (tokenize text)) :
    word ≠ "" ∧ ∀ c ∈ word.toList, isLexed c = true := by
  unfold wordsOf tokenize splitWords at member
  obtain ⟨token,inside,spoken⟩ := List.mem_filterMap.mp member
  obtain ⟨written,cut,rfl⟩ := List.mem_map.mp inside
  obtain ⟨run,found,rfl⟩ := List.mem_map.mp cut
  rcases Lexicon.resolve_cases (String.ofList run) with same | listed
  · rw [same] at spoken
    cases spoken
    rw [Text.wordRuns_eq_runs] at found
    refine ⟨?_,?_⟩
    · rw [ne_eq,String.ofList_eq_empty_iff]
      exact Text.runs_nonempty found
    · intro c inside
      rw [String.toList_ofList] at inside
      have solid := Text.runs_solid found inside
      simp only [Bool.not_eq_false'] at solid
      simp [isLexed,solid]
  · have known := synonyms_lexed _ listed
    rw [spoken] at known
    simpa using known

theorem lex_sound (phrase : String) : SoundWords (wordsOf (lex phrase)) :=
  fun _ member => ⟨(lexed_word member).1,fun c inside => isBlank_of_isLexed ((lexed_word member).2 c inside)⟩

-- What is left of the texts beside a place between spaces: nothing, or a text with a space on its side.
def cleanedBefore (left : List Char) : List Char := (Text.trimStart (left ++ [' '])).flatMap cleanChar
def cleanedAfter (right : List Char) : List Char := (Text.trimEnd (' ' :: right)).flatMap cleanChar

theorem cleanedBefore_place (left : List Char) : BeforeWord (cleanedBefore left) := by
  unfold cleanedBefore
  rcases Text.trimStart_space left with none | more
  · exact .inl (by rw [none]; rfl)
  · exact .inr ⟨_,by rw [more,List.flatMap_append]; rfl⟩

theorem cleanedAfter_place (right : List Char) : AfterWord (cleanedAfter right) := by
  unfold cleanedAfter
  rcases Text.trimEnd_space right with none | more
  · exact .inl (by rw [none]; rfl)
  · exact .inr ⟨(Text.trimEnd right).flatMap cleanChar,by rw [more,List.flatMap_cons]; rfl⟩

theorem clean_between {text : List Char} (some_text : text ≠ [])
    (opens : ∀ c, text.head? = some c → Text.isBlank c = false)
    (closes : ∀ c, text.getLast? = some c → Text.isBlank c = false) (left right : List Char) :
    clean (left ++ [' '] ++ text ++ ' ' :: right) =
      cleanedBefore left ++ text.flatMap cleanChar ++ cleanedAfter right := by
  have trimmed := Text.trim_between some_text opens closes (left ++ [' ']) (' ' :: right)
  unfold clean
  rw [trimmed]
  split
  · rename_i empty
    exact absurd (by simpa using empty : _ ∧ text = [] ∧ _).2.1 some_text
  · rw [List.flatMap_append,List.flatMap_append]
    rfl

theorem clean_around {word : List Char} (some_word : word ≠ []) (isWord : ∀ c ∈ word, isWordChar c = true)
    (left right : List Char) :
    clean (left ++ [' '] ++ word ++ ' ' :: right) = cleanedBefore left ++ word ++ cleanedAfter right := by
  have solid : ∀ c ∈ word, Text.isBlank c = false := fun c inside => isBlank_of_isWordChar (isWord c inside)
  have kept : word.flatMap cleanChar = word := by
    rw [clean_word fun c inside => by rw [lower_wordChar (isWord c inside)]; exact isWord c inside]
    exact lower_word isWord
  have cleaned := clean_between some_word (fun c first => solid c (List.mem_of_head? first))
    (fun c last => solid c (List.mem_of_getLast? last)) left right
  rwa [kept] at cleaned

theorem runs_around {word before after : List Char} (some_word : word ≠ [])
    (isWord : ∀ c ∈ word, isWordChar c = true) (place : BeforeWord before) (next : AfterWord after) :
    wordRuns (before ++ word ++ after) = wordRuns before ++ word :: wordRuns after := by
  simp only [Text.wordRuns_eq_runs]
  have single : Text.runs (fun c => !isWordChar c) word = [word] :=
    Text.runs_word some_word fun c inside => by simp [isWord c inside]
  have ends : Text.runs (fun c => !isWordChar c) (word ++ after) =
      word :: Text.runs (fun c => !isWordChar c) after := by
    rcases next with rfl | ⟨after,rfl⟩
    · rw [List.append_nil,single,Text.runs_nil]
    · rw [Text.runs_append_cons (by decide),Text.runs_cons (by decide),single]
      rfl
  rcases place with rfl | ⟨before,rfl⟩
  · rw [List.nil_append,ends,Text.runs_nil]
    rfl
  · rw [List.append_assoc,List.append_assoc,List.singleton_append,Text.runs_append_cons (by decide),ends,
      Text.runs_append_cons (by decide),Text.runs_nil,List.append_nil]

theorem lex_around {word : List Char} (some_word : word ≠ []) (isWord : ∀ c ∈ word, isWordChar c = true)
    (avoids : ∀ entry ∈ frequencies ++ holidays, Avoids entry.1.toList word ∧ entry.1.toList ≠ [])
    (spelled : phrase.toList = left ++ [' '] ++ word ++ ' ' :: right) :
    Lexicon.resolve (String.ofList word) ∈ lex phrase := by
  have cleaned := clean_around some_word isWord left right
  obtain ⟨expanded,place,next⟩ :=
    expandBy_around avoids some_word (cleanedBefore_place left) (cleanedAfter_place right)
  unfold lex tokenize splitWords normalize
  rw [String.toList_ofList,spelled,cleaned,expand_eq_expandBy,expanded,runs_around some_word isWord place next]
  simp

end Phrase

-- The words of the remainder.
def Schedule.leftover (schedule : Schedule) : List String := Clause.Residual.segmentWords schedule.unparsed

theorem Draft.schedule_unparsed (draft : Draft) (sound : SoundWords draft.words) :
    draft.schedule.unparsed = " ".intercalate draft.words := by
  have trimmed : draft.unparsed = " ".intercalate draft.words := by
    unfold Draft.unparsed
    rw [trim_joined sound,String.ofList_toList]
  unfold Draft.schedule
  split
  · exact trimmed
  · exact trimmed

theorem Draft.schedule_leftover (draft : Draft) (sound : SoundWords draft.words) :
    draft.schedule.leftover = draft.words := by
  unfold Schedule.leftover
  rw [draft.schedule_unparsed sound,Clause.Residual.segmentWords_joined sound]

end Recurrence
