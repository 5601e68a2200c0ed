import Recurrence.Proofs.Conservation
import Recurrence.Proofs.PlainText
import Recurrence.Proofs.Silence

namespace Recurrence
open Text ClockText

-- Words that are written with the characters of clock times.
def OnDial (word : String) : Prop := ∀ c ∈ word.toList, isClockChar c = true

theorem clockChar_cases (onClock : isClockChar c = true) : Phrase.isWordChar c = true ∨ c = '-' := by
  simp only [isClockChar,Bool.or_eq_true,beq_iff_eq] at onClock
  rcases onClock with (((((digit | rfl) | rfl) | rfl) | rfl) | rfl) | rfl
  · exact .inl (by simp [Phrase.isWordChar,digit])
  · exact .inl (by decide)
  · exact .inl (by decide)
  · exact .inr rfl
  all_goals exact .inl (by decide)

theorem clockChar_solid (onClock : isClockChar c = true) : isBlank c = false := by
  apply Phrase.isBlank_of_isLexed
  rcases clockChar_cases onClock with isWord | rfl
  · simp [Phrase.isLexed,isWord]
  · decide

namespace OnDial

variable {word : String} (onDial : OnDial word)
include onDial

theorem ne_lettered {other : String} (lettered : other.toList.any (fun c => !isClockChar c) = true) : word ≠ other := by
  rintro rfl
  obtain ⟨c,inside,letter⟩ := List.any_eq_true.mp lettered
  rw [onDial c inside] at letter
  cases letter

theorem silent : .word word ∉ openers := by
  have lettered : ∀ opener ∈ openers, ∀ text, opener.word? = some text →
      text.toList.any (fun c => !isClockChar c) = true := by decide
  intro opens
  exact onDial.ne_lettered (lettered _ opens word rfl) rfl

theorem unnamed (unbroken : word ≠ Lexicon.range) : Clause.Calendar.Name.ofWord? word = none := by
  have lettered : ∀ name ∈ Lexicon.weekdays ++ Lexicon.months, name.toList.any (fun c => !isClockChar c) = true := by decide
  refine Decidable.byContradiction fun named => ?_
  rcases named_words (Option.isSome_iff_ne_none.mpr named) with weekday | month | same
  · exact onDial.ne_lettered (lettered word (List.mem_append_left _ weekday)) rfl
  · exact onDial.ne_lettered (lettered word (List.mem_append_right _ month)) rfl
  · exact unbroken same

end OnDial

-- Words that no clause of names or of frequencies uses: clock times, and offsets with either sign.
structure Unused (word : String) : Prop where
  nonempty : word ≠ ""
  onDial : OnDial word
  no_range : word ≠ Lexicon.range

theorem Unused.sound (unused : Unused word) : SoundWord word :=
  ⟨unused.nonempty,fun c inside => clockChar_solid (unused.onDial c inside)⟩

theorem Unused.nameOf_eq (unused : Unused word) : Clause.Calendar.nameOf (.word word) = none :=
  unused.onDial.unnamed unused.no_range

theorem Unused.used_eq {spoken : List String} (unused : ∀ word ∈ spoken, Unused word) :
    Clause.Calendar.used (spoken.map .word) = spoken.map .word ∧
      (spoken.map Token.word).filterMap Clause.Calendar.nameOf = [] := by
  constructor
  · unfold Clause.Calendar.used
    rw [List.map_map]
    refine List.map_congr_left fun word member => ?_
    rw [Function.comp_apply,(unused word member).nameOf_eq]
    rfl
  · rw [List.filterMap_map,List.filterMap_eq_nil_iff]
    exact fun word member => (unused word member).nameOf_eq

-- Those that a phrase can hold: its hyphens are words for a range.
structure Unbroken (word : String) : Prop where
  nonempty : word ≠ ""
  onDial : OnDial word
  unbroken : '-' ∉ word.toList

namespace Unbroken

variable {word : String} (written : Unbroken word)
include written

theorem isWord : ∀ c ∈ word.toList, Phrase.isWordChar c = true := by
  intro c inside
  refine (clockChar_cases (written.onDial c inside)).resolve_right ?_
  rintro rfl
  exact written.unbroken inside

theorem lowered_eq : Phrase.lowered word = word.toList := Phrase.lower_word written.isWord

theorem plain : Phrase.Plain word := by
  refine ⟨written.nonempty,?_,?_⟩
  · rw [written.lowered_eq]
    exact written.isWord
  · intro key listed inside
    rw [written.lowered_eq] at inside
    have lettered : ∀ key ∈ Phrase.keys, key.toList.any (fun c => !isClockChar c) = true := by decide
    obtain ⟨c,within,letter⟩ := List.any_eq_true.mp (lettered key listed)
    rw [written.onDial c (inside.subset within)] at letter
    cases letter

theorem resolve_eq : Lexicon.resolve word = .word word := by
  rcases Lexicon.resolve_cases word with same | listed
  · exact same
  · have lettered : ∀ entry ∈ Lexicon.synonyms, entry.1.toList.any (fun c => !isClockChar c) = true := by decide +kernel
    exact absurd rfl (written.onDial.ne_lettered (lettered _ listed))

theorem tokenOf_eq : Phrase.tokenOf word = .word word := by
  unfold Phrase.tokenOf
  rw [written.lowered_eq,String.ofList_toList]
  exact written.resolve_eq

theorem unused : Unused word := by
  refine ⟨written.nonempty,written.onDial,?_⟩
  rintro rfl
  exact written.unbroken (by decide)

end Unbroken

namespace Phrase

theorem wordRuns_clean (onWords : ∀ c ∈ text, isBlank c = true ∨ isWordChar c = true) :
    wordRuns (text.flatMap cleanChar) = words text := by
  have pieces : (text.flatMap cleanChar).splitOnP (fun c => !isWordChar c) = text.splitOnP isBlank := by
    induction text with
    | nil => rfl
    | cons c rest ih =>
      have later := ih fun d inside => onWords d (List.mem_cons_of_mem _ inside)
      rcases onWords c List.mem_cons_self with blank | isWord
      · rw [List.flatMap_cons,cleanChar_blank blank,List.singleton_append,List.splitOnP_cons_eq_if_modifyHead,
          List.splitOnP_cons_eq_if_modifyHead,if_pos (by decide),if_pos blank,later]
      · have kept : cleanChar c = [c] := by
          rw [cleanChar_word (by rwa [lower_wordChar isWord]),lower_wordChar isWord]
        rw [List.flatMap_cons,kept,List.singleton_append,List.splitOnP_cons_eq_if_modifyHead,
          List.splitOnP_cons_eq_if_modifyHead,if_neg (by simp [isWord]),if_neg (by simp [isBlank_of_isWordChar isWord]),later]
  unfold wordRuns words
  rw [pieces]

theorem unbroken_words {text : List Char} (onClock : ∀ c ∈ text, OnClock c) (unbroken : '-' ∉ text) :
    ∀ word ∈ (words text).map String.ofList, Unbroken word := by
  intro word member
  obtain ⟨run,found,rfl⟩ := List.mem_map.mp member
  have inside : ∀ c ∈ run, c ∈ text ∧ isBlank c = false := mem_splitOnP (List.mem_filter.mp found).1
  refine ⟨?_,?_,?_⟩
  · rw [ne_eq,String.ofList_eq_empty_iff]
    exact runs_nonempty found
  · intro c among
    rw [String.toList_ofList] at among
    exact (onClock c (inside c among).1).resolve_right (by simp [(inside c among).2])
  · rw [String.toList_ofList]
    exact fun among => unbroken (inside _ among).1

theorem looked_clock {text : List Char} (onClock : ∀ c ∈ text, OnClock c) (unbroken : '-' ∉ text) :
    looked text = ((words text).map String.ofList).map .word := by
  have onWords : ∀ c ∈ text, isBlank c = true ∨ isWordChar c = true := by
    intro c inside
    rcases onClock c inside with onClock | blank
    · refine .inr ((clockChar_cases onClock).resolve_right ?_)
      rintro rfl
      exact unbroken inside
    · exact .inl blank
  unfold looked
  rw [wordRuns_clean onWords,List.map_map]
  exact List.map_congr_left fun word member =>
    (unbroken_words onClock unbroken _ (List.mem_map_of_mem member)).resolve_eq

theorem clean_hyphen (left right : List Char) :
    (left ++ '-' :: right).flatMap cleanChar = (left ++ ' ' :: (['t','o'] ++ ' ' :: right)).flatMap cleanChar := by
  rw [List.flatMap_append,List.flatMap_append,List.flatMap_cons,List.flatMap_cons,List.flatMap_append,List.flatMap_cons]
  rfl

theorem looked_hyphen (left right : List Char) :
    looked (left ++ '-' :: right) = looked left ++ .word Lexicon.range :: looked right := by
  have range : looked ['t','o'] = [.word Lexicon.range] := by decide +kernel
  rw [looked_same (clean_hyphen left right),looked_space,looked_space,range]
  rfl

theorem clock_keyless {text : List Char} (onClock : ∀ c ∈ text, OnClock c) : Keyless text := by
  have lettered : ∀ key ∈ keys, key.toList.any (fun c => !(isClockChar c || c == ' ' || c == 't' || c == 'o')) = true := by
    decide
  have cleaned : ∀ c ∈ text.flatMap cleanChar, (isClockChar c || c == ' ' || c == 't' || c == 'o') = true := by
    intro c inside
    obtain ⟨d,among,inside⟩ := List.mem_flatMap.mp inside
    rcases onClock d among with onClock | blank
    · rcases clockChar_cases onClock with isWord | rfl
      · rw [cleanChar_word (by rwa [lower_wordChar isWord]),lower_wordChar isWord,List.mem_singleton] at inside
        rw [inside,onClock]
        rfl
      · have table : (cleanChar '-').all (fun c => isClockChar c || c == ' ' || c == 't' || c == 'o') = true := by decide
        exact List.all_eq_true.mp table c inside
    · rw [cleanChar_blank blank,List.mem_singleton] at inside
      rw [inside]
      decide
  intro key listed inside
  obtain ⟨c,within,letter⟩ := List.any_eq_true.mp (lettered key listed)
  rw [cleaned c (inside.subset within)] at letter
  cases letter

end Phrase
end Recurrence
