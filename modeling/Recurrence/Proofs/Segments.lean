import Recurrence.Clause.Residual
import Recurrence.Proofs.Words

namespace Recurrence

-- Words that can be joined with spaces and found again: none is empty, none has a blank in it.
def SoundWord (word : String) : Prop := word ≠ "" ∧ ∀ c ∈ word.toList, Text.isBlank c = false
def SoundWords (words : List String) : Prop := ∀ word ∈ words, SoundWord word

instance (word : String) : Decidable (SoundWord word) :=
  decidable_of_iff (word ≠ "" ∧ word.toList.all (fun c => !Text.isBlank c) = true) (by simp [SoundWord])

theorem SoundWords.sublist (sound : SoundWords words) (fewer : some_words.Sublist words) : SoundWords some_words :=
  fun word member => sound word (fewer.subset member)

theorem SoundWords.lists (sound : SoundWords words) :
    ∀ word ∈ words.map String.toList, word ≠ [] ∧ ∀ c ∈ word, Text.isBlank c = false := by
  intro text member
  obtain ⟨word,inside,rfl⟩ := List.mem_map.mp member
  exact ⟨fun empty => (sound word inside).1 (String.toList_eq_nil_iff.mp empty),(sound word inside).2⟩

theorem toList_joined (words : List String) :
    (" ".intercalate words).toList = [' '].intercalate (words.map String.toList) := String.toList_intercalate

theorem mem_joined {words : List String} (member : word ∈ words) (inside : c ∈ word.toList) :
    c ∈ (" ".intercalate words).toList := by
  rw [toList_joined]
  exact Text.mem_intercalate (List.mem_map_of_mem member) inside [' ']

theorem trim_joined (sound : SoundWords words) :
    Text.trim (" ".intercalate words).toList = (" ".intercalate words).toList := by
  rw [toList_joined]
  exact Text.trim_intercalate sound.lists

theorem joined_eq_empty (sound : SoundWords words) : " ".intercalate words = "" ↔ words = [] := by
  refine ⟨?_,fun none => by rw [none]; exact String.intercalate_nil⟩
  intro empty
  cases words with
  | nil => rfl
  | cons word rest =>
    have text := congrArg String.toList empty
    rw [toList_joined] at text
    have some_word := (sound.lists word.toList (by simp)).1
    cases rest with
    | nil => exact absurd (by simpa [List.intercalate_singleton] using text) some_word
    | cons => simp [List.intercalate_cons_cons] at text

theorem wordsOf_cons (token : Token) (rest : List Token) :
    wordsOf (token :: rest) = token.word?.toList ++ wordsOf rest := by
  cases token <;> rfl

theorem mem_wordsOf : word ∈ wordsOf tokens ↔ Token.word word ∈ tokens := by
  unfold wordsOf
  rw [List.mem_filterMap]
  constructor
  · intro ⟨token,member,spoken⟩
    cases token with
    | word text => cases spoken; exact member
    | marker kind => cases spoken
    | blank => cases spoken
  · exact fun member => ⟨_,member,rfl⟩

theorem wordsOf_splitOnP (tokens : List Token) :
    wordsOf tokens = (tokens.splitOnP Token.isMarker).flatMap wordsOf := by
  induction tokens with
  | nil => rfl
  | cons token rest ih =>
    rw [List.splitOnP_cons_eq_if_modifyHead]
    split
    · rename_i marker
      have silent : token.word? = none := by cases token <;> first | rfl | cases marker
      rw [wordsOf_cons,silent,ih]
      rfl
    · obtain ⟨run,runs,split⟩ := List.exists_cons_of_ne_nil (List.splitOnP_ne_nil Token.isMarker rest)
      rw [split] at ih ⊢
      rw [wordsOf_cons,ih]
      simp [wordsOf_cons]

namespace Clause.Residual
open Text

-- The text between two markers.
def runText (run : List Token) : String := " ".intercalate (wordsOf run)

theorem segments_eq (tokens : List Token) :
    segments tokens = ((tokens.splitOnP Token.isMarker).map runText).filter (· != "") := rfl

theorem segments_marker (left right : List Token) (kind : Marker) :
    segments (left ++ .marker kind :: right) = segments left ++ segments right := by
  simp only [segments_eq]
  rw [List.splitOnP_append_cons left right (by rfl),List.map_append,List.filter_append]

theorem segments_opened (kind : Marker) (rest : List Token) : segments (.marker kind :: rest) = segments rest :=
  segments_marker [] rest kind

theorem segments_append (left : List Token) (opened : ∃ kind rest, right = .marker kind :: rest) :
    segments (left ++ right) = segments left ++ segments right := by
  obtain ⟨kind,rest,rfl⟩ := opened
  rw [segments_marker,segments_opened]

theorem segments_silent {run : List Token} (unmarked : ∀ token ∈ run, token.isMarker = false)
    (silent : wordsOf run = []) : segments run = [] := by
  rw [segments_eq,List.splitOnP_eq_singleton unmarked,List.map_singleton,runText,silent,String.intercalate_nil]
  rfl

theorem segments_spoken {run : List Token} (unmarked : ∀ token ∈ run, token.isMarker = false)
    (sound : SoundWords (wordsOf run)) (spoken : wordsOf run ≠ []) : segments run = [runText run] := by
  have shown : (runText run != "") = true := by
    rw [bne_iff_ne]
    exact fun blank => spoken ((joined_eq_empty sound).mp blank)
  rw [segments_eq,List.splitOnP_eq_singleton unmarked,List.map_singleton,List.filter_cons,if_pos shown,List.filter_nil]

theorem words_joined {parts : List String} (sound : SoundWords parts) :
    words (" ".intercalate parts).toList = parts.map String.toList := by
  rw [toList_joined,words_eq_runs,runs_intercalate (by decide) sound.lists]

theorem segmentWords_joined {parts : List String} (sound : SoundWords parts) :
    segmentWords (" ".intercalate parts) = parts := by
  unfold segmentWords
  rw [words_joined sound,List.map_map]
  simp [Function.comp_def]

theorem joined_inj {words others : List String} (sound : SoundWords words) (others_sound : SoundWords others) :
    " ".intercalate words = " ".intercalate others ↔ words = others := by
  refine ⟨fun same => ?_,fun same => by rw [same]⟩
  rw [← segmentWords_joined sound,same,segmentWords_joined others_sound]

def isOther (zone : Offset) (segment : String) : Bool := reading zone segment == .other

theorem take_tokens (zone : Offset) (segment : String) (later : Draft) : (take zone segment later).tokens =
    (if isOther zone segment then (segmentWords segment).map .word else []) ++ later.tokens := by
  unfold take isOther
  split <;> rename_i said <;> simp [said]

theorem take_disabled (zone : Offset) (segment : String) (later : Draft) :
    (take zone segment later).fields.disabled = later.fields.disabled := by
  unfold take
  split <;> simp [Fields.disabled_set]

theorem read_disabled (zone : Offset) (draft : Draft) :
    (read zone draft).fields.disabled = draft.fields.disabled := by
  unfold read
  induction segments draft.tokens with
  | nil => rfl
  | cons segment rest ih => rw [List.foldr_cons,take_disabled,ih]

theorem foldr_tokens (zone : Offset) (found : List String) (fields : Fields) :
    (found.foldr (take zone) ⟨[],fields⟩).tokens =
      (found.filter (isOther zone)).flatMap (fun segment => (segmentWords segment).map .word) := by
  induction found with
  | nil => rfl
  | cons segment rest ih =>
    rw [List.foldr_cons,take_tokens,ih,List.filter_cons]
    split <;> rfl

theorem read_tokens (zone : Offset) (draft : Draft) : (read zone draft).tokens =
    ((segments draft.tokens).filter (isOther zone)).flatMap (fun segment => (segmentWords segment).map .word) :=
  foldr_tokens zone _ _

theorem wordsOf_words (words : List String) : wordsOf (words.map .word) = words := by
  induction words with
  | nil => rfl
  | cons word rest ih => rw [List.map_cons,wordsOf_cons,ih]; rfl

theorem read_words (zone : Offset) (draft : Draft) (sound : SoundWords draft.words) :
    (read zone draft).words = (draft.tokens.splitOnP Token.isMarker).flatMap
      (fun run => if isOther zone (runText run) then wordsOf run else []) := by
  unfold Draft.words at sound ⊢
  rw [read_tokens,segments_eq]
  rw [wordsOf_splitOnP] at sound
  generalize draft.tokens.splitOnP Token.isMarker = runs at sound ⊢
  induction runs with
  | nil => rfl
  | cons run rest ih =>
    rw [List.flatMap_cons] at sound
    have here : SoundWords (wordsOf run) := sound.sublist (List.sublist_append_left _ _)
    have later := ih (sound.sublist (List.sublist_append_right _ _))
    rw [List.map_cons,List.filter_cons,List.flatMap_cons,← later]
    by_cases empty : wordsOf run = []
    · have blank : runText run = "" := by rw [runText,empty]; exact String.intercalate_nil
      rw [blank,empty]
      simp
    · have shown : (runText run != "") = true := by
        rw [bne_iff_ne]
        exact fun blank => empty ((joined_eq_empty here).mp blank)
      rw [if_pos shown,List.filter_cons]
      split
      · rw [List.flatMap_cons,wordsOf_append,wordsOf_words,runText,segmentWords_joined here]
      · rfl

end Clause.Residual
end Recurrence
