import Recurrence.Proofs.CleanText

namespace Recurrence

namespace Phrase

variable {text left right : List Char} {entries : List (String × String)}

-- A name that is one word: it is found on either side of a space, and never across it.
def Single (pattern : List Char) : Prop := Name pattern ∧ ' ' ∉ pattern

theorem Single.seam (single : Single pattern) (left right : List Char) : Seam pattern left (' ' :: right) := by
  intro front back split _ some_back _ starts
  rcases List.prefix_cons_iff.mp starts with none_left | ⟨rest,spelled,_⟩
  · exact some_back none_left
  · apply single.2
    simp [split,spelled]

theorem replaceAll_apart (single : Single pattern) (replacement left right : List Char) :
    replaceAll pattern replacement (left ++ ' ' :: right) =
      replaceAll pattern replacement left ++ ' ' :: replaceAll pattern replacement right := by
  have gap : replaceAll pattern replacement (' ' :: right) = ' ' :: replaceAll pattern replacement right :=
    replaceAll_spaces single.1 1 right
  rw [replaceAll_append (single.seam left right),gap]

theorem expandBy_nil (entries : List (String × String)) : expandBy entries [] = [] := by
  induction entries with
  | nil => rfl
  | cons entry rest ih => exact ih

theorem expandBy_apart (single : ∀ entry ∈ entries, Single entry.1.toList) (left right : List Char) :
    expandBy entries (left ++ ' ' :: right) = expandBy entries left ++ ' ' :: expandBy entries right := by
  induction entries generalizing left right with
  | nil => rfl
  | cons entry rest ih =>
    have here := single entry List.mem_cons_self
    have later := fun other member => single other (List.mem_cons_of_mem entry member)
    simp only [expandBy_cons,replaceAll_apart here,ih later]

theorem expandBy_between (single : ∀ entry ∈ entries, Single entry.1.toList) (before : BeforeWord left)
    (after : AfterWord right) (text : List Char) :
    expandBy entries (left ++ text ++ right) = expandBy entries left ++ expandBy entries text ++ expandBy entries right := by
  have ends : expandBy entries (text ++ right) = expandBy entries text ++ expandBy entries right := by
    rcases after with rfl | ⟨after,rfl⟩
    · simp [expandBy_nil]
    · have gap := expandBy_apart single [] after
      simp only [expandBy_nil,List.nil_append] at gap
      rw [expandBy_apart single,gap]
  rcases before with rfl | ⟨before,rfl⟩
  · simpa [expandBy_nil] using ends
  · have gap := expandBy_apart single before []
    have cut := expandBy_apart single before (text ++ right)
    simp only [expandBy_nil] at gap
    simp only [List.append_assoc,List.cons_append,List.nil_append,gap] at cut ⊢
    rw [cut,ends]

-- A text that stands in a clean phrase as it is written, with a word at either end.
def Framed (text : List Char) : Prop :=
  text.head?.any isWordChar = true ∧ text.getLast?.any isWordChar = true ∧ text.all isKept = true

instance (text : List Char) : Decidable (Framed text) := inferInstanceAs (Decidable (_ ∧ _))

theorem clean_framed (framed : Framed text) (left right : List Char) :
    clean (left ++ [' '] ++ text ++ ' ' :: right) = cleanedBefore left ++ text ++ cleanedAfter right := by
  obtain ⟨opens,closes,kept⟩ := framed
  have some_text : text ≠ [] := by
    rintro rfl
    cases opens
  have itself : text.flatMap cleanChar = text := by
    have each : ∀ c ∈ text, cleanChar c = [c] := fun c inside => cleanChar_kept (List.all_eq_true.mp kept c inside)
    rw [List.flatMap_def,List.map_congr_left each,← List.flatMap_def,List.flatMap_singleton']
  have cleaned := clean_between some_text
    (fun c first => isBlank_of_isWordChar (by simpa [first] using opens))
    (fun c last => isBlank_of_isWordChar (by simpa [last] using closes)) left right
  rwa [itself] at cleaned

theorem frequencies_spelled : ∀ entry ∈ frequencies, Framed entry.1.toList ∧ Framed entry.2.toList ∧
    expandBy frequencies entry.1.toList = entry.2.toList ∧ expandBy frequencies entry.2.toList = entry.2.toList := by
  decide +kernel

theorem frequencies_single : ∀ entry ∈ frequencies, Single entry.1.toList := by
  have table : ∀ entry ∈ frequencies, ' ' ∉ entry.1.toList := by decide
  exact fun entry listed => ⟨names_spaced entry (List.mem_append_left _ listed),table entry listed⟩

theorem normalize_between {text : String} (framed : Framed text.toList) (before after : String) :
    normalize (before ++ " " ++ text ++ " " ++ after) = String.ofList (expandBy holidays
      (expandBy frequencies (cleanedBefore before.toList) ++ expandBy frequencies text.toList ++
        expandBy frequencies (cleanedAfter after.toList))) := by
  have spelled : (before ++ " " ++ text ++ " " ++ after).toList =
      before.toList ++ [' '] ++ text.toList ++ ' ' :: after.toList := by
    simp [String.toList_append]
  unfold normalize
  rw [spelled,clean_framed framed,expand_eq_expandBy,expandBy_append,
    expandBy_between frequencies_single (cleanedBefore_place _) (cleanedAfter_place _)]

end Phrase

-- A word for a frequency is an abbreviation of its meaning, whatever stands before and after it.
theorem frequency_abbreviates (listed : (word,meaning) ∈ Phrase.frequencies) (before after : String) :
    Phrase.normalize (before ++ " " ++ word ++ " " ++ after) = Phrase.normalize (before ++ " " ++ meaning ++ " " ++ after) ∧
      ∀ zone, compile zone (before ++ " " ++ word ++ " " ++ after) = compile zone (before ++ " " ++ meaning ++ " " ++ after) := by
  obtain ⟨word_framed,meaning_framed,expanded,final⟩ := Phrase.frequencies_spelled _ listed
  have same : Phrase.normalize (before ++ " " ++ word ++ " " ++ after) =
      Phrase.normalize (before ++ " " ++ meaning ++ " " ++ after) := by
    rw [Phrase.normalize_between word_framed,Phrase.normalize_between meaning_framed,expanded,final]
  refine ⟨same,fun zone => ?_⟩
  unfold compile Phrase.lex
  rw [same]

theorem frequency_abbreviates_yearly : ("yearly","every year") ∈ Phrase.frequencies ∧
    Phrase.normalize "New-annually yearly Year's daily eve" = Phrase.normalize "New-annually every year Year's daily eve" ∧
    Phrase.normalize "New-annually every year Year's daily eve" = "new to every year every year years every day eve" ∧
    compile .utc "New-annually yearly Year's daily eve" = compile .utc "New-annually every year Year's daily eve" := by
  have listed : ("yearly","every year") ∈ Phrase.frequencies := by decide
  have spelled : Phrase.normalize "New-annually every year Year's daily eve" =
      "new to every year every year years every day eve" := by decide +kernel
  obtain ⟨same,schedules⟩ := frequency_abbreviates listed "New-annually" "Year's daily eve"
  exact ⟨listed,same,spelled,schedules .utc⟩

end Recurrence
