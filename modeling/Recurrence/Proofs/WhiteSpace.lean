import Recurrence.Proofs.LooseText
import Recurrence.Proofs.PlainText

namespace Recurrence

namespace Text

-- Of every maximal run of blanks at most so many are left, as ordinary spaces. The second number says how
-- many more can be left of the run that is being read.
def limitFrom (most : Nat) : Nat → List Char → List Char
  | _,[] => []
  | more,c :: rest =>
    if isBlank c then
      match more with
      | 0 => limitFrom most 0 rest
      | more + 1 => ' ' :: limitFrom most more rest
    else c :: limitFrom most most rest
def limit (most : Nat) (text : List Char) : List Char := limitFrom most most text

theorem limitFrom_solid (solid : isBlank c = false) (most more : Nat) (left right : List Char) :
    limitFrom most more (left ++ c :: right) = limitFrom most more left ++ c :: limit most right := by
  induction left generalizing more with
  | nil => simp [limitFrom,limit,solid]
  | cons d rest ih =>
    rw [List.cons_append]
    cases more with
    | zero =>
      rw [limitFrom,limitFrom,ih,ih]
      split <;> rfl
    | succ more =>
      rw [limitFrom,limitFrom,ih,ih]
      split <;> rfl

theorem limitFrom_blanks (blank : Blanks text) (most more : Nat) : Blanks (limitFrom most more text) := by
  induction text generalizing more with
  | nil => simp [limitFrom,Blanks]
  | cons c rest ih =>
    have later (more : Nat) : Blanks (limitFrom most more rest) := ih (fun d inside => blank d (List.mem_cons_of_mem _ inside)) more
    cases more with
    | zero =>
      rw [limitFrom,if_pos (blank c List.mem_cons_self)]
      exact later 0
    | succ more =>
      rw [limitFrom,if_pos (blank c List.mem_cons_self)]
      intro d inside
      rcases List.mem_cons.mp inside with rfl | inside
      · decide
      · exact later more d inside

theorem trimStart_limit (text : List Char) (most more : Nat) :
    trimStart (limitFrom most more text) = limit most (trimStart text) := by
  induction text generalizing more with
  | nil => rfl
  | cons c rest ih =>
    cases blank : isBlank c with
    | true =>
      have dropped : trimStart (c :: rest) = trimStart rest := List.dropWhile_cons_of_pos blank
      rw [dropped]
      cases more with
      | zero =>
        rw [limitFrom,if_pos blank]
        exact ih 0
      | succ more =>
        rw [limitFrom,if_pos blank]
        exact ih more
    | false =>
      have kept (text : List Char) : trimStart (c :: text) = c :: text := trimStart_append blank [] text
      have solid := limitFrom_solid blank most more [] rest
      rw [List.nil_append] at solid
      rw [solid,kept rest]
      exact (kept _).trans (limitFrom_solid blank most most [] rest).symm

theorem trimEnd_last (text : List Char) : trimEnd text = [] ∨ ∃ front c, trimEnd text = front ++ [c] ∧ isBlank c = false := by
  unfold trimEnd
  have stops := List.head?_dropWhile_not isBlank text.reverse
  cases found : text.reverse.dropWhile isBlank with
  | nil => exact .inl rfl
  | cons c rest =>
    rw [found] at stops
    exact .inr ⟨rest.reverse,c,List.reverse_cons,by simpa using stops⟩

theorem trimEnd_limit (most : Nat) (text : List Char) : trimEnd (limit most text) = limit most (trimEnd text) := by
  obtain ⟨trailing,split,blank⟩ := trimEnd_parts text
  have cut : trimEnd (limit most trailing) = [] := trimEnd_blanks (limitFrom_blanks blank most most)
  rcases trimEnd_last text with none_left | ⟨front,c,last,solid⟩
  · rw [none_left,List.nil_append] at split
    rw [none_left,split]
    exact cut
  · rw [last,List.append_assoc,List.singleton_append] at split
    rw [last]
    conv => lhs; rw [split]
    unfold limit
    rw [limitFrom_solid solid,limitFrom_solid solid,trimEnd_append solid,cut]
    rfl

theorem trim_limit (most : Nat) (text : List Char) : trim (limit most text) = limit most (trim text) := by
  unfold trim
  rw [← trimEnd_limit,limit,trimStart_limit]

end Text

namespace Phrase

theorem cleanChar_space : cleanChar ' ' = [' '] := by decide

-- What is left of a run is what its first blanks are cleaned to, and the others widen a gap that is as wide
-- as a gap may be.
theorem looser_limit (n : Nat) (text : List Char) (used more : Nat) (most : used + more = n + 1) :
    Looser n (spaces used ++ text.flatMap cleanChar)
      (spaces used ++ (Text.limitFrom (n + 1) more text).flatMap cleanChar) := by
  induction text generalizing used more with
  | nil => exact .refl _
  | cons c rest ih =>
    have shift (used : Nat) (text : List Char) : spaces used ++ ' ' :: text = spaces (used + 1) ++ text := by
      unfold spaces
      rw [List.replicate_succ',List.append_assoc]
      rfl
    rw [List.flatMap_cons]
    cases blank : Text.isBlank c with
    | true =>
      rw [cleanChar_blank blank,List.singleton_append]
      cases more with
      | zero =>
        have full : used = n + 1 := by omega
        subst full
        rw [Text.limitFrom,if_pos blank,shift]
        exact .wide (List.prefix_append _ _) (ih (n + 1) 0 most)
      | succ more =>
        rw [Text.limitFrom,if_pos blank,List.flatMap_cons,cleanChar_space,List.singleton_append,shift,shift]
        exact ih (used + 1) more (by omega)
    | false =>
      have solid := Text.limitFrom_solid blank (n + 1) more [] rest
      rw [List.nil_append] at solid
      rw [solid]
      exact ((ih 0 (n + 1) (by omega)).append_left (cleanChar c)).append_left (spaces used)

theorem clean_limit (n : Nat) (text : List Char) : Looser n (clean text) (clean (Text.limit (n + 1) text)) := by
  have cleaned := looser_limit n (Text.trim text) 0 (n + 1) (by omega)
  unfold clean
  rw [Text.trim_limit]
  cases spoken : Text.trim text with
  | nil => exact .refl _
  | cons c rest =>
    rw [spoken] at cleaned
    obtain ⟨d,others,limited⟩ : ∃ d others, Text.limit (n + 1) (c :: rest) = d :: others := by
      unfold Text.limit
      rw [Text.limitFrom]
      split
      · exact ⟨_,_,rfl⟩
      · exact ⟨_,_,rfl⟩
    unfold Text.limit at limited ⊢
    rw [limited] at cleaned ⊢
    exact cleaned

-- The phrase with at most so many ordinary spaces in place of each run of blanks.
def limited (most : Nat) (phrase : String) : String := String.ofList (Text.limit most phrase.toList)

def squeezed (phrase : String) : String := limited 1 phrase

def names : List (String × String) := frequencies ++ holidays

def mentioned (phrase : String) : List Nat := mentions names (clean phrase.toList)

theorem names_spaced : ∀ entry ∈ names, Name entry.1.toList := by
  have table : ∀ entry ∈ names, entry.1.toList ≠ [] ∧ entry.1.toList.head? ≠ some ' ' ∧ singleSpaced entry.1.toList = true := by
    decide
  intro entry listed
  obtain ⟨nonempty,starts,single⟩ := table entry listed
  exact ⟨nonempty,starts,single⟩

theorem limited_looser (n : Nat) (phrase : String) : Looser n (clean phrase.toList) (clean (limited (n + 1) phrase).toList) := by
  unfold limited
  rw [String.toList_ofList]
  exact clean_limit n phrase.toList

theorem lex_looser {phrase other : String} (looser : Looser n (clean phrase.toList) (clean other.toList))
    (same : mentioned phrase = mentioned other) : lex phrase = lex other := by
  have expanded : wordRuns (expand (clean phrase.toList)) = wordRuns (expand (clean other.toList)) :=
    (expandBy_looser names_spaced looser same).wordRuns_eq
  unfold lex tokenize splitWords normalize
  rw [String.toList_ofList,String.toList_ofList,expanded]

end Phrase

-- Which blanks stand between words does not matter, nor how many more than one. Whether it is one or more
-- matters only to the names of several words: what is found of them with single spaces has to be found as
-- often in the phrase itself.
theorem spacing_idle (zone : Offset) (phrase : String) :
    compile zone phrase = compile zone (Phrase.limited 2 phrase) ∧
    (Phrase.mentioned phrase = Phrase.mentioned (Phrase.squeezed phrase) →
      compile zone phrase = compile zone (Phrase.squeezed phrase)) ∧
    ((∀ count ∈ Phrase.mentioned (Phrase.squeezed phrase), count = 0) →
      compile zone phrase = compile zone (Phrase.squeezed phrase)) := by
  have paired := Phrase.limited_looser 1 phrase
  have single := Phrase.limited_looser 0 phrase
  unfold compile
  refine ⟨?_,?_,?_⟩
  · rw [Phrase.lex_looser paired (Phrase.mentions_wide Phrase.names_spaced paired)]
  · intro same
    rw [Phrase.lex_looser single same]
    rfl
  · intro absent
    rw [Phrase.lex_looser single (Phrase.mentions_none Phrase.names_spaced single absent)]
    rfl

theorem spacing_idle_christmas :
    Phrase.squeezed "at\t noon  on christmas day" = "at noon on christmas day" ∧
    Phrase.mentioned "at\t noon  on christmas day" = Phrase.mentioned "at noon on christmas day" ∧
    compile .utc "at\t noon  on christmas day" = compile .utc "at noon on christmas day" ∧
    Phrase.squeezed "daily \n at  noon" = "daily at noon" ∧
    (∀ count ∈ Phrase.mentioned "daily at noon", count = 0) ∧
    compile .utc "daily \n at  noon" = compile .utc "daily at noon" := by
  have squeezed : Phrase.squeezed "at\t noon  on christmas day" = "at noon on christmas day" := by decide +kernel
  have found : Phrase.mentioned "at\t noon  on christmas day" = Phrase.mentioned "at noon on christmas day" := by
    decide +kernel
  have daily : Phrase.squeezed "daily \n at  noon" = "daily at noon" := by decide +kernel
  have absent : ∀ count ∈ Phrase.mentioned "daily at noon", count = 0 := by decide +kernel
  have idle := (spacing_idle .utc "at\t noon  on christmas day").2.1
  have daily_idle := (spacing_idle .utc "daily \n at  noon").2.2
  rw [squeezed] at idle
  rw [daily] at daily_idle
  exact ⟨squeezed,found,idle found,daily,absent,daily_idle absent⟩

-- A second space hides the longer name, and the shorter one in it leaves its last word.
theorem christmas_day_apart : Phrase.squeezed "christmas  day" = "christmas day" ∧
    compile .utc "christmas  day" = ⟨"*","*","*","12","*","25 day"⟩ ∧
    compile .utc (Phrase.squeezed "christmas  day") = ⟨"*","*","25","12","*",""⟩ ∧
    compile .utc "christmas  day" ≠ compile .utc (Phrase.squeezed "christmas  day") := by
  have squeezed : Phrase.squeezed "christmas  day" = "christmas day" := by decide +kernel
  have apart : compile .utc "christmas  day" = ⟨"*","*","*","12","*","25 day"⟩ := by decide +kernel
  have together : compile .utc "christmas day" = ⟨"*","*","25","12","*",""⟩ := by decide +kernel
  rw [squeezed,apart,together]
  decide

end Recurrence
