import Recurrence.Proofs.ClockText
import Recurrence.Proofs.Words

namespace Recurrence.Text

def Blanks (text : List Char) : Prop := ∀ c ∈ text, isBlank c = true
def Solid (text : List Char) : Prop := ∀ c ∈ text, isBlank c = false

theorem Blanks.append (left : Blanks first) (right : Blanks second) : Blanks (first ++ second) := by
  intro c inside
  rcases List.mem_append.mp inside with inside | inside
  · exact left c inside
  · exact right c inside

theorem Solid.append (left : Solid first) (right : Solid second) : Solid (first ++ second) := by
  intro c inside
  rcases List.mem_append.mp inside with inside | inside
  · exact left c inside
  · exact right c inside

theorem trimStart_blanks (blank : Blanks blanks) (text : List Char) : trimStart (blanks ++ text) = trimStart text :=
  List.dropWhile_append_of_pos blank

theorem trimStart_solid (solid : Solid word) (some_word : word ≠ []) (text : List Char) :
    trimStart (word ++ text) = word ++ text := by
  obtain ⟨first,rest,rfl⟩ := List.exists_cons_of_ne_nil some_word
  exact List.dropWhile_cons_of_neg (by simp [solid first List.mem_cons_self])

theorem trimEnd_blanks (blank : Blanks blanks) : trimEnd blanks = [] := by
  have none_left := trimStart_blanks (fun c inside => blank c (List.mem_reverse.mp inside)) []
  unfold trimStart at none_left
  unfold trimEnd
  rw [List.append_nil] at none_left
  rw [none_left]
  rfl

theorem trimEnd_word (solid : Solid word) (some_word : word ≠ []) (blank : Blanks blanks) (left : List Char) :
    trimEnd (left ++ (word ++ blanks)) = left ++ word := by
  obtain ⟨before,last,rfl⟩ : ∃ before last, word = before ++ [last] :=
    ⟨_,_,(List.dropLast_concat_getLast some_word).symm⟩
  have cut := trimEnd_append (solid last (by simp)) (left ++ before) blanks
  rw [trimEnd_blanks blank] at cut
  simpa using cut

theorem trim_eq_iff (solid : Solid word) (some_word : word ≠ []) : trim text = word ↔
    ∃ front back, text = front ++ (word ++ back) ∧ Blanks front ∧ Blanks back := by
  constructor
  · rintro rfl
    exact trim_parts text
  · rintro ⟨front,back,rfl,before,behind⟩
    unfold trim
    rw [trimStart_blanks before,trimStart_solid solid some_word]
    exact trimEnd_word solid some_word behind []

theorem words_blanks (blank : Blanks blanks) (text : List Char) : words (blanks ++ text) = words text :=
  runs_leading blank text

theorem words_blank (blank : Blanks blanks) : words blanks = [] := by
  have dropped := words_blanks blank []
  rw [List.append_nil] at dropped
  exact dropped.trans runs_nil

theorem words_first (solid : Solid word) (some_word : word ≠ []) (ends : ∀ c, rest.head? = some c → isBlank c = true) :
    words (word ++ rest) = word :: words rest :=
  runs_first some_word solid ends

-- The words of a text with one space between neighbours.
def spaced (text : List Char) : List Char := [' '].intercalate (words text)

theorem words_spaced (text : List Char) : words (spaced text) = words text := by
  unfold spaced
  rw [words_eq_runs,words_eq_runs]
  exact runs_intercalate (by decide) fun word member => ⟨runs_nonempty member,fun c inside => runs_solid member inside⟩

theorem solid_front (text : List Char) :
    ∃ front rest, text = front ++ rest ∧ Solid front ∧ ∀ c, rest.head? = some c → isBlank c = true :=
  front_run isBlank text

theorem words_solid (solid : Solid word) (some_word : word ≠ []) (text : List Char) :
    ∃ front rest, words (word ++ text) = (word ++ front) :: rest ∧
      (words text = front :: rest ∨ front = [] ∧ words text = rest) := by
  obtain ⟨front,rest,rfl,visible,ends⟩ := solid_front text
  refine ⟨front,words rest,?_,?_⟩
  · rw [← List.append_assoc,words_first (solid.append visible) (by simp [some_word]) ends]
  · by_cases joined : front = []
    · subst joined
      exact .inr ⟨rfl,rfl⟩
    · exact .inl (words_first visible joined ends)

theorem words_later (solid : Solid word) (some_word : word ≠ []) (text : List Char) :
    ∀ later ∈ (words (word ++ text)).tail, later ∈ words text := by
  obtain ⟨front,rest,split,joined | ⟨_,apart⟩⟩ := words_solid solid some_word text
  · rw [split,joined]
    exact fun later member => List.mem_cons_of_mem _ member
  · rw [split,apart]
    exact fun later member => member

theorem mem_words (inside : c ∈ text) (solid : isBlank c = false) : ∃ word ∈ words text, c ∈ word := by
  induction text with
  | nil => cases inside
  | cons d text ih =>
    by_cases blank : isBlank d = true
    · have later : c ∈ text := by
        rcases List.mem_cons.mp inside with rfl | later
        · rw [solid] at blank; cases blank
        · exact later
      rw [words_eq_runs,runs_cons blank]
      exact ih later
    · have visible : Solid [d] := by simpa [Solid] using blank
      obtain ⟨front,rest,split,joined⟩ := words_solid visible (List.cons_ne_nil d []) text
      rw [List.singleton_append] at split
      rw [split]
      rcases List.mem_cons.mp inside with rfl | later
      · exact ⟨_,List.mem_cons_self,List.mem_append_left _ (List.mem_singleton_self c)⟩
      · obtain ⟨word,member,within⟩ := ih later
        rcases joined with joined | ⟨_,apart⟩
        · rw [joined] at member
          rcases List.mem_cons.mp member with rfl | member
          · exact ⟨_,List.mem_cons_self,List.mem_append_right _ within⟩
          · exact ⟨word,List.mem_cons_of_mem _ member,within⟩
        · rw [apart] at member
          exact ⟨word,List.mem_cons_of_mem _ member,within⟩

theorem blanks_of_words (wordless : words text = []) : Blanks text := by
  intro c inside
  cases visible : isBlank c with
  | true => rfl
  | false =>
    obtain ⟨word,member,_⟩ := mem_words inside visible
    rw [wordless] at member
    cases member

theorem first_word (found : words text = word :: later) :
    ∃ gap rest, text = gap ++ (word ++ rest) ∧ Blanks gap ∧ words rest = later ∧
      ∀ c, rest.head? = some c → isBlank c = true := by
  obtain ⟨gap,leading,blank⟩ := trimStart_parts text
  have starts := List.head?_dropWhile_not isBlank text
  rw [leading,words_blanks blank] at found
  obtain ⟨front,rest,split,visible,ends⟩ := solid_front (trimStart text)
  by_cases none_front : front = []
  · subst none_front
    unfold trimStart at split found
    rw [split,List.nil_append] at starts found
    cases rest with
    | nil => cases found
    | cons c rest =>
      have blank := ends c rfl
      simp [blank] at starts
  · rw [split,words_first visible none_front ends] at found
    obtain ⟨rfl,rfl⟩ := List.cons.inj found
    exact ⟨gap,rest,split ▸ leading,blank,rfl,ends⟩

theorem words_part (solid : Solid word) (blank : Blanks blanks) (same : words other = words (blanks ++ (word ++ text))) :
    ∃ gap rest, other = gap ++ (word ++ rest) ∧ Blanks gap ∧ words rest = words text := by
  rw [words_blanks blank] at same
  by_cases some_word : word = []
  · subst some_word
    exact ⟨[],other,rfl,by simp [Blanks],same⟩
  · obtain ⟨front,later,split,joined⟩ := words_solid solid some_word text
    rw [split] at same
    obtain ⟨gap,rest,cut,leading,behind,ends⟩ := first_word same
    refine ⟨gap,front ++ rest,by rw [cut,List.append_assoc],leading,?_⟩
    rcases joined with joined | ⟨rfl,apart⟩
    · have listed : front ∈ runs isBlank text := by
        rw [← words_eq_runs,joined]
        exact List.mem_cons_self
      rw [words_first (fun c inside => runs_solid listed inside) (runs_nonempty listed) ends,behind,joined]
    · rw [apart]
      exact behind

theorem cut_solid (solid : Solid word) (blank : isBlank c = true) (cut : front ++ c :: back = word ++ rest) :
    ∃ more, front = word ++ more ∧ more ++ c :: back = rest := by
  rcases List.append_eq_append_iff.mp cut with ⟨more,rfl,split⟩ | ⟨more,rfl,split⟩
  · cases more with
    | nil => exact ⟨[],by simp,split⟩
    | cons d more =>
      have inside : c ∈ front ++ d :: more := by
        rw [(List.cons.inj split).1]
        exact List.mem_append_right _ List.mem_cons_self
      rw [solid c inside] at blank
      cases blank
  · exact ⟨more,rfl,split.symm⟩

theorem cut_blanks (blank : Blanks blanks) (cut : front ++ back = blanks ++ rest) :
    Blanks front ∨ ∃ more, front = blanks ++ more ∧ more ++ back = rest := by
  rcases List.append_eq_append_iff.mp cut with ⟨more,rfl,_⟩ | ⟨more,rfl,split⟩
  · exact .inl fun c inside => blank c (List.mem_append_left _ inside)
  · exact .inr ⟨more,rfl,split.symm⟩

end Recurrence.Text
