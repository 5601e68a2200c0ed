import Recurrence.Proofs.WhiteSpace

namespace Recurrence.Phrase

variable {text : List Char}

theorem isKept_cases (kept : isKept c = true) : isWordChar c = true ∨ c = ' ' := by
  simp only [isKept,isWordChar,Bool.or_eq_true,beq_iff_eq] at kept ⊢
  tauto

theorem cleanChar_kept (kept : isKept c = true) : cleanChar c = [c] := by
  rcases isKept_cases kept with isWord | rfl
  · have same := lower_wordChar isWord
    rw [cleanChar_word (same.symm ▸ isWord),same]
  · exact cleanChar_space

theorem singleSpaced_ends (front : List Char) : singleSpaced (front ++ [' ']) = false := by
  induction front with
  | nil => rfl
  | cons c rest ih => simp [singleSpaced,ih]

theorem expandBy_spaces (names : ∀ entry ∈ entries, Name entry.1.toList) (m n : Nat) (text : List Char) :
    expandBy entries (spaces m ++ (text ++ spaces n)) = spaces m ++ (expandBy entries text ++ spaces n) := by
  induction entries generalizing text with
  | nil => rfl
  | cons entry rest ih =>
    have name := names entry List.mem_cons_self
    have seam : Seam entry.1.toList text (spaces n) := by
      intro front back split _ some_back _ starts
      obtain ⟨before,last,rfl⟩ : ∃ before last, back = before ++ [last] :=
        ⟨_,_,(List.dropLast_concat_getLast some_back).symm⟩
      have blank : last = ' ' := List.eq_of_mem_replicate (starts.subset (by simp))
      have single := name.single
      rw [split,blank,← List.append_assoc,singleSpaced_ends] at single
      cases single
    have trailing : replaceAll entry.1.toList entry.2.toList (spaces n) = spaces n := by
      have passed : replaceAll entry.1.toList entry.2.toList (spaces n ++ []) = spaces n ++ [] := replaceAll_spaces name n []
      rwa [List.append_nil] at passed
    rw [expandBy_cons,expandBy_cons,replaceAll_spaces name,replaceAll_append seam,trailing,
      ih fun entry member => names entry (List.mem_cons_of_mem _ member)]

theorem tokenize_eq (text : List Char) :
    tokenize (String.ofList text) = (wordRuns text).map fun run => Lexicon.resolve (String.ofList run) := by
  unfold tokenize splitWords
  rw [String.toList_ofList,List.map_map]
  rfl

theorem kept_blank (kept : isKept c = true) (blank : Text.isBlank c = true) : c = ' ' := by
  rcases isKept_cases kept with isWord | same
  · rw [isBlank_of_isWordChar isWord] at blank
    cases blank
  · exact same

theorem kept_trim (kept : ∀ c ∈ text, isKept c = true) : ∃ m n, text = spaces m ++ (Text.trim text ++ spaces n) := by
  obtain ⟨leading,start,before⟩ := Text.trimStart_parts text
  obtain ⟨trailing,ends,behind⟩ := Text.trimEnd_parts (Text.trimStart text)
  have spelled : text = leading ++ (Text.trim text ++ trailing) := start.trans (congrArg (leading ++ ·) ends)
  have spaced {blanks : List Char} (blank : Text.Blanks blanks) (within : ∀ c ∈ blanks, c ∈ text) :
      blanks = spaces blanks.length :=
    List.eq_replicate_iff.mpr ⟨rfl,fun c inside => kept_blank (kept c (within c inside)) (blank c inside)⟩
  refine ⟨leading.length,trailing.length,?_⟩
  rw [← spaced before fun c inside => by rw [spelled]; simp [inside],
    ← spaced behind fun c inside => by rw [spelled]; simp [inside]]
  exact spelled

theorem clean_kept (kept : ∀ c ∈ text, isKept c = true) (visible : ∃ c ∈ text, c ≠ ' ') : clean text = Text.trim text := by
  obtain ⟨c,inside,solid⟩ := visible
  have shown : Text.isBlank c = false := by
    cases blank : Text.isBlank c with
    | false => rfl
    | true => exact absurd (kept_blank (kept c inside) blank) solid
  obtain ⟨m,n,outer⟩ := kept_trim kept
  have each : ∀ c ∈ Text.trim text, cleanChar c = [c] := fun c inside =>
    cleanChar_kept (kept c (by rw [outer]; simp [inside]))
  unfold clean
  split
  · rename_i empty
    exact absurd empty (Text.trim_nonempty inside shown)
  · rw [List.flatMap_def,List.map_congr_left each,← List.flatMap_def,List.flatMap_singleton']

theorem lex_kept {phrase : String} (kept : ∀ c ∈ phrase.toList, isKept c = true) (visible : ∃ c ∈ phrase.toList, c ≠ ' ') :
    lex phrase = tokenize (String.ofList (expand phrase.toList)) := by
  obtain ⟨m,n,outer⟩ := kept_trim kept
  have wordless (n : Nat) : ∀ c ∈ spaces n, (!isWordChar c) = true := by
    intro c inside
    rw [List.eq_of_mem_replicate inside]
    decide
  have expanded : expand (spaces m ++ (Text.trim phrase.toList ++ spaces n)) =
      spaces m ++ (expand (Text.trim phrase.toList) ++ spaces n) := expandBy_spaces names_spaced m n _
  unfold lex normalize
  conv => rhs; rw [outer,expanded]
  rw [tokenize_eq,tokenize_eq,clean_kept kept visible,Text.wordRuns_eq_runs,Text.wordRuns_eq_runs,
    Text.runs_leading (wordless m),Text.runs_trailing (wordless n)]

theorem tokenize_space (left right : List Char) :
    tokenize (String.ofList (left ++ ' ' :: right)) = tokenize (String.ofList left) ++ tokenize (String.ofList right) := by
  rw [tokenize_eq,tokenize_eq,tokenize_eq,Text.wordRuns_eq_runs,Text.runs_append_cons (by decide),List.map_append]
  rfl

theorem tokenize_word {word : String} (some_word : word.toList ≠ []) (isWord : word.toList.all isWordChar = true) :
    tokenize word = [Lexicon.resolve word] := by
  have solid : ∀ c ∈ word.toList, (!isWordChar c) = false := fun c inside => by simp [List.all_eq_true.mp isWord c inside]
  have single := tokenize_eq word.toList
  rw [Text.wordRuns_eq_runs,Text.runs_word some_word solid,String.ofList_toList] at single
  rw [single,List.map_singleton,String.ofList_toList]

theorem tokenize_first (isWord : isWordChar c = true) (text : List Char) : ∃ word rest, c :: text = word ++ rest ∧
    tokenize (String.ofList (c :: text)) = Lexicon.resolve (String.ofList word) :: tokenize (String.ofList rest) := by
  obtain ⟨word,rest,split,solid,ends⟩ := Text.front_run (fun c => !isWordChar c) (c :: text)
  have some_word : word ≠ [] := by
    rintro rfl
    have separator := ends c (by rw [List.nil_append] at split; rw [← split]; rfl)
    rw [isWord] at separator
    cases separator
  refine ⟨word,rest,split,?_⟩
  rw [tokenize_eq,tokenize_eq,split,Text.wordRuns_eq_runs,Text.runs_first some_word solid ends]
  rfl

end Recurrence.Phrase
