import Recurrence.Phrase

namespace Recurrence.Text

-- Both kinds of word are maximal runs of characters outside a class of separators: blanks in a text
-- that was joined from words, all that is not a word character in a clean phrase.
def runs (separates : Char → Bool) (text : List Char) : List (List Char) :=
  (text.splitOnP separates).filter (fun run => !run.isEmpty)

theorem words_eq_runs (text : List Char) : words text = runs isBlank text := rfl
theorem wordRuns_eq_runs (text : List Char) :
    Phrase.wordRuns text = runs (fun c => !Phrase.isWordChar c) text := rfl

variable {separates : Char → Bool}

theorem runs_nil : runs separates [] = [] := by simp [runs]

theorem runs_append_cons (separator : separates c = true) (left right : List Char) :
    runs separates (left ++ c :: right) = runs separates left ++ runs separates right := by
  unfold runs
  rw [List.splitOnP_append_cons left right separator,List.filter_append]

theorem runs_cons (separator : separates c = true) (text : List Char) :
    runs separates (c :: text) = runs separates text := by
  simpa [runs_nil] using runs_append_cons separator [] text

theorem runs_leading (separators : ∀ c ∈ front, separates c = true) (text : List Char) :
    runs separates (front ++ text) = runs separates text := by
  induction front with
  | nil => rfl
  | cons c rest ih =>
    rw [List.cons_append,runs_cons (separators c List.mem_cons_self)]
    exact ih fun d inside => separators d (List.mem_cons_of_mem _ inside)

theorem runs_trailing (separators : ∀ c ∈ back, separates c = true) (text : List Char) :
    runs separates (text ++ back) = runs separates text := by
  cases back with
  | nil => rw [List.append_nil]
  | cons c rest =>
    have none_left := runs_leading (fun d inside => separators d (List.mem_cons_of_mem _ inside)) []
    rw [List.append_nil] at none_left
    rw [runs_append_cons (separators c List.mem_cons_self),none_left,runs_nil,List.append_nil]

theorem runs_word (nonempty : word ≠ []) (solid : ∀ c ∈ word, separates c = false) :
    runs separates word = [word] := by
  unfold runs
  rw [List.splitOnP_eq_singleton solid]
  simp [nonempty]

theorem runs_first (some_word : word ≠ []) (solid : ∀ c ∈ word, separates c = false)
    (ends : ∀ c, rest.head? = some c → separates c = true) : runs separates (word ++ rest) = word :: runs separates rest := by
  cases rest with
  | nil => rw [List.append_nil,runs_nil,runs_word some_word solid]
  | cons c rest =>
    have separator := ends c rfl
    rw [runs_append_cons separator,runs_cons separator,runs_word some_word solid]
    rfl

theorem front_run (separates : Char → Bool) (text : List Char) :
    ∃ front rest, text = front ++ rest ∧ (∀ c ∈ front, separates c = false) ∧ ∀ c, rest.head? = some c → separates c = true := by
  refine ⟨text.takeWhile fun c => !separates c,text.dropWhile fun c => !separates c,
    List.takeWhile_append_dropWhile.symm,?_,?_⟩
  · intro c inside
    simpa using List.all_eq_true.mp List.all_takeWhile c inside
  · intro c first
    have stops := List.head?_dropWhile_not (fun c => !separates c) text
    rw [first] at stops
    simpa using stops

theorem runs_length {left right : List Char} (some_left : left ≠ []) (some_right : right ≠ [])
    (solid_left : ∀ c ∈ left, separates c = false) (solid_right : ∀ c ∈ right, separates c = false) (text : List Char) :
    (runs separates (left ++ text)).length = (runs separates (right ++ text)).length := by
  obtain ⟨front,rest,rfl,solid,ends⟩ := front_run separates text
  have joined {word : List Char} (some_word : word ≠ []) (solid_word : ∀ c ∈ word, separates c = false) :
      runs separates (word ++ (front ++ rest)) = (word ++ front) :: runs separates rest := by
    rw [← List.append_assoc]
    exact runs_first (by simp [some_word]) (fun c inside => (List.mem_append.mp inside).elim (solid_word c) (solid c)) ends
  rw [joined some_left solid_left,joined some_right solid_right]
  rfl

theorem mem_splitOnP {text piece : List Char} (member : piece ∈ text.splitOnP separates) :
    ∀ c ∈ piece, c ∈ text ∧ separates c = false := by
  induction text generalizing piece with
  | nil =>
    rw [List.splitOnP_nil,List.mem_singleton] at member
    subst member
    simp
  | cons first rest ih =>
    rw [List.splitOnP_cons_eq_if_modifyHead] at member
    split at member
    · rcases List.mem_cons.mp member with rfl | later
      · simp
      · intro c inside
        exact ⟨List.mem_cons_of_mem _ (ih later c inside).1,(ih later c inside).2⟩
    · rename_i solid
      obtain ⟨head,others,split⟩ := List.exists_cons_of_ne_nil (List.splitOnP_ne_nil separates rest)
      rw [split] at member ih
      rcases List.mem_cons.mp member with rfl | later
      · intro c inside
        rcases List.mem_cons.mp inside with rfl | inside
        · exact ⟨List.mem_cons_self,by simpa using solid⟩
        · have := ih List.mem_cons_self c inside
          exact ⟨List.mem_cons_of_mem _ this.1,this.2⟩
      · intro c inside
        have := ih (List.mem_cons_of_mem _ later) c inside
        exact ⟨List.mem_cons_of_mem _ this.1,this.2⟩

theorem runs_nonempty (member : run ∈ runs separates text) : run ≠ [] := by
  simpa using (List.mem_filter.mp member).2

theorem runs_solid (member : run ∈ runs separates text) (inside : c ∈ run) : separates c = false :=
  (mem_splitOnP (List.mem_filter.mp member).1 c inside).2

theorem mem_intercalate {parts : List (List Char)} (member : part ∈ parts) (inside : c ∈ part) (separator : List Char) :
    c ∈ separator.intercalate parts := by
  induction parts with
  | nil => cases member
  | cons first rest ih =>
    cases rest with
    | nil =>
      rw [List.mem_singleton.mp member] at inside
      rwa [List.intercalate_singleton]
    | cons next others =>
      rw [List.intercalate_cons_cons,List.append_assoc]
      rcases List.mem_cons.mp member with rfl | member
      · exact List.mem_append_left _ inside
      · exact List.mem_append_right _ (List.mem_append_right _ (ih member))

theorem mem_of_intercalate {separator x : α} {items : List (List α)} (member : x ∈ [separator].intercalate items) :
    x = separator ∨ ∃ item ∈ items, x ∈ item := by
  induction items with
  | nil => cases member
  | cons item rest ih =>
    cases rest with
    | nil =>
      rw [List.intercalate_singleton] at member
      exact .inr ⟨item,List.mem_cons_self,member⟩
    | cons next others =>
      rw [List.intercalate_cons_cons,List.append_assoc] at member
      rcases List.mem_append.mp member with here | member
      · exact .inr ⟨item,List.mem_cons_self,here⟩
      · rcases List.mem_append.mp member with same | later
        · exact .inl (List.mem_singleton.mp same)
        · rcases ih later with same | ⟨found,among,inside⟩
          · exact .inl same
          · exact .inr ⟨found,List.mem_cons_of_mem _ among,inside⟩

theorem infix_append_cons {key left right : List α} (absent : c ∉ key) (inside : key <:+: left ++ c :: right) :
    key <:+: left ∨ key <:+: right := by
  obtain ⟨before,after,split⟩ := inside
  rw [List.append_assoc] at split
  rcases List.append_eq_append_iff.mp split with ⟨back,rfl,tail⟩ | ⟨back,rfl,tail⟩
  · rcases List.append_eq_append_iff.mp tail with ⟨more,rfl,_⟩ | ⟨more,rfl,beyond⟩
    · exact .inl ⟨before,more,by simp⟩
    · cases more with
      | nil => exact .inl ⟨before,[],by simp⟩
      | cons d more =>
        have same : c = d := (List.cons.inj beyond).1
        exact absurd (by simp [same]) absent
  · cases back with
    | nil =>
      cases key with
      | nil => exact .inl List.nil_infix
      | cons d key =>
        have same : c = d := (List.cons.inj tail).1
        exact absurd (by simp [same]) absent
    | cons d back =>
      have same : right = back ++ (key ++ after) := (List.cons.inj tail).2
      exact .inr ⟨back,after,by simp [same]⟩

theorem intercalate_append (separator front first : List Char) (rest : List (List Char)) :
    separator.intercalate ((front ++ first) :: rest) = front ++ separator.intercalate (first :: rest) := by
  cases rest with
  | nil => simp [List.intercalate_singleton]
  | cons next others => simp [List.intercalate_cons_cons]

theorem intercalate_joined (separator : α) {front back : List (List α)} (some_front : front ≠ []) (some_back : back ≠ []) :
    [separator].intercalate (front ++ back) = [separator].intercalate front ++ separator :: [separator].intercalate back := by
  induction front with
  | nil => exact absurd rfl some_front
  | cons item rest ih =>
    cases rest with
    | nil =>
      obtain ⟨next,others,rfl⟩ := List.exists_cons_of_ne_nil some_back
      simp [List.intercalate_singleton,List.intercalate_cons_cons]
    | cons next others =>
      have later := ih (List.cons_ne_nil next others)
      simp only [List.cons_append] at later
      simp [List.intercalate_cons_cons,later]

theorem filterMap_intercalate {separator : α} (f : α → Option β) (silent : f separator = none) (items : List (List α)) :
    ([separator].intercalate items).filterMap f = items.flatMap (·.filterMap f) := by
  induction items with
  | nil => rfl
  | cons item rest ih =>
    cases rest with
    | nil => simp [List.intercalate_singleton]
    | cons next others =>
      rw [List.intercalate_cons_cons,List.filterMap_append,List.filterMap_append,ih,List.flatMap_cons]
      simp [silent]

theorem flatMap_intercalate (f : α → List β) (separator : α) (items : List (List α)) :
    ([separator].intercalate items).flatMap f = (f separator).intercalate (items.map (·.flatMap f)) := by
  induction items with
  | nil => rfl
  | cons item rest ih =>
    cases rest with
    | nil => simp [List.intercalate_singleton]
    | cons next others =>
      rw [List.intercalate_cons_cons,List.flatMap_append,List.flatMap_append,ih]
      simp [List.intercalate_cons_cons]

theorem runs_joined (separator : separates c = true) (parts : List (List Char)) :
    runs separates ([c].intercalate parts) = parts.flatMap (runs separates) := by
  induction parts with
  | nil => exact runs_nil
  | cons text rest ih =>
    cases rest with
    | nil => simp [List.intercalate_singleton]
    | cons next others =>
      rw [List.intercalate_cons_cons,List.append_assoc,List.singleton_append,runs_append_cons separator,ih]
      rfl

theorem runs_intercalate (separator : separates c = true)
    (words : ∀ word ∈ parts, word ≠ [] ∧ ∀ d ∈ word, separates d = false) :
    runs separates ([c].intercalate parts) = parts := by
  have single : ∀ word ∈ parts, runs separates word = [word] := fun word member =>
    runs_word (words word member).1 (words word member).2
  rw [runs_joined separator,List.flatMap_def,List.map_congr_left single,← List.flatMap_def,List.flatMap_singleton']

theorem trimStart_append (solid : isBlank c = false) (left right : List Char) :
    trimStart (left ++ c :: right) = trimStart left ++ c :: right := by
  unfold trimStart
  rw [List.dropWhile_append]
  split
  · rename_i blank
    rw [List.isEmpty_iff.mp blank,List.dropWhile_cons_of_neg (by simp [solid])]
    rfl
  · rfl

theorem trimEnd_append (solid : isBlank c = false) (left right : List Char) :
    trimEnd (left ++ c :: right) = left ++ c :: trimEnd right := by
  have reversed := trimStart_append solid right.reverse left.reverse
  simp only [trimStart] at reversed
  simp [trimEnd,reversed]

theorem trim_nonempty (inside : c ∈ text) (solid : isBlank c = false) : trim text ≠ [] := by
  obtain ⟨left,right,rfl⟩ := List.append_of_mem inside
  unfold trim
  rw [trimStart_append solid,trimEnd_append solid]
  simp

theorem trim_between (some_text : text ≠ []) (opens : ∀ c, text.head? = some c → isBlank c = false)
    (closes : ∀ c, text.getLast? = some c → isBlank c = false) (left right : List Char) :
    trim (left ++ text ++ right) = trimStart left ++ text ++ trimEnd right := by
  obtain ⟨head,tail,rfl⟩ := List.exists_cons_of_ne_nil some_text
  have front : trimStart (left ++ (head :: tail) ++ right) = trimStart left ++ (head :: tail) ++ right := by
    simpa using trimStart_append (opens head rfl) left (tail ++ right)
  obtain ⟨before,last,split⟩ : ∃ before last, head :: tail = before ++ [last] :=
    ⟨_,_,(List.dropLast_concat_getLast (List.cons_ne_nil head tail)).symm⟩
  unfold trim
  rw [front,split]
  simpa using trimEnd_append (closes last (by simp [split])) (trimStart left ++ before) right

theorem trim_around (some_word : word ≠ []) (solid : ∀ c ∈ word, isBlank c = false) (left right : List Char) :
    trim (left ++ word ++ right) = trimStart left ++ word ++ trimEnd right :=
  trim_between some_word (fun c first => solid c (List.mem_of_head? first))
    (fun c last => solid c (List.mem_of_getLast? last)) left right

theorem trimStart_space (text : List Char) :
    trimStart (text ++ [' ']) = [] ∨ trimStart (text ++ [' ']) = trimStart text ++ [' '] := by
  unfold trimStart
  rw [List.dropWhile_append]
  split
  · exact .inl rfl
  · exact .inr rfl

theorem trimEnd_space (text : List Char) :
    trimEnd (' ' :: text) = [] ∨ trimEnd (' ' :: text) = ' ' :: trimEnd text := by
  unfold trimEnd
  rw [List.reverse_cons]
  rcases trimStart_space text.reverse with none | more
  · exact .inl (by simpa [trimStart] using none)
  · exact .inr (by
      simp only [trimStart] at more
      simp [more])

theorem trim_eq_self (starts : ∀ c, text.head? = some c → isBlank c = false)
    (ends : ∀ c, text.getLast? = some c → isBlank c = false) : trim text = text := by
  cases text with
  | nil => rfl
  | cons first rest =>
    have whole := trim_between (List.cons_ne_nil first rest) starts ends [] []
    simpa [trimStart,trimEnd] using whole

theorem trim_intercalate (words : ∀ word ∈ parts, word ≠ [] ∧ ∀ c ∈ word, isBlank c = false) :
    trim ([' '].intercalate parts) = [' '].intercalate parts := by
  apply trim_eq_self
  · intro c first
    cases parts with
    | nil => simp at first
    | cons word rest =>
      obtain ⟨nonempty,solid⟩ := words word List.mem_cons_self
      obtain ⟨head,tail,rfl⟩ := List.exists_cons_of_ne_nil nonempty
      have same : head = c := by
        cases rest with
        | nil => simpa [List.intercalate_singleton] using first
        | cons => simpa [List.intercalate_cons_cons] using first
      exact same ▸ solid head List.mem_cons_self
  · induction parts with
    | nil => simp
    | cons word rest ih =>
      intro c last
      cases rest with
      | nil =>
        rw [List.intercalate_singleton] at last
        exact (words word List.mem_cons_self).2 c (List.mem_of_getLast? last)
      | cons next others =>
        have tail : [' '].intercalate (next :: others) ≠ [] := by
          obtain ⟨head,rest,split⟩ := List.exists_cons_of_ne_nil (words next (by simp)).1
          cases others <;> simp [List.intercalate_singleton,List.intercalate_cons_cons,split]
        rw [List.intercalate_cons_cons,List.getLast?_append,List.getLast?_eq_some_getLast tail,Option.some_or,
          ← List.getLast?_eq_some_getLast tail] at last
        exact ih (fun word member => words word (List.mem_cons_of_mem _ member)) c last

end Recurrence.Text
