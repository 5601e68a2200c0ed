import Mathlib.Data.List.Infix
import Recurrence.Proofs.ClockText
import Recurrence.Proofs.Lexing
import Recurrence.Proofs.Spacing

namespace Recurrence.Phrase

theorem infix_joined {key : List Char} (nonempty : key ≠ []) (absent : ' ' ∉ key)
    (inside : key <:+: [' '].intercalate words) : ∃ word ∈ words, key <:+: word := by
  induction words with
  | nil => exact absurd (List.infix_nil.mp inside) nonempty
  | cons word rest ih =>
    cases rest with
    | nil =>
      rw [List.intercalate_singleton] at inside
      exact ⟨word,List.mem_cons_self,inside⟩
    | cons next others =>
      rw [List.intercalate_cons_cons,List.append_assoc] at inside
      rcases Text.infix_append_cons absent inside with here | later
      · exact ⟨word,List.mem_cons_self,here⟩
      · obtain ⟨found,member,inside⟩ := ih later
        exact ⟨found,List.mem_cons_of_mem _ member,inside⟩

-- Every name for a frequency or a holiday has one of these in it.
def keys : List String := ["hourly","daily","weekly","monthly","yearly","annually","christmas","new","valentine",
  "patrick","halloween","independ"]

theorem keys_solid : ∀ key ∈ keys, key.toList ≠ [] ∧ ' ' ∉ key.toList := by decide

theorem keyed : ∀ entry ∈ frequencies ++ holidays, ∃ key ∈ keys, key.toList <:+: entry.1.toList := by decide +kernel

def lowered (word : String) : List Char := word.toList.map lower

-- A word that is written with the characters of words, in either case, and cannot be part of a name.
structure Plain (word : String) : Prop where
  nonempty : word ≠ ""
  isWord : ∀ c ∈ lowered word, isWordChar c = true
  keyless : ∀ key ∈ keys, ¬ key.toList <:+: lowered word

instance (word : String) : Decidable (Plain word) :=
  decidable_of_iff (word ≠ "" ∧ (lowered word).all isWordChar = true ∧ ∀ key ∈ keys, ¬ key.toList <:+: lowered word)
    ⟨fun ⟨nonempty,isWord,keyless⟩ => ⟨nonempty,List.all_eq_true.mp isWord,keyless⟩,
      fun plain => ⟨plain.nonempty,List.all_eq_true.mpr plain.isWord,plain.keyless⟩⟩

theorem Plain.lower {word : String} (plain : Plain word) : ∀ c ∈ word.toList, isWordChar (lower c) = true :=
  fun _ inside => plain.isWord _ (List.mem_map_of_mem inside)

theorem Plain.sound {word : String} (plain : Plain word) : SoundWord word :=
  ⟨plain.nonempty,fun c inside => isBlank_of_lower (plain.lower c inside)⟩

theorem expandBy_absent (absent : ∀ entry ∈ entries, ¬ entry.1.toList <:+: text) : expandBy entries text = text := by
  unfold expandBy
  induction entries with
  | nil => rfl
  | cons entry rest ih =>
    rw [List.foldl_cons,replaceAll_absent (absent entry List.mem_cons_self)]
    exact ih fun entry member => absent entry (List.mem_cons_of_mem _ member)

theorem cleanChar_blank (blank : Text.isBlank c = true) : cleanChar c = [' '] := by
  have hyphen : c ≠ '-' := by rintro rfl; exact absurd blank (by decide)
  simp [cleanChar,hyphen,blank]

theorem wordRuns_trim (text : List Char) :
    wordRuns ((Text.trim text).flatMap cleanChar) = wordRuns (text.flatMap cleanChar) := by
  obtain ⟨leading,start,before⟩ := Text.trimStart_parts text
  obtain ⟨trailing,ends,behind⟩ := Text.trimEnd_parts (Text.trimStart text)
  have separated {blanks : List Char} (blank : Text.Blanks blanks) :
      ∀ c ∈ blanks.flatMap cleanChar, (!isWordChar c) = true := by
    intro c inside
    obtain ⟨d,among,inside⟩ := List.mem_flatMap.mp inside
    rw [cleanChar_blank (blank d among)] at inside
    rw [List.mem_singleton.mp inside]
    decide
  have spelled : text.flatMap cleanChar =
      leading.flatMap cleanChar ++ ((Text.trim text).flatMap cleanChar ++ trailing.flatMap cleanChar) := by
    rw [← List.flatMap_append,← List.flatMap_append]
    exact congrArg (List.flatMap cleanChar) (start.trans (congrArg (leading ++ ·) ends))
  rw [spelled,Text.wordRuns_eq_runs,Text.wordRuns_eq_runs,Text.runs_leading (separated before),
    Text.runs_trailing (separated behind)]

-- The words of a text, each with what it stands for.
def looked (text : List Char) : List Token :=
  (wordRuns (text.flatMap cleanChar)).map fun run => Lexicon.resolve (String.ofList run)

-- No name is in the text once it is clean.
def Keyless (text : List Char) : Prop := ∀ key ∈ keys, ¬ key.toList <:+: text.flatMap cleanChar

theorem looked_same (same : left.flatMap cleanChar = right.flatMap cleanChar) : looked left = looked right := by
  unfold looked
  rw [same]

theorem Keyless.same (keyless : Keyless right) (same : left.flatMap cleanChar = right.flatMap cleanChar) : Keyless left := by
  unfold Keyless
  rwa [same]

theorem lex_keyless {phrase : String} (visible : ∃ c ∈ phrase.toList, Text.isBlank c = false)
    (keyless : Keyless phrase.toList) : lex phrase = looked phrase.toList := by
  obtain ⟨c,inside,solid⟩ := visible
  have cleaned : clean phrase.toList = (Text.trim phrase.toList).flatMap cleanChar := by
    unfold clean
    split
    · rename_i empty
      exact absurd empty (Text.trim_nonempty inside solid)
    · rfl
  have within : clean phrase.toList <:+: phrase.toList.flatMap cleanChar := by
    obtain ⟨leading,start,_⟩ := Text.trimStart_parts phrase.toList
    obtain ⟨trailing,ends,_⟩ := Text.trimEnd_parts (Text.trimStart phrase.toList)
    refine ⟨leading.flatMap cleanChar,trailing.flatMap cleanChar,?_⟩
    rw [cleaned,← List.flatMap_append,← List.flatMap_append,List.append_assoc]
    congr 1
    exact (start.trans (congrArg (leading ++ ·) ends)).symm
  have expanded : expand (clean phrase.toList) = clean phrase.toList := by
    rw [expand_eq_expandBy]
    refine expandBy_absent fun entry member named => ?_
    obtain ⟨key,listed,part⟩ := keyed entry member
    exact keyless key listed ((part.trans named).trans within)
  unfold lex tokenize splitWords normalize looked
  rw [String.toList_ofList,expanded,cleaned,wordRuns_trim,List.map_map]
  rfl

theorem looked_space (left right : List Char) : looked (left ++ ' ' :: right) = looked left ++ looked right := by
  have cleaned : (left ++ ' ' :: right).flatMap cleanChar = left.flatMap cleanChar ++ ' ' :: right.flatMap cleanChar := by
    rw [List.flatMap_append,List.flatMap_cons]
    rfl
  unfold looked
  rw [cleaned,Text.wordRuns_eq_runs,Text.runs_append_cons (by decide),List.map_append]
  rfl

theorem Keyless.space (left_keyless : Keyless left) (right_keyless : Keyless right) : Keyless (left ++ ' ' :: right) := by
  intro key listed named
  rw [List.flatMap_append,List.flatMap_cons] at named
  rcases Text.infix_append_cons (keys_solid key listed).2 named with here | later
  · exact left_keyless key listed here
  · exact right_keyless key listed later

theorem lex_parts {parts : List String} (visible : ∃ part ∈ parts, ∃ c ∈ part.toList, Text.isBlank c = false)
    (keyless : ∀ part ∈ parts, Keyless part.toList) :
    lex (" ".intercalate parts) = parts.flatMap fun part => looked part.toList := by
  have cleaned : (" ".intercalate parts).toList.flatMap cleanChar =
      [' '].intercalate (parts.map fun part => part.toList.flatMap cleanChar) := by
    rw [toList_joined,Text.flatMap_intercalate,List.map_map]
    rfl
  rw [lex_keyless]
  · unfold looked
    rw [cleaned,Text.wordRuns_eq_runs,Text.runs_joined (by decide),List.flatMap_map,List.map_flatMap]
    rfl
  · obtain ⟨part,member,c,inside,solid⟩ := visible
    exact ⟨c,mem_joined member inside,solid⟩
  · intro key listed named
    rw [cleaned] at named
    obtain ⟨text,among,found⟩ := infix_joined (keys_solid key listed).1 (keys_solid key listed).2 named
    obtain ⟨part,member,rfl⟩ := List.mem_map.mp among
    exact keyless part member key listed found

-- What a word stands for, in whatever case it is written.
def tokenOf (word : String) : Token := Lexicon.resolve (String.ofList (lowered word))

theorem Plain.keyless_text {word : String} (plain : Plain word) : Keyless word.toList := by
  intro key listed
  rw [clean_word plain.lower]
  exact plain.keyless key listed

theorem Plain.looked_eq {word : String} (plain : Plain word) : looked word.toList = [tokenOf word] := by
  have some_word : lowered word ≠ [] := by
    intro empty
    exact plain.nonempty (String.toList_eq_nil_iff.mp (List.map_eq_nil_iff.mp empty))
  unfold looked
  rw [clean_word plain.lower,Text.wordRuns_eq_runs]
  show (Text.runs _ (lowered word)).map _ = _
  rw [Text.runs_word some_word fun c inside => by simp [plain.isWord c inside]]
  rfl

theorem lex_joined {words : List String} (some_word : words ≠ []) (plain : ∀ word ∈ words, Plain word) :
    lex (" ".intercalate words) = words.map tokenOf := by
  have each : ∀ word ∈ words, looked word.toList = [tokenOf word] := fun word member => (plain word member).looked_eq
  rw [lex_parts,List.flatMap_def,List.map_congr_left each,← List.flatMap_def]
  · exact List.map_eq_flatMap.symm
  · obtain ⟨word,rest,rfl⟩ := List.exists_cons_of_ne_nil some_word
    have sound := (plain word List.mem_cons_self).sound
    obtain ⟨c,inside⟩ := List.exists_mem_of_ne_nil _ (fun empty => sound.1 (String.toList_eq_nil_iff.mp empty))
    exact ⟨word,List.mem_cons_self,c,inside,sound.2 c inside⟩
  · exact fun word member => (plain word member).keyless_text

end Recurrence.Phrase
