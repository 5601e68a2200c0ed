import Mathlib.Data.List.Sort
import Recurrence.Proofs.Words

namespace Recurrence.Text

-- A run that reaches as far as it can on both sides, and the text before it.
structure MaximalRun (separates : Char → Bool) (text before run : List Char) : Prop where
  some_char : run ≠ []
  solid : ∀ c ∈ run, separates c = false
  opens : ∀ c, before.getLast? = some c → separates c = true
  closes : ∃ behind, text = before ++ (run ++ behind) ∧ ∀ c, behind.head? = some c → separates c = true

-- All of them, the earlier ones first.
structure Located (separates : Char → Bool) (text : List Char) (located : List (List Char × List Char)) : Prop where
  all : ∀ before run, (before,run) ∈ located ↔ MaximalRun separates text before run
  ordered : located.Pairwise fun one other => one.1.length < other.1.length

variable {separates : Char → Bool}

theorem Located.unique (one : Located separates text located) (other : Located separates text others) : others = located := by
  let earlier (one other : List Char × List Char) : Prop := one.1.length < other.1.length
  have irrefl : Std.Irrefl earlier := ⟨fun run => Nat.lt_irrefl _⟩
  have antisymm : Std.Antisymm earlier := ⟨fun a b before behind => absurd before (Nat.lt_asymm behind)⟩
  refine List.Pairwise.eq_of_mem_iff other.ordered one.ordered fun run => ?_
  exact (other.all run.1 run.2).trans (one.all run.1 run.2).symm

theorem MaximalRun.before_length (maximal : MaximalRun separates text before run) : before.length ≤ text.length := by
  obtain ⟨behind,rfl,_⟩ := maximal.closes
  rw [List.length_append]
  omega

theorem MaximalRun.of_solid (solid : ∀ c ∈ text, separates c = false) :
    MaximalRun separates text before run ↔ text ≠ [] ∧ before = [] ∧ run = text := by
  constructor
  · intro maximal
    obtain ⟨behind,split,ends⟩ := maximal.closes
    have first : before = [] := by
      by_contra some_before
      have last := List.getLast?_eq_some_getLast some_before
      have inside : before.getLast some_before ∈ text := by
        rw [split]
        exact List.mem_append_left _ (List.getLast_mem some_before)
      exact absurd (maximal.opens _ last) (by rw [solid _ inside]; decide)
    have whole : behind = [] := by
      cases behind with
      | nil => rfl
      | cons c rest =>
        have inside : c ∈ text := by simp [split]
        exact absurd (ends c rfl) (by rw [solid c inside]; decide)
    subst first whole
    have same : run = text := by simpa using split.symm
    exact ⟨same ▸ maximal.some_char,rfl,same⟩
  · rintro ⟨some_char,rfl,rfl⟩
    exact ⟨some_char,solid,by simp,[],by simp,by simp⟩

theorem before_absent {run behind middle right : List α} (absent : c ∉ run) (split : run ++ behind = middle ++ c :: right) :
    ∃ more, middle = run ++ more ∧ behind = more ++ c :: right := by
  rcases List.append_eq_append_iff.mp split with ⟨more,rfl,same⟩ | ⟨more,rfl,same⟩
  · exact ⟨more,rfl,same⟩
  · cases more with
    | nil => exact ⟨[],by simp,same.symm⟩
    | cons d others =>
      have met : c = d := (List.cons.inj same).1
      exact absurd (by simp [met]) absent

theorem MaximalRun.on_left (separator : separates c = true) (maximal : MaximalRun separates left before run)
    (right : List Char) : MaximalRun separates (left ++ c :: right) before run := by
  obtain ⟨some_char,solid,opens,behind,rfl,ends⟩ := maximal
  refine ⟨some_char,solid,opens,behind ++ c :: right,by simp,?_⟩
  intro d first
  cases behind with
  | nil =>
    cases first
    exact separator
  | cons e rest => exact ends d first

theorem MaximalRun.on_right (separator : separates c = true) (maximal : MaximalRun separates right before run)
    (left : List Char) : MaximalRun separates (left ++ c :: right) (left ++ c :: before) run := by
  obtain ⟨some_char,solid,opens,behind,rfl,ends⟩ := maximal
  refine ⟨some_char,solid,?_,behind,by simp,ends⟩
  intro d last
  rw [List.getLast?_append,List.getLast?_cons,Option.some_or] at last
  cases found : before.getLast? with
  | none =>
    rw [found] at last
    cases last
    exact separator
  | some e =>
    rw [found] at last
    cases last
    exact opens e found

theorem MaximalRun.seam (separator : separates c = true) (left right : List Char) :
    MaximalRun separates (left ++ c :: right) before run ↔
      MaximalRun separates left before run ∨ ∃ later, before = left ++ c :: later ∧ MaximalRun separates right later run := by
  constructor
  · intro maximal
    obtain ⟨behind,split,ends⟩ := maximal.closes
    have absent : c ∉ run := fun inside => absurd separator (by rw [maximal.solid c inside]; decide)
    rcases List.append_eq_append_iff.mp split with ⟨middle,rfl,rest⟩ | ⟨middle,rfl,rest⟩
    · cases middle with
      | nil =>
        obtain ⟨d,more,rfl⟩ := List.exists_cons_of_ne_nil maximal.some_char
        have same : c = d := (List.cons.inj rest).1
        exact absurd (same ▸ List.mem_cons_self) absent
      | cons d later =>
        obtain ⟨rfl,rfl⟩ := List.cons.inj rest
        refine .inr ⟨later,rfl,maximal.some_char,maximal.solid,?_,behind,rfl,ends⟩
        intro d last
        exact maximal.opens d (by simp [List.getLast?_append,List.getLast?_cons,last])
    · obtain ⟨more,rfl,rfl⟩ := before_absent absent rest
      refine .inl ⟨maximal.some_char,maximal.solid,maximal.opens,more,rfl,?_⟩
      exact fun d first => ends d (by simp [List.head?_append,first])
  · rintro (maximal | ⟨later,rfl,maximal⟩)
    · exact maximal.on_left separator right
    · exact maximal.on_right separator left

theorem seams (separates : Char → Bool) {motive : List Char → Prop}
    (solid : ∀ text, (∀ c ∈ text, separates c = false) → motive text)
    (seam : ∀ left c right, separates c = true → motive left → motive right → motive (left ++ c :: right))
    (text : List Char) : motive text := by
  obtain ⟨front,rest,split,visible,ends⟩ := front_run separates text
  cases rest with
  | nil =>
    rw [split,List.append_nil]
    exact solid front visible
  | cons c right =>
    have shorter : right.length < text.length := by
      rw [split,List.length_append,List.length_cons]
      omega
    rw [split]
    exact seam front c right (ends c rfl) (solid front visible) (seams separates solid seam right)
termination_by text.length

theorem Located.seam (separator : separates c = true) (one : Located separates left located)
    (other : Located separates right others) :
    Located separates (left ++ c :: right) (located ++ others.map fun run => (left ++ c :: run.1,run.2)) where
  all := by
    intro before run
    rw [MaximalRun.seam separator,List.mem_append,one.all]
    refine or_congr_right ?_
    rw [List.mem_map]
    constructor
    · rintro ⟨⟨later,run⟩,member,same⟩
      cases same
      exact ⟨later,rfl,(other.all later run).mp member⟩
    · rintro ⟨later,rfl,maximal⟩
      exact ⟨(later,run),(other.all later run).mpr maximal,rfl⟩
  ordered := by
    refine List.pairwise_append.mpr ⟨one.ordered,List.pairwise_map.mpr ?_,?_⟩
    · refine other.ordered.imp fun {one other} earlier => ?_
      simp only [List.length_append,List.length_cons]
      omega
    · intro run member next moved
      obtain ⟨found,_,rfl⟩ := List.mem_map.mp moved
      have inside := ((one.all run.1 run.2).mp member).before_length
      simp only [List.length_append,List.length_cons]
      omega

theorem runs_located (separates : Char → Bool) (text : List Char) :
    ∃ located, Located separates text located ∧ runs separates text = located.map Prod.snd := by
  induction text using seams separates with
  | solid text solid =>
    by_cases empty : text = []
    · refine ⟨[],⟨fun before run => ?_,.nil⟩,?_⟩
      · rw [MaximalRun.of_solid solid]
        simp [empty]
      · rw [empty,runs_nil]
        rfl
    · refine ⟨[([],text)],⟨fun before run => ?_,List.pairwise_singleton _ _⟩,?_⟩
      · rw [MaximalRun.of_solid solid]
        simp [empty]
      · rw [runs_word empty solid]
        rfl
  | seam left c right separator one other =>
    obtain ⟨located,located_left,same_left⟩ := one
    obtain ⟨others,located_right,same_right⟩ := other
    refine ⟨_,located_left.seam separator located_right,?_⟩
    rw [runs_append_cons separator,same_left,same_right,List.map_append,List.map_map]
    rfl

-- Words one behind the other, and separators between any two of them.
inductive Joined (separates : Char → Bool) : List (List Char) → List Char → Prop where
  | empty : Joined separates [] []
  | word (some_char : word ≠ []) (solid : ∀ c ∈ word, separates c = false) : Joined separates [word] word
  | next (some_char : word ≠ []) (solid : ∀ c ∈ word, separates c = false) (some_gap : gap ≠ [])
      (gap_separates : ∀ c ∈ gap, separates c = true) (later : Joined separates (other :: others) text) :
      Joined separates (word :: other :: others) (word ++ (gap ++ text))

theorem runs_of_joined (joined : Joined separates spoken text) : runs separates text = spoken := by
  induction joined with
  | empty => exact runs_nil
  | word some_char solid => exact runs_word some_char solid
  | @next word gap other others text some_char solid some_gap gap_separates later ih =>
    have ends : ∀ c, (gap ++ text).head? = some c → separates c = true := by
      obtain ⟨c,rest,rfl⟩ := List.exists_cons_of_ne_nil some_gap
      intro d first
      cases first
      exact gap_separates c List.mem_cons_self
    rw [runs_first some_char solid ends,runs_leading gap_separates,ih]

end Recurrence.Text

namespace Recurrence.Phrase
open Text

-- What a scanner meets in a text: a word as far as it goes, or a character that begins none.
inductive Lexeme where
  | word (run : List Char)
  | unknown (c : Char)
deriving DecidableEq, Repr

def Lexeme.word? : Lexeme → Option (List Char)
  | .word run => some run
  | .unknown _ => none

-- The four blanks that the scanner does not even report.
def isPassed (c : Char) : Bool := c == ' ' || c == '\t' || c == '\r' || c == '\n'

-- The next thing in a text, with the text behind it. An unknown character is one step.
def scan? (text : List Char) : Option (Lexeme × List Char) :=
  match text.dropWhile isPassed with
  | [] => none
  | c :: rest =>
    if isWordChar c then some (.word (c :: rest.takeWhile isWordChar),rest.dropWhile isWordChar)
    else some (.unknown c,rest)

theorem scan?_shorter (found : scan? text = some (lexeme,rest)) : rest.length < text.length := by
  have passed : (text.dropWhile isPassed).length ≤ text.length := (List.dropWhile_suffix isPassed).length_le
  unfold scan? at found
  split at found
  · cases found
  · rename_i c later split
    rw [split,List.length_cons] at passed
    have shorter : (later.dropWhile isWordChar).length ≤ later.length := (List.dropWhile_suffix isWordChar).length_le
    split at found
    · cases found
      omega
    · cases found
      omega

-- The words that a scanner meets up to the end of the text, put behind those that it has.
def gather (words : List (List Char)) (text : List Char) : List (List Char) :=
  match _found : scan? text with
  | none => words
  | some (lexeme,rest) => gather (words ++ lexeme.word?.toList) rest
termination_by text.length
decreasing_by exact scan?_shorter _found

theorem passed_separates : ∀ c, isPassed c = true → isWordChar c = false := by
  intro c passed
  simp only [isPassed,Bool.or_eq_true,beq_iff_eq] at passed
  rcases passed with ((rfl | rfl) | rfl) | rfl <;> decide

theorem wordRuns_scan (text : List Char) : wordRuns text =
    match scan? text with
    | none => []
    | some (lexeme,rest) => lexeme.word?.toList ++ wordRuns rest := by
  have passed : wordRuns text = wordRuns (text.dropWhile isPassed) := by
    have separators : ∀ c ∈ text.takeWhile isPassed, (!isWordChar c) = true := by
      intro c inside
      rw [passed_separates c (List.all_eq_true.mp List.all_takeWhile c inside)]
      rfl
    have dropped := runs_leading separators (text.dropWhile isPassed)
    rwa [List.takeWhile_append_dropWhile] at dropped
  rw [passed]
  unfold scan?
  cases text.dropWhile isPassed with
  | nil => exact runs_nil
  | cons c rest =>
    dsimp only
    cases isWord : isWordChar c with
    | false => exact runs_cons (by rw [isWord]; rfl) rest
    | true =>
      have solid : ∀ d ∈ c :: rest.takeWhile isWordChar, (!isWordChar d) = false := by
        intro d inside
        rcases List.mem_cons.mp inside with rfl | inside
        · rw [isWord]
          rfl
        · rw [List.all_eq_true.mp List.all_takeWhile d inside]
          rfl
      have ends : ∀ d, (rest.dropWhile isWordChar).head? = some d → (!isWordChar d) = true := by
        intro d first
        have stops := List.head?_dropWhile_not isWordChar rest
        simpa [first] using stops
      have first := runs_first (List.cons_ne_nil _ _) solid ends
      rw [List.cons_append,List.takeWhile_append_dropWhile] at first
      exact first

theorem gather_eq (words : List (List Char)) (text : List Char) : gather words text = words ++ wordRuns text := by
  fun_induction gather words text with
  | case1 words text ended =>
    rw [wordRuns_scan,ended]
    simp
  | case2 words text lexeme rest found ih =>
    rw [ih,wordRuns_scan text,found,List.append_assoc]

-- The words of a text are its maximal runs of word characters in their order, as a scanner meets them one by one.
-- Words are found again whatever separators stand between them, and no word reaches over a separator.
theorem splitting_exact :
    (∀ text, ∃ located, (∀ others, Located (fun c => !isWordChar c) text.toList others ↔ others = located) ∧
      splitWords text = located.map (fun run => String.ofList run.2) ∧
      splitWords text = (gather [] text.toList).map String.ofList) ∧
    (∀ words text, Joined (fun c => !isWordChar c) (words.map String.toList) text.toList → splitWords text = words) ∧
    ∀ left c right, isWordChar c = false →
      tokenize (left ++ String.singleton c ++ right) = tokenize left ++ tokenize right := by
  refine ⟨?_,?_,?_⟩
  · intro text
    obtain ⟨located,maximal,same⟩ := runs_located (fun c => !isWordChar c) text.toList
    refine ⟨located,fun others => ⟨maximal.unique,fun same => same ▸ maximal⟩,?_,?_⟩
    · rw [splitWords,wordRuns_eq_runs,same,List.map_map]
      rfl
    · rw [gather_eq]
      rfl
  · intro words text joined
    rw [splitWords,wordRuns_eq_runs,runs_of_joined joined,List.map_map]
    simp [Function.comp_def]
  · intro left c right separator
    have split : wordRuns (left ++ String.singleton c ++ right).toList = wordRuns left.toList ++ wordRuns right.toList := by
      rw [String.toList_append,String.toList_append,String.toList_singleton,List.append_assoc,List.singleton_append]
      exact runs_append_cons (by rw [separator]; rfl) left.toList right.toList
    unfold tokenize splitWords
    rw [split,List.map_append,List.map_append]

theorem splitting_exact_clauses :
    Joined (fun c => !isWordChar c) (["9:00","utc"].map String.toList) "9:00 – utc".toList ∧
    splitWords "9:00 – utc" = ["9:00","utc"] ∧ isWordChar '-' = false ∧
    tokenize ("noon" ++ String.singleton '-' ++ "mondays") = tokenize "noon" ++ tokenize "mondays" := by
  have joined : Joined (fun c => !isWordChar c) (["9:00","utc"].map String.toList) "9:00 – utc".toList :=
    show Joined _ ["9:00".toList,"utc".toList] ("9:00".toList ++ (" – ".toList ++ "utc".toList)) from
      .next (by decide) (by simp [isWordChar]) (by decide) (by simp [isWordChar]) (.word (by decide) (by simp [isWordChar]))
  have separator : isWordChar '-' = false := by decide
  exact ⟨joined,splitting_exact.2.1 _ _ joined,separator,splitting_exact.2.2 "noon" '-' "mondays" separator⟩

-- A letter outside the alphabet parts a word, and nothing is left of it.
example : splitWords "mañana 5pm" = ["ma","ana","5pm"] := by decide

end Recurrence.Phrase
