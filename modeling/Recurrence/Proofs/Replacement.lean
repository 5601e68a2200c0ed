import Mathlib.Data.List.Infix
import Recurrence.Phrase

namespace Recurrence.Phrase

variable {pattern replacement front left right text : List Char}

theorem replaceAll_absent (absent : ¬ pattern <:+: text) : replaceAll pattern replacement text = text := by
  unfold replaceAll
  induction text with
  | nil => rfl
  | cons c rest ih =>
    have here : pattern.isPrefixOf (c :: rest) = false := by
      cases found : pattern.isPrefixOf (c :: rest) with
      | false => rfl
      | true => exact absurd (List.isPrefixOf_iff_prefix.mp found).isInfix absent
    have later : ¬ pattern <:+: rest := fun inside => absent (inside.trans (List.suffix_cons c rest).isInfix)
    simp only [replaceFrom,here,Bool.false_eq_true,if_false]
    rw [ih later]

-- No occurrence of the pattern lies across the place where the left text meets the right one.
def Seam (pattern left right : List Char) : Prop :=
  ∀ front back, pattern = front ++ back → front ≠ [] → back ≠ [] → front <:+ left → ¬ back <+: right

theorem seam_nil_left : Seam pattern [] right :=
  fun _ _ _ nonempty _ inside _ => nonempty (List.suffix_nil.mp inside)
theorem seam_nil_right : Seam pattern left [] :=
  fun _ _ _ _ nonempty _ inside => nonempty (List.prefix_nil.mp inside)

theorem seam_of_pair (absent : ¬ [a,b] <:+: pattern) : Seam pattern (left ++ [a]) (b :: right) := by
  intro front back split front_some back_some ends starts
  obtain ⟨first,last,rfl⟩ : ∃ first last, front = first ++ [last] :=
    ⟨_,_,(List.dropLast_concat_getLast front_some).symm⟩
  obtain ⟨head,tail,rfl⟩ := List.exists_cons_of_ne_nil back_some
  have same_last : last = a := by
    obtain ⟨before,equal⟩ := ends
    rw [← List.append_assoc] at equal
    exact (List.append_inj_right' equal rfl |> List.singleton_inj.mp)
  have same_head : head = b := (List.cons_prefix_cons.mp starts).1
  subst same_last same_head
  exact absent ⟨first,tail,by simp [split]⟩

theorem Seam.tail (seam : Seam pattern (c :: left) right) : Seam pattern left right :=
  fun front back split some_front some_back ends =>
    seam front back split some_front some_back (ends.trans (List.suffix_cons c left))

-- An occurrence that starts in the left text ends in it, so the count of characters still to be
-- skipped never reaches into the right one.
theorem replaceFrom_append (seam : Seam pattern left right) (skipped : n ≤ left.length) :
    replaceFrom pattern replacement n (left ++ right) =
      replaceFrom pattern replacement n left ++ replaceFrom pattern replacement 0 right := by
  induction left generalizing n with
  | nil =>
    have none_left : n = 0 := Nat.le_zero.mp skipped
    subst none_left
    rfl
  | cons c rest ih =>
    cases n with
    | succ n =>
      simp only [List.cons_append,replaceFrom]
      exact ih seam.tail (by simpa using skipped)
    | zero =>
      have agree : pattern.isPrefixOf (c :: rest ++ right) = pattern.isPrefixOf (c :: rest) := by
        rw [Bool.eq_iff_iff,List.isPrefixOf_iff_prefix,List.isPrefixOf_iff_prefix]
        refine ⟨?_,fun within => within.trans (List.prefix_append _ _)⟩
        intro found
        rcases List.prefix_or_prefix_of_prefix found (List.prefix_append (c :: rest) right) with within | ⟨back,beyond⟩
        · exact within
        · cases back with
          | nil => exact ⟨[],by simpa using beyond.symm⟩
          | cons d back =>
            rw [← beyond] at found
            have starts := (List.prefix_append_right_inj (c :: rest)).mp found
            exact absurd starts (seam (c :: rest) (d :: back) beyond.symm (by simp) (by simp) (List.suffix_refl _))
      rw [List.cons_append] at agree ⊢
      simp only [replaceFrom,agree]
      split
      · rename_i found
        have fits := (List.isPrefixOf_iff_prefix.mp found).length_le
        rw [ih seam.tail (by simp only [List.length_cons] at fits; omega),List.append_assoc]
      · rw [ih seam.tail (Nat.zero_le _),List.cons_append]

theorem replaceAll_append (seam : Seam pattern left right) :
    replaceAll pattern replacement (left ++ right) =
      replaceAll pattern replacement left ++ replaceAll pattern replacement right :=
  replaceFrom_append seam (Nat.zero_le _)

-- The places beside a word: nothing at all, or a text with a space on the word's side.
def BeforeWord (text : List Char) : Prop := text = [] ∨ ∃ before, text = before ++ [' ']
def AfterWord (text : List Char) : Prop := text = [] ∨ ∃ after, text = ' ' :: after

-- What keeps a pattern away from a word between spaces: it is no part of the word, it does not begin
-- or end with a space, and the word's ends meet a space nowhere in it.
structure Avoids (pattern word : List Char) : Prop where
  outside : ¬ pattern <:+: word
  starts_solid : pattern.head? ≠ some ' '
  ends_solid : pattern.getLast? ≠ some ' '
  before : ∀ c, word.head? = some c → ¬ [' ',c] <:+: pattern
  after : ∀ c, word.getLast? = some c → ¬ [c,' '] <:+: pattern

theorem single_space (starts : pattern.head? ≠ some ' ') (some_pattern : pattern ≠ []) :
    replaceAll pattern replacement [' '] = [' '] := by
  apply replaceAll_absent
  intro inside
  rcases List.infix_cons_iff.mp inside with found | found
  · rcases List.prefix_cons_iff.mp found with rfl | ⟨tail,rfl,_⟩
    · exact some_pattern rfl
    · exact starts rfl
  · exact some_pattern (List.infix_nil.mp found)

theorem replaceAll_beforeWord (replacement : List Char) (avoids : Avoids pattern word) (some_pattern : pattern ≠ [])
    (place : BeforeWord left) : BeforeWord (replaceAll pattern replacement left) := by
  rcases place with rfl | ⟨before,rfl⟩
  · exact .inl rfl
  · have seam : Seam pattern before [' '] := by
      intro front back split _ back_some _ starts
      rcases List.prefix_cons_iff.mp starts with rfl | ⟨tail,rfl,none_left⟩
      · exact back_some rfl
      · rw [List.prefix_nil.mp none_left] at split
        exact avoids.ends_solid (by simp [split])
    exact .inr ⟨_,by rw [replaceAll_append seam,single_space avoids.starts_solid some_pattern]⟩

theorem replaceAll_afterWord (replacement : List Char) (avoids : Avoids pattern word) (some_pattern : pattern ≠ [])
    (place : AfterWord right) : AfterWord (replaceAll pattern replacement right) := by
  rcases place with rfl | ⟨after,rfl⟩
  · exact .inl rfl
  · have seam : Seam pattern [' '] after := by
      intro front back split front_some _ ends _
      rcases List.suffix_cons_iff.mp ends with rfl | none_left
      · exact avoids.starts_solid (by simp [split])
      · exact front_some (List.suffix_nil.mp none_left)
    refine .inr ⟨replaceAll pattern replacement after,?_⟩
    rw [← List.singleton_append,replaceAll_append seam,single_space avoids.starts_solid some_pattern]
    rfl

theorem replaceAll_around (replacement : List Char) (avoids : Avoids pattern word) (some_word : word ≠ [])
    (before : BeforeWord left) (after : AfterWord right) :
    replaceAll pattern replacement (left ++ word ++ right) =
      replaceAll pattern replacement left ++ word ++ replaceAll pattern replacement right := by
  have right_seam : Seam pattern (left ++ word) right := by
    rcases after with rfl | ⟨after,rfl⟩
    · exact seam_nil_right
    · obtain ⟨first,last,rfl⟩ : ∃ first last, word = first ++ [last] :=
        ⟨_,_,(List.dropLast_concat_getLast some_word).symm⟩
      rw [← List.append_assoc]
      exact seam_of_pair (avoids.after last (by simp))
  have left_seam : Seam pattern left word := by
    rcases before with rfl | ⟨before,rfl⟩
    · exact seam_nil_left
    · obtain ⟨head,tail,rfl⟩ := List.exists_cons_of_ne_nil some_word
      exact seam_of_pair (avoids.before head rfl)
  rw [replaceAll_append right_seam,replaceAll_append left_seam,replaceAll_absent avoids.outside]

def expandBy (entries : List (String × String)) (text : List Char) : List Char :=
  entries.foldl (fun text entry => replaceAll entry.1.toList entry.2.toList text) text

theorem expand_eq_expandBy (text : List Char) : expand text = expandBy (frequencies ++ holidays) text := rfl

theorem expandBy_cons (entry : String × String) (rest : List (String × String)) (text : List Char) :
    expandBy (entry :: rest) text = expandBy rest (replaceAll entry.1.toList entry.2.toList text) := rfl

theorem expandBy_append (first second : List (String × String)) (text : List Char) :
    expandBy (first ++ second) text = expandBy second (expandBy first text) := List.foldl_append

theorem expandBy_around (avoids : ∀ entry ∈ entries, Avoids entry.1.toList word ∧ entry.1.toList ≠ [])
    (some_word : word ≠ []) (before : BeforeWord left) (after : AfterWord right) :
    expandBy entries (left ++ word ++ right) = expandBy entries left ++ word ++ expandBy entries right ∧
      BeforeWord (expandBy entries left) ∧ AfterWord (expandBy entries right) := by
  induction entries generalizing left right with
  | nil => exact ⟨rfl,before,after⟩
  | cons entry rest ih =>
    obtain ⟨here,some_pattern⟩ := avoids entry List.mem_cons_self
    have step := replaceAll_around entry.2.toList here some_word before after
    have := ih (fun entry member => avoids entry (List.mem_cons_of_mem _ member))
      (replaceAll_beforeWord entry.2.toList here some_pattern before)
      (replaceAll_afterWord entry.2.toList here some_pattern after)
    rw [← step] at this
    exact this

-- The pattern is not in the front text, and what this ends in and the pattern begins with is nothing, or all of
-- the front text.
def Guarded (pattern front : List Char) : Prop :=
  ∀ shared ∈ front.tails, ¬ pattern <+: shared ∧ (shared <+: pattern → shared = [] ∨ shared = front)

instance (pattern front : List Char) : Decidable (Guarded pattern front) := List.decidableBAll _ _

theorem Guarded.passes (guarded : Guarded pattern front) (replacement : List Char)
    (closed : front <+: pattern → ¬ pattern <+: front ++ text) :
    replaceAll pattern replacement (front ++ text) = front ++ replaceAll pattern replacement text := by
  have outside : ¬ pattern <:+: front := by
    intro inside
    obtain ⟨shared,starts,ends⟩ := List.infix_iff_prefix_suffix.mp inside
    exact (guarded shared (List.mem_tails _ _ |>.mpr ends)).1 starts
  have seam : Seam pattern front text := by
    intro shared back split some_shared _ ends starts
    have begins : shared <+: pattern := ⟨back,split.symm⟩
    have whole := ((guarded shared (List.mem_tails _ _ |>.mpr ends)).2 begins).resolve_left some_shared
    subst whole
    subst split
    exact closed begins ((List.prefix_append_right_inj _).mpr starts)
  rw [replaceAll_append seam,replaceAll_absent outside]

-- The front text is not the beginning of the pattern either, so no text behind it can bring that about.
def Shut (pattern front : List Char) : Prop := Guarded pattern front ∧ ¬ front <+: pattern

instance (pattern front : List Char) : Decidable (Shut pattern front) := inferInstanceAs (Decidable (_ ∧ _))

theorem expandBy_passes (shut : ∀ entry ∈ entries, Shut entry.1.toList front) (text : List Char) :
    expandBy entries (front ++ text) = front ++ expandBy entries text := by
  induction entries generalizing text with
  | nil => rfl
  | cons entry rest ih =>
    obtain ⟨guarded,ends⟩ := shut entry List.mem_cons_self
    rw [expandBy_cons,expandBy_cons,guarded.passes _ fun within => absurd within ends,
      ih fun entry member => shut entry (List.mem_cons_of_mem _ member)]

theorem expandBy_space (shut : ∀ entry ∈ entries, Shut entry.1.toList (front ++ [' '])) (text : List Char) :
    expandBy entries (front ++ ' ' :: text) = front ++ ' ' :: expandBy entries text := by
  simpa using expandBy_passes shut text

-- A date begins with a digit, and the names and the words for frequencies have none.
def Numeric (replacement : List Char) : Prop := replacement.head?.any Char.isDigit = true

instance (replacement : List Char) : Decidable (Numeric replacement) := inferInstanceAs (Decidable (_ = true))

theorem replaceAll_head (numeric : Numeric replacement) (pattern : List Char) (c : Char) (text : List Char) :
    (∃ d rest, replaceAll pattern replacement (c :: text) = d :: rest ∧ d.isDigit = true) ∨
      replaceAll pattern replacement (c :: text) = c :: replaceAll pattern replacement text := by
  obtain ⟨d,rest,rfl⟩ : ∃ d rest, replacement = d :: rest := by
    cases replacement with
    | nil => cases numeric
    | cons d rest => exact ⟨d,rest,rfl⟩
  have unfolded : replaceAll pattern (d :: rest) (c :: text) =
      if pattern.isPrefixOf (c :: text) then d :: rest ++ replaceFrom pattern (d :: rest) (pattern.length - 1) text
      else c :: replaceAll pattern (d :: rest) text := rfl
  rw [unfolded]
  split
  · exact .inl ⟨d,_,rfl,numeric⟩
  · exact .inr rfl

theorem replaceAll_front (numeric : Numeric replacement) (undigited : ∀ c ∈ front, c.isDigit = false)
    (starts : front <+: replaceAll pattern replacement text) :
    ∃ rest, text = front ++ rest ∧ replaceAll pattern replacement text = front ++ replaceAll pattern replacement rest := by
  induction front generalizing text with
  | nil => exact ⟨text,rfl,rfl⟩
  | cons c front ih =>
    cases text with
    | nil => cases List.prefix_nil.mp starts
    | cons d text =>
      rcases replaceAll_head numeric pattern d text with ⟨digit,rest,replaced,isDigit⟩ | kept
      · rw [replaced] at starts
        have same := (List.cons_prefix_cons.mp starts).1
        rw [← same,undigited c List.mem_cons_self] at isDigit
        cases isDigit
      · rw [kept] at starts ⊢
        obtain ⟨rfl,later⟩ := List.cons_prefix_cons.mp starts
        obtain ⟨rest,rfl,replaced⟩ := ih (fun c inside => undigited c (List.mem_cons_of_mem _ inside)) later
        exact ⟨rest,rfl,by rw [replaced]; rfl⟩

theorem expandBy_front (numeric : ∀ entry ∈ entries, Numeric entry.2.toList) (undigited : ∀ c ∈ front, c.isDigit = false)
    (starts : front <+: expandBy entries text) :
    ∃ rest, text = front ++ rest ∧ expandBy entries text = front ++ expandBy entries rest := by
  induction entries generalizing text with
  | nil =>
    obtain ⟨rest,split⟩ := starts
    exact ⟨rest,split.symm,split.symm⟩
  | cons entry others ih =>
    rw [expandBy_cons] at starts ⊢
    obtain ⟨rest,replaced,later⟩ := ih (fun entry member => numeric entry (List.mem_cons_of_mem _ member)) starts
    obtain ⟨behind,split,kept⟩ := replaceAll_front (numeric entry List.mem_cons_self) undigited ⟨rest,replaced.symm⟩
    rw [kept] at replaced
    exact ⟨behind,split,by rw [later,expandBy_cons,List.append_cancel_left replaced]⟩

theorem expandBy_head (numeric : ∀ entry ∈ entries, Numeric entry.2.toList) (isWord : isWordChar c = true)
    (text : List Char) : ∃ d rest, expandBy entries (c :: text) = d :: rest ∧ isWordChar d = true := by
  induction entries generalizing c text with
  | nil => exact ⟨c,text,rfl,isWord⟩
  | cons entry others ih =>
    have later := fun entry member => numeric entry (List.mem_cons_of_mem _ member)
    rw [expandBy_cons]
    rcases replaceAll_head (numeric entry List.mem_cons_self) entry.1.toList c text with ⟨d,rest,replaced,digit⟩ | kept
    · rw [replaced]
      exact ih later (by simp [isWordChar,digit]) rest
    · rw [kept]
      exact ih later isWord _

end Recurrence.Phrase
