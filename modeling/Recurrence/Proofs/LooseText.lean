import Recurrence.Proofs.Replacement
import Recurrence.Proofs.Words

namespace Recurrence.Phrase

def spaces (n : Nat) : List Char := List.replicate n ' '

theorem spaces_succ (n : Nat) : spaces (n + 1) = ' ' :: spaces n := rfl

-- The first text is the second with more spaces in gaps that have more than `n` of them: no gap between
-- words is opened or closed.
inductive Looser (n : Nat) : List Char → List Char → Prop where
  | nil : Looser n [] []
  | cons (c : Char) : Looser n loose tight → Looser n (c :: loose) (c :: tight)
  | wide : spaces (n + 1) <+: tight → Looser n loose tight → Looser n (' ' :: loose) tight

namespace Looser

theorem append_left (front : List Char) (looser : Looser n loose tight) : Looser n (front ++ loose) (front ++ tight) := by
  induction front with
  | nil => exact looser
  | cons c rest ih => exact .cons c ih

theorem refl (text : List Char) : Looser n text text := by
  have same := Looser.nil (n := n) |>.append_left text
  rwa [List.append_nil] at same

theorem gap_cons (gap : spaces (n + 1) <+: tight) : ∃ rest, tight = ' ' :: rest := by
  obtain ⟨rest,rfl⟩ := gap
  exact ⟨_,rfl⟩

theorem head (looser : Looser n loose (c :: tight)) : ∃ rest, loose = c :: rest := by
  cases looser with
  | cons c later => exact ⟨_,rfl⟩
  | wide gap later =>
    obtain ⟨rest,space⟩ := gap_cons gap
    rw [(List.cons.inj space).1]
    exact ⟨_,rfl⟩

theorem runs_front (looser : Looser n loose tight) (front : List Char) :
    Text.runs (fun c => !isWordChar c) (front ++ loose) = Text.runs (fun c => !isWordChar c) (front ++ tight) := by
  have space : (!isWordChar ' ') = true := by decide
  induction looser generalizing front with
  | nil => rfl
  | cons c later ih => simpa using ih (front ++ [c])
  | wide gap later ih =>
    obtain ⟨rest,rfl⟩ := gap_cons gap
    have more := ih []
    rw [List.nil_append,List.nil_append,Text.runs_cons space] at more
    rw [Text.runs_append_cons space,Text.runs_append_cons space,more]

theorem wordRuns_eq (looser : Looser n loose tight) : wordRuns loose = wordRuns tight := looser.runs_front []

end Looser

-- Words with one space between neighbours, as names are written: a space has another character behind it.
def singleSpaced : List Char → Bool
  | [] => true
  | c :: rest => (c != ' ' || rest.head?.any (· != ' ')) && singleSpaced rest

structure Name (pattern : List Char) : Prop where
  nonempty : pattern ≠ []
  starts_solid : pattern.head? ≠ some ' '
  single : singleSpaced pattern = true

variable {n : Nat} {pattern loose tight : List Char}

theorem singleSpaced_space (single : singleSpaced (' ' :: pattern) = true) (text : List Char) :
    ∀ rest, pattern ++ text ≠ ' ' :: rest := by
  rintro rest spelled
  cases pattern with
  | nil => simp [singleSpaced] at single
  | cons d others =>
    rw [(List.cons.inj spelled).1] at single
    simp [singleSpaced] at single

theorem singleSpaced_tail (single : singleSpaced (c :: pattern) = true) : singleSpaced pattern = true := by
  rw [singleSpaced,Bool.and_eq_true] at single
  exact single.2

namespace Looser

theorem behind (single : singleSpaced pattern = true) (looser : Looser n (pattern ++ loose) tight) :
    ∃ rest, tight = pattern ++ rest ∧ Looser n loose rest := by
  induction pattern generalizing tight with
  | nil => exact ⟨tight,rfl,looser⟩
  | cons c pattern ih =>
    rw [List.cons_append] at looser
    cases looser with
    | cons c later =>
      obtain ⟨rest,rfl,behind⟩ := ih (singleSpaced_tail single) later
      exact ⟨rest,rfl,behind⟩
    | wide gap later =>
      -- A gap that is wider than that of a name is not in it.
      obtain ⟨rest,rfl⟩ := gap_cons gap
      obtain ⟨others,starts⟩ := later.head
      exact absurd starts (singleSpaced_space single loose others)

theorem behind_solid (solid : ' ' ∉ pattern) (looser : Looser n loose (pattern ++ tight)) :
    ∃ rest, loose = pattern ++ rest := by
  induction pattern generalizing loose with
  | nil => exact ⟨loose,rfl⟩
  | cons c pattern ih =>
    rw [List.mem_cons,not_or] at solid
    rw [List.cons_append] at looser
    cases looser with
    | cons c later =>
      obtain ⟨rest,rfl⟩ := ih solid.2 later
      exact ⟨rest,rfl⟩
    | wide gap later =>
      obtain ⟨rest,space⟩ := gap_cons gap
      exact absurd (List.cons.inj space).1.symm solid.1

theorem behind_wide (single : singleSpaced pattern = true) (looser : Looser (n + 1) loose (pattern ++ tight)) :
    ∃ rest, loose = pattern ++ rest := by
  induction pattern generalizing loose with
  | nil => exact ⟨loose,rfl⟩
  | cons c pattern ih =>
    rw [List.cons_append] at looser
    cases looser with
    | cons c later =>
      obtain ⟨rest,rfl⟩ := ih (singleSpaced_tail single) later
      exact ⟨rest,rfl⟩
    | wide gap later =>
      obtain ⟨rest,spelled⟩ := gap
      have parts := List.cons.inj spelled
      rw [← parts.1] at single
      exact absurd parts.2.symm (singleSpaced_space single tight _)

end Looser

def occurrences (pattern : List Char) : List Char → Nat
  | [] => 0
  | c :: rest => (if pattern.isPrefixOf (c :: rest) then 1 else 0) + occurrences pattern rest

theorem Name.space (name : Name pattern) (text : List Char) : pattern.isPrefixOf (' ' :: text) = false := by
  obtain ⟨c,rest,rfl⟩ := List.exists_cons_of_ne_nil name.nonempty
  have solid : c ≠ ' ' := fun same => name.starts_solid (by simp [same])
  simp [List.isPrefixOf,solid]

theorem occurrences_space (name : Name pattern) (text : List Char) :
    occurrences pattern (' ' :: text) = occurrences pattern text := by
  rw [occurrences,name.space]
  exact Nat.zero_add _

theorem Looser.starts (name : Name pattern) (looser : Looser n loose tight)
    (found : pattern.isPrefixOf loose = true) : pattern.isPrefixOf tight = true := by
  obtain ⟨rest,rfl⟩ := List.isPrefixOf_iff_prefix.mp found
  obtain ⟨others,rfl,_⟩ := looser.behind name.single
  exact List.isPrefixOf_iff_prefix.mpr (List.prefix_append pattern others)

theorem occurrences_le (name : Name pattern) (looser : Looser n loose tight) :
    occurrences pattern loose ≤ occurrences pattern tight := by
  induction looser with
  | nil => exact Nat.le_refl _
  | cons c later ih =>
    have kept := (Looser.cons c later).starts name
    unfold occurrences
    split
    · rename_i found
      rw [if_pos (kept found)]
      omega
    · omega
  | wide gap later ih =>
    rw [occurrences_space name]
    exact ih

theorem occurrences_eq (name : Name pattern)
    (back : ∀ {loose tight}, Looser n loose (pattern ++ tight) → ∃ rest, loose = pattern ++ rest)
    (looser : Looser n loose tight) : occurrences pattern loose = occurrences pattern tight := by
  induction looser with
  | nil => rfl
  | @cons loose tight c later ih =>
    have found : pattern.isPrefixOf (c :: tight) = true → pattern.isPrefixOf (c :: loose) = true := by
      intro found
      obtain ⟨rest,split⟩ := List.isPrefixOf_iff_prefix.mp found
      have whole := Looser.cons c later
      rw [← split] at whole
      obtain ⟨others,cut⟩ := back whole
      exact List.isPrefixOf_iff_prefix.mpr ⟨others,cut.symm⟩
    have same := Bool.eq_iff_iff.mpr ⟨(Looser.cons c later).starts name,found⟩
    rw [occurrences,occurrences,same,ih]
  | wide gap later ih =>
    rw [occurrences_space name]
    exact ih

theorem occurrences_cons (name : Name pattern) (looser : Looser n loose tight)
    (same : occurrences pattern (c :: loose) = occurrences pattern (c :: tight)) :
    pattern.isPrefixOf (c :: loose) = pattern.isPrefixOf (c :: tight) ∧ occurrences pattern loose = occurrences pattern tight := by
  have fewer := occurrences_le name looser
  have kept := (Looser.cons c looser).starts name
  rw [occurrences,occurrences] at same
  cases here : pattern.isPrefixOf (c :: loose) with
  | true =>
    rw [here,kept here] at same
    exact ⟨(kept here).symm,by omega⟩
  | false =>
    cases there : pattern.isPrefixOf (c :: tight) with
    | true =>
      rw [here,there] at same
      simp only [if_true,Bool.false_eq_true,if_false] at same
      omega
    | false =>
      rw [here,there] at same
      exact ⟨rfl,by omega⟩

theorem occurrences_append (name : Name pattern) (looser : Looser n loose tight) (front : List Char)
    (same : occurrences pattern (front ++ loose) = occurrences pattern (front ++ tight)) :
    occurrences pattern loose = occurrences pattern tight := by
  induction front with
  | nil => exact same
  | cons c rest ih => exact ih (occurrences_cons name (looser.append_left rest) same).2

section
variable {replacement : List Char}

theorem replaceFrom_skip (pattern replacement front text : List Char) :
    replaceFrom pattern replacement front.length (front ++ text) = replaceAll pattern replacement text := by
  induction front with
  | nil => rfl
  | cons c rest ih => exact ih

theorem replaceAll_found (some_pattern : pattern ≠ []) (text : List Char) :
    replaceAll pattern replacement (pattern ++ text) = replacement ++ replaceAll pattern replacement text := by
  obtain ⟨c,rest,rfl⟩ := List.exists_cons_of_ne_nil some_pattern
  have found : (c :: rest).isPrefixOf (c :: (rest ++ text)) = true :=
    List.isPrefixOf_iff_prefix.mpr (List.prefix_append (c :: rest) text)
  show replaceFrom (c :: rest) replacement 0 (c :: (rest ++ text)) = _
  rw [replaceFrom,if_pos found]
  exact congrArg (replacement ++ ·) (replaceFrom_skip (c :: rest) replacement rest text)

theorem replaceAll_other (absent : pattern.isPrefixOf (c :: text) = false) :
    replaceAll pattern replacement (c :: text) = c :: replaceAll pattern replacement text := by
  show replaceFrom pattern replacement 0 (c :: text) = _
  rw [replaceFrom,if_neg (by simp [absent])]
  rfl

theorem replaceAll_spaces (name : Name pattern) (n : Nat) (text : List Char) :
    replaceAll pattern replacement (spaces n ++ text) = spaces n ++ replaceAll pattern replacement text := by
  induction n with
  | zero => rfl
  | succ n ih =>
    rw [spaces_succ,List.cons_append,replaceAll_other (name.space _),ih]
    rfl

end

theorem replaceAll_looser (name : Name pattern) (replacement : List Char) (looser : Looser n loose tight)
    (same : occurrences pattern loose = occurrences pattern tight) :
    Looser n (replaceAll pattern replacement loose) (replaceAll pattern replacement tight) := by
  -- By length, since a pattern that is found is passed as a whole.
  induction measured : loose.length using Nat.strongRecOn generalizing loose tight with
  | ind size ih =>
    cases looser with
    | nil => exact .nil
    | @cons loose tight c later =>
      obtain ⟨agree,rest_same⟩ := occurrences_cons name later same
      cases found : pattern.isPrefixOf (c :: loose) with
      | true =>
        obtain ⟨rest,split⟩ := List.isPrefixOf_iff_prefix.mp found
        have whole := Looser.cons c later
        rw [← split] at whole same measured ⊢
        obtain ⟨others,cut,behind⟩ := whole.behind name.single
        rw [cut] at same ⊢
        rw [replaceAll_found name.nonempty,replaceAll_found name.nonempty]
        have shorter : rest.length < size := by
          have := List.length_pos_iff.mpr name.nonempty
          rw [List.length_append] at measured
          omega
        exact (ih rest.length shorter behind (occurrences_append name behind pattern same) rfl).append_left replacement
      | false =>
        rw [replaceAll_other found,replaceAll_other (agree.symm.trans found)]
        exact .cons c (ih loose.length (by simp at measured; omega) later rest_same rfl)
    | @wide tight loose gap later =>
      rw [occurrences_space name] at same
      have looser := ih loose.length (by simp at measured; omega) later same rfl
      obtain ⟨rest,rfl⟩ := gap
      rw [replaceAll_other (name.space loose)]
      rw [replaceAll_spaces name] at looser ⊢
      exact .wide (List.prefix_append _ _) looser

-- How often the names of several words stand in a text, each when its turn comes.
def mentions : List (String × String) → List Char → List Nat
  | [],_ => []
  | entry :: rest,text =>
    let later := mentions rest (replaceAll entry.1.toList entry.2.toList text)
    if ' ' ∈ entry.1.toList then occurrences entry.1.toList text :: later else later

section
variable {entries : List (String × String)} (names : ∀ entry ∈ entries, Name entry.1.toList)
include names

theorem expandBy_looser (looser : Looser n loose tight) (same : mentions entries loose = mentions entries tight) :
    Looser n (expandBy entries loose) (expandBy entries tight) := by
  induction entries generalizing loose tight with
  | nil => exact looser
  | cons entry rest ih =>
    have name := names entry List.mem_cons_self
    have later := fun entry member => names entry (List.mem_cons_of_mem _ member)
    rw [mentions,mentions] at same
    by_cases gap : ' ' ∈ entry.1.toList
    · simp only [if_pos gap,List.cons.injEq] at same
      exact ih later (replaceAll_looser name entry.2.toList looser same.1) same.2
    · simp only [if_neg gap] at same
      have once := occurrences_eq name (Looser.behind_solid gap) looser
      exact ih later (replaceAll_looser name entry.2.toList looser once) same

theorem mentions_wide (looser : Looser (n + 1) loose tight) : mentions entries loose = mentions entries tight := by
  induction entries generalizing loose tight with
  | nil => rfl
  | cons entry rest ih =>
    have name := names entry List.mem_cons_self
    have same := occurrences_eq name (Looser.behind_wide name.single) looser
    have later := ih (fun entry member => names entry (List.mem_cons_of_mem _ member))
      (replaceAll_looser name entry.2.toList looser same)
    rw [mentions,mentions,same,later]

theorem mentions_none (looser : Looser n loose tight) (absent : ∀ count ∈ mentions entries tight, count = 0) :
    mentions entries loose = mentions entries tight := by
  induction entries generalizing loose tight with
  | nil => rfl
  | cons entry rest ih =>
    have name := names entry List.mem_cons_self
    have later := fun entry member => names entry (List.mem_cons_of_mem _ member)
    rw [mentions,mentions]
    rw [mentions] at absent
    by_cases gap : ' ' ∈ entry.1.toList
    · simp only [if_pos gap,List.mem_cons,forall_eq_or_imp] at absent
      have fewer := occurrences_le name looser
      have same : occurrences entry.1.toList loose = occurrences entry.1.toList tight := by omega
      simp only [if_pos gap,same,ih later (replaceAll_looser name entry.2.toList looser same) absent.2]
    · simp only [if_neg gap] at absent
      have once := occurrences_eq name (Looser.behind_solid gap) looser
      simp only [if_neg gap]
      exact ih later (replaceAll_looser name entry.2.toList looser once) absent

end

end Recurrence.Phrase
