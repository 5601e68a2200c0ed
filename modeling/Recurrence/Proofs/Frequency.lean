import Recurrence.Clause.Frequency

namespace Recurrence.Clause.Frequency

-- All that reading the first `every` can do: nothing, drop the word alone, use it with the unit
-- behind it, or use it with a clause that counts intervals.
inductive Step : Draft → Draft → Prop where
  | idle : Step draft draft
  | dropped (first : every ∉ before) : Step ⟨before ++ every :: after,fields⟩ ⟨before ++ after,fields⟩
  | whole (first : every ∉ before) (known : wholeUnit unit = some entries) :
      Step ⟨before ++ every :: .word unit :: after,fields⟩ ⟨before ++ after,fields.write entries⟩
  | counted (first : every ∉ before) (within : ∀ token ∈ clause, inClause token = true)
      (spoken : wordsOf clause = intervals ++ [unit]) (some_interval : intervals ≠ [])
      (numeric : ∀ interval ∈ intervals, isNumeric interval = true)
      (known : inIntervals intervals unit = some entries) :
      Step ⟨before ++ every :: (clause ++ after),fields⟩ ⟨before ++ after,fields.write entries⟩

theorem counted_parts (known : counted words = some entries) :
    ∃ intervals unit, words = intervals ++ [unit] ∧ intervals ≠ [] ∧
      (∀ interval ∈ intervals, isNumeric interval = true) ∧ inIntervals intervals unit = some entries := by
  unfold counted at known
  split at known
  · cases known
  · rename_i unit last
    dsimp only at known
    split at known
    · rename_i countable
      rw [Bool.and_eq_true,Bool.not_eq_true',List.isEmpty_eq_false_iff,List.all_eq_true] at countable
      obtain ⟨before,rfl⟩ := List.getLast?_eq_some_iff.mp last
      rw [List.dropLast_concat] at countable known
      exact ⟨before,unit,rfl,countable.1,countable.2,known⟩
    · cases known

theorem wholeUnit_numeric (numeric : isNumeric word = true) : wholeUnit word = none := by
  unfold wholeUnit
  split <;> first | rfl | exact absurd numeric (by decide)

theorem counted_of_parts (some_interval : intervals ≠ []) (numeric : ∀ interval ∈ intervals, isNumeric interval = true)
    (known : inIntervals intervals unit = some entries) : counted (intervals ++ [unit]) = some entries := by
  have countable : (!intervals.isEmpty && intervals.all isNumeric) = true := by
    rw [Bool.and_eq_true,Bool.not_eq_true',List.isEmpty_eq_false_iff,List.all_eq_true]
    exact ⟨some_interval,numeric⟩
  unfold counted
  rw [List.getLast?_concat,List.dropLast_concat]
  dsimp only
  rw [if_pos countable,known]

theorem split_every (first : every ∉ before) (after : List Token) :
    (before ++ every :: after).takeWhile (· != every) = before ∧
      (before ++ every :: after).dropWhile (· != every) = every :: after := by
  have passed : ∀ token ∈ before, (token != every) = true := by
    intro token member
    rw [bne_iff_ne]
    rintro rfl
    exact first member
  rw [List.takeWhile_append_of_pos passed,List.dropWhile_append_of_pos passed]
  exact ⟨List.append_nil before,rfl⟩

theorem split_clause {clause after : List Token} (within : ∀ token ∈ clause, inClause token = true)
    (ends : ∀ token, after.head? = some token → inClause token = false) :
    (clause ++ after).takeWhile inClause = clause ∧ (clause ++ after).dropWhile inClause = after := by
  rw [List.takeWhile_append_of_pos within,List.dropWhile_append_of_pos within]
  cases after with
  | nil => exact ⟨List.append_nil clause,rfl⟩
  | cons token rest =>
    have outside : ¬ inClause token = true := by simp [ends token rfl]
    rw [List.takeWhile_cons_of_neg outside,List.dropWhile_cons_of_neg outside]
    exact ⟨List.append_nil clause,rfl⟩

-- The clause of the first `every`, what it says, and what it leaves in its place with `every` itself.
def firstClause (tokens : List Token) : List Token := ((tokens.dropWhile (· != every)).drop 1).takeWhile inClause

def said : List Token → List (Field × Entry)
  | [] => []
  | head :: others => ((head.word?.bind wholeUnit).or (counted (wordsOf (head :: others)))).getD []

def leaves : List Token → List Token
  | [] => [every]
  | head :: others =>
    if (head.word?.bind wholeUnit).isSome then others
    else if (counted (wordsOf (head :: others))).isSome then [] else head :: others

theorem clause_parts (tokens : List Token) : every ∉ tokens ∨ ∃ before clause after,
    tokens = before ++ every :: (clause ++ after) ∧ every ∉ before ∧ (∀ token ∈ clause, inClause token = true) ∧
      ∀ token, after.head? = some token → inClause token = false := by
  by_cases spoken : every ∈ tokens
  · obtain ⟨before,rest,rfl,first⟩ := List.eq_append_cons_of_mem spoken
    refine .inr ⟨before,rest.takeWhile inClause,rest.dropWhile inClause,?_,first,?_,?_⟩
    · rw [List.takeWhile_append_dropWhile]
    · exact List.all_eq_true.mp List.all_takeWhile
    · intro token starts
      have stops := List.head?_dropWhile_not inClause rest
      simpa [starts] using stops
  · exact .inl spoken

section
variable {before clause after : List Token} {fields : Fields}

theorem found_absent {tokens : List Token} (absent : every ∉ tokens) : tokens.dropWhile (· != every) = [] := by
  have passed : ∀ token ∈ tokens, (token != every) = true := by
    intro token member
    exact bne_iff_ne.mpr fun same => absent (same ▸ member)
  have none_found : (tokens ++ []).dropWhile (· != every) = [] := List.dropWhile_append_of_pos passed
  rwa [List.append_nil] at none_found

theorem outcome_absent (draft : Draft) (absent : every ∉ draft.tokens) : outcome draft = .absent := by
  unfold outcome
  rw [found_absent absent]

theorem read_absent (draft : Draft) (absent : every ∉ draft.tokens) : read draft = draft ∧ firstClause draft.tokens = [] := by
  simp [read,outcome_absent draft absent,firstClause,found_absent absent]

theorem firstClause_eq (first : every ∉ before) (within : ∀ token ∈ clause, inClause token = true)
    (ends : ∀ token, after.head? = some token → inClause token = false) :
    firstClause (before ++ every :: (clause ++ after)) = clause := by
  simp only [firstClause,split_every first,List.drop_succ_cons,List.drop_zero,split_clause within ends]

theorem outcome_first (first : every ∉ before) (within : ∀ token ∈ clause, inClause token = true)
    (ends : ∀ token, after.head? = some token → inClause token = false) :
    outcome ⟨before ++ every :: (clause ++ after),fields⟩ =
      match clause with
      | [] => .bare
      | head :: others =>
        match head.word?.bind wholeUnit with
        | some entries => .taken 2 ⟨before ++ (others ++ after),fields.write entries⟩
        | none =>
          match counted (wordsOf (head :: others)) with
          | some entries => .taken (others.length + 2) ⟨before ++ after,fields.write entries⟩
          | none => .dropped ⟨before ++ (head :: others ++ after),fields⟩ := by
  obtain ⟨kept,found⟩ := split_every first (clause ++ after)
  obtain ⟨taken,dropped⟩ := split_clause within ends
  unfold outcome
  rw [found,kept]
  dsimp only
  rw [taken,dropped]
  cases clause with
  | nil => rfl
  | cons head others => rfl

theorem read_first (first : every ∉ before) (within : ∀ token ∈ clause, inClause token = true)
    (ends : ∀ token, after.head? = some token → inClause token = false) :
    read ⟨before ++ every :: (clause ++ after),fields⟩ = ⟨before ++ (leaves clause ++ after),fields.write (said clause)⟩ := by
  unfold read
  rw [outcome_first first within ends]
  cases clause with
  | nil => rfl
  | cons head others =>
    cases unit : head.word?.bind wholeUnit with
    | some entries => simp [leaves,said,unit]
    | none =>
      cases count : counted (wordsOf (head :: others)) with
      | some entries => simp [leaves,said,unit,count]
      | none => simp [leaves,said,unit,count,Fields.write]

theorem read_said (draft : Draft) : (read draft).fields = draft.fields.write (said (firstClause draft.tokens)) := by
  obtain ⟨tokens,fields⟩ := draft
  rcases clause_parts tokens with absent | ⟨before,clause,after,rfl,first,within,ends⟩
  · obtain ⟨same,none_first⟩ := read_absent ⟨tokens,fields⟩ absent
    simp [same,none_first,said,Fields.write]
  · rw [read_first first within ends,firstClause_eq first within ends]

theorem read_step (draft : Draft) : Step draft (read draft) := by
  obtain ⟨tokens,fields⟩ := draft
  rcases clause_parts tokens with absent | ⟨before,clause,after,rfl,first,within,ends⟩
  · rw [(read_absent ⟨tokens,fields⟩ absent).1]
    exact .idle
  · rw [read_first first within ends]
    cases clause with
    | nil => exact .idle
    | cons head others =>
      cases unit : head.word?.bind wholeUnit with
      | some entries =>
        obtain ⟨word,spoken,known⟩ := Option.bind_eq_some_iff.mp unit
        have word_token : head = .word word := by cases head <;> cases spoken; rfl
        subst word_token
        simp only [leaves,said,unit]
        exact .whole first known
      | none =>
        cases count : counted (wordsOf (head :: others)) with
        | some entries =>
          obtain ⟨intervals,last,spoken,some_interval,numeric,known⟩ := counted_parts count
          simp only [leaves,said,unit,count]
          exact .counted first within spoken some_interval numeric known
        | none =>
          simp only [leaves,said,unit,count]
          exact .dropped first

theorem read_counted (first : every ∉ before) (within : ∀ token ∈ clause, inClause token = true)
    (ends : ∀ token, after.head? = some token → inClause token = false) (spoken : wordsOf clause = intervals ++ [unit])
    (some_interval : intervals ≠ []) (numeric : ∀ interval ∈ intervals, isNumeric interval = true)
    (known : inIntervals intervals unit = some entries) :
    read ⟨before ++ every :: (clause ++ after),fields⟩ = ⟨before ++ after,fields.write entries⟩ := by
  have count : counted (wordsOf clause) = some entries := spoken ▸ counted_of_parts some_interval numeric known
  rw [read_first first within ends]
  cases clause with
  | nil => simp [wordsOf] at spoken
  | cons head others =>
    have no_unit : head.word?.bind wholeUnit = none := by
      cases head with
      | marker kind => rfl
      | blank => rfl
      | word word =>
        obtain ⟨interval,more,rfl⟩ := List.exists_cons_of_ne_nil some_interval
        have same : word = interval := (List.cons.inj spoken).1
        exact wholeUnit_numeric (same ▸ numeric interval List.mem_cons_self)
    simp [leaves,said,no_unit,count]

end

end Recurrence.Clause.Frequency
