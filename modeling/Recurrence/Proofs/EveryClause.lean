import Recurrence.Proofs.FieldEntries

namespace Recurrence

namespace Clause.Frequency

-- A sequence around its first `every`: what stands before it, its clause, and what the clause ends at.
structure Parts (tokens before clause after : List Token) : Prop where
  whole : tokens = before ++ every :: (clause ++ after)
  first : every ∉ before
  within : ∀ token ∈ clause, token.isMarker = false ∧ token ≠ every
  ends : ∀ token, after.head? = some token → token.isMarker = true ∨ token = every

-- The word directly behind `every` is a unit.
def Opens (unit : String) (clause : List Token) : Prop := unit ∈ units ∧ clause.head? = some (.word unit)

-- The words of the clause are intervals in digits, at least one of them, and a unit that can be counted.
structure Counts (intervals : List String) (unit : String) (clause : List Token) : Prop where
  spoken : wordsOf clause = intervals ++ [unit]
  countable : unit ∈ ["minute","hour","day","month"]
  some_interval : intervals ≠ []
  digits : ∀ interval ∈ intervals, ∀ c ∈ interval.toList, c.isDigit = true

-- What a unit by itself means for each field: once in every unit, at its first moment.
def wholeMeans : String → Field → Option Entry
  | "minute",.minute => some .any
  | "hour",.minute => some (.number 0)
  | "hour",.hour => some .any
  | "day",.minute | "day",.hour => some (.number 0)
  | "day",.dayOfMonth | "day",.dayOfWeek => some .any
  | "month",.minute | "month",.hour | "month",.dayOfMonth => some (.number 1)
  | "month",.month => some .any
  | "year",.minute | "year",.hour | "year",.dayOfMonth | "year",.month => some (.number 1)
  | _,_ => none

def unitField : String → Field
  | "minute" => .minute
  | "hour" => .hour
  | "day" => .dayOfMonth
  | _ => .month

-- What a counted unit means: its field goes in steps of the intervals, and hours start at their first minute.
def countedMeans (intervals : List String) (unit : String) (field : Field) : Option Entry :=
  if field = unitField unit then some (.every intervals)
  else if unit = "hour" ∧ field = .minute then some (.number 0)
  else none

-- The fields after just this was said.
structure Meant (meaning : Field → Option Entry) (before after : Fields) : Prop where
  told : ∀ field, after.get field = (meaning field).or (before.get field)
  disabled : after.disabled = before.disabled

-- What becomes of a draft. A unit behind `every` is used with it, a counted clause is used as a whole with its
-- blanks, and from any other clause only `every` itself is dropped.
inductive Extracts : Draft → Draft → Prop where
  | absent (silent : every ∉ draft.tokens) : Extracts draft draft
  | bare (parts : Parts draft.tokens before [] after) : Extracts draft draft
  | whole (parts : Parts tokens before (token :: others) after) (opens : Opens unit (token :: others))
      (meant : Meant (wholeMeans unit) fields next) : Extracts ⟨tokens,fields⟩ ⟨before ++ (others ++ after),next⟩
  | counted (parts : Parts tokens before clause after) (other : ∀ unit, ¬ Opens unit clause)
      (counts : Counts intervals unit clause) (meant : Meant (countedMeans intervals unit) fields next) :
      Extracts ⟨tokens,fields⟩ ⟨before ++ after,next⟩
  | dropped (parts : Parts tokens before clause after) (some_clause : clause ≠ []) (other : ∀ unit, ¬ Opens unit clause)
      (uncounted : ∀ intervals unit, ¬ Counts intervals unit clause) :
      Extracts ⟨tokens,fields⟩ ⟨before ++ (clause ++ after),fields⟩

theorem Meant.unique (meant : Meant meaning before one) (again : Meant meaning before two) : one = two :=
  Fields.eq_of_get (fun field => (meant.told field).trans (again.told field).symm) (meant.disabled.trans again.disabled.symm)

theorem meant_write (fields : Fields) (entries : List (Field × Entry)) : Meant (lastOf entries) fields (fields.write entries) :=
  ⟨fields.get_write_last entries,fields.disabled_write entries⟩

theorem wholeUnit_meant (known : unit ∈ units) : ∃ entries, wholeUnit unit = some entries ∧ lastOf entries = wholeMeans unit := by
  simp only [units,List.mem_cons,List.not_mem_nil,or_false] at known
  rcases known with rfl | rfl | rfl | rfl | rfl <;>
    exact ⟨_,rfl,funext fun field => by cases field <;> rfl⟩

theorem wholeUnit_other (unknown : unit ∉ units) : wholeUnit unit = none := by
  unfold wholeUnit
  split <;> first | rfl | exact absurd (by decide) unknown

theorem inIntervals_meant (intervals : List String) (known : unit ∈ ["minute","hour","day","month"]) :
    ∃ entries, inIntervals intervals unit = some entries ∧ lastOf entries = countedMeans intervals unit := by
  simp only [List.mem_cons,List.not_mem_nil,or_false] at known
  rcases known with rfl | rfl | rfl | rfl <;>
    exact ⟨_,rfl,funext fun field => by cases field <;> rfl⟩

theorem inIntervals_known (known : inIntervals intervals unit = some entries) : unit ∈ ["minute","hour","day","month"] := by
  unfold inIntervals at known
  split at known <;> first | decide | cases known

theorem inClause_iff {token : Token} : inClause token = true ↔ token.isMarker = false ∧ token ≠ every := by
  simp [inClause]

namespace Parts
variable {tokens before clause after : List Token}

theorem inside (parts : Parts tokens before clause after) : ∀ token ∈ clause, inClause token = true :=
  fun token member => inClause_iff.mpr (parts.within token member)

theorem stops (parts : Parts tokens before clause after) : ∀ token, after.head? = some token → inClause token = false := by
  intro token starts
  rw [Bool.eq_false_iff,ne_eq,inClause_iff]
  rintro ⟨unmarked,other⟩
  rcases parts.ends token starts with marked | same
  · rw [unmarked] at marked; cases marked
  · exact other same

theorem read (parts : Parts tokens before clause after) (fields : Fields) :
    Frequency.read ⟨tokens,fields⟩ = ⟨before ++ (leaves clause ++ after),fields.write (said clause)⟩ := by
  rw [parts.whole]
  exact read_first parts.first parts.inside parts.stops

theorem read_meant (parts : Parts tokens before clause after) (left : leaves clause = kept)
    (told : lastOf (said clause) = meaning) (meant : Meant meaning fields next) :
    Frequency.read ⟨tokens,fields⟩ = ⟨before ++ (kept ++ after),next⟩ := by
  have written := meant_write fields (said clause)
  rw [told] at written
  rw [parts.read,left,written.unique meant]

end Parts

theorem parts_or_absent (tokens : List Token) : every ∉ tokens ∨ ∃ before clause after, Parts tokens before clause after := by
  rcases clause_parts tokens with absent | ⟨before,clause,after,whole,first,within,ends⟩
  · exact .inl absent
  · refine .inr ⟨before,clause,after,whole,first,fun token member => inClause_iff.mp (within token member),?_⟩
    intro token starts
    have outside := ends token starts
    rw [Bool.eq_false_iff,ne_eq,inClause_iff] at outside
    cases marked : token.isMarker with
    | true => exact .inl rfl
    | false => exact .inr (Decidable.of_not_not fun other => outside ⟨marked,other⟩)

theorem clause_opened (opens : Opens unit (token :: others)) :
    leaves (token :: others) = others ∧ lastOf (said (token :: others)) = wholeMeans unit := by
  obtain ⟨listed,starts⟩ := opens
  obtain ⟨entries,known,meant⟩ := wholeUnit_meant listed
  obtain rfl : token = .word unit := Option.some.inj starts
  have unit_known : (Token.word unit).word?.bind wholeUnit = some entries := known
  simp [leaves,said,unit_known,meant]

theorem head_other (other : ∀ unit, ¬ Opens unit (token :: others)) : token.word?.bind wholeUnit = none := by
  cases token with
  | word text => exact wholeUnit_other fun listed => other text ⟨listed,rfl⟩
  | marker kind => rfl
  | blank => rfl

theorem clause_counted (other : ∀ unit, ¬ Opens unit clause) (counts : Counts intervals unit clause) :
    leaves clause = [] ∧ lastOf (said clause) = countedMeans intervals unit := by
  obtain ⟨entries,known,meant⟩ := inIntervals_meant intervals counts.countable
  have numeric : ∀ interval ∈ intervals, isNumeric interval = true :=
    fun interval member => List.all_eq_true.mpr (counts.digits interval member)
  have count := counted_of_parts counts.some_interval numeric known
  rw [← counts.spoken] at count
  cases clause with
  | nil => cases count
  | cons token others => simp [leaves,said,head_other other,count,meant]

theorem clause_dropped (some_clause : clause ≠ []) (other : ∀ unit, ¬ Opens unit clause)
    (uncounted : ∀ intervals unit, ¬ Counts intervals unit clause) : leaves clause = clause ∧ said clause = [] := by
  obtain ⟨token,others,rfl⟩ := List.exists_cons_of_ne_nil some_clause
  have count : counted (wordsOf (token :: others)) = none := by
    cases known : counted (wordsOf (token :: others)) with
    | none => rfl
    | some entries =>
      obtain ⟨intervals,unit,spoken,some_interval,numeric,entered⟩ := counted_parts known
      exact absurd ⟨spoken,inIntervals_known entered,some_interval,
        fun interval member => List.all_eq_true.mp (numeric interval member)⟩ (uncounted intervals unit)
  simp [leaves,said,head_other other,count]

theorem read_of_extracts (extracts : Extracts draft next) : read draft = next := by
  cases extracts with
  | absent silent => exact (read_absent draft silent).1
  | bare parts =>
    calc read draft = ⟨_,draft.fields⟩ := parts.read draft.fields
      _ = ⟨draft.tokens,draft.fields⟩ := by rw [parts.whole]; rfl
  | whole parts opens meant =>
    obtain ⟨left,told⟩ := clause_opened opens
    exact parts.read_meant left told meant
  | counted parts other counts meant =>
    obtain ⟨left,told⟩ := clause_counted other counts
    exact parts.read_meant left told meant
  | dropped parts some_clause other uncounted =>
    obtain ⟨left,told⟩ := clause_dropped some_clause other uncounted
    rw [parts.read,left,told]
    rfl

theorem extracts_read (draft : Draft) : Extracts draft (read draft) := by
  obtain ⟨tokens,fields⟩ := draft
  rcases parts_or_absent tokens with absent | ⟨before,clause,after,parts⟩
  · rw [(read_absent ⟨tokens,fields⟩ absent).1]
    exact .absent absent
  · cases clause with
    | nil =>
      have bare : Extracts ⟨tokens,fields⟩ ⟨tokens,fields⟩ := .bare parts
      rwa [read_of_extracts bare]
    | cons token others =>
      by_cases opened : ∃ unit, Opens unit (token :: others)
      · obtain ⟨unit,opens⟩ := opened
        have meant := meant_write fields (said (token :: others))
        rw [(clause_opened opens).2] at meant
        have whole := Extracts.whole parts opens meant
        rwa [read_of_extracts whole]
      · have other : ∀ unit, ¬ Opens unit (token :: others) := fun unit opens => opened ⟨unit,opens⟩
        by_cases counting : ∃ intervals unit, Counts intervals unit (token :: others)
        · obtain ⟨intervals,unit,counts⟩ := counting
          have meant := meant_write fields (said (token :: others))
          rw [(clause_counted other counts).2] at meant
          have counted := Extracts.counted parts other counts meant
          rwa [read_of_extracts counted]
        · have dropped : Extracts ⟨tokens,fields⟩ ⟨before ++ (token :: others ++ after),fields⟩ :=
            .dropped parts (List.cons_ne_nil token others) other fun intervals unit counts => counting ⟨intervals,unit,counts⟩
          rwa [read_of_extracts dropped]

-- The positions from one to another, if the sequence has them, and the sequence without them.
def slice? (tokens : List Token) (start stop : Nat) : Option (List Token) :=
  if start ≤ stop ∧ stop ≤ tokens.length then some ((tokens.take stop).drop start) else none
def drain? (tokens : List Token) (start stop : Nat) : Option (List Token) :=
  if start ≤ stop ∧ stop ≤ tokens.length then some (tokens.take start ++ tokens.drop stop) else none

section
variable {tokens front middle back : List Token} {start stop : Nat}

theorem slice_middle (split : tokens = front ++ (middle ++ back)) (starts : start = front.length)
    (stops : stop = front.length + middle.length) : slice? tokens start stop = some middle := by
  subst split starts stops
  unfold slice?
  rw [if_pos (by simp),← List.append_assoc,← List.length_append,List.take_left,List.drop_left]

theorem drain_middle (split : tokens = front ++ (middle ++ back)) (starts : start = front.length)
    (stops : stop = front.length + middle.length) : drain? tokens start stop = some (front ++ back) := by
  subst split starts stops
  unfold drain?
  rw [if_pos (by simp),List.take_left,← List.append_assoc,← List.length_append,List.drop_left]

end

-- The stage by positions. It has no outcome if it looks at a position, or cuts at one, that is not in the sequence.
def outcomeAt? (draft : Draft) : Option Outcome :=
  match draft.position? "every" with
  | none => some .absent
  | some start =>
    (slice? draft.tokens (start + 1) draft.tokens.length).bind fun behind =>
      let length := 1 + (behind.takeWhile inClause).length
      if length < 2 then some .bare
      else
        draft.tokens[start + 1]?.bind fun next =>
          match next.word?.bind wholeUnit with
          | some entries =>
            (drain? draft.tokens start (start + 2)).map fun tokens => .taken 2 ⟨tokens,draft.fields.write entries⟩
          | none =>
            (slice? draft.tokens (start + 1) (start + length)).bind fun clause =>
              match counted (wordsOf clause) with
              | some entries => (drain? draft.tokens start (start + length)).map fun tokens =>
                  .taken length ⟨tokens,draft.fields.write entries⟩
              | none => (drain? draft.tokens start (start + 1)).map fun tokens => .dropped ⟨tokens,draft.fields⟩

theorem position_first (first : every ∉ before) (rest : List Token) :
    (before ++ every :: rest).idxOf? every = some before.length := by
  have passed : before.findIdx? (· == every) = none := by
    refine List.findIdx?_eq_none_iff.mpr fun token member => ?_
    rw [beq_eq_false_iff_ne]
    rintro rfl
    exact first member
  unfold List.idxOf?
  rw [List.findIdx?_append,passed,List.findIdx?_cons]
  simp

theorem outcomeAt_eq (draft : Draft) : outcomeAt? draft = some (outcome draft) := by
  obtain ⟨tokens,fields⟩ := draft
  rcases parts_or_absent tokens with absent | ⟨before,clause,after,parts⟩
  · have nowhere : Draft.position? ⟨tokens,fields⟩ "every" = none := by
      refine List.findIdx?_eq_none_iff.mpr fun token member => ?_
      rw [beq_eq_false_iff_ne]
      rintro rfl
      exact absent member
    unfold outcomeAt?
    rw [nowhere,outcome_absent ⟨tokens,fields⟩ absent]
  · have found : Draft.position? ⟨tokens,fields⟩ "every" = some before.length := by
      rw [parts.whole]
      exact position_first parts.first _
    have opened : tokens = (before ++ [every]) ++ (clause ++ after) := by
      rw [parts.whole,List.append_assoc]
      rfl
    have whole : tokens = (before ++ [every]) ++ (clause ++ after ++ []) := by rw [List.append_nil,opened]
    have alone : tokens = before ++ ([every] ++ (clause ++ after)) := parts.whole
    have closed : tokens = before ++ ((every :: clause) ++ after) := parts.whole
    have behind : slice? tokens (before.length + 1) tokens.length = some (clause ++ after) :=
      slice_middle whole (by simp) (by simp only [whole,List.length_append,List.length_nil]; omega)
    have inside : slice? tokens (before.length + 1) (before.length + (1 + clause.length)) = some clause :=
      slice_middle opened (by simp) (by simp [Nat.add_assoc])
    have all : drain? tokens before.length (before.length + (1 + clause.length)) = some (before ++ after) :=
      drain_middle closed rfl (by simp [Nat.add_comm])
    have one : drain? tokens before.length (before.length + 1) = some (before ++ (clause ++ after)) :=
      drain_middle alone rfl rfl
    have taken := (split_clause parts.inside parts.stops).1
    have told : outcome ⟨before ++ every :: (clause ++ after),fields⟩ = _ :=
      outcome_first parts.first parts.inside parts.stops
    rw [← parts.whole] at told
    unfold outcomeAt?
    rw [found,told]
    dsimp only
    rw [behind,Option.bind_some,taken]
    cases clause with
    | nil => rfl
    | cons head others =>
      have next : tokens[before.length + 1]? = some head := by
        rw [opened]
        simp
      have paired : tokens = before ++ ([every,head] ++ (others ++ after)) := parts.whole
      have two : drain? tokens before.length (before.length + 2) = some (before ++ (others ++ after)) :=
        drain_middle paired rfl rfl
      have long : ¬ 1 + (head :: others).length < 2 := by
        rw [List.length_cons]
        omega
      have width : 1 + (head :: others).length = others.length + 2 := by
        rw [List.length_cons]
        omega
      rw [if_neg long,next,inside,two,all,one,width]
      cases unit : head.word?.bind wholeUnit with
      | some entries => simp [unit]
      | none =>
        cases count : counted (wordsOf (head :: others)) with
        | some entries => simp [unit,count]
        | none => simp [unit,count]

-- Reading the first `every` does just one of these things, and by positions it does the same, all of them in the
-- sequence.
theorem every_extracted (draft : Draft) : outcomeAt? draft = some (outcome draft) ∧
    ∀ next, Extracts draft next ↔ read draft = next := by
  refine ⟨outcomeAt_eq draft,fun next => ⟨read_of_extracts,?_⟩⟩
  rintro rfl
  exact extracts_read draft

end Clause.Frequency
end Recurrence
