import Recurrence.Proofs.FieldEntries

namespace Recurrence.Clause.Parity

variable {tokens : List Token} {field : Field} {entry : Entry}

-- A parity at a position with its unit at the next one, and what the two say.
def PairAt (tokens : List Token) (i : Nat) (said : Field × Entry) : Prop :=
  ∃ parity unit, ((parity,unit),said) ∈ meanings ∧ tokens[i]? = some (.word parity) ∧ tokens[i + 1]? = some (.word unit)

-- The scan in place: a position is looked at as it is by then, and a pair is blanked at once.
def saidAt (tokens : List Token) (i : Nat) : Option (Field × Entry) :=
  tokens[i]?.bind fun first => tokens[i + 1]?.bind fun second => meaning? first second

def visit (draft : Draft) (i : Nat) : Draft :=
  match saidAt draft.tokens i with
  | some entry => ⟨(draft.tokens.set i .blank).set (i + 1) .blank,draft.fields.set entry.1 entry.2⟩
  | none => draft

def scan (draft : Draft) : Draft := (List.range (draft.tokens.length - 1)).foldl visit draft

theorem visit_front (done : List Token) (first second : Token) (rest : List Token) (fields : Fields) :
    visit ⟨done ++ first :: second :: rest,fields⟩ done.length =
      match meaning? first second with
      | some entry => ⟨done ++ .blank :: .blank :: rest,fields.set entry.1 entry.2⟩
      | none => ⟨done ++ first :: second :: rest,fields⟩ := by
  have said : saidAt (done ++ first :: second :: rest) done.length = meaning? first second := by simp [saidAt]
  have blanked : ((done ++ first :: second :: rest).set done.length .blank).set (done.length + 1) .blank =
      done ++ .blank :: .blank :: rest := by simp
  unfold visit
  rw [said,blanked]

-- What has been passed stays as it is, and what is ahead is still as it was, but for the second blank of a pair,
-- which makes no pair with its neighbour.
theorem visit_rest (done rest : List Token) (fields : Fields) :
    (List.range' done.length (rest.length - 1)).foldl visit ⟨done ++ rest,fields⟩ =
      ⟨done ++ used rest,fields.write (entries rest)⟩ := by
  induction rest using pair_induction generalizing done fields with
  | nil => rfl
  | single token => rfl
  | pair first second rest entry known ih =>
    have step := visit_front done first second rest fields
    rw [known] at step
    have later := ih (done ++ [.blank,.blank]) (fields.set entry.1 entry.2)
    simp only [List.length_append,List.length_cons,List.length_nil,List.append_assoc,List.cons_append,
      List.nil_append] at later
    rw [used_pair known,entries_pair known]
    simp only [List.length_cons,Nat.add_sub_cancel,List.range'_succ,List.foldl_cons,step]
    cases rest with
    | nil => exact later
    | cons third others =>
      have idle := visit_front (done ++ [.blank]) .blank third others (fields.set entry.1 entry.2)
      simp only [meaning?,List.length_append,List.length_cons,List.length_nil,List.append_assoc,List.cons_append,
        List.nil_append] at idle
      simp only [List.length_cons,List.range'_succ,List.foldl_cons,idle]
      exact later
  | apart first second rest unknown ih =>
    have step := visit_front done first second rest fields
    rw [unknown] at step
    have later := ih (done ++ [first]) fields
    simp only [List.length_append,List.length_cons,List.length_nil,List.append_assoc,List.cons_append,
      List.nil_append,Nat.add_sub_cancel] at later
    rw [used_apart unknown,entries_apart unknown]
    simp only [List.length_cons,Nat.add_sub_cancel,List.range'_succ,List.foldl_cons,step]
    exact later

theorem scan_eq (draft : Draft) : scan draft = read draft := by
  unfold scan
  rw [List.range_eq_range']
  exact visit_rest [] draft.tokens draft.fields

namespace PairAt

theorem shifted {first : Token} {i : Nat} {said : Field × Entry} :
    PairAt (first :: tokens) (i + 1) said ↔ PairAt tokens i said := Iff.rfl

theorem front {first second : Token} {said : Field × Entry} :
    PairAt (first :: second :: tokens) 0 said ↔ meaning? first second = some said := by
  constructor
  · intro ⟨parity,unit,listed,starts,ends⟩
    cases starts
    cases ends
    exact meaning_listed listed
  · intro known
    obtain ⟨parity,unit,rfl,rfl,listed⟩ := meaning_mem known
    exact ⟨parity,unit,listed,rfl,rfl⟩

theorem no_next {i : Nat} {said other : Field × Entry} (pair : PairAt tokens i said) : ¬ PairAt tokens (i + 1) other := by
  intro next
  obtain ⟨_,unit,listed,_,ends⟩ := pair
  obtain ⟨parity,_,known,starts,_⟩ := next
  have same : unit = parity := by simpa [ends] using starts
  exact unit_no_parity _ listed _ known same

theorem ordered {i j : Nat} {said other : Field × Entry} (pair : PairAt tokens i said) (later : PairAt tokens j other)
    (before : i < j) : i + 1 < j := by
  apply Nat.lt_of_le_of_ne before
  rintro rfl
  exact pair.no_next later

theorem absent_single {token : Token} {i : Nat} {said : Field × Entry} : ¬ PairAt [token] i said := by
  intro ⟨_,_,_,_,ends⟩
  simp at ends

theorem absent_nil {i : Nat} {said : Field × Entry} : ¬ PairAt [] i said := by
  intro ⟨_,_,_,starts,_⟩
  simp at starts

theorem blanked {i : Nat} {said : Field × Entry} (pair : PairAt tokens i said) :
    (used tokens)[i]? = some .blank ∧ (used tokens)[i + 1]? = some .blank := by
  induction tokens using pair_induction generalizing i with
  | nil => exact absurd pair absent_nil
  | single token => exact absurd pair absent_single
  | pair first second rest entry known ih =>
    rw [used_pair known]
    match i with
    | 0 => exact ⟨rfl,rfl⟩
    | 1 => exact absurd pair (no_next (front.mpr known))
    | i + 2 => exact ih (shifted.mp (shifted.mp pair))
  | apart first second rest unknown ih =>
    rw [used_apart unknown]
    cases i with
    | zero =>
      have known := front.mp pair
      rw [unknown] at known
      cases known
    | succ i => exact ih (shifted.mp pair)

end PairAt

theorem used_kept {j : Nat} (outside : ∀ i said, PairAt tokens i said → j ≠ i ∧ j ≠ i + 1) :
    (used tokens)[j]? = tokens[j]? := by
  induction tokens using pair_induction generalizing j with
  | nil => rfl
  | single token => rfl
  | pair first second rest entry known ih =>
    have front := outside 0 entry (PairAt.front.mpr known)
    rw [used_pair known]
    match j with
    | 0 => exact absurd rfl front.1
    | 1 => exact absurd rfl front.2
    | j + 2 =>
      apply ih
      intro i said pair
      have apart := outside (i + 2) said pair
      omega
  | apart first second rest unknown ih =>
    rw [used_apart unknown]
    cases j with
    | zero => rfl
    | succ j =>
      apply ih
      intro i said pair
      have apart := outside (i + 1) said pair
      omega

theorem used_length (tokens : List Token) : (used tokens).length = tokens.length := by
  induction tokens using pair_induction with
  | nil => rfl
  | single token => rfl
  | pair first second rest entry known ih => simp [used_pair known,ih]
  | apart first second rest unknown ih =>
    rw [used_apart unknown,List.length_cons,ih]
    rfl

theorem used_unpaired (tokens : List Token) (i : Nat) (said : Field × Entry) : ¬ PairAt (used tokens) i said := by
  intro ⟨parity,unit,listed,starts,ends⟩
  -- No word is put in, so a pair of the outcome would be one of what was there before.
  have shown {j : Nat} {word : String} (spoken : (used tokens)[j]? = some (.word word)) : tokens[j]? = some (.word word) := by
    rw [← spoken]
    apply Eq.symm
    apply used_kept
    intro i said pair
    obtain ⟨first,second⟩ := pair.blanked
    constructor
    · rintro rfl
      simp [first] at spoken
    · rintro rfl
      simp [second] at spoken
  have pair : PairAt tokens i said := ⟨parity,unit,listed,shown starts,shown ends⟩
  simp [pair.blanked.1] at starts

theorem pair_of_entry {said : Field × Entry} (member : said ∈ entries tokens) : ∃ i, PairAt tokens i said := by
  obtain ⟨parity,unit,listed,before,after,split⟩ := (mem_entries tokens).mp member
  refine ⟨before.length,parity,unit,listed,?_,?_⟩
  · simp [← split]
  · simp [← split]

theorem entries_unsaid (unsaid : ∀ i entry, ¬ PairAt tokens i (field,entry)) : lastOf (entries tokens) field = none := by
  rw [lastOf_eq_none]
  intro ⟨other,entry⟩ member same
  obtain ⟨i,pair⟩ := pair_of_entry member
  exact unsaid i entry (same ▸ pair)

theorem entries_last {i : Nat} (pair : PairAt tokens i (field,entry))
    (last : ∀ j other, PairAt tokens j (field,other) → j ≤ i) : lastOf (entries tokens) field = some entry := by
  induction tokens using pair_induction generalizing i with
  | nil => exact absurd pair PairAt.absent_nil
  | single token => exact absurd pair PairAt.absent_single
  | pair first second rest said known ih =>
    rw [entries_pair known,← List.singleton_append,lastOf_append]
    match i with
    | 0 =>
      have same : said = (field,entry) := Option.some.inj (known.symm.trans (PairAt.front.mp pair))
      have none_later : lastOf (entries rest) field = none := by
        apply entries_unsaid
        intro j other later
        exact absurd (last (j + 2) other later) (by omega)
      rw [none_later,same,lastOf_single]
      simp
    | 1 => exact absurd pair (PairAt.no_next (PairAt.front.mpr known))
    | i + 2 =>
      have later := ih (PairAt.shifted.mp (PairAt.shifted.mp pair)) fun j other found => by
        have bound := last (j + 2) other found
        omega
      rw [later,Option.some_or]
  | apart first second rest unknown ih =>
    rw [entries_apart unknown]
    cases i with
    | zero =>
      have known := PairAt.front.mp pair
      rw [unknown] at known
      cases known
    | succ i =>
      apply ih (PairAt.shifted.mp pair)
      intro j other found
      have bound := last (j + 1) other found
      omega

theorem some_last (tokens : List Token) (field : Field) : (∀ i entry, ¬ PairAt tokens i (field,entry)) ∨
    ∃ i entry, PairAt tokens i (field,entry) ∧ ∀ j other, PairAt tokens j (field,other) → j ≤ i := by
  induction tokens with
  | nil => exact .inl fun i entry => PairAt.absent_nil
  | cons token rest ih =>
    rcases ih with none_later | ⟨i,entry,pair,last⟩
    · by_cases first : ∃ entry, PairAt (token :: rest) 0 (field,entry)
      · obtain ⟨entry,pair⟩ := first
        refine .inr ⟨0,entry,pair,?_⟩
        intro j other found
        cases j with
        | zero => exact Nat.le_refl 0
        | succ j => exact absurd found (none_later j other)
      · apply Or.inl
        intro i entry pair
        cases i with
        | zero => exact first ⟨entry,pair⟩
        | succ i => exact none_later i entry pair
    · refine .inr ⟨i + 1,entry,pair,?_⟩
      intro j other found
      cases j with
      | zero => exact Nat.zero_le _
      | succ j => exact Nat.succ_le_succ (last j other found)

-- All pairs of a draft rewritten at once, told by the draft as it was.
structure Rewritten (before after : Draft) : Prop where
  length : after.tokens.length = before.tokens.length
  blanked : ∀ i said, PairAt before.tokens i said →
    after.tokens[i]? = some .blank ∧ after.tokens[i + 1]? = some .blank
  kept : ∀ j, (∀ i said, PairAt before.tokens i said → j ≠ i ∧ j ≠ i + 1) → after.tokens[j]? = before.tokens[j]?
  last : ∀ field i entry, PairAt before.tokens i (field,entry) →
    (∀ j other, PairAt before.tokens j (field,other) → j ≤ i) → after.fields.get field = some entry
  unsaid : ∀ field, (∀ i entry, ¬ PairAt before.tokens i (field,entry)) →
    after.fields.get field = before.fields.get field
  disabled : after.fields.disabled = before.fields.disabled

theorem read_rewritten (draft : Draft) : Rewritten draft (read draft) where
  length := used_length draft.tokens
  blanked _ _ pair := pair.blanked
  kept _ outside := used_kept outside
  last field i entry pair last := by
    rw [read,Fields.get_write_last,entries_last pair last,Option.some_or]
  unsaid field unsaid := by
    rw [read,Fields.get_write_last,entries_unsaid unsaid,Option.none_or]
  disabled := Fields.disabled_write _ _

theorem Rewritten.unique {before one two : Draft} (first : Rewritten before one) (second : Rewritten before two) :
    one = two := by
  have tokens : one.tokens = two.tokens := by
    apply List.ext_getElem?
    intro j
    by_cases covered : ∃ i said, PairAt before.tokens i said ∧ (j = i ∨ j = i + 1)
    · obtain ⟨i,said,pair,rfl | rfl⟩ := covered
      · rw [(first.blanked _ _ pair).1,(second.blanked _ _ pair).1]
      · rw [(first.blanked _ _ pair).2,(second.blanked _ _ pair).2]
    · have outside : ∀ i said, PairAt before.tokens i said → j ≠ i ∧ j ≠ i + 1 := by
        intro i said pair
        simpa using fun same => covered ⟨i,said,pair,same⟩
      rw [first.kept j outside,second.kept j outside]
  have fields : one.fields = two.fields := by
    refine Fields.eq_of_get (fun field => ?_) (first.disabled.trans second.disabled.symm)
    rcases some_last before.tokens field with unsaid | ⟨i,entry,pair,last⟩
    · rw [first.unsaid field unsaid,second.unsaid field unsaid]
    · rw [first.last field i entry pair last,second.last field i entry pair last]
  cases one
  cases two
  cases tokens
  cases fields
  rfl

-- The first number of each parity, and each unit with its field and a bound for the numbers of it.
def parities : List (String × Nat) := [("odd",1),("even",2)]
def pairUnits : List (String × Field × Nat) := [("minute",.minute,60),("day",.dayOfMonth,31),("month",.month,12)]

-- Every other number from the first one on, as far as the bound.
def everyOther (first bound : Nat) : Entry := .alternate first (bound - (bound - first) % 2)

theorem meanings_paired : ∀ meaning ∈ meanings, ∃ parity ∈ parities, ∃ unit ∈ pairUnits,
    meaning = ((parity.1,unit.1),(unit.2.1,everyOther parity.2 unit.2.2)) := by decide

theorem paired_meaning : ∀ parity ∈ parities, ∀ unit ∈ pairUnits,
    ((parity.1,unit.1),(unit.2.1,everyOther parity.2 unit.2.2)) ∈ meanings := by decide

theorem pair_words (tokens : List Token) (i : Nat) (field : Field) (entry : Entry) : PairAt tokens i (field,entry) ↔
    ∃ parity first unit bound, (parity,first) ∈ parities ∧ (unit,field,bound) ∈ pairUnits ∧
      entry = everyOther first bound ∧ tokens[i]? = some (.word parity) ∧ tokens[i + 1]? = some (.word unit) := by
  constructor
  · intro ⟨_,_,listed,starts,ends⟩
    obtain ⟨⟨parity,first⟩,known,⟨unit,_,bound⟩,about,same⟩ := meanings_paired _ listed
    cases same
    exact ⟨parity,first,unit,bound,known,about,rfl,starts,ends⟩
  · intro ⟨parity,first,unit,bound,known,about,same,starts,ends⟩
    exact ⟨parity,unit,same ▸ paired_meaning _ known _ about,starts,ends⟩

theorem read_other (draft : Draft) (other : ∀ unit ∈ pairUnits, unit.2.1 ≠ field) :
    (read draft).fields.get field = draft.fields.get field := by
  apply (read_rewritten draft).unsaid
  intro i entry pair
  obtain ⟨_,_,unit,bound,_,about,_⟩ := (pair_words _ i field entry).mp pair
  exact other _ about rfl

-- The scan in place, which looks at what it has just written, does what rewriting all pairs at once does: no two
-- of them share a position, and there is none in the outcome. A pair says every other number of its unit, from the
-- first odd or the first even one.
theorem pairs_at_once (draft : Draft) :
    scan draft = read draft ∧ (∀ next, Rewritten draft next ↔ read draft = next) ∧
    (∀ i field entry, PairAt draft.tokens i (field,entry) ↔ ∃ parity first unit bound,
      (parity,first) ∈ parities ∧ (unit,field,bound) ∈ pairUnits ∧ entry = everyOther first bound ∧
        draft.tokens[i]? = some (.word parity) ∧ draft.tokens[i + 1]? = some (.word unit)) ∧
    (∀ i j said other, PairAt draft.tokens i said → PairAt draft.tokens j other → i < j → i + 1 < j) ∧
    (∀ i said, ¬ PairAt (read draft).tokens i said) ∧
    (read draft).fields.get .hour = draft.fields.get .hour ∧
    (read draft).fields.get .dayOfWeek = draft.fields.get .dayOfWeek ∧
    read (read draft) = read draft := by
  have rewritten := read_rewritten draft
  refine ⟨scan_eq draft,fun next => ?_,pair_words draft.tokens,fun i j said other => PairAt.ordered,
    used_unpaired draft.tokens,read_other draft (by decide),read_other draft (by decide),?_⟩
  · constructor
    · exact fun other => rewritten.unique other
    · rintro rfl
      exact rewritten
  · apply read_unsaid
    apply List.eq_nil_iff_forall_not_mem.mpr
    intro said member
    obtain ⟨i,pair⟩ := pair_of_entry member
    exact used_unpaired draft.tokens i said pair

-- The first `even` makes no pair, and of two pairs for the days the later one is written.
example : read ⟨[.word "even",.word "odd",.word "day",.word "even",.word "day",.word "day"],{}⟩ =
    ⟨[.word "even",.blank,.blank,.blank,.blank,.word "day"],{dayOfMonth := some (.alternate 2 30)}⟩ := by decide

end Recurrence.Clause.Parity
