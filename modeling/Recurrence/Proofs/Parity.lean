import Recurrence.Clause.Parity

namespace Recurrence.Clause.Parity

theorem entries_pair (known : meaning? first second = some entry) (rest : List Token) :
    entries (first :: second :: rest) = entry :: entries rest := by simp [entries,known]

theorem entries_apart (unknown : meaning? first second = none) (rest : List Token) :
    entries (first :: second :: rest) = entries (second :: rest) := by simp [entries,unknown]

theorem used_pair (known : meaning? first second = some entry) (rest : List Token) :
    used (first :: second :: rest) = .blank :: .blank :: used rest := by simp [used,known]

theorem used_apart (unknown : meaning? first second = none) (rest : List Token) :
    used (first :: second :: rest) = first :: used (second :: rest) := by simp [used,unknown]

-- A sequence as it is read: a pair is taken off its front, or a token that makes none with its neighbour.
theorem pair_induction {motive : List Token → Prop} (nil : motive []) (single : ∀ token, motive [token])
    (pair : ∀ first second rest entry, meaning? first second = some entry → motive rest → motive (first :: second :: rest))
    (apart : ∀ first second rest, meaning? first second = none → motive (second :: rest) → motive (first :: second :: rest))
    (tokens : List Token) : motive tokens := by
  induction tokens using entries.induct with
  | case1 first second rest entry known ih => exact pair first second rest entry known ih
  | case2 first second rest unknown ih => exact apart first second rest unknown ih
  | case3 tokens short =>
    match tokens,short with
    | [],_ => exact nil
    | [token],_ => exact single token
    | first :: second :: rest,short => exact absurd rfl (short first second rest)

theorem meanings_lookup : ∀ meaning ∈ meanings, meanings.lookup meaning.1 = some meaning.2 := by decide

theorem unit_no_parity : ∀ meaning ∈ meanings, ∀ other ∈ meanings, meaning.1.2 ≠ other.1.1 := by decide

theorem meaning_mem (known : meaning? first second = some entry) : ∃ parity unit,
    first = .word parity ∧ second = .word unit ∧ ((parity,unit),entry) ∈ meanings := by
  unfold meaning? at known
  split at known
  · rename_i parity unit
    obtain ⟨before,after,split,_⟩ := List.lookup_eq_some_iff.mp known
    exact ⟨parity,unit,rfl,rfl,by rw [split]; simp⟩
  · cases known

theorem meaning_listed (listed : ((parity,unit),entry) ∈ meanings) : meaning? (.word parity) (.word unit) = some entry :=
  meanings_lookup _ listed

theorem meaning_words (known : meaning? first second = some entry) :
    ∃ parity unit, first = .word parity ∧ second = .word unit ∧
      (parity = "odd" ∨ parity = "even") ∧ (unit = "minute" ∨ unit = "day" ∨ unit = "month") := by
  obtain ⟨parity,unit,rfl,rfl,member⟩ := meaning_mem known
  refine ⟨parity,unit,rfl,rfl,?_⟩
  simp only [meanings,List.mem_cons,List.not_mem_nil,or_false,Prod.mk.injEq] at member
  rcases member with h | h | h | h | h | h <;> simp [h.1.1,h.1.2]

theorem mem_entries (tokens : List Token) : entry ∈ entries tokens ↔
    ∃ parity unit, ((parity,unit),entry) ∈ meanings ∧ [.word parity,.word unit] <:+: tokens := by
  induction tokens using pair_induction with
  | nil => simp [entries]
  | single token =>
    refine ⟨fun member => (by cases member),?_⟩
    intro ⟨parity,unit,_,inside⟩
    simpa using inside.length_le
  | pair first second rest found known ih =>
    obtain ⟨parity,unit,rfl,rfl,listed⟩ := meaning_mem known
    simp only [entries_pair known,List.mem_cons,ih]
    constructor
    · rintro (rfl | ⟨parity',unit',member,inside⟩)
      · exact ⟨parity,unit,listed,⟨[],rest,rfl⟩⟩
      · exact ⟨parity',unit',member,inside.trans ⟨[.word parity,.word unit],[],by simp⟩⟩
    · intro ⟨parity',unit',member,inside⟩
      rcases List.infix_cons_iff.mp inside with starts | inside
      · simp only [List.cons_prefix_cons,Token.word.injEq,List.nil_prefix,and_true] at starts
        obtain ⟨rfl,rfl⟩ := starts
        exact .inl (Option.some.inj ((meanings_lookup _ member).symm.trans (meanings_lookup _ listed)))
      · rcases List.infix_cons_iff.mp inside with starts | inside
        · simp only [List.cons_prefix_cons,Token.word.injEq] at starts
          exact absurd starts.1.symm (unit_no_parity _ listed _ member)
        · exact .inr ⟨parity',unit',member,inside⟩
  | apart first second rest unknown ih =>
    simp only [entries_apart unknown,ih]
    constructor
    · intro ⟨parity,unit,member,inside⟩
      exact ⟨parity,unit,member,inside.trans (List.suffix_cons first _).isInfix⟩
    · intro ⟨parity,unit,member,inside⟩
      rcases List.infix_cons_iff.mp inside with starts | inside
      · simp only [List.cons_prefix_cons,List.nil_prefix,and_true] at starts
        obtain ⟨rfl,rfl⟩ := starts
        simp [meaning_listed member] at unknown
      · exact ⟨parity,unit,member,inside⟩

theorem says_month (tokens : List Token) : (∃ entry ∈ entries tokens, entry.1 = .month) ↔
    ∃ parity ∈ ["odd","even"], [.word parity,.word "month"] <:+: tokens := by
  simp only [mem_entries]
  constructor
  · intro ⟨entry,⟨parity,unit,member,inside⟩,month⟩
    have table : ∀ meaning ∈ meanings, meaning.2.1 = .month → meaning.1.1 ∈ ["odd","even"] ∧ meaning.1.2 = "month" := by
      decide
    obtain ⟨known,rfl⟩ := table _ member month
    exact ⟨parity,known,inside⟩
  · intro ⟨parity,known,inside⟩
    have table : ∀ parity ∈ ["odd","even"], ∃ meaning ∈ meanings, meaning.1 = (parity,"month") ∧ meaning.2.1 = .month := by
      decide
    obtain ⟨meaning,member,pair,month⟩ := table parity known
    exact ⟨meaning.2,⟨parity,"month",by rw [← pair]; exact member,inside⟩,month⟩

theorem silent_on_weekdays (tokens : List Token) : ∀ entry ∈ entries tokens, entry.1 ≠ .dayOfWeek := by
  have table : ∀ meaning ∈ meanings, meaning.2.1 ≠ .dayOfWeek := by decide
  intro entry member
  obtain ⟨parity,unit,listed,_⟩ := (mem_entries tokens).mp member
  exact table _ listed

theorem used_unsaid (unsaid : entries tokens = []) : used tokens = tokens := by
  induction tokens using pair_induction with
  | nil => rfl
  | single token => rfl
  | pair first second rest entry known ih => cases (entries_pair known rest).symm.trans unsaid
  | apart first second rest unknown ih => rw [used_apart unknown,ih ((entries_apart unknown rest).symm.trans unsaid)]

theorem read_unsaid {draft : Draft} (unsaid : entries draft.tokens = []) : read draft = draft := by
  unfold read
  rw [used_unsaid unsaid,unsaid]
  rfl

theorem entries_stop (stop : ∀ token, meaning? token next = none) (tokens rest : List Token) :
    entries (tokens ++ next :: rest) = entries tokens ++ entries (next :: rest) := by
  induction tokens using pair_induction with
  | nil => rfl
  | single token => exact entries_apart (stop token) rest
  | pair first second others entry known ih =>
    simp only [List.cons_append,entries_pair known,ih]
  | apart first second others unknown ih =>
    simp only [List.cons_append,entries_apart unknown] at ih ⊢
    exact ih

theorem used_stop (stop : ∀ token, meaning? token next = none) (tokens rest : List Token) :
    used (tokens ++ next :: rest) = used tokens ++ used (next :: rest) := by
  induction tokens using pair_induction with
  | nil => rfl
  | single token => exact used_apart (stop token) rest
  | pair first second others entry known ih =>
    simp only [List.cons_append,used_pair known,ih]
  | apart first second others unknown ih =>
    simp only [List.cons_append,used_apart unknown] at ih ⊢
    rw [ih]

theorem used_start (start : ∀ token, meaning? first token = none) (rest : List Token) :
    used (first :: rest) = first :: used rest := by
  cases rest with
  | nil => rfl
  | cons second others => exact used_apart (start second) others

theorem meaning_marker (kind : Marker) (token : Token) : meaning? token (.marker kind) = none := by cases token <;> rfl

end Recurrence.Clause.Parity
