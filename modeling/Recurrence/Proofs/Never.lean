import Recurrence.Proofs.Conservation

namespace Recurrence

namespace Phrase

-- None of the names for frequencies and holidays comes near the word `never`: none is part of it, and
-- no space in them, or beside them, is followed by its first letter or preceded by its last.
theorem never_avoided : ∀ entry ∈ frequencies ++ holidays,
    Avoids entry.1.toList "never".toList ∧ entry.1.toList ≠ [] := by
  have table : ∀ entry ∈ frequencies ++ holidays,
      (¬ entry.1.toList <:+: "never".toList ∧ entry.1.toList.head? ≠ some ' ' ∧
        entry.1.toList.getLast? ≠ some ' ' ∧ ¬ [' ','n'] <:+: entry.1.toList ∧
        ¬ ['r',' '] <:+: entry.1.toList) ∧ entry.1.toList ≠ [] := by decide +kernel
  intro entry member
  obtain ⟨⟨outside,starts,ends,before,after⟩,some_pattern⟩ := table entry member
  refine ⟨⟨outside,starts,ends,?_,?_⟩,some_pattern⟩
  · intro c first
    cases first
    exact before
  · intro c last
    cases last
    exact after

theorem never_lexed (left right : String) : Clause.Never.never ∈ lex (left ++ " never " ++ right) := by
  have spelled : (left ++ " never " ++ right).toList =
      left.toList ++ [' '] ++ "never".toList ++ ' ' :: right.toList := by
    simp [String.toList_append]
  exact lex_around (by decide) (List.all_eq_true.mp (by decide)) never_avoided spelled

end Phrase

namespace Clause.Never

theorem read_disables (member : never ∈ draft.tokens) :
    (read draft).fields.disabled = true ∧ "never" ∉ (read draft).words := by
  unfold read
  rw [if_pos (List.contains_iff_mem.mpr member)]
  refine ⟨rfl,?_⟩
  intro left
  have inside := (List.mem_filter.mp (mem_wordsOf.mp left)).2
  simp [never] at inside

theorem read_silent (absent : never ∉ draft.tokens) : read draft = draft := by
  unfold read
  rw [if_neg fun found => absent (List.contains_iff_mem.mp found)]

end Clause.Never

theorem runAll_never (zone : Offset) (draft : Draft) (member : Clause.Never.never ∈ draft.tokens)
    (sound : SoundWords draft.words) :
    (Stage.runAll zone Stage.inOrder draft).fields.disabled = true ∧
      "never" ∉ (Stage.runAll zone Stage.inOrder draft).words := by
  have reached : Kept (· != "never") draft.words
      (Stage.runAll zone [.markers,.frequency,.calendar,.parity] draft).words := by
    refine runAll_kept zone _ draft sound ?_
    intro stage among word used
    have other : stage.uses "never" = false := by
      simp only [List.mem_cons,List.not_mem_nil,or_false] at among
      rcases among with rfl | rfl | rfl | rfl <;> decide
    rw [bne_iff_ne]
    rintro rfl
    rw [other] at used
    cases used
  have split : Stage.runAll zone Stage.inOrder draft = Clause.Residual.read zone (Clause.Never.read
      (Stage.runAll zone [.markers,.frequency,.calendar,.parity] draft)) := rfl
  rw [split]
  generalize Stage.runAll zone [.markers,.frequency,.calendar,.parity] draft = late at reached
  have found := mem_wordsOf.mp (reached.mem (mem_wordsOf.mpr member) (by decide))
  obtain ⟨disabled,absent⟩ := Clause.Never.read_disables found
  have late_sound := (sound.sublist reached.sublist).sublist (never_kept late).sublist
  refine ⟨by rw [Clause.Residual.read_disabled,disabled],?_⟩
  exact fun left => absent ((residual_kept zone _ late_sound).sublist.subset left)

theorem Clause.Frequency.read_disabled (draft : Draft) : (read draft).fields.disabled = draft.fields.disabled := by
  rw [read_said,Fields.disabled_write]

theorem stage_disabled (zone : Offset) (stage : Stage) (draft : Draft)
    (disabled : (stage.run zone draft).fields.disabled = true) :
    draft.fields.disabled = true ∨ Clause.Never.never ∈ draft.tokens := by
  cases stage with
  | markers => exact .inl disabled
  | frequency => exact .inl ((Clause.Frequency.read_disabled draft).symm.trans disabled)
  | calendar => exact .inl ((Fields.disabled_write _ _).symm.trans disabled)
  | parity => exact .inl ((Fields.disabled_write _ _).symm.trans disabled)
  | never =>
    by_cases member : Clause.Never.never ∈ draft.tokens
    · exact .inr member
    · have same : Stage.never.run zone draft = draft := Clause.Never.read_silent member
      rw [same] at disabled
      exact .inl disabled
  | residual => exact .inl ((Clause.Residual.read_disabled zone draft).symm.trans disabled)

theorem runAll_disabled (zone : Offset) (stages : List Stage) (draft : Draft) (sound : SoundWords draft.words)
    (disabled : (Stage.runAll zone stages draft).fields.disabled = true) :
    draft.fields.disabled = true ∨ Clause.Never.never ∈ draft.tokens := by
  induction stages generalizing draft with
  | nil => exact .inl disabled
  | cons stage rest ih =>
    have kept := (stage_kept zone stage draft sound).sublist
    rcases ih (stage.run zone draft) (sound.sublist kept) disabled with earlier | member
    · exact stage_disabled zone stage draft earlier
    · exact .inr (mem_wordsOf.mp (kept.subset (mem_wordsOf.mpr member)))

theorem schedule_disabled {draft : Draft} (disabled : draft.fields.disabled = true) :
    draft.schedule = .never draft.unparsed := by
  unfold Draft.schedule
  rw [if_pos disabled]

-- Whatever is said before and after it, the word cancels the schedule, and is itself understood.
theorem never_final (zone : Offset) (before after : String) :
    (compile zone (before ++ " never " ++ after)).expression = "0 0 31 2 0" ∧
      "never" ∉ (compile zone (before ++ " never " ++ after)).leftover := by
  have member := Phrase.never_lexed before after
  have sound := Phrase.lex_sound (before ++ " never " ++ after)
  unfold compile compileTokens
  generalize Phrase.lex (before ++ " never " ++ after) = tokens at member sound ⊢
  obtain ⟨disabled,absent⟩ := runAll_never zone ⟨tokens,{}⟩ member sound
  have kept := runAll_kept zone Stage.inOrder ⟨tokens,{}⟩ sound fun stage _ => uses_recognized stage
  refine ⟨?_,by rwa [Draft.schedule_leftover _ (sound.sublist kept.sublist)]⟩
  rw [schedule_disabled disabled]
  rfl

end Recurrence
