import Recurrence.Proofs.FieldGrammar

namespace Recurrence

-- A stage that is run, and the tokens that it meets.
structure Visit where
  stage : Stage
  tokens : List Token
deriving DecidableEq, Repr

namespace Stage

-- The fields of which a stage can say something.
def frame : Stage → List Field
  | .markers => []
  | .frequency => Field.all
  | .calendar => [.month,.dayOfWeek]
  | .parity => [.minute,.dayOfMonth,.month]
  | .never => []
  | .residual => [.hour,.minute,.dayOfMonth]

end Stage

namespace Visit

-- What the stage says, in the order in which it is written.
def writes (zone : Offset) : Visit → List (Field × Entry)
  | ⟨.markers,_⟩ => []
  | ⟨.frequency,tokens⟩ => Clause.Frequency.said (Clause.Frequency.firstClause tokens)
  | ⟨.calendar,tokens⟩ => Clause.Calendar.entries tokens
  | ⟨.parity,tokens⟩ => Clause.Parity.entries tokens
  | ⟨.never,_⟩ => []
  | ⟨.residual,tokens⟩ => (Clause.Residual.segments tokens).reverse.flatMap fun segment =>
      Clause.Residual.told (Clause.Residual.reading zone segment)

-- The one stage that disables a draft is the one that looks for the word.
def Cancels (visit : Visit) : Prop := visit.stage = .never ∧ Clause.Never.never ∈ visit.tokens

instance : DecidablePred Cancels :=
  fun visit => inferInstanceAs (Decidable (visit.stage = .never ∧ Clause.Never.never ∈ visit.tokens))

theorem writes_framed (zone : Offset) (visit : Visit) : ∀ entry ∈ visit.writes zone, entry.1 ∈ visit.stage.frame := by
  intro entry member
  obtain ⟨stage,tokens⟩ := visit
  cases stage with
  | markers => cases member
  | frequency => exact Field.mem_all entry.1
  | calendar =>
    obtain ⟨kind,known⟩ := Clause.Calendar.entries_kind member
    rw [known]
    cases kind <;> simp [Stage.frame,Clause.Calendar.Kind.field]
  | parity =>
    have table : ∀ meaning ∈ Clause.Parity.meanings, meaning.2.1 ∈ Stage.frame .parity := by decide
    obtain ⟨parity,unit,listed,_⟩ := (Clause.Parity.mem_entries tokens).mp member
    exact table _ listed
  | never => cases member
  | residual =>
    obtain ⟨segment,_,spoken⟩ := List.mem_flatMap.mp member
    exact (Clause.Residual.told_clock _ spoken).1

end Visit

-- The stages of a run, each with the tokens that are left to it.
def Stage.visits (zone : Offset) : List Stage → Draft → List Visit
  | [],_ => []
  | stage :: rest,draft => ⟨stage,draft.tokens⟩ :: visits zone rest (stage.run zone draft)

def Step.visits (zone : Offset) : List Step → Draft → List Visit
  | [],_ => []
  | .stages chain :: rest,draft => Stage.visits zone chain draft ++ visits zone rest (Stage.runAll zone chain draft)
  | .push tokens :: rest,draft => visits zone rest ((Step.push tokens).run zone draft)

-- The fields after some stages are accounted for by what these have said and by whether one cancels.
structure Accounts (zone : Offset) (visits : List Visit) (before after : Fields) : Prop where
  written : ∀ field, after.get field = (lastOf (visits.flatMap (Visit.writes zone)) field).or (before.get field)
  disabled : after.disabled = true ↔ before.disabled = true ∨ ∃ visit ∈ visits, visit.Cancels

namespace Accounts

theorem refl (fields : Fields) : Accounts zone [] fields fields := ⟨fun _ => rfl,by simp⟩

theorem trans (first : Accounts zone visits before middle) (second : Accounts zone more middle after) :
    Accounts zone (visits ++ more) before after := by
  constructor
  · intro field
    rw [second.written,first.written,List.flatMap_append,lastOf_append,Option.or_assoc]
  · rw [second.disabled,first.disabled]
    simp only [List.mem_append,or_and_right,exists_or,or_assoc]

theorem framed (accounts : Accounts zone visits before after) (outside : ∀ visit ∈ visits, field ∉ visit.stage.frame) :
    after.get field = before.get field := by
  have untouched : lastOf (visits.flatMap (Visit.writes zone)) field = none := by
    refine lastOf_eq_none.mpr fun entry member same => ?_
    obtain ⟨visit,listed,said⟩ := List.mem_flatMap.mp member
    exact outside visit listed (same ▸ visit.writes_framed zone entry said)
  rw [accounts.written,untouched,Option.none_or]

theorem source (accounts : Accounts zone visits before after) (known : after.get field = some entry) :
    before.get field = some entry ∨ ∃ visit ∈ visits, (field,entry) ∈ visit.writes zone := by
  rw [accounts.written] at known
  rcases Option.or_eq_some_iff.mp known with last | ⟨_,kept⟩
  · exact .inr (List.mem_flatMap.mp (mem_of_lastOf last))
  · exact .inl kept

theorem of_write {visit : Visit} (said : after = before.write (visit.writes zone)) (silent : ¬ visit.Cancels) :
    Accounts zone [visit] before after := by
  subst said
  refine ⟨fun field => ?_,?_⟩
  · rw [Fields.get_write_last,List.flatMap_singleton]
  · simp [Fields.disabled_write,silent]

end Accounts

theorem Stage.run_accounts (zone : Offset) (stage : Stage) (draft : Draft) :
    Accounts zone [⟨stage,draft.tokens⟩] draft.fields (stage.run zone draft).fields := by
  cases stage with
  | markers => exact .of_write rfl (by simp [Visit.Cancels])
  | frequency => exact .of_write (Clause.Frequency.read_said draft) (by simp [Visit.Cancels])
  | calendar => exact .of_write rfl (by simp [Visit.Cancels])
  | parity => exact .of_write rfl (by simp [Visit.Cancels])
  | never =>
    by_cases spoken : Clause.Never.never ∈ draft.tokens
    · have disabled : (Clause.Never.read draft).fields = draft.fields.disable := by
        unfold Clause.Never.read
        rw [if_pos (List.contains_iff_mem.mpr spoken)]
      refine ⟨fun field => ?_,?_⟩
      · exact (congrArg (fun fields => fields.get field) disabled).trans (Fields.get_disable _ _)
      · simp [Stage.run,disabled,Fields.disable,Visit.Cancels,spoken]
    · refine .of_write ?_ (by simp [Visit.Cancels,spoken])
      exact congrArg Draft.fields (Clause.Never.read_silent spoken)
  | residual => exact .of_write (Clause.Residual.read_told zone draft) (by simp [Visit.Cancels])

theorem Stage.runAll_accounts (zone : Offset) (stages : List Stage) (draft : Draft) :
    Accounts zone (visits zone stages draft) draft.fields (runAll zone stages draft).fields := by
  induction stages generalizing draft with
  | nil => exact .refl _
  | cons stage rest ih => exact (stage.run_accounts zone draft).trans (ih (stage.run zone draft))

theorem Step.runAll_accounts (zone : Offset) (steps : List Step) (draft : Draft) :
    Accounts zone (visits zone steps draft) draft.fields (runAll zone steps draft).fields := by
  induction steps generalizing draft with
  | nil => exact .refl _
  | cons step rest ih =>
    cases step with
    | stages chain => exact (Stage.runAll_accounts zone chain draft).trans (ih (Stage.runAll zone chain draft))
    | push tokens => exact ih ((Step.push tokens).run zone draft)

theorem Step.runAll_append (zone : Offset) (steps later : List Step) (draft : Draft) :
    runAll zone (steps ++ later) draft = runAll zone later (runAll zone steps draft) := List.foldl_append

-- What an expression shows of the last value of a field.
def lastText : Option Entry → String
  | none => Entry.any.text
  | some entry => if (Text.trim entry.text.toList).isEmpty then Entry.any.text else entry.text

theorem Fields.shown_last (fields : Fields) (field : Field) : fields.shown field = lastText (fields.get field) := by
  unfold shown lastText
  rfl

-- Whatever stages are run on a draft, in whatever order, and whatever is added to it between them: each
-- keeps to its fields, and only the word `never` disables the draft, for good. Then the expression is the
-- one that never comes round, and until then it shows what was said last.
theorem runs_framed (zone : Offset) :
    (∀ (stage : Stage) (draft : Draft),
      (∀ field, field ∉ stage.frame → (stage.run zone draft).fields.get field = draft.fields.get field) ∧
      ((stage.run zone draft).fields.disabled = true ↔
        draft.fields.disabled = true ∨ stage = .never ∧ Clause.Never.never ∈ draft.tokens)) ∧
    ∀ (steps : List Step) (draft : Draft),
      (∀ field, (∀ visit ∈ Step.visits zone steps draft, field ∉ visit.stage.frame) →
        (Step.runAll zone steps draft).fields.get field = draft.fields.get field) ∧
      ((Step.runAll zone steps draft).fields.disabled = true ↔
        draft.fields.disabled = true ∨ ∃ visit ∈ Step.visits zone steps draft, visit.Cancels) ∧
      (draft.fields.disabled = true ∨ (∃ visit ∈ Step.visits zone steps draft, visit.Cancels) →
        ∀ later, (Step.runAll zone (steps ++ later) draft).schedule.expression = "0 0 31 2 0") ∧
      (draft.fields.disabled = false → (∀ visit ∈ Step.visits zone steps draft, ¬ visit.Cancels) →
        (Step.runAll zone steps draft).schedule.expression = " ".intercalate (Field.all.map fun field => lastText
          ((lastOf ((Step.visits zone steps draft).flatMap (Visit.writes zone)) field).or (draft.fields.get field)))) := by
  refine ⟨fun stage draft => ?_,fun steps draft => ?_⟩
  · have accounts := stage.run_accounts zone draft
    refine ⟨fun field outside => accounts.framed (by simpa using outside),?_⟩
    rw [accounts.disabled]
    simp [Visit.Cancels]
  · have accounts := Step.runAll_accounts zone steps draft
    refine ⟨fun field outside => accounts.framed outside,accounts.disabled,fun cancelled later => ?_,fun enabled silent => ?_⟩
    · have sticky := (Step.runAll_accounts zone later (Step.runAll zone steps draft)).disabled.mpr
        (.inl (accounts.disabled.mpr cancelled))
      rw [Step.runAll_append,schedule_disabled sticky]
      rfl
    · have still : ¬ (Step.runAll zone steps draft).fields.disabled = true := by
        rw [accounts.disabled,enabled]
        simpa using silent
      unfold Schedule.expression
      rw [schedule_enabled still]
      refine congrArg (" ".intercalate ·) (List.map_congr_left fun field _ => ?_)
      rw [Fields.shown_last,accounts.written]

theorem runs_framed_daily :
    (Step.runAll .utc [.stages [.frequency],.push [.marker .time,.word "9am"],.stages [.residual,.markers]]
      ⟨[.word "every",.word "day"],{month := some (.days [" "])}⟩).schedule.expression = "0 9 * * *" ∧
    (Step.runAll .utc [.push [.word "never"],.stages [.parity,.never],.push [.word "mon"],.stages [.calendar]]
      ⟨[],{hour := some (.number 9)}⟩).schedule.expression = "0 0 31 2 0" ∧
    (Step.runAll .utc [.push [.word "never"],.stages [.parity,.never],.push [.word "mon"],.stages [.calendar]]
      ⟨[],{hour := some (.number 9)}⟩).fields.get .hour = some (.number 9) := by
  obtain ⟨_,runs⟩ := runs_framed .utc
  obtain ⟨_,_,_,shown⟩ := runs [.stages [.frequency],.push [.marker .time,.word "9am"],.stages [.residual,.markers]]
    ⟨[.word "every",.word "day"],{month := some (.days [" "])}⟩
  obtain ⟨_,_,cancelled,_⟩ := runs [.push [.word "never"],.stages [.parity,.never]] ⟨[],{hour := some (.number 9)}⟩
  obtain ⟨framed,_⟩ := runs [.push [.word "never"],.stages [.parity,.never],.push [.word "mon"],.stages [.calendar]]
    ⟨[],{hour := some (.number 9)}⟩
  have silent := shown rfl (by decide +kernel)
  refine ⟨silent.trans (by decide +kernel),?_,framed .hour (by decide +kernel)⟩
  exact cancelled (.inr (by decide +kernel)) [.push [.word "mon"],.stages [.calendar]]

end Recurrence
