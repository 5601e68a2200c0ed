import Recurrence.Proofs.FieldEntries
import Recurrence.Proofs.Never

namespace Recurrence

-- Each of the words without which a stage has nothing to read.
def openers : List Token := [.word "from",.word "every",.word "odd",.word "even",.word "never"]

def Silent (tokens : List Token) : Prop := ∀ token ∈ tokens, token ∉ openers

namespace Clause

theorem Markers.settle_silent (silent : Silent tokens) (opened : ∃ kind rest, tokens = .marker kind :: rest) :
    settle tokens = tokens := by
  have absent : .word "from" ∉ tokens := fun member => silent _ member (by decide)
  have kept (kind : Marker) : tokens.replace (.word "from") (.marker kind) = tokens :=
    List.replace_of_not_mem (by simpa using absent)
  obtain ⟨kind,rest,rfl⟩ := opened
  simp only [settle,settleFrom,kept]
  rfl

theorem Frequency.read_silent (silent : Silent draft.tokens) : read draft = draft :=
  (read_absent draft fun member => silent _ member (by decide)).1

theorem Parity.entries_silent (silent : Silent tokens) : entries tokens = [] := by
  have parities : ∀ meaning ∈ meanings, .word meaning.1.1 ∈ openers := by decide
  refine List.eq_nil_iff_forall_not_mem.mpr fun entry member => ?_
  obtain ⟨parity,unit,listed,inside⟩ := (mem_entries tokens).mp member
  exact silent _ (inside.subset List.mem_cons_self) (parities _ listed)

theorem Parity.read_silent (silent : Silent draft.tokens) : read draft = draft := read_unsaid (entries_silent silent)

end Clause

theorem named_silent_later {draft : Draft} (silent : Silent draft.tokens) :
    Clause.Never.read (Clause.Parity.read (Clause.Calendar.read draft)) = Clause.Calendar.read draft := by
  have later : Silent (Clause.Calendar.used draft.tokens) := by
    intro token member
    obtain ⟨before,inside,rfl⟩ := List.mem_map.mp member
    split
    · decide
    · exact silent before inside
  rw [Clause.Parity.read_silent later,Clause.Never.read_silent fun member => later _ member (by decide)]

theorem runAll_silent (zone : Offset) (silent : Silent tokens) (opened : ∃ kind rest, tokens = .marker kind :: rest) :
    Stage.runAll zone Stage.inOrder ⟨tokens,{}⟩ =
      Clause.Residual.read zone (Clause.Calendar.read ⟨tokens,{}⟩) := by
  show Clause.Residual.read zone (Clause.Never.read (Clause.Parity.read (Clause.Calendar.read
    (Clause.Frequency.read (Clause.Markers.read ⟨tokens,{}⟩))))) = _
  have settled : Clause.Markers.read ⟨tokens,{}⟩ = ⟨tokens,{}⟩ := by
    unfold Clause.Markers.read
    rw [Clause.Markers.settle_silent silent opened]
  rw [settled,Clause.Frequency.read_silent silent,named_silent_later silent]

end Recurrence
