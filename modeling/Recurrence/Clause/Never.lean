import Recurrence.Draft

namespace Recurrence.Clause.Never

def never : Token := .word "never"

-- The word cancels the whole schedule wherever it stands. What has been said stays on record, and
-- later clauses are still read, but the draft is disabled for good.
def read (draft : Draft) : Draft :=
  if draft.tokens.contains never then ⟨draft.tokens.filter (· != never),draft.fields.disable⟩ else draft

end Recurrence.Clause.Never
