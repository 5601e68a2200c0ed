import Recurrence.Text.Blank

namespace Recurrence

-- The five fields of a schedule, in the order in which an expression lists them.
inductive Field where
  | minute
  | hour
  | dayOfMonth
  | month
  | dayOfWeek
deriving DecidableEq, Repr

def Field.all : List Field := [.minute,.hour,.dayOfMonth,.month,.dayOfWeek]

def Field.name : Field → String
  | .minute => "minute"
  | .hour => "hour"
  | .dayOfMonth => "day-of-month"
  | .month => "month"
  | .dayOfWeek => "day-of-week"

-- What a clause can say about a field. Numbers that a clause computes are kept as numbers; those
-- that are taken over as the phrase writes them stay text, leading zeros included.
inductive Entry where
  | any
  | number (n : Nat)
  | alternate (low high : Nat)
  | every (intervals : List String)
  | listed (items : List (List Nat))
  | days (numbers : List String)
deriving DecidableEq, Repr

-- An item of a list: a number, or numbers that range words join.
def Entry.itemText (item : List Nat) : String := "-".intercalate (item.map toString)

def Entry.text : Entry → String
  | .any => "*"
  | .number n => toString n
  | .alternate low high => toString low ++ "-" ++ toString high ++ "/2"
  | .every intervals => "*/" ++ ",".intercalate intervals
  | .listed items => ",".intercalate (items.map itemText)
  | .days numbers => ",".intercalate numbers

-- What the clauses read so far have said. A later entry replaces an earlier one; `disabled`, once
-- set, stays set.
structure Fields where
  minute : Option Entry := none
  hour : Option Entry := none
  dayOfMonth : Option Entry := none
  month : Option Entry := none
  dayOfWeek : Option Entry := none
  disabled : Bool := false
deriving DecidableEq, Repr

namespace Fields

def get (fields : Fields) : Field → Option Entry
  | .minute => fields.minute
  | .hour => fields.hour
  | .dayOfMonth => fields.dayOfMonth
  | .month => fields.month
  | .dayOfWeek => fields.dayOfWeek

def set (fields : Fields) (field : Field) (entry : Entry) : Fields :=
  match field with
  | .minute => {fields with minute := some entry}
  | .hour => {fields with hour := some entry}
  | .dayOfMonth => {fields with dayOfMonth := some entry}
  | .month => {fields with month := some entry}
  | .dayOfWeek => {fields with dayOfWeek := some entry}

def write (fields : Fields) (entries : List (Field × Entry)) : Fields :=
  entries.foldl (fun fields entry => fields.set entry.1 entry.2) fields

def disable (fields : Fields) : Fields := {fields with disabled := true}

-- The text that an expression shows: a field without an entry, or with a blank one, is open.
def shown (fields : Fields) (field : Field) : String :=
  match fields.get field with
  | none => Entry.any.text
  | some entry => if (Text.trim entry.text.toList).isEmpty then Entry.any.text else entry.text

theorem get_set (fields : Fields) (field other : Field) (entry : Entry) :
    (fields.set field entry).get other = if other = field then some entry else fields.get other := by
  cases field <;> cases other <;> simp [get,set]

theorem disabled_set (fields : Fields) (field : Field) (entry : Entry) :
    (fields.set field entry).disabled = fields.disabled := by
  cases field <;> rfl

theorem get_disable (fields : Fields) (field : Field) : fields.disable.get field = fields.get field := by
  cases field <;> rfl

theorem disabled_write (fields : Fields) (entries : List (Field × Entry)) :
    (fields.write entries).disabled = fields.disabled := by
  induction entries generalizing fields with
  | nil => rfl
  | cons entry rest ih => exact (ih _).trans (disabled_set _ _ _)

theorem get_write_of_not_mem (fields : Fields) (entries : List (Field × Entry)) (field : Field)
    (untouched : ∀ entry ∈ entries, entry.1 ≠ field) : (fields.write entries).get field = fields.get field := by
  induction entries generalizing fields with
  | nil => rfl
  | cons entry rest ih =>
    have here := untouched entry List.mem_cons_self
    have later := ih (fields.set entry.1 entry.2) (fun entry member => untouched entry (List.mem_cons_of_mem _ member))
    rw [get_set,if_neg (Ne.symm here)] at later
    exact later

end Fields
end Recurrence
