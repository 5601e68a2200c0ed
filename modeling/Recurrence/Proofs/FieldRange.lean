import Recurrence.Proofs.ListedNames
import Recurrence.Proofs.StageFrames

namespace Recurrence
open Text

namespace Field

-- The least and the greatest value of a field, and its halves: every other value from one to another.
def low : Field → Nat
  | .minute | .hour | .dayOfWeek => 0
  | .dayOfMonth | .month => 1

def high : Field → Nat
  | .minute => 59
  | .hour => 23
  | .dayOfMonth => 31
  | .month => 12
  | .dayOfWeek => 6

def halves : Field → List (Nat × Nat)
  | .minute => [(1,59),(2,60)]
  | .dayOfMonth => [(1,31),(2,30)]
  | .month => [(1,11),(2,12)]
  | .hour | .dayOfWeek => []

def Holds (field : Field) (n : Nat) : Prop := field.low ≤ n ∧ n ≤ field.high

instance (field : Field) (n : Nat) : Decidable (field.Holds n) :=
  inferInstanceAs (Decidable (field.low ≤ n ∧ n ≤ field.high))

end Field

-- What can be said of a field. The days of a month are taken over as they are written, whatever they are.
def Entry.Fits (field : Field) : Entry → Prop
  | .any => True
  | .number n => field.Holds n
  | .alternate low high => (low,high) ∈ field.halves
  | .every _ => field ≠ .dayOfWeek
  | .listed items => (field = .month ∨ field = .dayOfWeek) ∧ ∀ item ∈ items, ∀ n ∈ item, field.Holds n
  | .days _ => field = .dayOfMonth

namespace Clause

theorem Frequency.wholeUnit_fits (known : wholeUnit unit = some entries) : ∀ entry ∈ entries, entry.2.Fits entry.1 := by
  unfold wholeUnit at known
  split at known <;> cases known <;> simp [Entry.Fits,Field.Holds,Field.low,Field.high]

theorem Frequency.inIntervals_fits (known : inIntervals intervals unit = some entries) :
    ∀ entry ∈ entries, entry.2.Fits entry.1 := by
  unfold inIntervals at known
  split at known <;> cases known <;> simp [Entry.Fits,Field.Holds,Field.low,Field.high]

theorem Frequency.said_fits (clause : List Token) : ∀ entry ∈ said clause, entry.2.Fits entry.1 := by
  intro entry member
  cases clause with
  | nil => cases member
  | cons head others =>
    simp only [said] at member
    cases unit : head.word?.bind wholeUnit with
    | some entries =>
      obtain ⟨word,_,known⟩ := Option.bind_eq_some_iff.mp unit
      rw [unit] at member
      exact wholeUnit_fits known entry member
    | none =>
      cases count : counted (wordsOf (head :: others)) with
      | some entries =>
        obtain ⟨_,_,_,_,_,known⟩ := counted_parts count
        rw [unit,count] at member
        exact inIntervals_fits known entry member
      | none =>
        rw [unit,count] at member
        cases member

theorem Calendar.number_holds {kind : Kind} (known : kind.number? token = some n) : kind.field.Holds n := by
  have weekdays : ∀ word ∈ Lexicon.weekdays, (Lexicon.dayIndex word).all (fun n => Field.dayOfWeek.Holds n) := by decide
  have months : ∀ word ∈ Lexicon.months, (Lexicon.monthNumber word).all (fun n => Field.month.Holds n) := by decide
  cases kind with
  | weekday =>
    obtain ⟨word,_,known⟩ := Option.bind_eq_some_iff.mp known
    have holds := weekdays word (dayIndex_mem known)
    rw [known] at holds
    exact of_decide_eq_true holds
  | month =>
    obtain ⟨word,_,known⟩ := Option.bind_eq_some_iff.mp known
    have listed : word ∈ Lexicon.months := by
      obtain ⟨index,found,_⟩ := Option.map_eq_some_iff.mp known
      exact List.isSome_idxOf?.mp (Option.isSome_of_eq_some found)
    have holds := months word listed
    rw [known] at holds
    exact of_decide_eq_true holds

theorem Calendar.entries_fit (tokens : List Token) : ∀ entry ∈ entries tokens, entry.2.Fits entry.1 := by
  have from_kind (kind : Kind) : ∀ entry ∈ entriesOf kind.field (kind.sorted (sort false (tokens.filterMap nameOf))),
      entry.2.Fits entry.1 := by
    intro entry member
    unfold entriesOf at member
    rw [items_sort] at member
    split at member
    · cases member
    · rw [List.mem_singleton.mp member]
      refine ⟨by cases kind <;> simp [Kind.field],fun item listed n inside => ?_⟩
      have numbered : n ∈ tokens.filterMap kind.number? := by
        rw [← numbers_named,← marks_numbers,← group_numbers]
        exact List.mem_flatten_of_mem listed inside
      obtain ⟨token,_,known⟩ := List.mem_filterMap.mp numbered
      exact number_holds known
  intro entry member
  rw [entries_eq] at member
  rcases List.mem_append.mp member with weekdays | months
  · exact from_kind .weekday entry weekdays
  · exact from_kind .month entry months

theorem Parity.entries_fit (tokens : List Token) : ∀ entry ∈ entries tokens, entry.2.Fits entry.1 := by
  have table : ∀ meaning ∈ meanings, meaning.2.2.Fits meaning.2.1 := by
    simp [meanings,Entry.Fits,Field.halves]
  intro entry member
  obtain ⟨parity,unit,listed,_⟩ := (mem_entries tokens).mp member
  exact table _ listed

theorem Residual.told_fits (read : Reading) : ∀ entry ∈ told read, entry.2.Fits entry.1 := by
  intro entry member
  cases read with
  | time time =>
    simp only [told,List.mem_cons,List.not_mem_nil,or_false] at member
    rcases member with rfl | rfl
    · exact ⟨Nat.zero_le _,Nat.le_of_lt_succ time.hour.isLt⟩
    · exact ⟨Nat.zero_le _,Nat.le_of_lt_succ time.minute.isLt⟩
  | days numbers =>
    rw [List.mem_singleton.mp member]
    rfl
  | other => cases member

end Clause

theorem Visit.writes_fit (zone : Offset) (visit : Visit) : ∀ entry ∈ visit.writes zone, entry.2.Fits entry.1 := by
  obtain ⟨stage,tokens⟩ := visit
  cases stage with
  | markers => simp [writes]
  | frequency => exact Clause.Frequency.said_fits _
  | calendar => exact Clause.Calendar.entries_fit tokens
  | parity => exact Clause.Parity.entries_fit tokens
  | never => simp [writes]
  | residual =>
    intro entry member
    obtain ⟨segment,_,told⟩ := List.mem_flatMap.mp member
    exact Clause.Residual.told_fits _ entry told

def Fields.Fit (fields : Fields) : Prop := ∀ field entry, fields.get field = some entry → entry.Fits field

theorem Fields.Fit.empty : ({} : Fields).Fit := by
  intro field entry known
  rw [get_empty] at known
  cases known

theorem Accounts.fit (accounts : Accounts zone visits before after) (fitted : before.Fit) : after.Fit := by
  intro field entry known
  rcases accounts.source known with kept | ⟨visit,_,said⟩
  · exact fitted field entry kept
  · exact visit.writes_fit zone _ said

-- The texts of a field: a number without zeros in front, numbers between commas, steps of so many, and
-- numbers within limits that commas and hyphens hold apart.
def Below (limit : Nat) (text : String) : Prop := ∃ n < limit, text = toString n

def Numbers (text : String) : Prop :=
  ∃ numbers : List String, numbers ≠ [] ∧ (∀ number ∈ numbers, Numeral number.toList) ∧ text = ",".intercalate numbers

def Steps (text : String) : Prop := ∃ distances, Numbers distances ∧ text = "*/" ++ distances

inductive Joined (low high : Nat) : String → Prop where
  | single (above : low ≤ n) (below : n ≤ high) : Joined low high (toString n)
  | more (front : Joined low high before) (separator : mark = "," ∨ mark = "-") (back : Joined low high behind) :
      Joined low high (before ++ mark ++ behind)

namespace Joined

theorem intercalate {parts : List String} (separator : mark = "," ∨ mark = "-") (some_part : parts ≠ [])
    (each : ∀ part ∈ parts, Joined low high part) : Joined low high (mark.intercalate parts) := by
  induction parts with
  | nil => exact absurd rfl some_part
  | cons part rest ih =>
    have here := each part List.mem_cons_self
    cases rest with
    | nil => rwa [String.intercalate_singleton]
    | cons next others =>
      rw [String.intercalate_cons_cons]
      exact .more here separator (ih (List.cons_ne_nil _ _) fun part member => each part (List.mem_cons_of_mem _ member))

theorem listed {items : List (List Nat)} (made : (Entry.listed items).WellMade)
    (each : ∀ item ∈ items, ∀ n ∈ item, low ≤ n ∧ n ≤ high) : Joined low high (Entry.listed items).text := by
  refine intercalate (.inl rfl) (by simpa using made.1) fun part member => ?_
  obtain ⟨item,among,rfl⟩ := List.mem_map.mp member
  refine intercalate (.inr rfl) (by simpa using made.2 item among) fun figure inside => ?_
  obtain ⟨n,listed,rfl⟩ := List.mem_map.mp inside
  exact .single (each item among n listed).1 (each item among n listed).2

theorem numbers (joined : Joined low high text) : ∀ n ∈ numbersIn text, low ≤ n ∧ n ≤ high := by
  unfold numbersIn
  induction joined with
  | @single n above below =>
    rw [runs_numeral (numeral_toString n),List.map_singleton,number_toString]
    intro m member
    rw [List.mem_singleton.mp member]
    exact ⟨above,below⟩
  | @more before mark behind front separator back ih_front ih_back =>
    have apart : ∃ c, mark.toList = [c] ∧ (!c.isDigit) = true := by
      rcases separator with rfl | rfl
      · exact ⟨',',rfl,rfl⟩
      · exact ⟨'-',rfl,rfl⟩
    obtain ⟨c,spelled,apart⟩ := apart
    rw [String.toList_append,String.toList_append,spelled,List.append_assoc,List.singleton_append,runs_append_cons apart,
      List.map_append]
    intro m member
    rcases List.mem_append.mp member with here | later
    · exact ih_front m here
    · exact ih_back m later

end Joined

-- What an expression can show of a field.
def Field.Shows : Field → String → Prop
  | .minute,text => text = "*" ∨ Below 60 text ∨ text = "1-59/2" ∨ text = "2-60/2" ∨ Steps text
  | .hour,text => text = "*" ∨ Below 24 text ∨ Steps text
  | .dayOfMonth,text => text = "*" ∨ Numbers text ∨ text = "1-31/2" ∨ text = "2-30/2" ∨ Steps text
  | .month,text => text = "*" ∨ Joined 1 12 text ∨ text = "1-11/2" ∨ text = "2-12/2" ∨ Steps text
  | .dayOfWeek,text => text = "*" ∨ Joined 0 6 text

theorem Entry.shows {entry : Entry} (fits : entry.Fits field) (made : entry.WellMade) : field.Shows entry.text := by
  cases entry with
  | any => cases field <;> exact .inl rfl
  | number n =>
    obtain ⟨above,below⟩ := fits
    cases field with
    | minute => exact .inr (.inl ⟨n,Nat.lt_succ_of_le below,rfl⟩)
    | hour => exact .inr (.inl ⟨n,Nat.lt_succ_of_le below,rfl⟩)
    | dayOfMonth =>
      refine .inr (.inl ⟨[toString n],List.cons_ne_nil _ _,fun number member => ?_,(String.intercalate_singleton).symm⟩)
      rw [List.mem_singleton.mp member]
      exact numeral_toString n
    | month => exact .inr (.inl (.single above below))
    | dayOfWeek => exact .inr (.single above below)
  | alternate low high =>
    have written : (low,high) ∈ field.halves := fits
    cases field with
    | hour | dayOfWeek => cases written
    | minute | dayOfMonth | month =>
      simp only [Field.halves,List.mem_cons,Prod.mk.injEq,List.not_mem_nil,or_false] at written
      rcases written with ⟨rfl,rfl⟩ | ⟨rfl,rfl⟩
      · exact .inr (.inr (.inl rfl))
      · exact .inr (.inr (.inr (.inl rfl)))
  | every intervals =>
    have steps : Steps (text (.every intervals)) := ⟨_,⟨intervals,made.1,made.2,rfl⟩,rfl⟩
    cases field with
    | minute => exact .inr (.inr (.inr (.inr steps)))
    | hour => exact .inr (.inr steps)
    | dayOfMonth => exact .inr (.inr (.inr (.inr steps)))
    | month => exact .inr (.inr (.inr (.inr steps)))
    | dayOfWeek => exact absurd rfl fits
  | listed items =>
    obtain ⟨rfl | rfl,each⟩ := fits
    · exact .inr (.inl (.listed made each))
    · exact .inr (.listed made each)
  | days numbers =>
    cases fits
    exact .inr (.inl ⟨numbers,made.1,made.2,rfl⟩)

theorem Fields.shows {fields : Fields} (made : fields.WellMade) (fit : fields.Fit) (field : Field) :
    field.Shows (fields.shown field) := by
  cases found : fields.get field with
  | none =>
    have open_field : fields.shown field = Entry.any.text := by simp [shown,found]
    rw [open_field]
    exact Entry.shows trivial trivial
  | some entry =>
    rw [shown_entry found (made field entry found)]
    exact Entry.shows (fit field entry found) (made field entry found)

def Schedule.get (schedule : Schedule) : Field → String
  | .minute => schedule.minute
  | .hour => schedule.hour
  | .dayOfMonth => schedule.dayOfMonth
  | .month => schedule.month
  | .dayOfWeek => schedule.dayOfWeek

theorem Schedule.never_get (unparsed : String) (field : Field) :
    ∃ n, field.Holds n ∧ (Schedule.never unparsed).get field = (Entry.number n).text := by
  cases field with
  | minute => exact ⟨0,by decide,rfl⟩
  | hour => exact ⟨0,by decide,rfl⟩
  | dayOfMonth => exact ⟨31,by decide,rfl⟩
  | month => exact ⟨2,by decide,rfl⟩
  | dayOfWeek => exact ⟨0,by decide,rfl⟩

theorem Draft.shows {draft : Draft} (made : draft.fields.WellMade) (fit : draft.fields.Fit) (field : Field) :
    field.Shows (draft.schedule.get field) ∧ SoundWord (draft.schedule.get field) := by
  by_cases disabled : draft.fields.disabled = true
  · obtain ⟨n,holds,known⟩ := Schedule.never_get draft.unparsed field
    rw [schedule_disabled disabled,known]
    exact ⟨Entry.shows holds trivial,Entry.text_sound trivial⟩
  · have shown : draft.schedule.get field = draft.fields.shown field := by
      unfold schedule
      rw [if_neg disabled]
      cases field <;> rfl
    rw [shown]
    exact ⟨Fields.shows made fit field,Fields.shown_sound made field⟩

theorem Schedule.expression_split {schedule : Schedule} (sound : SoundWords schedule.fields) :
    schedule.expression.toList.splitOn ' ' = schedule.fields.map String.toList := by
  unfold expression
  rw [toList_joined]
  refine List.splitOn_intercalate ' ' (fun text member inside => ?_) (by simp [fields])
  obtain ⟨word,among,rfl⟩ := List.mem_map.mp member
  exact absurd ((sound word among).2 ' ' inside) (by decide)

-- Whatever a phrase says, in whatever order it is read, each field stays within its limits, and the line of the
-- schedule falls into its five fields again.
theorem fields_in_range (zone : Offset) (phrase : String) :
    Field.Shows .minute (compile zone phrase).minute ∧ Field.Shows .hour (compile zone phrase).hour ∧
    Field.Shows .dayOfMonth (compile zone phrase).dayOfMonth ∧ Field.Shows .month (compile zone phrase).month ∧
    Field.Shows .dayOfWeek (compile zone phrase).dayOfWeek ∧
    (∀ n ∈ numbersIn (compile zone phrase).dayOfWeek, n ≤ 6) ∧
    (compile zone phrase).expression.toList.splitOn ' ' =
      [(compile zone phrase).minute.toList,(compile zone phrase).hour.toList,(compile zone phrase).dayOfMonth.toList,
        (compile zone phrase).month.toList,(compile zone phrase).dayOfWeek.toList] := by
  have sound := Phrase.lex_sound phrase
  unfold compile compileTokens
  generalize Phrase.lex phrase = tokens at sound ⊢
  have made := runAll_made zone Stage.inOrder ⟨tokens,{}⟩ sound Fields.WellMade.empty
  have fit := (Stage.runAll_accounts zone Stage.inOrder ⟨tokens,{}⟩).fit Fields.Fit.empty
  generalize Stage.runAll zone Stage.inOrder ⟨tokens,{}⟩ = last at made fit ⊢
  have shows (field : Field) := (Draft.shows made fit field).1
  have words : SoundWords last.schedule.fields := by
    intro text member
    have listed : text ∈ Field.all.map last.schedule.get := member
    obtain ⟨field,_,rfl⟩ := List.mem_map.mp listed
    exact (Draft.shows made fit field).2
  refine ⟨shows .minute,shows .hour,shows .dayOfMonth,shows .month,shows .dayOfWeek,?_,Schedule.expression_split words⟩
  rcases shows .dayOfWeek with star | joined
  · have star : last.schedule.dayOfWeek = "*" := star
    rw [star]
    decide
  · exact fun n inside => (joined.numbers n inside).2

end Recurrence
