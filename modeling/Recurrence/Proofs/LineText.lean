import Recurrence.Proofs.FieldGrammar
import Recurrence.Proofs.Remainder
import Recurrence.Render.Record

namespace Recurrence

-- The characters of an ordinary line: the space and the visible ones of ASCII.
def Text.isLineChar (c : Char) : Bool := 32 ≤ c.toNat && c.toNat < 127

theorem Text.isLineChar_digit (digit : c.isDigit = true) : isLineChar c = true := by
  simp only [Char.isDigit,Bool.and_eq_true,decide_eq_true_eq,UInt32.le_iff_toNat_le] at digit
  simp only [isLineChar,Char.toNat,Bool.and_eq_true,decide_eq_true_eq]
  exact ⟨le_trans (by decide) digit.1,lt_of_le_of_lt digit.2 (by decide)⟩

theorem Text.isLineChar_blank (shown : isLineChar c = true) (other : c ≠ ' ') : isBlank c = false := by
  have not_space : c.toNat ≠ 32 := fun same => other (Char.toNat_inj.mp same)
  simp only [isLineChar,Bool.and_eq_true,decide_eq_true_eq] at shown
  rw [Bool.eq_false_iff]
  simp only [ne_eq,isBlank,Bool.or_eq_true,Bool.and_eq_true,decide_eq_true_eq,beq_iff_eq]
  omega

theorem Entry.isTextChar_line (shown : isTextChar c = true) : Text.isLineChar c = true := by
  simp only [isTextChar,Bool.or_eq_true,List.contains_iff_mem,List.mem_cons,List.not_mem_nil,or_false] at shown
  rcases shown with digit | rfl | rfl | rfl | rfl
  · exact Text.isLineChar_digit digit
  all_goals decide

theorem Phrase.isLexed_line (lexed : isLexed c = true) : Text.isLineChar c = true := by
  simp only [isLexed,isWordChar,Bool.or_eq_true,Bool.and_eq_true,decide_eq_true_eq,beq_iff_eq] at lexed
  rcases lexed with (((letter | digit) | rfl) | rfl) | rfl
  · simp only [Char.le_def,UInt32.le_iff_toNat_le] at letter
    simp only [Text.isLineChar,Char.toNat,Bool.and_eq_true,decide_eq_true_eq]
    exact ⟨le_trans (by decide) letter.1,lt_of_le_of_lt letter.2 (by decide)⟩
  · exact Text.isLineChar_digit digit
  all_goals decide

-- Texts that can be written on one line as they are.
def OnLine (text : String) : Prop := ∀ c ∈ text.toList, Text.isLineChar c = true

theorem onLine_joined {words : List String} (each : ∀ word ∈ words, OnLine word) : OnLine (" ".intercalate words) := by
  intro c inside
  rw [toList_joined] at inside
  rcases Text.mem_of_intercalate inside with space | ⟨text,listed,within⟩
  · rw [space]
    decide
  · obtain ⟨word,member,rfl⟩ := List.mem_map.mp listed
    exact each word member c within

theorem Entry.text_onLine {entry : Entry} (made : entry.WellMade) : OnLine entry.text :=
  fun c inside => isTextChar_line (text_chars made c inside)

structure Schedule.OneLine (schedule : Schedule) : Prop where
  fields : ∀ text ∈ schedule.fields, OnLine text
  unparsed : OnLine schedule.unparsed

theorem Schedule.OneLine.expression {schedule : Schedule} (single : schedule.OneLine) : OnLine schedule.expression :=
  onLine_joined single.fields

theorem compile_onLine (zone : Offset) (phrase : String) : (compile zone phrase).OneLine := by
  constructor
  · have sound := Phrase.lex_sound phrase
    unfold compile compileTokens
    generalize Phrase.lex phrase = tokens at sound ⊢
    have made := runAll_made zone Stage.inOrder ⟨tokens,{}⟩ sound Fields.WellMade.empty
    intro text member
    obtain ⟨entry,well,written⟩ := schedule_made made text member
    rw [written]
    exact Entry.text_onLine well
  · rw [(compile_leftover zone phrase).2.2]
    apply onLine_joined
    intro word member c inside
    exact Phrase.isLexed_line ((leftover_word zone phrase member).written c inside)

namespace Render
variable {schedule : Schedule} {entry : String × Scalar}

def Scalar.OneLine : Scalar → Prop
  | .text written => OnLine written
  | .flag _ => True

def OneLine (record : Record) : Prop := ∀ entry ∈ record, OnLine entry.1 ∧ entry.2.OneLine

def keys : List String :=
  ["expression","minute","hour","day_of_month","month","day_of_week","unparsed","fully_parsed"]

theorem recordOf_keys (schedule : Schedule) : (recordOf schedule).map Prod.fst = keys := rfl

theorem keys_plain : ∀ key ∈ keys, key.toList.all Text.isLineChar = true ∧ ':' ∉ key.toList := by decide

theorem recordOf_key (member : entry ∈ recordOf schedule) : OnLine entry.1 ∧ ':' ∉ entry.1.toList := by
  have listed : entry.1 ∈ (recordOf schedule).map Prod.fst := List.mem_map_of_mem member
  rw [recordOf_keys] at listed
  obtain ⟨shown,no_colon⟩ := keys_plain entry.1 listed
  exact ⟨List.all_eq_true.mp shown,no_colon⟩

theorem recordOf_oneLine (single : schedule.OneLine) : OneLine (recordOf schedule) := by
  have values : ∀ entry ∈ recordOf schedule, entry.2.OneLine := by
    have fields := single.fields
    simp only [Schedule.fields,List.forall_mem_cons] at fields
    obtain ⟨minute,hour,dayOfMonth,month,dayOfWeek,_⟩ := fields
    simp only [recordOf,List.forall_mem_cons]
    exact ⟨single.expression,minute,hour,dayOfMonth,month,dayOfWeek,single.unparsed,trivial,fun _ none => by cases none⟩
  exact fun entry member => ⟨(recordOf_key member).1,values entry member⟩

theorem recordOf_inj {other : Schedule} : recordOf schedule = recordOf other ↔ schedule = other := by
  refine ⟨fun same => ?_,fun same => by rw [same]⟩
  obtain ⟨minute,hour,dayOfMonth,month,dayOfWeek,unparsed⟩ := schedule
  obtain ⟨minute',hour',dayOfMonth',month',dayOfWeek',unparsed'⟩ := other
  simp only [recordOf,List.cons.injEq,Prod.mk.injEq,Scalar.text.injEq,true_and] at same
  obtain ⟨_,minutes,hours,days,months,weekdays,left,_⟩ := same
  simp only [Schedule.mk.injEq]
  exact ⟨minutes,hours,days,months,weekdays,left⟩

end Render

end Recurrence
