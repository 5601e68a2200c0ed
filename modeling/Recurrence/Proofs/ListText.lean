import Recurrence.Proofs.CalendarItems
import Recurrence.Proofs.FieldShape

namespace Recurrence
open Text

-- A field read from left to right: the numbers in it, and the characters that hold them apart.
def numbersIn (text : String) : List Nat := (runs (fun c => !c.isDigit) text.toList).map number
def separatorsIn (text : String) : List Char := text.toList.filter (fun c => !c.isDigit)

theorem digitValue_digit {c : Char} (digit : c.isDigit = true) : digitValue c = c.toNat - 48 := by
  unfold digitValue
  rw [if_pos digit]

theorem number_toString (n : Nat) : number (toString n).toList = n := by
  have spelled : (toString n).toList = Nat.toDigits 10 n := Nat.toList_repr
  have folds (digits : List Char) (start : Nat) (all : ∀ c ∈ digits, c.isDigit = true) :
      digits.foldl (fun n c => 10 * n + digitValue c) start = Nat.ofDigitChars 10 digits start := by
    induction digits generalizing start with
    | nil => rfl
    | cons c rest ih =>
      have here := digitValue_digit (all c List.mem_cons_self)
      rw [List.foldl_cons,ih _ fun d inside => all d (List.mem_cons_of_mem _ inside),here]
      rfl
  have written := numeral_toString n
  rw [spelled] at written ⊢
  unfold number numberIn
  rw [folds _ 0 written.2]
  exact Nat.ofDigitChars_toDigits (by decide) (by decide)

theorem runs_numeral {digits : List Char} (written : Numeral digits) : runs (fun c => !c.isDigit) digits = [digits] :=
  runs_word written.1 fun c inside => by simp [written.2 c inside]

namespace Clause.Calendar

def separator (joined : Bool) : Char := if joined then '-' else ','

theorem separator_digit (joined : Bool) : (separator joined).isDigit = false := by cases joined <;> decide

-- The names of a list one behind the other, each held apart from the next as its mark says.
def spelled : List (Nat × Bool) → List Char
  | [] => []
  | [mark] => (toString mark.1).toList
  | mark :: next :: rest => (toString mark.1).toList ++ separator mark.2 :: spelled (next :: rest)

theorem text_group (marked : List (Nat × Bool)) : (Entry.listed (group marked)).text.toList = spelled marked := by
  have texts (items : List (List Nat)) : (Entry.listed items).text.toList =
      [','].intercalate (items.map fun item => ['-'].intercalate (item.map fun n => (toString n).toList)) := by
    simp only [Entry.text,Entry.toList_commas,List.map_map,Function.comp_def,Entry.itemText_toList]
  rw [texts]
  induction marked using spelled.induct with
  | case1 => rfl
  | case2 mark =>
    obtain ⟨n,joined⟩ := mark
    cases joined <;> simp [group,push,spelled,List.intercalate_singleton]
  | case3 mark next rest ih =>
    obtain ⟨n,joined⟩ := mark
    obtain ⟨item,items,some_number,grouped⟩ := group_cons next rest
    obtain ⟨m,others,rfl⟩ := List.exists_cons_of_ne_nil some_number
    rw [spelled,← ih,group,grouped]
    cases joined with
    | true =>
      simp only [push,separator,List.singleton_append,List.map_cons,List.intercalate_cons_cons,if_pos]
      rw [List.append_assoc,intercalate_append]
      exact congrArg ((toString n).toList ++ ·) (intercalate_append [','] ['-'] _ _)
    | false => simp [push,separator,List.intercalate_cons_cons,List.intercalate_singleton]

theorem numbers_spelled (marked : List (Nat × Bool)) :
    (runs (fun c => !c.isDigit) (spelled marked)).map number = marked.map Prod.fst := by
  induction marked using spelled.induct with
  | case1 => rw [spelled,runs_nil]; rfl
  | case2 mark =>
    rw [spelled,runs_numeral (numeral_toString mark.1),List.map_singleton,number_toString]
    rfl
  | case3 mark next rest ih =>
    have apart : (!(separator mark.2).isDigit) = true := by rw [separator_digit]; rfl
    rw [spelled,runs_append_cons apart,runs_numeral (numeral_toString mark.1),List.map_append,ih,
      List.map_singleton,number_toString]
    rfl

theorem separators_spelled (marked : List (Nat × Bool)) :
    (spelled marked).filter (fun c => !c.isDigit) = marked.dropLast.map fun mark => separator mark.2 := by
  have digits (n : Nat) : (toString n).toList.filter (fun c => !c.isDigit) = [] := by
    rw [List.filter_eq_nil_iff]
    intro c inside
    simp [(numeral_toString n).2 c inside]
  induction marked using spelled.induct with
  | case1 => rfl
  | case2 mark => exact digits mark.1
  | case3 mark next rest ih =>
    rw [spelled,List.filter_append,digits,List.filter_cons,separator_digit,ih]
    rfl

end Clause.Calendar
end Recurrence
