import Recurrence.Proofs.ClockWords
import Recurrence.Proofs.FieldShape

namespace Recurrence
open Text

-- Numbers and plain clock times are written with figures: digits and colons.
def isFigure (c : Char) : Bool := c.isDigit || c == ':'

structure Figures (word : String) : Prop where
  nonempty : word ≠ ""
  figures : ∀ c ∈ word.toList, isFigure c = true

namespace Figures

theorem of_numeral {word : String} (written : Numeral word.toList) : Figures word :=
  ⟨fun empty => written.1 (String.toList_eq_nil_iff.mpr empty),fun c inside => by simp [isFigure,written.2 c inside]⟩

variable {word : String} (written : Figures word)
include written

theorem unbroken : Unbroken word := by
  refine ⟨written.nonempty,?_,?_⟩
  · intro c inside
    rcases Bool.or_eq_true_iff.mp (written.figures c inside) with digit | colon
    · simp [ClockText.isClockChar,digit]
    · simp [ClockText.isClockChar,eq_of_beq colon]
  · exact fun inside => absurd (written.figures _ inside) (by decide)

theorem plain : Phrase.Plain word := written.unbroken.plain

theorem tokenOf_eq : Phrase.tokenOf word = .word word := written.unbroken.tokenOf_eq

theorem unnamed : Clause.Calendar.Name.ofWord? word = none := written.unbroken.unused.nameOf_eq

end Figures

namespace ClockText

theorem numbers_no_time {text : List Char} (zone : Offset) (numbers : ∀ c ∈ text, c.isDigit = true ∨ isBlank c = true) :
    TimeOfDay.parse? zone text = none := by
  unfold TimeOfDay.parse?
  cases read : read? text with
  | none => rfl
  | some clock =>
    obtain ⟨afterHour,readHour,minute,afterSecond,readSecond,half,_⟩ := read_parts read
    have absent (c : Char) (solid : c.isDigit = false) (visible : isBlank c = false) : c ∉ text := by
      intro inside
      rcases numbers c inside with digit | blank
      · rw [digit] at solid; cases solid
      · rw [blank] at visible; cases visible
    have rest : ∀ c ∈ afterHour, c ∈ text := by
      obtain ⟨digits,split,_⟩ := oneOrTwoDigits_parts readHour
      obtain ⟨front,back,trimmed,_⟩ := trim_parts text
      intro c inside
      have within : c ∈ trim text := by rw [split]; exact List.mem_append_right digits inside
      rw [trimmed]
      exact List.mem_append_right front (List.mem_append_left back within)
    have no_colon : colonPair afterHour = (none,afterHour) := by
      unfold colonPair
      split
      · exact absurd (rest ':' List.mem_cons_self) (absent ':' (by decide) (by decide))
      · rfl
    have no_minute : clock.minute = none := by rw [minute,no_colon]
    have no_half : clock.half = none := by
      rw [no_minute,no_colon] at readSecond
      have same : afterHour = afterSecond := (Prod.mk.inj readSecond).2
      rw [half,← same]
      obtain ⟨blanks,split,_⟩ := trimStart_parts afterHour
      have later (c : Char) (inside : c ∈ trimStart afterHour) : c ∈ text :=
        rest c (split ▸ List.mem_append_right blanks inside)
      unfold halfOfDay
      split
      · rename_i tail found
        exact absurd (later 'a' (by rw [found]; exact List.mem_cons_self)) (absent 'a' (by decide) (by decide))
      · rename_i tail found
        exact absurd (later 'p' (by rw [found]; exact List.mem_cons_self)) (absent 'p' (by decide) (by decide))
      · rfl
    simp [time?,no_minute,no_half]

-- An hour as it is, and its minutes with two digits.
def clockWord (hour : Fin 24) (minute : Fin 60) : String :=
  toString hour.val ++ ":" ++ padded 2 minute.val

theorem hour_digits (hour : Fin 24) (rest : List Char) :
    oneOrTwoDigits ((toString hour.val).toList ++ ':' :: rest) = some (hour.val,':' :: rest) := by
  have table : ∀ hour : Fin 24, (toString hour.val).toList.length ≤ 2 ∧ number (toString hour.val).toList = hour.val := by
    decide
  obtain ⟨short,spells⟩ := table hour
  obtain ⟨nonempty,digits⟩ := numeral_toString hour.val
  have colon : ':'.isDigit = false := by decide
  match spelled : (toString hour.val).toList with
  | [] => exact absurd spelled nonempty
  | [a] =>
    rw [spelled] at digits spells
    simp [oneOrTwoDigits,twoDigits,digits a (by simp),spells,colon]
  | [a,b] =>
    rw [spelled] at digits spells
    simp [oneOrTwoDigits,twoDigits,digits a (by simp),digits b (by simp),spells]
  | a :: b :: c :: rest =>
    rw [spelled] at short
    simp at short

theorem minute_digits : ∀ minute : Fin 60, twoDigits (padded 2 minute.val).toList = some (minute.val,[]) := by decide

theorem clockWord_toList (hour : Fin 24) (minute : Fin 60) :
    (clockWord hour minute).toList = (toString hour.val).toList ++ ':' :: (padded 2 minute.val).toList := by
  unfold clockWord
  rw [String.toList_append,String.toList_append,List.append_assoc]
  rfl

theorem clockWord_figures (hour : Fin 24) (minute : Fin 60) : Figures (clockWord hour minute) := by
  have minutes : ∀ minute : Fin 60, (padded 2 minute.val).toList.all isFigure = true := by decide
  have hours := (Figures.of_numeral (numeral_toString hour.val)).figures
  constructor
  · intro empty
    have text := clockWord_toList hour minute
    rw [empty] at text
    simp at text
  · intro c inside
    rw [clockWord_toList] at inside
    rcases List.mem_append.mp inside with inside | inside
    · exact hours c inside
    · rcases List.mem_cons.mp inside with rfl | inside
      · decide
      · exact List.all_eq_true.mp (minutes minute) c inside

theorem read_clockWord (hour : Fin 24) (minute : Fin 60) :
    read? (clockWord hour minute).toList = some ⟨hour.val,some minute.val,none,none,none⟩ := by
  have sound := (clockWord_figures hour minute).plain.sound
  have trimmed : trim (clockWord hour minute).toList = (clockWord hour minute).toList :=
    trim_eq_self (fun c first => sound.2 c (List.mem_of_head? first)) (fun c last => sound.2 c (List.mem_of_getLast? last))
  unfold read?
  rw [trimmed,clockWord_toList,hour_digits]
  have paired : colonPair (':' :: (padded 2 minute.val).toList) = (some minute.val,[]) := by
    simp only [colonPair,minute_digits]
  simp only [paired,bind,Option.bind]
  rfl

theorem ofSeconds_clock (hour : Fin 24) (minute : Fin 60) :
    TimeOfDay.ofSeconds (hour.val * 3600 + minute.val * 60 : Nat) = ⟨hour,minute⟩ := by
  have within : (((hour.val * 3600 + minute.val * 60 : Nat) : Int) % secondsPerDay).toNat =
      hour.val * 3600 + minute.val * 60 := by
    unfold secondsPerDay
    omega
  unfold TimeOfDay.ofSeconds
  simp only [within,TimeOfDay.mk.injEq,Fin.ext_iff]
  omega

theorem parse_clockWord (hour : Fin 24) (minute : Fin 60) :
    TimeOfDay.parse? .utc (clockWord hour minute).toList = some ⟨hour,minute⟩ := by
  unfold TimeOfDay.parse?
  rw [read_clockWord,Option.bind_some,← ofSeconds_clock]
  simp [time?,hour24?,Offset.utc]

end ClockText
end Recurrence
