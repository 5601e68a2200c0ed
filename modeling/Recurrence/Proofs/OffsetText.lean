import Recurrence.Failure
import Recurrence.Proofs.ClockText

namespace Recurrence.Offset
open Text

theorem read_iff {text : List Char} {offset : Offset} : read? text = some offset ↔
    ∃ sign a b c d, text = [sign,a,b,':',c,d] ∧ (a.isDigit = true ∧ b.isDigit = true) ∧
      (c.isDigit = true ∧ d.isDigit = true) ∧ number [c,d] < 60 ∧
      (sign = '+' ∧ offset.seconds = (number [a,b] * 60 + number [c,d] : Nat) * 60 ∨
        sign = '-' ∧ offset.seconds = -((number [a,b] * 60 + number [c,d] : Nat) * 60)) := by
  constructor
  · intro known
    unfold read? at known
    split at known
    · rename_i sign rest
      split at known
      · rename_i hours tail readHours
        split at known
        · rename_i minutes readMinutes
          obtain ⟨a,b,rfl,a_digit,b_digit,rfl⟩ := twoDigits_eq_some_iff.mp readHours
          obtain ⟨c,d,rfl,c_digit,d_digit,rfl⟩ := twoDigits_eq_some_iff.mp readMinutes
          dsimp only at known
          refine ⟨sign,a,b,c,d,rfl,⟨a_digit,b_digit⟩,⟨c_digit,d_digit⟩,?_⟩
          split at known
          · cases known
          · rename_i below
            refine ⟨Nat.lt_of_not_le below,?_⟩
            split at known
            · rename_i plus
              exact .inl ⟨plus,ofSeconds?_eq_some_iff.mp known⟩
            · split at known
              · rename_i minus
                exact .inr ⟨minus,ofSeconds?_eq_some_iff.mp known⟩
              · cases known
        · cases known
      · cases known
    · cases known
  · rintro ⟨sign,a,b,c,d,rfl,⟨a_digit,b_digit⟩,⟨c_digit,d_digit⟩,below,signed⟩
    have readHours : twoDigits [a,b,':',c,d] = some (number [a,b],[':',c,d]) :=
      twoDigits_eq_some_iff.mpr ⟨a,b,rfl,a_digit,b_digit,rfl⟩
    have readMinutes : twoDigits [c,d] = some (number [c,d],[]) :=
      twoDigits_eq_some_iff.mpr ⟨c,d,rfl,c_digit,d_digit,rfl⟩
    simp only [read?,readHours,readMinutes]
    rw [if_neg (Nat.not_le.mpr below)]
    rcases signed with ⟨rfl,total⟩ | ⟨rfl,total⟩
    · rw [if_pos rfl]
      exact ofSeconds?_eq_some_iff.mpr total
    · rw [if_neg (by decide),if_pos rfl]
      exact ofSeconds?_eq_some_iff.mpr total

-- The same texts, each with the seconds for which it stands: the hours are below 24, so that all is within a day.
inductive Spelled : Int → List Char → Prop where
  | east (digits : ∀ x ∈ [a,b,c,d], x.isDigit = true) (hours : number [a,b] < 24) (minutes : number [c,d] < 60) :
      Spelled (number [a,b] * 3600 + number [c,d] * 60 : Nat) ['+',a,b,':',c,d]
  | west (digits : ∀ x ∈ [a,b,c,d], x.isDigit = true) (hours : number [a,b] < 24) (minutes : number [c,d] < 60) :
      Spelled (-(number [a,b] * 3600 + number [c,d] * 60 : Nat)) ['-',a,b,':',c,d]

theorem read_spelled {text : List Char} {offset : Offset} : read? text = some offset ↔ Spelled offset.seconds text := by
  rw [read_iff]
  constructor
  · rintro ⟨sign,a,b,c,d,rfl,⟨a_digit,b_digit⟩,⟨c_digit,d_digit⟩,minutes,signed⟩
    have digits : ∀ x ∈ [a,b,c,d], x.isDigit = true := by simp [a_digit,b_digit,c_digit,d_digit]
    have within := offset.within_day
    unfold secondsPerDay at within
    rcases signed with ⟨rfl,total⟩ | ⟨rfl,total⟩
    · have same : offset.seconds = (number [a,b] * 3600 + number [c,d] * 60 : Nat) := by omega
      rw [same]
      exact .east digits (by omega) minutes
    · have same : offset.seconds = -(number [a,b] * 3600 + number [c,d] * 60 : Nat) := by omega
      rw [same]
      exact .west digits (by omega) minutes
  · intro spelled
    generalize known : offset.seconds = total at spelled
    cases spelled with
    | @east a b c d digits hours minutes =>
      simp only [List.forall_mem_cons] at digits
      obtain ⟨a_digit,b_digit,c_digit,d_digit,_⟩ := digits
      exact ⟨'+',a,b,c,d,rfl,⟨a_digit,b_digit⟩,⟨c_digit,d_digit⟩,minutes,.inl ⟨rfl,by omega⟩⟩
    | @west a b c d digits hours minutes =>
      simp only [List.forall_mem_cons] at digits
      obtain ⟨a_digit,b_digit,c_digit,d_digit,_⟩ := digits
      exact ⟨'-',a,b,c,d,rfl,⟨a_digit,b_digit⟩,⟨c_digit,d_digit⟩,minutes,.inr ⟨rfl,by omega⟩⟩

theorem Spelled.within_day (spelled : Spelled total written) : -secondsPerDay < total ∧ total < secondsPerDay := by
  unfold secondsPerDay
  cases spelled with
  | east digits hours minutes => omega
  | west digits hours minutes => omega

-- The whole minutes of an offset, east positive.
def minutes (offset : Offset) : Int := offset.seconds / 60

theorem read_whole {text : List Char} {offset : Offset} (known : read? text = some offset) :
    offset.seconds = 60 * offset.minutes := by
  obtain ⟨_,a,b,c,d,_,_,_,_,⟨_,total⟩ | ⟨_,total⟩⟩ := read_iff.mp known
  · unfold minutes
    omega
  · unfold minutes
    omega

theorem parse_whole {written : String} (known : Offset.parse written = .ok offset) : offset.seconds = 60 * offset.minutes := by
  unfold Offset.parse at known
  split at known
  · rename_i found read
    cases known
    exact read_whole read
  · cases known

end Recurrence.Offset
