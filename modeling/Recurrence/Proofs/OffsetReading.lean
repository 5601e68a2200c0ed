import Recurrence.Proofs.ClockGrammar
import Recurrence.Proofs.Figures

namespace Recurrence.Offset
open Text

-- A text that names an offset, with the seconds it stands for: one of the texts of an offset, between blanks.
inductive Named : Int → List Char → Prop where
  | between (before : Blanks front) (spelled : Spelled total written) (behind : Blanks back) :
      Named total (front ++ (written ++ back))

theorem Spelled.some_char (spelled : Spelled total written) : written ≠ [] := by
  cases spelled with
  | east digits hours minutes => exact List.cons_ne_nil _ _
  | west digits hours minutes => exact List.cons_ne_nil _ _

theorem Spelled.solid (spelled : Spelled total written) : Solid written := by
  have read : read? written = some ⟨total,spelled.within_day⟩ := read_spelled.mpr spelled
  exact (ClockText.Ending.present read).onFace.solid

theorem Named.within_day {characters : List Char} (named : Named total characters) :
    -secondsPerDay < total ∧ total < secondsPerDay := by
  cases named with
  | between before spelled behind => exact spelled.within_day

theorem parse?_iff {written : String} {offset : Offset} :
    parse? written = some offset ↔ Named offset.seconds written.toList := by
  unfold parse?
  rw [read_spelled]
  constructor
  · intro spelled
    obtain ⟨front,back,split,before,behind⟩ := (trim_eq_iff spelled.solid spelled.some_char).mp rfl
    rw [split]
    exact .between before spelled behind
  · generalize written.toList = characters
    rintro ⟨before,spelled,behind⟩
    have trimmed := (trim_eq_iff spelled.solid spelled.some_char).mpr ⟨_,_,rfl,before,behind⟩
    rw [trimmed]
    exact spelled

theorem parse?_seconds {written : String} {total : Int} :
    (parse? written).map seconds = some total ↔ Named total written.toList := by
  rw [Option.map_eq_some_iff]
  constructor
  · rintro ⟨offset,read,rfl⟩
    exact parse?_iff.mp read
  · intro named
    exact ⟨⟨total,named.within_day⟩,parse?_iff.mpr named,rfl⟩

theorem parse?_none {written : String} : parse? written = none ↔ ∀ total, ¬Named total written.toList := by
  constructor
  · intro unread total named
    have read := parse?_seconds.mpr named
    rw [unread] at read
    cases read
  · intro unnamed
    exact Option.eq_none_iff_forall_ne_some.mpr fun offset read => unnamed _ (parse?_iff.mp read)

theorem parse_ok_iff {written : String} {offset : Offset} :
    Offset.parse written = .ok offset ↔ Named offset.seconds written.toList := by
  rw [← parse?_iff]
  unfold Offset.parse
  split
  · rename_i found read
    simp [read]
  · rename_i read
    simp [read]

-- Why a reading ends early: the text names no offset, or a number on the way has no place.
inductive Stop where
  | refused
  | overflow
deriving DecidableEq, Repr

-- A number has a place of 32 bits, its sign included.
def held (n : Int) : Except Stop Int := if -2147483648 ≤ n ∧ n ≤ 2147483647 then .ok n else .error .overflow

-- The shape of a text: a sign, two digits, a colon and two digits. Digits of other scripts have the shape of
-- digits too; `foreign` tells which characters those are.
def parts (foreign : Char → Bool) : List Char → Except Stop (Char × List Char × List Char)
  | [sign,a,b,':',c,d] =>
    if (sign = '+' ∨ sign = '-') ∧ [a,b,c,d].all (fun digit => digit.isDigit || foreign digit) then
      .ok (sign,[a,b],[c,d])
    else .error .refused
  | _ => .error .refused

-- The number that digits spell, one digit after the other. Only ASCII digits are worth something here.
def heldNumber : Int → List Char → Except Stop Int
  | n,[] => .ok n
  | n,c :: rest =>
    if c.isDigit then do
      let shifted ← held (n * 10)
      heldNumber (← held (shifted + digitValue c)) rest
    else .error .refused

-- Two numbers become seconds, and the sign is put on last.
def heldSeconds (sign : Char) (hours minutes : Int) : Except Stop Int := do
  let whole ← held (hours * 60)
  let total ← held (whole + minutes)
  let seconds ← held (total * 60)
  if sign = '-' then held (-seconds) else .ok seconds

-- An offset read step by step, with every number in its place.
def readHeld (foreign : Char → Bool) (characters : List Char) : Except Stop Offset := do
  let (sign,hours,minutes) ← parts foreign (trim characters)
  let hours ← heldNumber 0 hours
  let minutes ← heldNumber 0 minutes
  if 60 ≤ minutes then .error .refused
  else (ofSeconds? (← heldSeconds sign hours minutes)).elim (.error .refused) .ok

theorem held_ok (low : -2147483648 ≤ n) (high : n ≤ 2147483647) : held n = .ok n := if_pos ⟨low,high⟩

theorem heldNumber_digit {c : Char} (digit : c.isDigit = true) (positive : 0 ≤ n) (small : n ≤ 9) (rest : List Char) :
    heldNumber n (c :: rest) = heldNumber (n * 10 + digitValue c) rest := by
  have value := digitValue_le digit
  have shifted : held (n * 10) = .ok (n * 10) := held_ok (by omega) (by omega)
  have added : held (n * 10 + digitValue c) = .ok (n * 10 + digitValue c) := held_ok (by omega) (by omega)
  rw [heldNumber,if_pos digit,shifted]
  show (held (n * 10 + digitValue c)).bind (heldNumber · rest) = _
  rw [added]
  rfl

theorem heldNumber_other {c : Char} (other : c.isDigit = false) (n : Int) (rest : List Char) :
    heldNumber n (c :: rest) = .error .refused := by simp [heldNumber,other]

theorem heldNumber_pair (a b : Char) :
    heldNumber 0 [a,b] = if a.isDigit && b.isDigit then .ok (number [a,b] : Int) else .error .refused := by
  cases first : a.isDigit with
  | false => exact heldNumber_other first 0 [b]
  | true =>
    have value := digitValue_le first
    rw [heldNumber_digit first (by omega) (by omega)]
    cases second : b.isDigit with
    | false => exact heldNumber_other second _ []
    | true =>
      rw [heldNumber_digit second (by omega) (by omega)]
      have same : ((0 * 10 + digitValue a) * 10 + digitValue b : Int) = (number [a,b] : Int) := by
        simp [number,numberIn]
        omega
      rw [same]
      rfl

theorem heldSeconds_ok (sign : Char) {hours minutes : Nat} (few_hours : hours < 100) (few_minutes : minutes < 100) :
    heldSeconds sign hours minutes =
      .ok (if sign = '-' then -((hours * 60 + minutes) * 60 : Int) else (hours * 60 + minutes) * 60) := by
  have whole : held (hours * 60) = .ok (hours * 60 : Int) := held_ok (by omega) (by omega)
  have total : held (hours * 60 + minutes) = .ok (hours * 60 + minutes : Int) := held_ok (by omega) (by omega)
  have seconds : held ((hours * 60 + minutes) * 60) = .ok ((hours * 60 + minutes) * 60 : Int) :=
    held_ok (by omega) (by omega)
  have west : held (-((hours * 60 + minutes) * 60)) = .ok (-((hours * 60 + minutes) * 60) : Int) :=
    held_ok (by omega) (by omega)
  simp only [heldSeconds,whole,total,seconds,west,bind,Except.bind]
  split <;> rfl

-- A text of the shape, in ASCII digits.
def InShape (characters : List Char) : Prop :=
  ∃ sign a b c d, characters = [sign,a,b,':',c,d] ∧ (sign = '+' ∨ sign = '-') ∧
    (a.isDigit = true ∧ b.isDigit = true) ∧ c.isDigit = true ∧ d.isDigit = true

theorem read_inShape {characters : List Char} {offset : Offset} (read : read? characters = some offset) :
    InShape characters := by
  obtain ⟨sign,a,b,c,d,split,hours,minutes,_,signed⟩ := read_iff.mp read
  exact ⟨sign,a,b,c,d,split,signed.imp And.left And.left,hours,minutes⟩

theorem readHeld_inShape {characters : List Char} (shaped : InShape (trim characters)) (foreign : Char → Bool) :
    readHeld foreign characters = (read? (trim characters)).elim (.error .refused) .ok := by
  obtain ⟨sign,a,b,c,d,split,signed,⟨a_digit,b_digit⟩,c_digit,d_digit⟩ := shaped
  have readHours : twoDigits [a,b,':',c,d] = some (number [a,b],[':',c,d]) :=
    twoDigits_eq_some_iff.mpr ⟨a,b,rfl,a_digit,b_digit,rfl⟩
  have readMinutes : twoDigits [c,d] = some (number [c,d],[]) :=
    twoDigits_eq_some_iff.mpr ⟨c,d,rfl,c_digit,d_digit,rfl⟩
  have taken : parts foreign [sign,a,b,':',c,d] = .ok (sign,[a,b],[c,d]) := by
    simp [parts,signed,a_digit,b_digit,c_digit,d_digit]
  have seconds := heldSeconds_ok sign (twoDigits_lt readHours) (twoDigits_lt readMinutes)
  simp only [readHeld,split,taken,heldNumber_pair,a_digit,b_digit,c_digit,d_digit,seconds,read?,readHours,readMinutes,
    bind,Except.bind,Bool.and_self,if_true]
  by_cases many : 60 ≤ number [c,d]
  · rw [if_pos (by omega),if_pos many]
    rfl
  · rw [if_neg (by omega),if_neg many]
    rcases signed with rfl | rfl
    · rw [if_neg (show ('+' ≠ '-') by decide),if_pos rfl]
    · rw [if_pos rfl,if_neg (show ('-' ≠ '+') by decide),if_pos rfl]

-- Every number finds its place, whichever foreign digits there are: these have the shape, but no value.
theorem readHeld_eq (foreign : Char → Bool) (characters : List Char) :
    readHeld foreign characters = (read? (trim characters)).elim (.error .refused) .ok := by
  by_cases shaped : InShape (trim characters)
  · exact readHeld_inShape shaped foreign
  · have unread : read? (trim characters) = none :=
      Option.eq_none_iff_forall_ne_some.mpr fun offset read => shaped (read_inShape read)
    rw [unread]
    unfold readHeld parts
    split
    · rename_i sign a b c d split
      split
      · rename_i taken
        simp only [bind,Except.bind,heldNumber_pair]
        by_cases hours : (a.isDigit && b.isDigit) = true
        · have minutes : (c.isDigit && d.isDigit) = false := by
            refine Bool.eq_false_iff.mpr fun minutes => shaped ?_
            exact ⟨sign,a,b,c,d,split,taken.1,Bool.and_eq_true_iff.mp hours,Bool.and_eq_true_iff.mp minutes⟩
          rw [if_pos hours,minutes]
          rfl
        · rw [if_neg hours]
          rfl
      · rfl
    · rfl

-- Hours and minutes of the distance from UTC, whichever way it goes.
def figures (offset : Offset) : String :=
  padded 2 (offset.seconds.natAbs / 3600) ++ ":" ++ padded 2 (offset.seconds.natAbs / 60 % 60)

-- An offset written with its sign. UTC itself can be written with either.
inductive Signed (offset : Offset) : String → Prop where
  | east (forward : 0 ≤ offset.seconds) : Signed offset ("+" ++ offset.figures)
  | west (backward : offset.seconds ≤ 0) : Signed offset ("-" ++ offset.figures)

theorem text_signed {offset : Offset} (whole : offset.seconds % 60 = 0) : Signed offset offset.text := by
  have no_seconds : offset.seconds.natAbs % 60 = 0 := by omega
  have written (sign : String) : sign ++ padded 2 (offset.seconds.natAbs / 3600) ++ ":" ++
      padded 2 (offset.seconds.natAbs / 60 % 60) = sign ++ offset.figures := by
    simp [figures,String.append_assoc]
  unfold Offset.text
  dsimp only
  rw [if_pos no_seconds,written]
  by_cases backward : offset.seconds < 0
  · rw [if_pos backward]
    exact .west (Int.le_of_lt backward)
  · rw [if_neg backward]
    exact .east (Int.not_lt.mp backward)

theorem padded_pair (small : n < 60) :
    ∃ a b, (padded 2 n).toList = [a,b] ∧ a.isDigit = true ∧ b.isDigit = true ∧ number [a,b] = n := by
  obtain ⟨a,b,split,first,second,same⟩ := twoDigits_eq_some_iff.mp (ClockText.minute_digits ⟨n,small⟩)
  exact ⟨a,b,split,first,second,same.symm⟩

theorem Signed.spelled {offset : Offset} (whole : offset.seconds % 60 = 0) (signed : Signed offset written) :
    Spelled offset.seconds written.toList := by
  have within := offset.within_day
  unfold secondsPerDay at within
  have few_hours : offset.seconds.natAbs / 3600 < 24 := by omega
  have few_minutes : offset.seconds.natAbs / 60 % 60 < 60 := by omega
  obtain ⟨a,b,hours,a_digit,b_digit,hour⟩ := padded_pair (Nat.lt_trans few_hours (by decide))
  obtain ⟨c,d,minutes,c_digit,d_digit,minute⟩ := padded_pair few_minutes
  have digits : ∀ x ∈ [a,b,c,d], x.isDigit = true := by simp [a_digit,b_digit,c_digit,d_digit]
  have figured : offset.figures.toList = [a,b,':',c,d] := by
    simp [figures,String.toList_append,hours,minutes]
  cases signed with
  | east forward =>
    have total : offset.seconds = (number [a,b] * 3600 + number [c,d] * 60 : Nat) := by omega
    rw [String.toList_append,figured,total]
    exact .east digits (by omega) (by omega)
  | west backward =>
    have total : offset.seconds = -(number [a,b] * 3600 + number [c,d] * 60 : Nat) := by omega
    rw [String.toList_append,figured,total]
    exact .west digits (by omega) (by omega)

-- Which texts are read as an offset, and as which one; the numbers on the way stay in 32 bits. All other texts
-- are refused as they were given. An offset of whole minutes is read again from every text that writes it.
theorem offset_texts (given : String) :
    (∀ total, (parse? given).map seconds = some total ↔ Named total given.toList) ∧
    (∀ foreign, readHeld foreign given.toList = (parse? given).elim (.error .refused) .ok) ∧
    (∀ offset, Offset.parse given = .ok offset ↔ Named offset.seconds given.toList) ∧
    (∀ failure, Offset.parse given = .error failure ↔
      (∀ total, ¬Named total given.toList) ∧ failure = .invalidOffset given) ∧
    ∀ offset : Offset, offset.seconds % 60 = 0 → Signed offset offset.text ∧
      ∀ front written back, Signed offset written → Blanks front.toList → Blanks back.toList →
        given = front ++ written ++ back → Offset.parse given = .ok offset := by
  refine ⟨fun total => parse?_seconds,fun foreign => readHeld_eq foreign given.toList,fun offset => parse_ok_iff,?_,?_⟩
  · intro failure
    rw [parse_error_iff,parse?_none]
  · intro offset whole
    refine ⟨text_signed whole,?_⟩
    rintro front written back signed before behind rfl
    rw [parse_ok_iff,String.toList_append,String.toList_append,List.append_assoc]
    exact .between before (signed.spelled whole) behind

theorem offset_texts_newfoundland :
    Signed ⟨-12600,by decide⟩ "-03:30" ∧ Blanks "\u3000".toList ∧ Blanks "\t\n".toList ∧
    Offset.parse "\u3000-03:30\t\n" = .ok ⟨-12600,by decide⟩ := by
  obtain ⟨signed,again⟩ := (offset_texts "\u3000-03:30\t\n").2.2.2.2 ⟨-12600,by decide⟩ (by decide)
  have before : Blanks "\u3000".toList := by simp [Blanks,isBlank]
  have behind : Blanks "\t\n".toList := by simp [Blanks,isBlank]
  exact ⟨signed,before,behind,again "\u3000" "-03:30" "\t\n" signed before behind rfl⟩

-- A digit of another script passes for a digit only as long as its value is not asked for.
example : parts (· == '\u0663') "+0\u0663:30".toList = .ok ('+',['0','\u0663'],['3','0']) ∧
    readHeld (· == '\u0663') "+0\u0663:30".toList = .error .refused := by decide

end Recurrence.Offset
