import Recurrence.TimeOfDay

namespace Recurrence.Text

theorem twoDigits_eq_some_iff {n : Nat} : twoDigits text = some (n,rest) ↔
    ∃ a b, text = a :: b :: rest ∧ a.isDigit = true ∧ b.isDigit = true ∧ n = number [a,b] := by
  constructor
  · intro read
    unfold twoDigits at read
    split at read
    · split at read
      · rename_i a b tail digits
        cases read
        rw [Bool.and_eq_true] at digits
        exact ⟨a,b,rfl,digits.1,digits.2,rfl⟩
      · cases read
    · cases read
  · rintro ⟨a,b,rfl,first,second,rfl⟩
    simp [twoDigits,first,second]

theorem oneOrTwoDigits_parts (read : oneOrTwoDigits text = some (n,rest)) :
    ∃ digits, text = digits ++ rest ∧ digits ≠ [] ∧ digits.length ≤ 2 ∧
      (∀ c ∈ digits, c.isDigit = true) ∧ n = number digits := by
  unfold oneOrTwoDigits at read
  split at read
  · rename_i a tail
    split at read
    · rename_i pair found
      cases read
      obtain ⟨a,b,split,first,second,rfl⟩ := twoDigits_eq_some_iff.mp found
      exact ⟨[a,b],split,by simp,by simp,by simp [first,second],rfl⟩
    · split at read
      · rename_i digit
        cases read
        exact ⟨[a],rfl,by simp,by simp,by simpa using digit,rfl⟩
      · cases read
  · cases read

theorem trimStart_parts (text : List Char) :
    ∃ blanks, text = blanks ++ trimStart text ∧ ∀ c ∈ blanks, isBlank c = true :=
  ⟨text.takeWhile isBlank,List.takeWhile_append_dropWhile.symm,List.all_eq_true.mp List.all_takeWhile⟩

theorem trimEnd_parts (text : List Char) :
    ∃ blanks, text = trimEnd text ++ blanks ∧ ∀ c ∈ blanks, isBlank c = true := by
  obtain ⟨blanks,split,blank⟩ := trimStart_parts text.reverse
  refine ⟨blanks.reverse,?_,by simpa using blank⟩
  have turned := congrArg List.reverse split
  rwa [List.reverse_reverse,List.reverse_append] at turned

theorem trim_parts (text : List Char) : ∃ front back, text = front ++ (trim text ++ back) ∧
    (∀ c ∈ front, isBlank c = true) ∧ ∀ c ∈ back, isBlank c = true := by
  obtain ⟨front,leading,before⟩ := trimStart_parts text
  obtain ⟨back,trailing,behind⟩ := trimEnd_parts (trimStart text)
  exact ⟨front,back,leading.trans (congrArg (front ++ ·) trailing),before,behind⟩

end Recurrence.Text

namespace Recurrence.ClockText
open Text

-- What a clock time is written with, blanks apart.
def isClockChar (c : Char) : Bool :=
  c.isDigit || c == ':' || c == '+' || c == '-' || c == 'a' || c == 'p' || c == 'm'

def OnClock (c : Char) : Prop := isClockChar c = true ∨ isBlank c = true

theorem onClock_digit (digit : c.isDigit = true) : OnClock c := .inl (by simp [isClockChar,digit])

-- A part of a clock time was read: what stood in front of the rest is written with these characters.
def Spends (text rest : List Char) : Prop := ∃ front, text = front ++ rest ∧ ∀ c ∈ front, OnClock c

theorem Spends.refl (text : List Char) : Spends text text := ⟨[],rfl,by simp⟩

theorem Spends.trans (first : Spends text middle) (second : Spends middle rest) : Spends text rest := by
  obtain ⟨front,rfl,onFront⟩ := first
  obtain ⟨back,rfl,onBack⟩ := second
  refine ⟨front ++ back,by rw [List.append_assoc],?_⟩
  intro c inside
  rcases List.mem_append.mp inside with inside | inside
  · exact onFront c inside
  · exact onBack c inside

theorem Spends.all (spends : Spends text rest) (onRest : ∀ c ∈ rest, OnClock c) : ∀ c ∈ text, OnClock c := by
  obtain ⟨front,rfl,onFront⟩ := spends
  intro c inside
  rcases List.mem_append.mp inside with inside | inside
  · exact onFront c inside
  · exact onRest c inside

theorem spends_trimStart (text : List Char) : Spends text (trimStart text) := by
  obtain ⟨blanks,split,blank⟩ := trimStart_parts text
  exact ⟨blanks,split,fun c inside => .inr (blank c inside)⟩

theorem spends_twoDigits (read : twoDigits text = some (n,rest)) : Spends text rest := by
  obtain ⟨a,b,rfl,first,second,_⟩ := twoDigits_eq_some_iff.mp read
  refine ⟨[a,b],rfl,?_⟩
  intro c inside
  rcases List.mem_cons.mp inside with rfl | inside
  · exact onClock_digit first
  · exact onClock_digit (List.mem_singleton.mp inside ▸ second)

theorem spends_oneOrTwoDigits (read : oneOrTwoDigits text = some (n,rest)) : Spends text rest := by
  obtain ⟨digits,split,_,_,all,_⟩ := oneOrTwoDigits_parts read
  exact ⟨digits,split,fun c inside => onClock_digit (all c inside)⟩

theorem spends_cons (onClock : isClockChar c = true) (spends : Spends text rest) : Spends (c :: text) rest := by
  obtain ⟨front,rfl,onFront⟩ := spends
  refine ⟨c :: front,rfl,?_⟩
  intro d inside
  rcases List.mem_cons.mp inside with rfl | inside
  · exact .inl onClock
  · exact onFront d inside

theorem spends_colonPair (text : List Char) : Spends text (colonPair text).2 := by
  unfold colonPair
  split
  · split
    · rename_i rest n tail read
      exact spends_cons (by decide) (spends_twoDigits read)
    · exact .refl _
  · exact .refl _

theorem spends_halfOfDay (text : List Char) : Spends text (halfOfDay text).2 := by
  unfold halfOfDay
  split
  · exact spends_cons (by decide) (spends_cons (by decide) (.refl _))
  · exact spends_cons (by decide) (spends_cons (by decide) (.refl _))
  · exact .refl _

theorem offset_chars {offset : Offset} (read : Offset.read? text = some offset) : ∀ c ∈ text, OnClock c := by
  unfold Offset.read? at read
  split at read
  · rename_i sign rest
    split at read
    · rename_i hours tail readHours
      split at read
      · rename_i minutes readMinutes
        dsimp only at read
        have signed : isClockChar sign = true := by
          split at read
          · cases read
          · split at read
            · rename_i plus; rw [plus]; decide
            · split at read
              · rename_i minus; rw [minus]; decide
              · cases read
        have spends : Spends (sign :: rest) [] := spends_cons signed
          ((spends_twoDigits readHours).trans (spends_cons (by decide) (spends_twoDigits readMinutes)))
        exact spends.all (by simp)
      · cases read
    · cases read
  · simp

theorem closing_chars {offset : Option Offset} (read : closing text = some offset) : ∀ c ∈ text, OnClock c := by
  unfold closing at read
  split at read
  · simp
  · obtain ⟨found,known,_⟩ := Option.map_eq_some_iff.mp read
    exact offset_chars known

-- Seconds stand only behind minutes.
def seconds (minute : Option Nat) (rest : List Char) : Option Nat × List Char :=
  if minute.isSome then colonPair rest else (none,rest)

theorem spends_seconds (minute : Option Nat) (rest : List Char) : Spends rest (seconds minute rest).2 := by
  unfold seconds
  split
  · exact spends_colonPair rest
  · exact .refl _

theorem read_parts {clock : ClockText} (read : read? text = some clock) :
    ∃ afterHour, oneOrTwoDigits (trim text) = some (clock.hour,afterHour) ∧
      clock.minute = (colonPair afterHour).1 ∧
      ∃ afterSecond, seconds clock.minute (colonPair afterHour).2 = (clock.second,afterSecond) ∧
        clock.half = (halfOfDay (trimStart afterSecond)).1 ∧
        closing (trimStart (halfOfDay (trimStart afterSecond)).2) = some clock.offset := by
  unfold read? at read
  obtain ⟨⟨hour,afterHour⟩,readHour,read⟩ := Option.bind_eq_some_iff.mp read
  obtain ⟨offset,closed,read⟩ := Option.bind_eq_some_iff.mp read
  cases read
  exact ⟨afterHour,readHour,rfl,_,rfl,rfl,closed⟩

theorem read_chars {clock : ClockText} (read : read? text = some clock) : ∀ c ∈ text, OnClock c := by
  obtain ⟨afterHour,readHour,_,afterSecond,readSecond,_,closed⟩ := read_parts read
  have spent := spends_seconds clock.minute (colonPair afterHour).2
  rw [readSecond] at spent
  have inside : ∀ c ∈ trim text, OnClock c :=
    ((spends_oneOrTwoDigits readHour).trans <| (spends_colonPair _).trans <| spent.trans <|
      (spends_trimStart _).trans <| (spends_halfOfDay _).trans (spends_trimStart _)).all (closing_chars closed)
  obtain ⟨blanks,split,blank⟩ := trimEnd_parts (trimStart text)
  apply (spends_trimStart text).all
  intro c member
  rw [split] at member
  rcases List.mem_append.mp member with member | member
  · exact inside c member
  · exact .inr (blank c member)

end Recurrence.ClockText
