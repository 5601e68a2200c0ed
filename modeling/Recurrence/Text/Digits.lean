namespace Recurrence.Text

-- Digits are ASCII only, everywhere: the decimal digits of other scripts are ordinary characters.
-- Letters up to `f` count on for bases above ten; any other character is worth nothing.
def digitValue (c : Char) : Nat :=
  if c.isDigit then c.toNat - 48
  else if 'a' ≤ c ∧ c ≤ 'f' then c.toNat - 87
  else if 'A' ≤ c ∧ c ≤ 'F' then c.toNat - 55
  else 0

def isDigitIn (base : Nat) (c : Char) : Bool :=
  (c.isDigit || ('a' ≤ c && c ≤ 'f') || ('A' ≤ c && c ≤ 'F')) && digitValue c < base

-- The number that a run of digits spells; the empty run spells zero.
def numberIn (base : Nat) (digits : List Char) : Nat :=
  digits.foldl (fun n c => base * n + digitValue c) 0
def number (digits : List Char) : Nat := numberIn 10 digits

-- Exactly two digits at the front, with the text behind them.
def twoDigits : List Char → Option (Nat × List Char)
  | a :: b :: rest => if a.isDigit && b.isDigit then some (number [a,b],rest) else none
  | _ => none

-- One or two digits at the front, two when there are two.
def oneOrTwoDigits : List Char → Option (Nat × List Char)
  | a :: rest =>
    match twoDigits (a :: rest) with
    | some read => some read
    | none => if a.isDigit then some (number [a],rest) else none
  | [] => none

-- Decimal text of at least `width` characters, filled up with zeros on the left.
def padded (width n : Nat) : String :=
  let digits := (toString n).toList
  String.ofList (List.replicate (width - digits.length) '0' ++ digits)

theorem digitValue_le {c : Char} (digit : c.isDigit = true) : digitValue c ≤ 9 := by
  have upper : c.toNat ≤ 57 := by
    simp only [Char.isDigit,Bool.and_eq_true,decide_eq_true_eq] at digit
    exact digit.2
  simp only [digitValue,digit,if_true]
  omega

theorem twoDigits_lt (read : twoDigits text = some (n,rest)) : n < 100 := by
  unfold twoDigits at read
  split at read
  · split at read
    · rename_i a b tail digits
      simp only [Option.some.injEq,Prod.mk.injEq] at read
      simp only [Bool.and_eq_true] at digits
      have ha := digitValue_le digits.1
      have hb := digitValue_le digits.2
      rw [← read.1]
      simp only [number,numberIn,List.foldl_cons,List.foldl_nil]
      omega
    · cases read
  · cases read

end Recurrence.Text
