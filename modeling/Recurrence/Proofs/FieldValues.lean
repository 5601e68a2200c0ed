import Recurrence.Proofs.ListText

namespace Recurrence
open Text

-- The items of a field that is written without steps, each with its numbers.
def itemsIn (text : String) : List (List Nat) :=
  (runs (· == ',') text.toList).map fun item => (runs (· == '-') item).map number

-- The values of a field go round: a range holds all that come from its first to its last, also where
-- that passes the end, so `5-0` of the weekdays is Friday, Saturday and Sunday. This is how a range is read
-- here whose last value is below its first, in a field and in the words of a phrase alike; any other range
-- holds what lies between its ends.
def inItem (size : Nat) : List Nat → Nat → Bool
  | [n],value => value == n
  | [first,last],value => (value + size - first) % size ≤ (last + size - first) % size
  | _,_ => false

def inField (size : Nat) (text : String) (value : Nat) : Bool :=
  text == "*" || (itemsIn text).any fun item => inItem size item value

theorem itemsIn_listed {items : List (List Nat)} (made : (Entry.listed items).WellMade) :
    itemsIn (Entry.listed items).text = items := by
  have numerals (item : List Nat) : (runs (· == '-') (Entry.itemText item).toList).map number = item := by
    rw [Entry.itemText_toList,runs_intercalate (by decide),List.map_map]
    · exact (List.map_congr_left fun n _ => number_toString n).trans (List.map_id item)
    · intro digits member
      obtain ⟨n,_,rfl⟩ := List.mem_map.mp member
      refine ⟨(numeral_toString n).1,fun c inside => ?_⟩
      rw [beq_eq_false_iff_ne]
      rintro rfl
      exact (numeral_toString n).absent (by decide) inside
  unfold itemsIn
  rw [Entry.text,Entry.toList_commas,List.map_map,runs_intercalate (by decide),List.map_map]
  · exact (List.map_congr_left fun item _ => numerals item).trans (List.map_id items)
  · intro text member
    obtain ⟨item,among,rfl⟩ := List.mem_map.mp member
    constructor
    · intro empty
      have none_read := numerals item
      rw [show (Entry.itemText item).toList = [] from empty,runs_nil] at none_read
      exact made.2 item among none_read.symm
    · intro c inside
      rw [beq_eq_false_iff_ne]
      rintro rfl
      exact Entry.itemText_no_comma item inside

theorem inField_listed {items : List (List Nat)} (made : (Entry.listed items).WellMade) (size value : Nat) :
    inField size (Entry.listed items).text value = items.any fun item => inItem size item value := by
  have numbered : ((Entry.listed items).text == "*") = false := by
    rw [beq_eq_false_iff_ne]
    intro open_field
    have read := itemsIn_listed made
    rw [open_field] at read
    rw [← read] at open_field
    exact absurd open_field (by decide)
  unfold inField
  rw [numbered,itemsIn_listed made,Bool.false_or]

theorem inField_number (size n value : Nat) : inField size (toString n) value = (value == n) := by
  have single : toString n = (Entry.listed [[n]]).text := by
    simp [Entry.text,Entry.itemText,String.intercalate_singleton]
  rw [single,inField_listed ⟨by simp,by simp⟩]
  simp [inItem]

end Recurrence
