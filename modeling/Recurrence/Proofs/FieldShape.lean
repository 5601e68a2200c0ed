import Recurrence.Proofs.Lexing

namespace Recurrence

theorem Field.mem_all (field : Field) : field ∈ Field.all := by cases field <;> decide

-- The grammar of a field. A number is written with digits, at least one.
def Numeral (text : List Char) : Prop := text ≠ [] ∧ ∀ c ∈ text, c.isDigit = true

instance (text : List Char) : Decidable (Numeral text) :=
  decidable_of_iff (text ≠ [] ∧ text.all Char.isDigit = true) (by simp [Numeral])

-- An item of a list is a number, or a range between two of them.
inductive Item : List Char → Prop where
  | number (written : Numeral text) : Item text
  | range (low : Numeral first) (high : Numeral last) : Item (first ++ '-' :: last)

inductive Shaped : List Char → Prop where
  | any : Shaped ['*']
  | list (nonempty : items ≠ []) (each : ∀ item ∈ items, Item item) : Shaped ([','].intercalate items)
  | steps (nonempty : numbers ≠ []) (each : ∀ number ∈ numbers, Numeral number) :
      Shaped ('*' :: '/' :: [','].intercalate numbers)
  | stride (low : Numeral first) (high : Numeral last) (step : Numeral distance) :
      Shaped (first ++ '-' :: (last ++ '/' :: distance))

theorem numeral_toString (n : Nat) : Numeral (toString n).toList := by
  have digits : (toString n).toList = Nat.toDigits 10 n := Nat.toList_repr
  rw [digits]
  exact ⟨Nat.toDigits_ne_nil,fun c inside => Nat.isDigit_of_mem_toDigits (by decide) (by decide) inside⟩

theorem digit_solid (digit : c.isDigit = true) : Text.isBlank c = false :=
  Phrase.isBlank_of_isWordChar (by simp [Phrase.isWordChar,digit])

theorem Numeral.figure (written : Numeral text) : ∃ c ∈ text, c.isDigit = true := by
  obtain ⟨c,rest,rfl⟩ := List.exists_cons_of_ne_nil written.1
  exact ⟨c,List.mem_cons_self,written.2 c List.mem_cons_self⟩

theorem Numeral.absent (written : Numeral text) (other : c.isDigit = false) : c ∉ text := by
  intro inside
  rw [written.2 c inside] at other
  cases other

theorem Numeral.count_hyphen (written : Numeral text) : text.count '-' = 0 :=
  List.count_eq_zero.mpr (written.absent (by decide))

theorem Item.no_comma (item : Item text) : ',' ∉ text := by
  cases item with
  | number written => exact written.absent (by decide)
  | range low high =>
    intro inside
    rcases List.mem_append.mp inside with inside | inside
    · exact low.absent (by decide) inside
    · rcases List.mem_cons.mp inside with same | inside
      · exact absurd same (by decide)
      · exact high.absent (by decide) inside

theorem Item.count_hyphen (item : Item text) : text.count '-' ≤ 1 := by
  cases item with
  | number written => rw [written.count_hyphen]; exact Nat.zero_le _
  | range low high => simp [low.count_hyphen,high.count_hyphen]

theorem Shaped.single_hyphens (shaped : Shaped text) : ∀ piece ∈ text.splitOn ',', piece.count '-' ≤ 1 := by
  have whole (piece : List Char) (solid : ',' ∉ piece) : piece.splitOn ',' = [piece] := by
    have single : ∀ other ∈ [piece], ',' ∉ other := by simpa using solid
    simpa using List.splitOn_intercalate ',' single (List.cons_ne_nil _ _)
  cases shaped with
  | any => rw [whole _ (by decide)]; decide
  | list nonempty each =>
    rw [List.splitOn_intercalate ',' (fun item member => (each item member).no_comma) nonempty]
    exact fun item member => (each item member).count_hyphen
  | @steps numbers nonempty each =>
    obtain ⟨first,rest,rfl⟩ := List.exists_cons_of_ne_nil nonempty
    have joined : '*' :: '/' :: [','].intercalate (first :: rest) =
        [','].intercalate (('*' :: '/' :: first) :: rest) := by
      cases rest <;> simp [List.intercalate_singleton,List.intercalate_cons_cons]
    have first_written := each first List.mem_cons_self
    have later (piece : List Char) (member : piece ∈ rest) := each piece (List.mem_cons_of_mem _ member)
    rw [joined,List.splitOn_intercalate ',' ?_ (List.cons_ne_nil _ _)]
    · intro piece member
      rcases List.mem_cons.mp member with rfl | member
      · simp [first_written.count_hyphen]
      · rw [(later piece member).count_hyphen]; exact Nat.zero_le _
    · intro piece member
      rcases List.mem_cons.mp member with rfl | member
      · simpa using first_written.absent (by decide)
      · exact (later piece member).absent (by decide)
  | stride low high step =>
    have no_comma := fun (text : List Char) (written : Numeral text) => written.absent (c := ',') (by decide)
    rw [whole _ (by simp [no_comma _ low,no_comma _ high,no_comma _ step])]
    simp [low.count_hyphen,high.count_hyphen,step.count_hyphen]

theorem Shaped.nonempty (shaped : Shaped text) : text ≠ [] := by
  cases shaped with
  | any => decide
  | @list items nonempty each =>
    obtain ⟨first,rest,rfl⟩ := List.exists_cons_of_ne_nil nonempty
    have some_text : first ≠ [] := by
      cases each first List.mem_cons_self with
      | number written => exact written.1
      | range low high => simp
    cases rest <;> simp [List.intercalate_singleton,List.intercalate_cons_cons,some_text]
  | steps nonempty each => simp
  | stride low high step => simp

namespace Entry

-- What clauses write: lists are never empty, and what is taken over from the phrase are numbers.
def WellMade : Entry → Prop
  | .any | .number _ | .alternate _ _ => True
  | .every intervals => intervals ≠ [] ∧ ∀ interval ∈ intervals, Numeral interval.toList
  | .listed items => items ≠ [] ∧ ∀ item ∈ items, item ≠ []
  | .days numbers => numbers ≠ [] ∧ ∀ number ∈ numbers, Numeral number.toList

-- The one thing they write that is no field: an item with more than two numbers.
def Chained : Entry → Prop
  | .listed items => ∃ item ∈ items, 2 < item.length
  | _ => False

theorem toList_commas (parts : List String) :
    (",".intercalate parts).toList = [','].intercalate (parts.map String.toList) := String.toList_intercalate

theorem itemText_toList (item : List Nat) :
    (itemText item).toList = ['-'].intercalate (item.map fun n => (toString n).toList) := by
  unfold itemText
  rw [String.toList_intercalate,List.map_map]
  rfl

theorem itemText_count (item : List Nat) : (itemText item).toList.count '-' = item.length - 1 := by
  rw [itemText_toList]
  induction item with
  | nil => rfl
  | cons n rest ih =>
    have digits := (numeral_toString n).count_hyphen
    cases rest with
    | nil => simpa [List.intercalate_singleton] using digits
    | cons m others =>
      rw [List.map_cons] at ih
      rw [List.map_cons,List.map_cons,List.intercalate_cons_cons,List.count_append,List.count_append,ih,digits]
      simp only [List.length_cons,List.count_singleton_self]
      omega

theorem mem_commas {parts : List String} (inside : c ∈ (",".intercalate parts).toList) :
    c = ',' ∨ ∃ part ∈ parts, c ∈ part.toList := by
  rw [toList_commas] at inside
  rcases Text.mem_of_intercalate inside with comma | ⟨text,listed,within⟩
  · exact .inl comma
  · obtain ⟨part,member,rfl⟩ := List.mem_map.mp listed
    exact .inr ⟨part,member,within⟩

theorem itemText_chars (item : List Nat) : ∀ c ∈ (itemText item).toList, c.isDigit = true ∨ c = '-' := by
  intro c inside
  rw [itemText_toList] at inside
  rcases Text.mem_of_intercalate inside with hyphen | ⟨digits,listed,within⟩
  · exact .inr hyphen
  · obtain ⟨n,_,rfl⟩ := List.mem_map.mp listed
    exact .inl ((numeral_toString n).2 c within)

theorem itemText_no_comma (item : List Nat) : ',' ∉ (itemText item).toList := by
  intro inside
  exact absurd (itemText_chars item ',' inside) (by decide)

theorem itemText_item (nonempty : item ≠ []) (short : item.length ≤ 2) : Item (itemText item).toList := by
  rw [itemText_toList]
  match item with
  | [n] =>
    have written := Item.number (numeral_toString n)
    rwa [List.map_singleton,List.intercalate_singleton]
  | [n,m] =>
    rw [List.map_cons,List.map_singleton,List.intercalate_cons_cons,List.intercalate_singleton,List.append_assoc]
    exact .range (numeral_toString n) (numeral_toString m)

theorem shaped_numbers {numbers : List String} (nonempty : numbers ≠ [])
    (written : ∀ number ∈ numbers, Numeral number.toList) : Shaped (",".intercalate numbers).toList := by
  rw [toList_commas]
  refine .list (by simpa using nonempty) ?_
  intro text member
  obtain ⟨number,inside,rfl⟩ := List.mem_map.mp member
  exact .number (written number inside)

theorem shaped_iff {entry : Entry} (made : entry.WellMade) : Shaped entry.text.toList ↔ ¬ entry.Chained := by
  cases entry with
  | any => exact ⟨fun _ => id,fun _ => .any⟩
  | number n =>
    have single : Shaped (",".intercalate [toString n]).toList := shaped_numbers (List.cons_ne_nil _ _) fun number member => by
      rw [List.mem_singleton.mp member]
      exact numeral_toString n
    exact ⟨fun _ => id,fun _ => single⟩
  | alternate low high =>
    have stride := Shaped.stride (numeral_toString low) (numeral_toString high) (numeral_toString 2)
    refine ⟨fun _ => id,fun _ => ?_⟩
    have written : (text (.alternate low high)).toList =
        (toString low).toList ++ '-' :: ((toString high).toList ++ '/' :: (toString 2).toList) := by
      simp only [text,String.toList_append,List.append_assoc]
      rfl
    rwa [written]
  | every intervals =>
    obtain ⟨nonempty,written⟩ := made
    refine ⟨fun _ => id,fun _ => ?_⟩
    have spelled : (text (.every intervals)).toList =
        '*' :: '/' :: [','].intercalate (intervals.map String.toList) := by
      simp only [text,String.toList_append,toList_commas]
      rfl
    rw [spelled]
    refine .steps (by simpa using nonempty) ?_
    intro text member
    obtain ⟨number,inside,rfl⟩ := List.mem_map.mp member
    exact written number inside
  | days numbers => exact ⟨fun _ => id,fun _ => shaped_numbers made.1 made.2⟩
  | listed items =>
    obtain ⟨nonempty,some_number⟩ := made
    have spelled : (text (.listed items)).toList = [','].intercalate (items.map fun item => (itemText item).toList) := by
      simp only [text,toList_commas,List.map_map]
      rfl
    rw [spelled]
    constructor
    · intro shaped ⟨item,member,long⟩
      have pieces := shaped.single_hyphens
      rw [List.splitOn_intercalate ',' ?_ (by simpa using nonempty)] at pieces
      · have single := pieces _ (List.mem_map_of_mem member)
        rw [itemText_count] at single
        omega
      · intro piece member
        obtain ⟨item,_,rfl⟩ := List.mem_map.mp member
        exact itemText_no_comma item
    · intro unchained
      refine .list (by simpa using nonempty) ?_
      intro piece member
      obtain ⟨item,inside,rfl⟩ := List.mem_map.mp member
      exact itemText_item (some_number item inside) (Nat.le_of_not_lt fun long => unchained ⟨item,inside,long⟩)

theorem figured {entry : Entry} (made : entry.WellMade) : entry = .any ∨ ∃ c ∈ entry.text.toList, c.isDigit = true := by
  cases entry with
  | any => exact .inl rfl
  | number n => exact .inr (numeral_toString n).figure
  | alternate low high =>
    obtain ⟨c,inside,digit⟩ := (numeral_toString low).figure
    refine .inr ⟨c,?_,digit⟩
    simp only [text,String.toList_append,List.append_assoc]
    exact List.mem_append_left _ inside
  | every intervals =>
    obtain ⟨first,rest,rfl⟩ := List.exists_cons_of_ne_nil made.1
    obtain ⟨c,inside,digit⟩ := (made.2 first List.mem_cons_self).figure
    refine .inr ⟨c,?_,digit⟩
    simp only [text,String.toList_append,toList_commas,List.map_cons]
    exact List.mem_append_right _ (Text.mem_intercalate List.mem_cons_self inside _)
  | days numbers =>
    obtain ⟨first,rest,rfl⟩ := List.exists_cons_of_ne_nil made.1
    obtain ⟨c,inside,digit⟩ := (made.2 first List.mem_cons_self).figure
    refine .inr ⟨c,?_,digit⟩
    simp only [text,toList_commas,List.map_cons]
    exact Text.mem_intercalate List.mem_cons_self inside _
  | listed items =>
    obtain ⟨item,rest,rfl⟩ := List.exists_cons_of_ne_nil made.1
    obtain ⟨n,others,rfl⟩ := List.exists_cons_of_ne_nil (made.2 item List.mem_cons_self)
    obtain ⟨c,inside,digit⟩ := (numeral_toString n).figure
    refine .inr ⟨c,?_,digit⟩
    simp only [text,toList_commas,List.map_cons]
    refine Text.mem_intercalate List.mem_cons_self ?_ _
    rw [itemText_toList,List.map_cons]
    exact Text.mem_intercalate List.mem_cons_self inside _

theorem visible {entry : Entry} (made : entry.WellMade) : ∃ c ∈ entry.text.toList, Text.isBlank c = false := by
  rcases figured made with rfl | ⟨c,inside,digit⟩
  · exact ⟨'*',by decide,by decide⟩
  · exact ⟨c,inside,digit_solid digit⟩

-- The characters that fields are written with.
def isTextChar (c : Char) : Bool := c.isDigit || ['*',',','-','/'].contains c

theorem isTextChar_digit (digit : c.isDigit = true) : isTextChar c = true := by simp [isTextChar,digit]

theorem isTextChar_solid (shown : isTextChar c = true) : Text.isBlank c = false := by
  simp only [isTextChar,Bool.or_eq_true,List.contains_iff_mem,List.mem_cons,List.not_mem_nil,or_false] at shown
  rcases shown with digit | rfl | rfl | rfl | rfl
  · exact digit_solid digit
  · decide
  · decide
  · decide
  · decide

theorem text_chars {entry : Entry} (made : entry.WellMade) : ∀ c ∈ entry.text.toList, isTextChar c = true := by
  intro c inside
  cases entry with
  | any => exact List.all_eq_true.mp (by decide) c inside
  | number n => exact isTextChar_digit ((numeral_toString n).2 c inside)
  | alternate low high =>
    simp only [text,String.toList_append,List.mem_append] at inside
    rcases inside with ((low_digit | hyphen) | high_digit) | stride
    · exact isTextChar_digit ((numeral_toString low).2 c low_digit)
    · exact List.all_eq_true.mp (by decide) c hyphen
    · exact isTextChar_digit ((numeral_toString high).2 c high_digit)
    · exact List.all_eq_true.mp (by decide) c stride
  | every intervals =>
    simp only [text,String.toList_append,List.mem_append] at inside
    rcases inside with steps | inside
    · exact List.all_eq_true.mp (by decide) c steps
    · rcases mem_commas inside with rfl | ⟨interval,member,within⟩
      · decide
      · exact isTextChar_digit ((made.2 interval member).2 c within)
  | days numbers =>
    rcases mem_commas inside with rfl | ⟨number,member,within⟩
    · decide
    · exact isTextChar_digit ((made.2 number member).2 c within)
  | listed items =>
    rcases mem_commas inside with rfl | ⟨text,listed,within⟩
    · decide
    · obtain ⟨item,_,rfl⟩ := List.mem_map.mp listed
      rcases itemText_chars item c within with digit | rfl
      · exact isTextChar_digit digit
      · decide

theorem text_sound {entry : Entry} (made : entry.WellMade) : SoundWord entry.text := by
  obtain ⟨c,inside,_⟩ := visible made
  refine ⟨fun empty => by simp [empty] at inside,fun c within => ?_⟩
  exact isTextChar_solid (text_chars made c within)

theorem text_any {entry : Entry} (made : entry.WellMade) : entry.text = Entry.any.text ↔ entry = .any := by
  refine ⟨fun star => (figured made).resolve_right ?_,fun same => by rw [same]⟩
  intro ⟨c,inside,digit⟩
  rw [star] at inside
  have same : c = '*' := List.mem_singleton.mp inside
  rw [same] at digit
  cases digit

end Entry

namespace Fields

def WellMade (fields : Fields) : Prop := ∀ field entry, fields.get field = some entry → entry.WellMade
def Chained (fields : Fields) (field : Field) : Prop := ∃ entry, fields.get field = some entry ∧ entry.Chained

theorem get_empty (field : Field) : ({} : Fields).get field = none := by cases field <;> rfl

theorem WellMade.empty : ({} : Fields).WellMade := by
  intro field entry known
  rw [get_empty] at known
  cases known

theorem shown_entry {fields : Fields} (known : fields.get field = some entry) (made : entry.WellMade) :
    fields.shown field = entry.text := by
  obtain ⟨c,inside,solid⟩ := Entry.visible made
  have visible : (Text.trim entry.text.toList).isEmpty = false := by
    rw [List.isEmpty_eq_false_iff]
    exact Text.trim_nonempty inside solid
  simp [shown,known,visible]

theorem shown_made {fields : Fields} (made : fields.WellMade) (field : Field) :
    ∃ entry : Entry, entry.WellMade ∧ fields.shown field = entry.text := by
  cases found : fields.get field with
  | none => exact ⟨.any,trivial,by simp [shown,found]⟩
  | some entry => exact ⟨entry,made field entry found,shown_entry found (made field entry found)⟩

theorem shown_sound {fields : Fields} (made : fields.WellMade) (field : Field) : SoundWord (fields.shown field) := by
  obtain ⟨entry,well,shown⟩ := shown_made made field
  rw [shown]
  exact Entry.text_sound well

theorem shown_any {fields : Fields} (made : fields.WellMade) (field : Field) :
    fields.shown field = Entry.any.text ↔ ∀ entry, fields.get field = some entry → entry = .any := by
  cases found : fields.get field with
  | none => simp [shown,found]
  | some entry =>
    rw [shown_entry found (made field entry found),Entry.text_any (made field entry found)]
    simp

theorem shown_shaped_iff {fields : Fields} (made : fields.WellMade) (field : Field) :
    Shaped (fields.shown field).toList ↔ ¬ fields.Chained field := by
  unfold Chained
  cases found : fields.get field with
  | none =>
    have open_field : fields.shown field = Entry.any.text := by simp [shown,found]
    rw [open_field]
    refine ⟨fun _ => ?_,fun _ => Shaped.any⟩
    intro ⟨entry,known,_⟩
    cases known
  | some entry =>
    have entry_made := made field entry found
    rw [shown_entry found entry_made,Entry.shaped_iff entry_made]
    simp

theorem shown_nonempty (fields : Fields) (field : Field) : fields.shown field ≠ "" := by
  unfold shown
  split
  · decide
  · split
    · decide
    · rename_i visible
      intro empty
      rw [empty] at visible
      exact visible rfl

end Fields
end Recurrence
