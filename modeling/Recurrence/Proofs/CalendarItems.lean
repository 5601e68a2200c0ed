import Recurrence.Clause.Calendar

namespace Recurrence.Clause.Calendar

-- The two lists of a calendar clause are read the same way, each from the names of its kind.
inductive Kind where
  | weekday
  | month
deriving DecidableEq, Repr

namespace Kind

def field : Kind → Field
  | .weekday => .dayOfWeek
  | .month => .month

def value? : Kind → Name → Option Nat
  | .weekday,.day index => some index
  | .month,.month number => some number
  | _,_ => none

-- The list of this kind among the two sorted ones.
def sorted : Kind → List Part × List Part → List Part
  | .weekday,lists => lists.1
  | .month,lists => lists.2

-- Whether a range word goes to this kind, given whether it goes to the weekdays.
def takesRange : Kind → Bool → Bool
  | .weekday,inDays => inDays
  | .month,inDays => !inDays

end Kind

-- What sorting leaves to one kind. A name of the other kind turns range words away from it.
def partsOf (kind : Kind) : Bool → List Name → List Part
  | _,[] => []
  | takes,.range :: rest => if takes then .range :: partsOf kind takes rest else partsOf kind takes rest
  | _,name :: rest =>
    match kind.value? name with
    | some n => .value n :: partsOf kind true rest
    | none => partsOf kind false rest

theorem sorted_sort (kind : Kind) (inDays : Bool) (names : List Name) :
    kind.sorted (sort inDays names) = partsOf kind (kind.takesRange inDays) names := by
  induction names generalizing inDays with
  | nil => cases kind <;> rfl
  | cons name rest ih =>
    cases name with
    | day index => cases kind <;> simpa [sort,partsOf,Kind.sorted,Kind.value?,Kind.takesRange] using ih true
    | month number => cases kind <;> simpa [sort,partsOf,Kind.sorted,Kind.value?,Kind.takesRange] using ih false
    | range =>
      cases inDays with
      | true => cases kind <;> simpa [sort,partsOf,Kind.sorted,Kind.takesRange] using ih true
      | false => cases kind <;> simpa [sort,partsOf,Kind.sorted,Kind.takesRange] using ih false

theorem partsOf_value {kind : Kind} (known : kind.value? name = some n) (takes : Bool) (rest : List Name) :
    partsOf kind takes (name :: rest) = .value n :: partsOf kind true rest := by
  cases kind <;> cases name <;> cases known <;> rfl

theorem partsOf_other {kind : Kind} (known : kind.value? name = none) (solid : name ≠ .range) (takes : Bool)
    (rest : List Name) : partsOf kind takes (name :: rest) = partsOf kind false rest := by
  cases name with
  | range => exact absurd rfl solid
  | day index =>
    cases kind with
    | weekday => cases known
    | month => rfl
  | month number =>
    cases kind with
    | weekday => rfl
    | month => cases known

theorem partsOf_range (kind : Kind) (takes : Bool) (rest : List Name) : partsOf kind takes (.range :: rest) =
    if takes then .range :: partsOf kind takes rest else partsOf kind takes rest := rfl

-- The names of a kind in order, each with whether a range word stands directly behind it. Nothing
-- else about the other words matters to the items.
def marks (kind : Kind) : List Name → List (Nat × Bool)
  | [] => []
  | name :: rest =>
    match kind.value? name with
    | some n => (n,rest.head? == some .range) :: marks kind rest
    | none => marks kind rest

theorem marks_value {kind : Kind} (known : kind.value? name = some n) (rest : List Name) :
    marks kind (name :: rest) = (n,rest.head? == some .range) :: marks kind rest := by
  simp [marks,known]

theorem marks_other {kind : Kind} (known : kind.value? name = none) (rest : List Name) :
    marks kind (name :: rest) = marks kind rest := by
  simp [marks,known]

theorem value_range (kind : Kind) : kind.value? .range = none := by cases kind <;> rfl

theorem marks_skip {kind : Kind} (other : ∀ name ∈ front, kind.value? name = none) (rest : List Name) :
    marks kind (front ++ rest) = marks kind rest := by
  induction front with
  | nil => rfl
  | cons name front ih =>
    rw [List.cons_append,marks_other (other name List.mem_cons_self)]
    exact ih fun name member => other name (List.mem_cons_of_mem _ member)

theorem marks_silent {kind : Kind} (other : ∀ name ∈ names, kind.value? name = none) : marks kind names = [] := by
  have skipped := marks_skip other []
  rwa [List.append_nil] at skipped

-- What stands before the items found so far joins the first of them, or is an item of its own.
def push : Bool → List Nat → List (List Nat) → List (List Nat)
  | true,front,item :: items => (front ++ item) :: items
  | _,front,items => front :: items

-- The items from right to left: a name with a range word behind it joins the item that follows.
def group : List (Nat × Bool) → List (List Nat)
  | [] => []
  | (n,joined) :: rest => push joined [n] (group rest)

theorem push_push (flag joined : Bool) (front : List Nat) (n : Nat) (items : List (List Nat)) :
    push flag front (push joined [n] items) =
      if flag then push joined (front ++ [n]) items else front :: push joined [n] items := by
  cases flag <;> cases joined <;> cases items <;> simp [push]

-- The flag of the scan is that of the name before it: already set, or set by a range word directly
-- ahead. A range word further on has been turned away by a name of the other kind.
theorem itemsAfter_partsOf (kind : Kind) (takes joined : Bool) (item : List Nat) (names : List Name) :
    itemsAfter joined item (partsOf kind takes names) =
      push (joined || (takes && names.head? == some .range)) item (group (marks kind names)) := by
  induction names generalizing takes joined item with
  | nil => cases joined <;> simp [partsOf,itemsAfter,marks,group,push]
  | cons name rest ih =>
    cases known : kind.value? name with
    | some n =>
      have solid : ((name :: rest).head? == some .range) = false := by
        cases kind <;> cases name <;> cases known <;> rfl
      rw [partsOf_value known,marks_value known,group,push_push,solid,Bool.and_false,Bool.or_false]
      cases joined with
      | true => rw [itemsAfter,ih]; rfl
      | false => rw [itemsAfter,ih]; rfl
    | none =>
      rw [marks_other known]
      by_cases ranged : name = .range
      · subst ranged
        rw [partsOf_range]
        cases takes with
        | true => rw [if_pos rfl,itemsAfter,ih]; simp
        | false => rw [if_neg Bool.false_ne_true,ih]; simp
      · rw [partsOf_other known ranged,ih]
        have solid : ((name :: rest).head? == some .range) = false := by simpa using ranged
        rw [solid,Bool.false_and,Bool.and_false]

theorem items_partsOf (kind : Kind) (takes : Bool) (names : List Name) :
    items (partsOf kind takes names) = group (marks kind names) := by
  induction names generalizing takes with
  | nil => rfl
  | cons name rest ih =>
    cases known : kind.value? name with
    | some n => rw [partsOf_value known,marks_value known,items,itemsAfter_partsOf,group]; simp
    | none =>
      rw [marks_other known]
      by_cases ranged : name = .range
      · subst ranged
        rw [partsOf_range]
        cases takes with
        | true => rw [if_pos rfl,items,ih]
        | false => rw [if_neg Bool.false_ne_true,ih]
      · rw [partsOf_other known ranged,ih]

theorem items_sort (kind : Kind) (names : List Name) :
    items (kind.sorted (sort false names)) = group (marks kind names) := by
  rw [sorted_sort,items_partsOf]

theorem entries_eq (tokens : List Token) : entries tokens =
    entriesOf .dayOfWeek (Kind.weekday.sorted (sort false (tokens.filterMap nameOf))) ++
      entriesOf .month (Kind.month.sorted (sort false (tokens.filterMap nameOf))) := rfl

theorem group_cons (mark : Nat × Bool) (rest : List (Nat × Bool)) :
    ∃ item items, item ≠ [] ∧ group (mark :: rest) = item :: items := by
  obtain ⟨n,joined⟩ := mark
  unfold group
  unfold push
  split
  · exact ⟨_,_,by simp,rfl⟩
  · exact ⟨_,_,by simp,rfl⟩

theorem group_nonempty (member : item ∈ group marked) : item ≠ [] := by
  induction marked generalizing item with
  | nil => cases member
  | cons mark rest ih =>
    obtain ⟨n,joined⟩ := mark
    unfold group push at member
    split at member
    · rename_i first items split
      rcases List.mem_cons.mp member with rfl | later
      · simp
      · exact ih (by rw [split]; exact List.mem_cons_of_mem _ later)
    · rcases List.mem_cons.mp member with rfl | later
      · simp
      · exact ih later

theorem group_numbers (marked : List (Nat × Bool)) : (group marked).flatten = marked.map Prod.fst := by
  induction marked with
  | nil => rfl
  | cons mark rest ih =>
    obtain ⟨n,joined⟩ := mark
    rw [group,List.map_cons,← ih]
    cases joined with
    | false => rfl
    | true => cases group rest <;> rfl

theorem group_head_long (item : List Nat) (items : List (List Nat)) (grouped : group marked = item :: items) :
    2 ≤ item.length ↔ ∃ last, [true,last] <+: marked.map Prod.snd := by
  match marked,grouped with
  | [(n,joined)],grouped =>
    cases joined <;> cases grouped <;> simp
  | (n,false) :: mark :: rest,grouped =>
    cases grouped
    simp
  | (n,true) :: mark :: rest,grouped =>
    obtain ⟨next,others,nonempty,split⟩ := group_cons mark rest
    rw [group,split] at grouped
    cases grouped
    have more := List.length_pos_iff.mpr nonempty
    simp
    omega

theorem group_long (marked : List (Nat × Bool)) :
    (∃ item ∈ group marked, 2 < item.length) ↔ ∃ last, [true,true,last] <:+: marked.map Prod.snd := by
  induction marked with
  | nil => simp [group]
  | cons mark rest ih =>
    obtain ⟨n,joined⟩ := mark
    simp only [List.map_cons,List.infix_cons_iff,exists_or]
    rw [← ih,group]
    cases joined with
    | false => simp [push]
    | true =>
      cases rest with
      | nil => simp [group,push]
      | cons next others =>
        obtain ⟨item,items,_,split⟩ := group_cons next others
        have head := group_head_long item items split
        simp only [List.cons_prefix_cons,true_and]
        rw [← head,split]
        simp only [push,List.mem_cons,exists_eq_or_imp,List.length_append,List.length_singleton]
        constructor
        · rintro (long | later)
          · exact .inl (by omega)
          · exact .inr (.inr later)
        · rintro (long | long | later)
          · exact .inl (by omega)
          · exact .inl (by omega)
          · exact .inr later

-- Two names of a kind in a row, each with a range word directly behind it, and a third name of the kind.
def Chained (kind : Kind) (names : List Name) : Prop :=
  ∃ last, [true,true,last] <:+: (marks kind names).map Prod.snd

theorem chained_iff (kind : Kind) (names : List Name) :
    Chained kind names ↔ ∃ item ∈ items (kind.sorted (sort false names)), 2 < item.length := by
  rw [items_sort,group_long,Chained]

end Recurrence.Clause.Calendar
