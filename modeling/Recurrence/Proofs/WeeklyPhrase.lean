import Recurrence.Proofs.DatedSchedule
import Recurrence.Proofs.SpokenClock

namespace Recurrence
open Clause.Calendar

namespace Phrase

theorem clean_comma (text : List Char) : (text ++ [',']).flatMap cleanChar = text.flatMap cleanChar := by
  have nothing : [','].flatMap cleanChar = [] := by decide
  rw [List.flatMap_append,nothing,List.append_nil]

end Phrase

namespace Weekly
open Dated Phrase

-- What stands between the ends of a range.
inductive Link where
  | upTo
  | through
  | hyphen

-- A weekday of a list, or a range of them, with the comma and the conjunction that may stand behind it.
structure Item where
  span : Span .weekday
  link : Link
  comma : Bool
  conjunction : Bool

def Link.joined : Link → Span kind → String
  | _,.single name => name.text
  | .upTo,.range first last => " ".intercalate [first.text,"to",last.text]
  | .through,.range first last => " ".intercalate [first.text,"through",last.text]
  | .hyphen,.range first last => first.text ++ "-" ++ last.text

namespace Item

def text (item : Item) : String := item.link.joined item.span ++ if item.comma then "," else ""
def parts (item : Item) : List String := item.text :: if item.conjunction then ["and"] else []

-- The tokens of a range do not show how it is written.
def tokens (item : Item) : List Token := item.span.words.map tokenOf ++ if item.conjunction then [.blank] else []

end Item

theorem through_plain : Plain "through" ∧ tokenOf "through" = .word Lexicon.range := by decide +kernel

theorem looked_three {first middle last : String} (first_plain : Plain first) (middle_plain : Plain middle)
    (last_plain : Plain last) : looked (" ".intercalate [first,middle,last]).toList = [first,middle,last].map tokenOf ∧
      Keyless (" ".intercalate [first,middle,last]).toList := by
  have spelled : (" ".intercalate [first,middle,last]).toList = first.toList ++ ' ' :: (middle.toList ++ ' ' :: last.toList) := by
    rw [toList_joined]
    simp [List.intercalate_cons_cons,List.intercalate_singleton]
  rw [spelled]
  constructor
  · rw [looked_space,looked_space,first_plain.looked_eq,middle_plain.looked_eq,last_plain.looked_eq]
    rfl
  · exact first_plain.keyless_text.space (middle_plain.keyless_text.space last_plain.keyless_text)

theorem Link.looked_joined (link : Link) (span : Span kind) :
    looked (link.joined span).toList = span.words.map tokenOf ∧ Keyless (link.joined span).toList := by
  have to_plain := fixed_plain "to" (by decide)
  cases span with
  | single name => exact ⟨name.plain.looked_eq,name.plain.keyless_text⟩
  | range first last =>
    have apart := looked_three first.plain to_plain last.plain
    cases link with
    | upTo => exact apart
    | through =>
      have spelled := looked_three first.plain through_plain.1 last.plain
      refine ⟨spelled.1.trans ?_,spelled.2⟩
      simp [Span.words,through_plain.2,fixed_words.2.2.2]
    | hyphen =>
      have same : (Link.hyphen.joined (.range first last)).toList.flatMap cleanChar =
          (" ".intercalate [first.text,"to",last.text]).toList.flatMap cleanChar := by
        have spelled : (Link.hyphen.joined (.range first last)).toList = first.text.toList ++ '-' :: last.text.toList := by
          unfold Link.joined
          rw [String.toList_append,String.toList_append,List.append_assoc]
          rfl
        rw [spelled,clean_hyphen,toList_joined]
        simp [List.intercalate_cons_cons,List.intercalate_singleton]
      exact ⟨(looked_same same).trans apart.1,apart.2.same same⟩

namespace Item

theorem looked_text (item : Item) : looked item.text.toList = item.span.words.map tokenOf ∧ Keyless item.text.toList := by
  obtain ⟨read,keyless⟩ := item.link.looked_joined item.span
  have same : item.text.toList.flatMap cleanChar = (item.link.joined item.span).toList.flatMap cleanChar := by
    unfold text
    rw [String.toList_append]
    split
    · exact clean_comma _
    · exact congrArg (List.flatMap cleanChar) (List.append_nil _)
  exact ⟨(looked_same same).trans read,keyless.same same⟩

theorem looked_parts (item : Item) :
    (item.parts.flatMap fun part => looked part.toList) = item.tokens ∧ ∀ part ∈ item.parts, Keyless part.toList := by
  obtain ⟨read,keyless⟩ := item.looked_text
  have and_plain := fixed_plain "and" (by decide)
  have and_looked : looked "and".toList = [.blank] := by rw [and_plain.looked_eq,fixed_words.2.2.1]
  unfold parts tokens
  constructor
  · rw [List.flatMap_cons,read]
    split
    · rw [List.flatMap_singleton,and_looked]
    · rfl
  · intro part member
    rcases List.mem_cons.mp member with rfl | member
    · exact keyless
    · split at member
      · rw [List.mem_singleton.mp member]
        exact and_plain.keyless_text
      · cases member

theorem tokens_names (item : Item) : item.tokens.filterMap nameOf = item.span.parsed := by
  unfold tokens
  rw [List.filterMap_append,item.span.names_words]
  split
  · exact List.append_nil _
  · exact List.append_nil _

theorem tokens_cases (item : Item) : ∀ token ∈ item.tokens, token = .blank ∨ ∃ name, nameOf token = some name := by
  intro token member
  rcases List.mem_append.mp member with member | member
  · obtain ⟨word,inside,rfl⟩ := List.mem_map.mp member
    exact .inr (Span.word_named inside)
  · split at member
    · exact .inl (List.mem_singleton.mp member)
    · cases member

end Item

-- The zone of a clock time: none is said, or one is named by its abbreviation in whatever case, or an
-- offset east of UTC is written out.
inductive Zone where
  | unsaid
  | named (name written : String) (known : Lexicon.zones.lookup (String.ofList (lowered name)) = some written)
  | east (written : String) (plus : written.toList.head? = some '+') (good : (Offset.read? written.toList).isSome = true)

theorem zones_read : ∀ entry ∈ Lexicon.zones, (Offset.read? entry.2.toList).isSome = true := by decide +kernel

theorem lookup_mem {entries : List (String × String)} (known : entries.lookup name = some written) :
    (name,written) ∈ entries := by
  obtain ⟨before,after,split,_⟩ := List.lookup_eq_some_iff.mp known
  rw [split]
  simp

theorem lookup_mapped (entries : List (String × String)) (name : String) :
    (entries.map fun entry => (entry.1,Token.word entry.2)).lookup name = (entries.lookup name).map .word := by
  induction entries with
  | nil => rfl
  | cons entry rest ih =>
    rw [List.map_cons,List.lookup_cons,List.lookup_cons,ih]
    split <;> rfl

theorem zones_apart : ∀ entry ∈ Lexicon.spellings,
    5 < entry.1.utf8ByteSize ∨ entry.1 ∉ Lexicon.zones.map Prod.fst := by decide +kernel

theorem zones_short : ∀ entry ∈ Lexicon.zones, entry.1.utf8ByteSize ≤ 5 := by decide +kernel

theorem resolve_zone (known : Lexicon.zones.lookup name = some written) : Lexicon.resolve name = .word written := by
  have listed := lookup_mem known
  have unspelled : Lexicon.spellings.lookup name = none := by
    cases found : Lexicon.spellings.lookup name with
    | none => rfl
    | some other =>
      have short : name.utf8ByteSize ≤ 5 := zones_short _ listed
      rcases zones_apart _ (lookup_mem found) with long | absent
      · exact absurd long (Nat.not_lt.mpr short)
      · exact absurd (List.mem_map_of_mem listed) absent
  unfold Lexicon.resolve Lexicon.synonyms
  rw [List.lookup_append,List.lookup_append,lookup_mapped,List.lookup_append,List.lookup_append,unspelled,known]
  rfl

theorem zones_written : ∀ entry ∈ Lexicon.zones, entry.1.toList ≠ [] ∧ entry.1.toList.all isWordChar = true ∧
    entry.1.toList.length ≤ 5 ∧ ¬ "new".toList <:+: entry.1.toList ∧ ¬ "daily".toList <:+: entry.1.toList := by
  decide +kernel

theorem zone_plain {name : String} (known : (String.ofList (lowered name),written) ∈ Lexicon.zones) : Plain name := by
  have long : ∀ key ∈ keys, 5 < key.toList.length ∨ key = "new" ∨ key = "daily" := by decide
  have table := zones_written _ known
  rw [String.toList_ofList] at table
  obtain ⟨nonempty,isWord,short,no_new,no_daily⟩ := table
  refine ⟨?_,List.all_eq_true.mp isWord,?_⟩
  · rintro rfl
    exact nonempty rfl
  · intro key listed inside
    rcases long key listed with long | rfl | rfl
    · have fits := inside.length_le
      omega
    · exact no_new inside
    · exact no_daily inside

namespace Zone

def parts : Zone → List String
  | .unsaid => []
  | .named name .. => [name]
  | .east written .. => [written]

def said : Zone → List String
  | .unsaid => []
  | .named _ written _ => [written]
  | .east written .. => [written]

def stated : Zone → Option Offset
  | .unsaid => none
  | .named _ written _ => Offset.read? written.toList
  | .east written .. => Offset.read? written.toList

theorem said_cases (zone : Zone) : zone.said = [] ∧ zone.stated = none ∨
    ∃ written offset, zone.said = [written] ∧ zone.stated = some offset ∧ Offset.read? written.toList = some offset := by
  cases zone with
  | unsaid => exact .inl ⟨rfl,rfl⟩
  | named name written known =>
    obtain ⟨offset,read⟩ := Option.isSome_iff_exists.mp (zones_read _ (lookup_mem known))
    exact .inr ⟨written,offset,rfl,read,read⟩
  | east written plus good =>
    obtain ⟨offset,read⟩ := Option.isSome_iff_exists.mp good
    exact .inr ⟨written,offset,rfl,read,read⟩

end Zone

theorem offset_unused {written : String} (read : Offset.read? written.toList = some offset) : Unused written := by
  obtain ⟨sign,a,b,c,d,spelled,_⟩ := Offset.read_iff.mp read
  refine ⟨?_,(ClockText.Ending.present read).onFace,?_⟩
  · rintro rfl
    cases spelled
  · rintro rfl
    cases spelled

theorem east_unbroken {written : String} (plus : written.toList.head? = some '+')
    (read : Offset.read? written.toList = some offset) : Unbroken written := by
  have unused := offset_unused read
  refine ⟨unused.nonempty,unused.onDial,?_⟩
  obtain ⟨sign,a,b,c,d,spelled,⟨a_digit,b_digit⟩,⟨c_digit,d_digit⟩,_,_⟩ := Offset.read_iff.mp read
  have apart {e : Char} (digit : e.isDigit = true) : '-' ≠ e := by rintro rfl; exact absurd digit (by decide)
  rw [spelled] at plus ⊢
  cases plus
  simp [apart a_digit,apart b_digit,apart c_digit,apart d_digit]

namespace Zone

theorem looked_parts (zone : Zone) : (zone.parts.flatMap fun part => looked part.toList) = zone.said.map .word ∧
    ∀ part ∈ zone.parts, Keyless part.toList := by
  cases zone with
  | unsaid => exact ⟨rfl,by simp [parts]⟩
  | named name written known =>
    have plain := zone_plain (lookup_mem known)
    have token : tokenOf name = .word written := resolve_zone known
    refine ⟨?_,by simpa [parts] using plain.keyless_text⟩
    rw [parts,List.flatMap_singleton,plain.looked_eq,token]
    rfl
  | east written plus good =>
    obtain ⟨offset,read⟩ := Option.isSome_iff_exists.mp good
    have unbroken := east_unbroken plus read
    refine ⟨?_,by simpa [parts] using unbroken.plain.keyless_text⟩
    rw [parts,List.flatMap_singleton,unbroken.plain.looked_eq,unbroken.tokenOf_eq]
    rfl

theorem said_unused (zone : Zone) : ∀ word ∈ zone.said, Unused word := by
  rcases zone.said_cases with ⟨none_said,_⟩ | ⟨written,offset,single,_,read⟩
  · simp [none_said]
  · simpa [single] using offset_unused read

theorem ending (zone : Zone) : ∃ gap last, Text.Blanks gap ∧ ClockText.Ending zone.stated last ∧
    ∀ front : String, (" ".intercalate (front :: zone.said)).toList = front.toList ++ (gap ++ last) := by
  rcases zone.said_cases with ⟨none_said,unstated⟩ | ⟨written,offset,single,stated,read⟩
  · rw [none_said,unstated]
    refine ⟨[],[],by simp [Text.Blanks],.absent,fun front => ?_⟩
    rw [toList_joined]
    simp [List.intercalate_singleton]
  · rw [single,stated]
    refine ⟨[' '],written.toList,by simp [Text.Blanks]; decide,.present read,fun front => ?_⟩
    rw [toList_joined]
    simp [List.intercalate_cons_cons,List.intercalate_singleton]

end Zone
end Weekly
end Recurrence
