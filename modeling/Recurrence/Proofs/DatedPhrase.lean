import Recurrence.Proofs.Figures
import Recurrence.Proofs.Silence

namespace Recurrence.Dated
open Clause.Calendar

-- Weekdays and months by the names that a phrase can use, abbreviated and in full, and the weekdays in the
-- plural as well, with their numbers.
def names : Kind → List (String × Nat)
  | .weekday => [
    ("sun",0), ("mon",1), ("tue",2), ("wed",3), ("thu",4), ("fri",5), ("sat",6),
    ("sunday",0), ("monday",1), ("tuesday",2), ("wednesday",3), ("thursday",4), ("friday",5), ("saturday",6),
    ("sundays",0), ("mondays",1), ("tuesdays",2), ("wednesdays",3), ("thursdays",4), ("fridays",5), ("saturdays",6)]
  | .month => [
    ("jan",1), ("feb",2), ("mar",3), ("apr",4), ("may",5), ("jun",6),
    ("jul",7), ("aug",8), ("sep",9), ("oct",10), ("nov",11), ("dec",12),
    ("january",1), ("february",2), ("march",3), ("april",4), ("may",5), ("june",6),
    ("july",7), ("august",8), ("september",9), ("october",10), ("november",11), ("december",12)]

-- A name as it is written, in whatever case, and the number it stands for.
structure Spoken (kind : Kind) where
  text : String
  number : Nat
  known : (String.ofList (Phrase.lowered text),number) ∈ names kind

inductive Span (kind : Kind) where
  | single (name : Spoken kind)
  | range (first last : Spoken kind)

namespace Span

def words : Span kind → List String
  | .single name => [name.text]
  | .range first last => [first.text,"to",last.text]

-- How the span stands in a field.
def numbered : Span kind → String
  | .single name => toString name.number
  | .range first last => toString first.number ++ "-" ++ toString last.number

end Span

-- A time of day, days of the month, months and weekdays, none of the lists empty.
structure Request where
  hour : Fin 24
  minute : Fin 60
  days : List String
  months : List (Span .month)
  weekdays : List (Span .weekday)
  numerals : ∀ day ∈ days, Numeral day.toList
  some_day : days ≠ []
  some_month : months ≠ []
  some_weekday : weekdays ≠ []

namespace Request

-- The words of a list, with `and` between its items.
def listed (items : List (List String)) : List String := ["and"].intercalate items

def timeWords (request : Request) : List String := ["at",ClockText.clockWord request.hour request.minute]
def dateWords (request : Request) : List String :=
  "on" :: (listed (request.days.map ([·])) ++ listed (request.months.map Span.words) ++
    "on" :: listed (request.weekdays.map Span.words))

-- Both orders of the clauses, as in `at 5:07 on 1 and 15 january on monday to friday`.
def timeFirst (request : Request) : String := " ".intercalate (request.timeWords ++ request.dateWords)
def dateFirst (request : Request) : String := " ".intercalate (request.dateWords ++ request.timeWords)

-- What the phrase spells.
def schedule (request : Request) : Schedule where
  minute := toString request.minute.val
  hour := toString request.hour.val
  dayOfMonth := ",".intercalate request.days
  month := ",".intercalate (request.months.map Span.numbered)
  dayOfWeek := ",".intercalate (request.weekdays.map Span.numbered)
  unparsed := ""

end Request

-- The name as the calendar reads it.
def named : Kind → Nat → Name
  | .weekday,index => .day index
  | .month,number => .month number

theorem value_named (kind : Kind) (n : Nat) : kind.value? (named kind n) = some n := by cases kind <;> rfl

namespace Spoken

theorem names_plain (kind : Kind) : ∀ entry ∈ names kind,
    entry.1 ≠ "" ∧ entry.1.toList.all Phrase.isWordChar = true ∧
      (∀ key ∈ Phrase.keys, ¬ key.toList <:+: entry.1.toList) := by
  cases kind <;> decide +kernel

theorem names_named (kind : Kind) : ∀ entry ∈ names kind,
    nameOf (Lexicon.resolve entry.1) = some (named kind entry.2) := by
  cases kind <;> decide +kernel

theorem plain (name : Spoken kind) : Phrase.Plain name.text := by
  obtain ⟨nonempty,isWord,keyless⟩ := names_plain kind _ name.known
  rw [String.toList_ofList] at isWord keyless
  refine ⟨?_,List.all_eq_true.mp isWord,keyless⟩
  intro empty
  rw [empty] at nonempty
  exact nonempty rfl

theorem nameOf_token (name : Spoken kind) : nameOf (Phrase.tokenOf name.text) = some (named kind name.number) := by
  have known := names_named kind _ name.known
  dsimp only at known
  unfold Phrase.tokenOf
  exact known

end Spoken

theorem fixed_words : Phrase.tokenOf "at" = .marker .time ∧ Phrase.tokenOf "on" = .marker .date ∧
    Phrase.tokenOf "and" = .blank ∧ Phrase.tokenOf "to" = .word Lexicon.range := by decide +kernel

theorem fixed_plain : ∀ word ∈ ["at","on","and","to"], Phrase.Plain word := by decide +kernel

theorem named_silent (found : nameOf token = some name) : token ∉ openers := by
  have nameless : ∀ opener ∈ openers, nameOf opener = none := by decide
  intro opens
  rw [nameless token opens] at found
  cases found

namespace Span

-- The names in the span, with the range word between the ends.
def parsed : Span kind → List Name
  | .single name => [named kind name.number]
  | .range first last => [named kind first.number,.range,named kind last.number]

theorem plain (span : Span kind) : ∀ word ∈ span.words, Phrase.Plain word := by
  have to_plain := fixed_plain "to" (by decide)
  cases span with
  | single name => simpa [words] using name.plain
  | range first last => simpa [words] using ⟨first.plain,to_plain,last.plain⟩

theorem nameOf_words (span : Span kind) : (span.words.map fun word => nameOf (Phrase.tokenOf word)) = span.parsed.map some := by
  have range_named : nameOf (Phrase.tokenOf "to") = some .range := by rw [fixed_words.2.2.2]; decide
  cases span with
  | single name => simp [words,parsed,name.nameOf_token]
  | range first last => simp [words,parsed,first.nameOf_token,last.nameOf_token,range_named]

theorem names_words (span : Span kind) : (span.words.map Phrase.tokenOf).filterMap nameOf = span.parsed := by
  have read := congrArg (List.filterMap id) span.nameOf_words
  simpa [List.filterMap_map,Function.comp_def] using read

theorem word_named {span : Span kind} (member : word ∈ span.words) :
    ∃ name, nameOf (Phrase.tokenOf word) = some name := by
  have read : nameOf (Phrase.tokenOf word) ∈ span.parsed.map some := by
    rw [← span.nameOf_words]
    exact List.mem_map_of_mem member
  obtain ⟨name,_,found⟩ := List.mem_map.mp read
  exact ⟨name,found.symm⟩

end Span

-- Every word of the phrase is plain, and none opens a clause of another kind.
structure Known (word : String) : Prop where
  plain : Phrase.Plain word
  silent : Phrase.tokenOf word ∉ openers

theorem Known.figures (written : Figures word) : Known word := by
  refine ⟨written.plain,?_⟩
  rw [written.tokenOf_eq]
  exact written.unbroken.onDial.silent

theorem Known.span {span : Span kind} (member : word ∈ span.words) : Known word := by
  obtain ⟨name,found⟩ := Span.word_named member
  exact ⟨span.plain word member,named_silent found⟩

theorem Known.listed (items : List (List String)) (each : ∀ item ∈ items, ∀ word ∈ item, Known word) :
    ∀ word ∈ Request.listed items, Known word := by
  intro word member
  rcases Text.mem_of_intercalate member with rfl | ⟨item,among,inside⟩
  · exact ⟨fixed_plain "and" (by decide),by rw [fixed_words.2.2.1]; decide⟩
  · exact each item among word inside

theorem Known.spans (spans : List (Span kind)) : ∀ word ∈ Request.listed (spans.map Span.words), Known word := by
  refine .listed _ fun item among word inside => ?_
  obtain ⟨span,_,rfl⟩ := List.mem_map.mp among
  exact .span inside

theorem Known.on : Known "on" := ⟨fixed_plain "on" (by decide),by rw [fixed_words.2.1]; decide⟩

namespace Request

theorem timeWords_known (request : Request) : ∀ word ∈ request.timeWords, Known word := by
  have at_known : Known "at" := ⟨fixed_plain "at" (by decide),by rw [fixed_words.1]; decide⟩
  simpa [timeWords] using ⟨at_known,.figures (ClockText.clockWord_figures request.hour request.minute)⟩

theorem dateWords_known (request : Request) : ∀ word ∈ request.dateWords, Known word := by
  have days : ∀ word ∈ listed (request.days.map ([·])), Known word := by
    refine .listed _ fun item among word inside => ?_
    obtain ⟨day,spoken,rfl⟩ := List.mem_map.mp among
    rw [List.mem_singleton.mp inside]
    exact .figures (.of_numeral (request.numerals day spoken))
  intro word member
  unfold dateWords at member
  rcases List.mem_cons.mp member with rfl | member
  · exact .on
  · rcases List.mem_append.mp member with member | member
    · rcases List.mem_append.mp member with member | member
      · exact days word member
      · exact .spans request.months word member
    · rcases List.mem_cons.mp member with rfl | member
      · exact .on
      · exact .spans request.weekdays word member

def timeTokens (request : Request) : List Token := request.timeWords.map Phrase.tokenOf
def dateTokens (request : Request) : List Token := request.dateWords.map Phrase.tokenOf

theorem lex_words (some_word : words ≠ []) (known : ∀ word ∈ words, Known word) :
    Phrase.lex (" ".intercalate words) = words.map Phrase.tokenOf ∧ Silent (words.map Phrase.tokenOf) := by
  refine ⟨Phrase.lex_joined some_word fun word member => (known word member).plain,?_⟩
  intro token member
  obtain ⟨word,spoken,rfl⟩ := List.mem_map.mp member
  exact (known word spoken).silent

end Request
end Recurrence.Dated
