import Recurrence.Proofs.DatedSchedule
import Recurrence.Proofs.MarkerKinds

namespace Recurrence.Intervals
open Clause.Calendar Dated Dated.Request

inductive Period where
  | minute
  | hour
  | day
deriving DecidableEq, Repr

namespace Period

def name : Period → String
  | .minute => "minute"
  | .hour => "hour"
  | .day => "day"

end Period

-- Intervals of a unit, and the weekdays and months that they are kept in; none of the lists is empty.
structure Request where
  intervals : List String
  period : Period
  plural : Bool
  weekdays : List (Span .weekday)
  months : List (Span .month)
  numerals : ∀ interval ∈ intervals, Numeral interval.toList
  some_interval : intervals ≠ []
  some_weekday : weekdays ≠ []
  some_month : months ≠ []

namespace Request

def unit (request : Request) : String := request.period.name ++ if request.plural then "s" else ""

def clauseWords (request : Request) : List String := listed (request.intervals.map ([·])) ++ [request.unit]
def dateWords (request : Request) : List String :=
  "on" :: (listed (request.weekdays.map Span.words) ++ "in" :: listed (request.months.map Span.words))

-- As in `every 5 and 10 minutes on monday to friday in january and june`.
def phrase (request : Request) : String := " ".intercalate ("every" :: (request.clauseWords ++ request.dateWords))

def steps (request : Request) : String := "*/" ++ ",".intercalate request.intervals

-- What the phrase spells: hours are counted from the full hour.
def schedule (request : Request) : Schedule where
  minute := match request.period with | .minute => request.steps | .hour => "0" | .day => "*"
  hour := match request.period with | .minute => "*" | .hour => request.steps | .day => "*"
  dayOfMonth := match request.period with | .minute => "*" | .hour => "*" | .day => request.steps
  month := ",".intercalate (request.months.map Span.numbered)
  dayOfWeek := ",".intercalate (request.weekdays.map Span.numbered)
  unparsed := ""

theorem every_plain : Phrase.Plain "every" ∧ Phrase.tokenOf "every" = Clause.Frequency.every := by decide +kernel

theorem in_known : Known "in" ∧ Phrase.tokenOf "in" = .marker .date := by
  have table : Phrase.Plain "in" ∧ Phrase.tokenOf "in" = .marker .date := by decide +kernel
  exact ⟨⟨table.1,by rw [table.2]; decide⟩,table.2⟩

theorem unit_plain (request : Request) :
    Phrase.Plain request.unit ∧ Phrase.tokenOf request.unit = .word request.period.name := by
  unfold unit
  cases request.period <;> cases request.plural <;> decide +kernel

theorem interval_figures (request : Request) (member : interval ∈ request.intervals) : Figures interval :=
  .of_numeral (request.numerals interval member)

theorem clauseWords_plain (request : Request) : ∀ word ∈ request.clauseWords, Phrase.Plain word := by
  intro word member
  rcases List.mem_append.mp member with member | member
  · rcases Text.mem_of_intercalate member with rfl | ⟨item,among,inside⟩
    · exact fixed_plain "and" (by decide)
    · obtain ⟨interval,spoken,rfl⟩ := List.mem_map.mp among
      rw [List.mem_singleton.mp inside]
      exact (request.interval_figures spoken).plain
  · rw [List.mem_singleton.mp member]
    exact request.unit_plain.1

theorem dateWords_known (request : Request) : ∀ word ∈ request.dateWords, Known word := by
  intro word member
  rcases List.mem_cons.mp member with rfl | member
  · exact .on
  · rcases List.mem_append.mp member with member | member
    · exact .spans request.weekdays word member
    · rcases List.mem_cons.mp member with rfl | member
      · exact in_known.1
      · exact .spans request.months word member

def clauseTokens (request : Request) : List Token := request.clauseWords.map Phrase.tokenOf
def dateTokens (request : Request) : List Token := request.dateWords.map Phrase.tokenOf

theorem lex_phrase (request : Request) :
    Phrase.lex request.phrase = Clause.Frequency.every :: (request.clauseTokens ++ request.dateTokens) := by
  unfold phrase
  rw [Phrase.lex_joined (List.cons_ne_nil _ _),List.map_cons,every_plain.2,List.map_append]
  · rfl
  · intro word member
    rcases List.mem_cons.mp member with rfl | member
    · exact every_plain.1
    · rcases List.mem_append.mp member with member | member
      · exact request.clauseWords_plain word member
      · exact (request.dateWords_known word member).plain

theorem clauseTokens_within (request : Request) : ∀ token ∈ request.clauseTokens, Clause.Frequency.inClause token = true := by
  intro token member
  obtain ⟨word,spoken,rfl⟩ := List.mem_map.mp member
  rcases List.mem_append.mp spoken with spoken | spoken
  · rcases Text.mem_of_intercalate spoken with rfl | ⟨item,among,inside⟩
    · rw [fixed_words.2.2.1]
      rfl
    · obtain ⟨interval,counted,rfl⟩ := List.mem_map.mp among
      have figures := request.interval_figures counted
      have other : Token.word interval ≠ Clause.Frequency.every := by
        intro same
        have spelled : interval = "every" := by simpa [Clause.Frequency.every] using same
        exact absurd (figures.figures 'e' (by rw [spelled]; decide)) (by decide)
      rw [List.mem_singleton.mp inside,figures.tokenOf_eq]
      simp [Clause.Frequency.inClause,Token.isMarker,other]
  · rw [List.mem_singleton.mp spoken,request.unit_plain.2]
    cases request.period <;> decide

theorem clauseTokens_words (request : Request) :
    wordsOf request.clauseTokens = request.intervals ++ [request.period.name] := by
  have silent : (Phrase.tokenOf "and").word? = none := by rw [fixed_words.2.2.1]; rfl
  have each : ∀ interval ∈ request.intervals, (Phrase.tokenOf interval).word? = some interval := by
    intro interval member
    rw [(request.interval_figures member).tokenOf_eq]
    rfl
  have numbers : wordsOf ((listed (request.intervals.map ([·]))).map Phrase.tokenOf) = request.intervals := by
    unfold wordsOf
    rw [List.filterMap_map]
    exact listed_singles silent each
  unfold clauseTokens clauseWords
  rw [List.map_append,wordsOf_append,numbers,List.map_singleton,request.unit_plain.2]
  rfl

def entries (request : Request) : List (Field × Entry) :=
  match request.period with
  | .minute => [(.minute,.every request.intervals)]
  | .hour => [(.minute,.number 0),(.hour,.every request.intervals)]
  | .day => [(.dayOfMonth,.every request.intervals)]

-- The weekdays and months are still to be read once the clause is used.
def dated (request : Request) : Draft := ⟨request.dateTokens,({} : Fields).write request.entries⟩

theorem read_clause (request : Request) : Clause.Frequency.read
    ⟨Clause.Frequency.every :: (request.clauseTokens ++ request.dateTokens),{}⟩ = request.dated := by
  have known : Clause.Frequency.inIntervals request.intervals request.period.name = some request.entries := by
    unfold entries
    cases request.period <;> rfl
  have numeric : ∀ interval ∈ request.intervals, Clause.Frequency.isNumeric interval = true := fun interval member =>
    List.all_eq_true.mpr (request.numerals interval member).2
  have ends : ∀ token, request.dateTokens.head? = some token → Clause.Frequency.inClause token = false := by
    intro token first
    have opens : request.dateTokens.head? = some (Phrase.tokenOf "on") := rfl
    rw [opens,fixed_words.2.1] at first
    cases first
    rfl
  have none_before : Clause.Frequency.every ∉ [] := List.not_mem_nil
  exact Clause.Frequency.read_counted none_before request.clauseTokens_within ends request.clauseTokens_words
    request.some_interval numeric known

theorem dateTokens_silent (request : Request) : Silent request.dateTokens := by
  intro token member
  obtain ⟨word,spoken,rfl⟩ := List.mem_map.mp member
  exact (request.dateWords_known word spoken).silent

theorem dateTokens_names (request : Request) : request.dateTokens.filterMap nameOf =
    request.weekdays.flatMap Span.parsed ++ request.months.flatMap Span.parsed := by
  have in_unnamed : nameOf (Phrase.tokenOf "in") = none := by rw [in_known.2]; rfl
  have weekdays := names_spans request.weekdays
  have months := names_spans request.months
  unfold dateTokens dateWords
  rw [List.filterMap_map]
  simp only [Function.comp_def,List.filterMap_cons,List.filterMap_append,leftOf_on.1,in_unnamed,weekdays,months]

theorem dateTokens_segments (request : Request) : Clause.Residual.segments (used request.dateTokens) = [] := by
  have in_left : leftOf "in" = .marker .date := by unfold leftOf; rw [in_known.2]; rfl
  have left : used request.dateTokens = .marker .date :: ((listed (request.weekdays.map Span.words)).map leftOf ++
      .marker .date :: (listed (request.months.map Span.words)).map leftOf) := by
    unfold dateTokens dateWords
    rw [used_words]
    simp [leftOf_on.2,in_left]
  rw [left,Clause.Residual.segments_opened,Clause.Residual.segments_marker,
    Clause.Residual.segments_silent (spans_unmarked request.weekdays) (spans_silent request.weekdays),
    Clause.Residual.segments_silent (spans_unmarked request.months) (spans_silent request.months)]
  rfl

theorem no_from (request : Request) :
    .word "from" ∉ Clause.Frequency.every :: (request.clauseTokens ++ request.dateTokens) := by
  intro member
  rcases List.mem_cons.mp member with same | member
  · exact absurd same (by decide)
  · rcases List.mem_append.mp member with member | member
    · have spoken := mem_wordsOf.mpr member
      rw [clauseTokens_words] at spoken
      rcases List.mem_append.mp spoken with counted | unit
      · exact absurd ((request.numerals "from" counted).2 'f' (by decide)) (by decide)
      · have same := List.mem_singleton.mp unit
        cases period : request.period <;> rw [period] at same <;> exact absurd same (by decide)
    · exact request.dateTokens_silent _ member (by decide)

theorem runAll_phrase (request : Request) (zone : Offset) :
    Stage.runAll zone Stage.inOrder ⟨Clause.Frequency.every :: (request.clauseTokens ++ request.dateTokens),{}⟩ =
      ⟨[],(Clause.Calendar.read request.dated).fields⟩ := by
  have unchanged : Clause.Markers.settledFrom .time (Clause.Frequency.every :: (request.clauseTokens ++ request.dateTokens)) =
      Clause.Frequency.every :: (request.clauseTokens ++ request.dateTokens) := List.replace_of_not_mem request.no_from
  rw [Stage.inOrder_settled zone _ {} .time,unchanged]
  have left : (Clause.Calendar.read request.dated).tokens = used request.dateTokens := rfl
  have silent : Silent request.dated.tokens := request.dateTokens_silent
  rw [Stage.runAll_settled,Stage.runAll_between,read_clause,named_silent_later silent]
  unfold Clause.Residual.read
  rw [left,request.dateTokens_segments]
  rfl

theorem shown_entries (request : Request) :
    request.dated.fields.shown .minute = request.schedule.minute ∧
    request.dated.fields.shown .hour = request.schedule.hour ∧
    request.dated.fields.shown .dayOfMonth = request.schedule.dayOfMonth := by
  have made : (Entry.every request.intervals).WellMade := ⟨request.some_interval,request.numerals⟩
  have stepped {fields : Fields} {field : Field} (known : fields.get field = some (.every request.intervals)) :
      fields.shown field = request.steps := Fields.shown_entry known made
  unfold schedule dated entries
  cases request.period with
  | minute => exact ⟨stepped rfl,rfl,rfl⟩
  | hour => exact ⟨rfl,stepped rfl,rfl⟩
  | day => exact ⟨rfl,rfl,stepped rfl⟩

theorem schedule_fields (request : Request) :
    (⟨[],(Clause.Calendar.read request.dated).fields⟩ : Draft).schedule = request.schedule := by
  obtain ⟨minute,hour,day⟩ := request.shown_entries
  have enabled : (Clause.Calendar.read request.dated).fields.disabled = false := by
    unfold Clause.Calendar.read dated
    rw [Fields.disabled_write,Fields.disabled_write]
  have untouched (field : Field) (other : ∀ kind : Kind, field ≠ kind.field) :
      (Clause.Calendar.read request.dated).fields.shown field = request.dated.fields.shown field := by
    unfold Fields.shown
    rw [get_read_other _ other]
  have weekday : (Clause.Calendar.read request.dated).fields.shown .dayOfWeek = request.schedule.dayOfWeek :=
    listed_shown request.some_weekday
      (get_first request.dated request.months (by decide) request.some_weekday request.dateTokens_names)
  have month : (Clause.Calendar.read request.dated).fields.shown .month = request.schedule.month :=
    listed_shown request.some_month
      (get_second request.dated request.weekdays (by decide) request.some_month request.dateTokens_names)
  unfold Draft.schedule
  dsimp only
  rw [enabled,if_neg Bool.false_ne_true,untouched .minute fun kind => by cases kind <;> decide,
    untouched .hour fun kind => by cases kind <;> decide,untouched .dayOfMonth fun kind => by cases kind <;> decide,
    weekday,month,minute,hour,day]
  rfl

end Request

-- Intervals of a unit, on weekdays and in months, compile to just what they spell.
theorem compile_intervals (request : Request) (zone : Offset) :
    compile zone request.phrase = request.schedule ∧ request.schedule.fullyParsed = true := by
  refine ⟨?_,rfl⟩
  unfold compile compileTokens
  rw [request.lex_phrase,request.runAll_phrase zone,request.schedule_fields]

example : Request.phrase
      ⟨["5","10"],.minute,true,
        [.range ⟨"monday",1,by decide +kernel⟩ ⟨"Fri",5,by decide +kernel⟩,.single ⟨"sun",0,by decide +kernel⟩],
        [.single ⟨"January",1,by decide +kernel⟩,.range ⟨"mar",3,by decide +kernel⟩ ⟨"may",5,by decide +kernel⟩],
        by decide,by simp,by simp,by simp⟩ =
    "every 5 and 10 minutes on monday to Fri and sun in January and mar to may" := by decide +kernel

end Recurrence.Intervals
