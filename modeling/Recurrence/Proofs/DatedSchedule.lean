import Recurrence.Proofs.DatedPhrase
import Recurrence.Proofs.FieldGrammar
import Recurrence.Proofs.ResidualFields

namespace Recurrence.Dated
open Clause.Calendar

namespace Span

-- The numbers of a span, and its marks for the reader of the calendar.
def numbers : Span kind → List Nat
  | .single name => [name.number]
  | .range first last => [first.number,last.number]

def marked : Span kind → List (Nat × Bool)
  | .single name => [(name.number,false)]
  | .range first last => [(first.number,true),(last.number,false)]

theorem numbered_eq (span : Span kind) : Entry.itemText span.numbers = span.numbered := by
  cases span with
  | single name => simp [Entry.itemText,numbers,numbered]
  | range first last => simp [Entry.itemText,numbers,numbered,String.append_assoc]

theorem group_marked (spans : List (Span kind)) : group (spans.flatMap marked) = spans.map numbers := by
  induction spans with
  | nil => rfl
  | cons span rest ih =>
    rw [List.flatMap_cons,List.map_cons,← ih]
    cases span <;> rfl

end Span

theorem named_ne_range (kind : Kind) (n : Nat) : named kind n ≠ .range := by cases kind <;> exact fun same => by cases same

theorem value_other {kind other : Kind} (apart : kind ≠ other) (n : Nat) : kind.value? (named other n) = none := by
  cases kind with
  | weekday =>
    cases other with
    | weekday => exact absurd rfl apart
    | month => rfl
  | month =>
    cases other with
    | weekday => rfl
    | month => exact absurd rfl apart

theorem marks_spans (spans : List (Span kind)) (rest : List Name) (solid : rest.head? ≠ some .range) :
    marks kind (spans.flatMap Span.parsed ++ rest) = spans.flatMap Span.marked ++ marks kind rest := by
  induction spans with
  | nil => rfl
  | cons span others ih =>
    -- Each span begins with a name, so the range word in the one before it is not taken for another.
    have next : ((others.flatMap Span.parsed ++ rest).head? == some .range) = false := by
      rw [beq_eq_false_iff_ne]
      cases others with
      | nil => simpa using solid
      | cons other more => cases other <;> simp [Span.parsed,named_ne_range]
    rw [List.flatMap_cons,List.append_assoc,List.flatMap_cons,List.append_assoc,← ih]
    cases span with
    | single name =>
      show marks kind (named kind name.number :: (others.flatMap Span.parsed ++ rest)) = _
      rw [marks_value (value_named kind _),next]
      rfl
    | range first last =>
      show marks kind (named kind first.number :: .range :: named kind last.number :: (others.flatMap Span.parsed ++ rest)) = _
      rw [marks_value (value_named kind _),marks_other (value_range kind),marks_value (value_named kind _),next]
      rfl

theorem parsed_other {kind other : Kind} (apart : kind ≠ other) (spans : List (Span other)) :
    ∀ name ∈ spans.flatMap Span.parsed, kind.value? name = none := by
  intro name member
  obtain ⟨span,_,inside⟩ := List.mem_flatMap.mp member
  cases span with
  | single spoken =>
    rw [List.mem_singleton.mp inside]
    exact value_other apart _
  | range first last =>
    simp only [Span.parsed,List.mem_cons,List.not_mem_nil,or_false] at inside
    rcases inside with rfl | rfl | rfl
    · exact value_other apart _
    · exact value_range kind
    · exact value_other apart _

theorem items_first {kind other : Kind} (apart : kind ≠ other) (first : List (Span kind)) (second : List (Span other)) :
    items (kind.sorted (sort false (first.flatMap Span.parsed ++ second.flatMap Span.parsed))) = first.map Span.numbers := by
  have solid : (second.flatMap Span.parsed).head? ≠ some .range := by
    cases second with
    | nil => simp
    | cons span rest => cases span <;> simp [Span.parsed,named_ne_range]
  rw [items_sort,marks_spans first _ solid,marks_silent (parsed_other apart second),List.append_nil,Span.group_marked]

theorem items_second {kind other : Kind} (apart : kind ≠ other) (first : List (Span other)) (second : List (Span kind)) :
    items (kind.sorted (sort false (first.flatMap Span.parsed ++ second.flatMap Span.parsed))) = second.map Span.numbers := by
  have whole := marks_spans second [] (by simp)
  rw [List.append_nil,marks,List.append_nil] at whole
  rw [items_sort,marks_skip (parsed_other apart first),whole,Span.group_marked]

section
variable {kind other : Kind} (draft : Draft) {spans : List (Span kind)} (others : List (Span other)) (apart : kind ≠ other)
  (some_span : spans ≠ [])
include apart some_span

theorem get_first (names : draft.tokens.filterMap nameOf = spans.flatMap Span.parsed ++ others.flatMap Span.parsed) :
    (read draft).fields.get kind.field = some (.listed (spans.map Span.numbers)) := by
  rw [get_read,names,items_first apart,if_pos (by simpa using some_span)]

theorem get_second (names : draft.tokens.filterMap nameOf = others.flatMap Span.parsed ++ spans.flatMap Span.parsed) :
    (read draft).fields.get kind.field = some (.listed (spans.map Span.numbers)) := by
  rw [get_read,names,items_second apart,if_pos (by simpa using some_span)]

end

-- What the calendar leaves of a word.
def leftOf (word : String) : Token :=
  if (nameOf (Phrase.tokenOf word)).isSome then .blank else Phrase.tokenOf word

theorem used_words (words : List String) : used (words.map Phrase.tokenOf) = words.map leftOf := by
  unfold used
  rw [List.map_map]
  rfl

theorem leftOf_figures (written : Figures word) : nameOf (Phrase.tokenOf word) = none ∧ leftOf word = .word word := by
  have unnamed : nameOf (Phrase.tokenOf word) = none := by rw [written.tokenOf_eq]; exact written.unnamed
  exact ⟨unnamed,by unfold leftOf; rw [unnamed]; exact written.tokenOf_eq⟩

theorem leftOf_and : nameOf (Phrase.tokenOf "and") = none ∧ leftOf "and" = .blank := by
  unfold leftOf
  rw [fixed_words.2.2.1]
  exact ⟨rfl,rfl⟩

theorem leftOf_on : nameOf (Phrase.tokenOf "on") = none ∧ leftOf "on" = .marker .date := by
  unfold leftOf
  rw [fixed_words.2.1]
  exact ⟨rfl,rfl⟩

theorem leftOf_at : nameOf (Phrase.tokenOf "at") = none ∧ leftOf "at" = .marker .time := by
  unfold leftOf
  rw [fixed_words.1]
  exact ⟨rfl,rfl⟩

namespace Request

theorem names_spans (spans : List (Span kind)) :
    (listed (spans.map Span.words)).filterMap (fun word => nameOf (Phrase.tokenOf word)) = spans.flatMap Span.parsed := by
  have each (span : Span kind) : span.words.filterMap (fun word => nameOf (Phrase.tokenOf word)) = span.parsed := by
    rw [← span.names_words,List.filterMap_map]
    rfl
  unfold listed
  rw [Text.filterMap_intercalate (fun word => nameOf (Phrase.tokenOf word)) leftOf_and.1,List.flatMap_map]
  simp [each]

theorem day_left (request : Request) (member : day ∈ request.days) :
    nameOf (Phrase.tokenOf day) = none ∧ leftOf day = .word day :=
  leftOf_figures (.of_numeral (request.numerals day member))

theorem names_days (request : Request) :
    (listed (request.days.map ([·]))).filterMap (fun word => nameOf (Phrase.tokenOf word)) = [] := by
  unfold listed
  rw [Text.filterMap_intercalate (fun word => nameOf (Phrase.tokenOf word)) leftOf_and.1,List.flatMap_map,List.flatMap_eq_nil_iff]
  intro day member
  simp [(request.day_left member).1]

theorem timeTokens_names (request : Request) : request.timeTokens.filterMap nameOf = [] := by
  have clock := leftOf_figures (ClockText.clockWord_figures request.hour request.minute)
  simp [timeTokens,timeWords,leftOf_at.1,clock.1]

theorem dateTokens_names (request : Request) : request.dateTokens.filterMap nameOf =
    request.months.flatMap Span.parsed ++ request.weekdays.flatMap Span.parsed := by
  unfold dateTokens dateWords
  rw [List.filterMap_map]
  have names := names_days request
  have months := names_spans request.months
  have weekdays := names_spans request.weekdays
  simp only [Function.comp_def,List.filterMap_cons,List.filterMap_append,leftOf_on.1,names,months,weekdays,List.nil_append]

theorem spans_blank (spans : List (Span kind)) : ∀ word ∈ listed (spans.map Span.words), leftOf word = .blank := by
  intro word member
  rcases Text.mem_of_intercalate member with rfl | ⟨item,among,inside⟩
  · exact leftOf_and.2
  · obtain ⟨span,_,rfl⟩ := List.mem_map.mp among
    obtain ⟨name,found⟩ := Span.word_named inside
    unfold leftOf
    rw [found]
    rfl

theorem spans_unmarked (spans : List (Span kind)) :
    ∀ token ∈ (listed (spans.map Span.words)).map leftOf, token.isMarker = false := by
  intro token member
  obtain ⟨word,inside,rfl⟩ := List.mem_map.mp member
  rw [spans_blank spans word inside]
  rfl

theorem spans_silent (spans : List (Span kind)) : wordsOf ((listed (spans.map Span.words)).map leftOf) = [] := by
  unfold wordsOf
  rw [List.filterMap_map,List.filterMap_eq_nil_iff]
  intro word member
  show (leftOf word).word? = none
  rw [spans_blank spans word member]
  rfl

theorem listed_singles {f : String → Option String} (silent : f "and" = none) (each : ∀ word ∈ words, f word = some word) :
    (listed (words.map ([·]))).filterMap f = words := by
  have single : ∀ word ∈ words, [word].filterMap f = [word] := by
    intro word member
    simp [each word member]
  unfold listed
  rw [Text.filterMap_intercalate f silent,List.flatMap_map,List.flatMap_def,List.map_congr_left single,
    ← List.flatMap_def,List.flatMap_singleton']

theorem days_left (request : Request) : wordsOf ((listed (request.days.map ([·]))).map leftOf) = request.days := by
  have silent : (leftOf "and").word? = none := by rw [leftOf_and.2]; rfl
  unfold wordsOf
  rw [List.filterMap_map]
  refine listed_singles silent fun day member => ?_
  show (leftOf day).word? = some day
  rw [(request.day_left member).2]
  rfl

theorem days_unmarked (request : Request) :
    ∀ word ∈ listed (request.days.map ([·])), (leftOf word).isMarker = false := by
  intro word member
  rcases Text.mem_of_intercalate member with rfl | ⟨item,among,inside⟩
  · rw [leftOf_and.2]; rfl
  · obtain ⟨day,spoken,rfl⟩ := List.mem_map.mp among
    rw [List.mem_singleton.mp inside,(request.day_left spoken).2]
    rfl

-- The segments of the phrase once its names are used: the clock time, and the numbers of the days.
def clockText (request : Request) : String := ClockText.clockWord request.hour request.minute
def daysText (request : Request) : String := " ".intercalate request.days

theorem days_sound (request : Request) : SoundWords request.days :=
  fun day member => (Figures.of_numeral (request.numerals day member)).plain.sound

open Clause.Residual

theorem segments_time (request : Request) : segments (used request.timeTokens) = [request.clockText] := by
  have written := ClockText.clockWord_figures request.hour request.minute
  have left : used request.timeTokens = .marker .time :: [.word request.clockText] := by
    unfold timeTokens timeWords
    rw [used_words]
    simp only [List.map_cons,List.map_nil,leftOf_at.2,(leftOf_figures written).2]
    rfl
  have words : wordsOf [.word request.clockText] = [request.clockText] := rfl
  have sound : SoundWords [request.clockText] := by simpa [SoundWords,clockText] using written.plain.sound
  rw [left,segments_opened,
    segments_spoken (by simp [Token.isMarker]) (by rwa [words]) (by simp [words]),runText,words,String.intercalate_singleton]

theorem segments_date (request : Request) : segments (used request.dateTokens) = [request.daysText] := by
  have left : used request.dateTokens = .marker .date ::
      ((listed (request.days.map ([·])) ++ listed (request.months.map Span.words)).map leftOf ++
        .marker .date :: (listed (request.weekdays.map Span.words)).map leftOf) := by
    unfold dateTokens dateWords
    rw [used_words]
    simp [leftOf_on.2]
  have days : wordsOf ((listed (request.days.map ([·])) ++ listed (request.months.map Span.words)).map leftOf) =
      request.days := by
    rw [List.map_append,wordsOf_append,days_left,spans_silent,List.append_nil]
  rw [left,segments_opened,segments_marker,
    segments_spoken ?_ (by rw [days]; exact request.days_sound) (by rw [days]; exact request.some_day),
    segments_silent (spans_unmarked request.weekdays) (spans_silent request.weekdays),runText,days]
  · rfl
  · intro token member
    rw [List.map_append] at member
    rcases List.mem_append.mp member with member | member
    · obtain ⟨word,inside,rfl⟩ := List.mem_map.mp member
      exact days_unmarked request word inside
    · exact spans_unmarked request.months token member

theorem reading_clock (request : Request) :
    reading .utc request.clockText = .time ⟨request.hour,request.minute⟩ := by
  unfold reading clockText
  rw [ClockText.parse_clockWord]

theorem reading_days (request : Request) : reading .utc request.daysText = .days request.days := by
  have numbers : ∀ c ∈ request.daysText.toList, c.isDigit = true ∨ Text.isBlank c = true := by
    intro c inside
    unfold daysText at inside
    rw [toList_joined] at inside
    rcases Text.mem_of_intercalate inside with rfl | ⟨text,among,inside⟩
    · exact .inr (by decide)
    · obtain ⟨day,spoken,rfl⟩ := List.mem_map.mp among
      exact .inl ((request.numerals day spoken).2 c inside)
  unfold reading
  rw [ClockText.numbers_no_time .utc numbers]
  dsimp only
  rw [if_pos (List.all_eq_true.mpr fun c inside => Bool.or_eq_true_iff.mpr (numbers c inside))]
  unfold daysText
  rw [segmentWords_joined request.days_sound]

-- The fields of the request, whatever is written in them before.
def spoken (request : Request) (fields : Fields) : Fields :=
  ((fields.set .dayOfMonth (.days request.days)).set .hour (.number request.hour)).set .minute (.number request.minute)

theorem take_clock (request : Request) (later : Draft) : take .utc request.clockText later =
    ⟨later.tokens,(later.fields.set .hour (.number request.hour)).set .minute (.number request.minute)⟩ := by
  unfold take
  rw [request.reading_clock]

theorem take_days (request : Request) (later : Draft) : take .utc request.daysText later =
    ⟨later.tokens,later.fields.set .dayOfMonth (.days request.days)⟩ := by
  unfold take
  rw [request.reading_days]

theorem read_segments (request : Request) (draft : Draft)
    (found : segments draft.tokens = [request.clockText,request.daysText] ∨
      segments draft.tokens = [request.daysText,request.clockText]) :
    Clause.Residual.read .utc draft = ⟨[],request.spoken draft.fields⟩ := by
  unfold Clause.Residual.read
  rcases found with found | found
  · rw [found,List.foldr_cons,List.foldr_cons,List.foldr_nil,take_days,take_clock]
    rfl
  · rw [found,List.foldr_cons,List.foldr_cons,List.foldr_nil,take_clock,take_days]
    rfl

theorem listed_shown {fields : Fields} {spans : List (Span kind)} (some_span : spans ≠ [])
    (known : fields.get field = some (.listed (spans.map Span.numbers))) :
    fields.shown field = ",".intercalate (spans.map Span.numbered) := by
  have made : (Entry.listed (spans.map Span.numbers)).WellMade := by
    refine ⟨by simpa using some_span,?_⟩
    intro item member
    obtain ⟨span,_,rfl⟩ := List.mem_map.mp member
    cases span <;> simp [Span.numbers]
  have texts : (spans.map Span.numbers).map Entry.itemText = spans.map Span.numbered := by
    rw [List.map_map]
    exact List.map_congr_left fun span _ => span.numbered_eq
  rw [Fields.shown_entry known made,Entry.text,texts]

theorem schedule_spoken (request : Request) {tokens : List Token}
    (named : tokens.filterMap nameOf = request.months.flatMap Span.parsed ++ request.weekdays.flatMap Span.parsed) :
    (⟨[],request.spoken (Clause.Calendar.read ⟨tokens,{}⟩).fields⟩ : Draft).schedule = request.schedule := by
  have months := get_first ⟨tokens,{}⟩ request.weekdays (by decide) request.some_month named
  have weekdays := get_second ⟨tokens,{}⟩ request.months (by decide) request.some_weekday named
  have enabled : (Clause.Calendar.read ⟨tokens,{}⟩).fields.disabled = false := Fields.disabled_write _ _
  generalize (Clause.Calendar.read ⟨tokens,{}⟩).fields = fields at months weekdays enabled ⊢
  have said_days : (fields.set .dayOfMonth (.days request.days)).get .dayOfMonth = some (.days request.days) := by
    simp [Fields.get_set]
  have days := Fields.shown_entry said_days ⟨request.some_day,request.numerals⟩
  have month : (fields.set .dayOfMonth (.days request.days)).shown .month = _ :=
    listed_shown request.some_month (by simpa [Fields.get_set,Kind.field] using months)
  have weekday : (fields.set .dayOfMonth (.days request.days)).shown .dayOfWeek = _ :=
    listed_shown request.some_weekday (by simpa [Fields.get_set,Kind.field] using weekdays)
  have still_enabled : (fields.set .dayOfMonth (.days request.days)).disabled = false := by
    rw [Fields.disabled_set,enabled]
  have timed := Draft.schedule_timed ⟨request.hour,request.minute⟩ still_enabled
  rw [days,month,weekday] at timed
  exact timed

theorem timeTokens_opened (request : Request) : ∃ kind rest, request.timeTokens = .marker kind :: rest :=
  ⟨.time,_,by rw [timeTokens,timeWords,List.map_cons,fixed_words.1]⟩

theorem dateTokens_opened (request : Request) : ∃ kind rest, request.dateTokens = .marker kind :: rest :=
  ⟨.date,_,by rw [dateTokens,dateWords,List.map_cons,fixed_words.2.1]⟩

theorem used_append {left right : List Token} (opened : ∃ kind rest, right = .marker kind :: rest) :
    segments (used (left ++ right)) = segments (used left) ++ segments (used right) := by
  have split : used (left ++ right) = used left ++ used right := List.map_append
  obtain ⟨kind,rest,rfl⟩ := opened
  rw [split]
  exact segments_append _ ⟨kind,used rest,rfl⟩

theorem compile_words {request : Request} {words : List String} {tokens : List Token}
    (known : ∀ word ∈ words, Known word) (spelled : words.map Phrase.tokenOf = tokens)
    (opened : ∃ kind rest, tokens = .marker kind :: rest)
    (named : tokens.filterMap nameOf = request.months.flatMap Span.parsed ++ request.weekdays.flatMap Span.parsed)
    (found : segments (used tokens) = [request.clockText,request.daysText] ∨
      segments (used tokens) = [request.daysText,request.clockText]) :
    compile .utc (" ".intercalate words) = request.schedule := by
  subst spelled
  have some_word : words ≠ [] := by
    rintro rfl
    obtain ⟨kind,rest,empty⟩ := opened
    cases empty
  obtain ⟨lexed,silent⟩ := lex_words some_word known
  unfold compile compileTokens
  rw [lexed,runAll_silent .utc silent opened,read_segments request _ found,schedule_spoken request named]

theorem compile_timeFirst (request : Request) : compile .utc request.timeFirst = request.schedule := by
  refine compile_words (?_ : ∀ word ∈ request.timeWords ++ request.dateWords, Known word)
    (?_ : _ = request.timeTokens ++ request.dateTokens) ?_ ?_ ?_
  · intro word member
    exact (List.mem_append.mp member).elim (request.timeWords_known word) (request.dateWords_known word)
  · exact List.map_append
  · obtain ⟨kind,rest,opened⟩ := request.timeTokens_opened
    exact ⟨kind,rest ++ request.dateTokens,by rw [opened,List.cons_append]⟩
  · rw [List.filterMap_append,timeTokens_names,dateTokens_names,List.nil_append]
  · left
    rw [used_append request.dateTokens_opened,segments_time,segments_date]
    rfl

theorem compile_dateFirst (request : Request) : compile .utc request.dateFirst = request.schedule := by
  refine compile_words (?_ : ∀ word ∈ request.dateWords ++ request.timeWords, Known word)
    (?_ : _ = request.dateTokens ++ request.timeTokens) ?_ ?_ ?_
  · intro word member
    exact (List.mem_append.mp member).elim (request.dateWords_known word) (request.timeWords_known word)
  · exact List.map_append
  · obtain ⟨kind,rest,opened⟩ := request.dateTokens_opened
    exact ⟨kind,rest ++ request.timeTokens,by rw [opened,List.cons_append]⟩
  · rw [List.filterMap_append,timeTokens_names,dateTokens_names,List.append_nil]
  · right
    rw [used_append request.timeTokens_opened,segments_time,segments_date]
    rfl

end Request

-- A date and a time of day, in either order, compile to just what they spell.
theorem compile_dated (request : Request) :
    compile .utc request.timeFirst = request.schedule ∧ compile .utc request.dateFirst = request.schedule ∧
      request.schedule.fullyParsed = true :=
  ⟨request.compile_timeFirst,request.compile_dateFirst,rfl⟩

example : Request.timeFirst
      ⟨17,5,["1","15"],
        [.single ⟨"January",1,by decide +kernel⟩,.range ⟨"mar",3,by decide +kernel⟩ ⟨"may",5,by decide +kernel⟩],
        [.range ⟨"monday",1,by decide +kernel⟩ ⟨"Fri",5,by decide +kernel⟩,.single ⟨"sun",0,by decide +kernel⟩],
        by decide,by decide,by simp,by simp⟩ =
    "at 17:05 on 1 and 15 January and mar to may on monday to Fri and sun" := by decide +kernel

end Recurrence.Dated
