import Recurrence.Proofs.DefaultZone
import Recurrence.Proofs.FieldValues
import Recurrence.Proofs.WeeklyPhrase

namespace Recurrence.Weekly
open Clause Calendar Dated Phrase

-- Weekdays, a time of day, and the zone that it is read in.
structure Request where
  days : List Item
  some_day : days ≠ []
  hour : Fin 24
  minute : Fin 60
  -- Hours can be written with two digits throughout.
  wide : Bool
  zone : Zone

namespace Request

def hourText (request : Request) : String :=
  if request.wide then Text.padded 2 request.hour.val else toString request.hour.val

def clock (request : Request) : String := request.hourText ++ ":" ++ Text.padded 2 request.minute.val

def phrase (request : Request) : String :=
  " ".intercalate ("on" :: (request.days.flatMap Item.parts ++ "at" :: request.clock :: request.zone.parts))

theorem hourText_digits (request : Request) : request.hourText.toList ≠ [] ∧ request.hourText.toList.length ≤ 2 ∧
    request.hourText.toList.all Char.isDigit = true ∧ Text.number request.hourText.toList = request.hour.val := by
  have table : ∀ (wide : Bool) (hour : Fin 24),
      (if wide then Text.padded 2 hour.val else toString hour.val).toList ≠ [] ∧
      (if wide then Text.padded 2 hour.val else toString hour.val).toList.length ≤ 2 ∧
      (if wide then Text.padded 2 hour.val else toString hour.val).toList.all Char.isDigit = true ∧
      Text.number (if wide then Text.padded 2 hour.val else toString hour.val).toList = hour.val := by decide +kernel
  exact table request.wide request.hour

theorem clock_face (request : Request) : ClockText.Face request.hour.val (some request.minute.val) none request.clock.toList := by
  obtain ⟨some_digit,short,all,hour⟩ := request.hourText_digits
  obtain ⟨a,b,minutes,first,second,minute⟩ := Text.twoDigits_eq_some_iff.mp (ClockText.minute_digits request.minute)
  have spelled : request.clock.toList = request.hourText.toList ++ ([':',a,b] ++ []) := by
    unfold clock
    rw [String.toList_append,String.toList_append,minutes,List.append_assoc]
    rfl
  rw [spelled,← hour,minute]
  exact .figures some_digit short (List.all_eq_true.mp all) (.present first second) .absent (fun missing => by cases missing)

theorem clock_unbroken (request : Request) : Unbroken request.clock := by
  apply Figures.unbroken
  refine ⟨fun empty => request.clock_face.some_figure (String.toList_eq_nil_iff.mpr empty),?_⟩
  intro c inside
  rcases request.clock_face.figures_only c inside with digit | rfl
  · simp [isFigure,digit]
  · decide

def dayTokens (request : Request) : List Token := request.days.flatMap Item.tokens
def timeWords (request : Request) : List String := request.clock :: request.zone.said

theorem timeWords_unused (request : Request) : ∀ word ∈ request.timeWords, Unused word := by
  intro word member
  rcases List.mem_cons.mp member with rfl | member
  · exact request.clock_unbroken.unused
  · exact request.zone.said_unused word member

theorem lex_phrase (request : Request) : lex request.phrase =
    .marker .date :: (request.dayTokens ++ .marker .time :: request.timeWords.map .word) := by
  have on_plain := fixed_plain "on" (by decide)
  have at_plain := fixed_plain "at" (by decide)
  obtain ⟨zone_looked,zone_keyless⟩ := request.zone.looked_parts
  have days_looked : ((request.days.flatMap Item.parts).flatMap fun part => looked part.toList) = request.dayTokens := by
    rw [List.flatMap_assoc]
    exact congrArg List.flatten (List.map_congr_left fun item _ => item.looked_parts.1)
  unfold phrase
  rw [lex_parts]
  · rw [List.flatMap_cons,List.flatMap_append,days_looked,List.flatMap_cons,List.flatMap_cons,zone_looked,
      on_plain.looked_eq,at_plain.looked_eq,request.clock_unbroken.plain.looked_eq,request.clock_unbroken.tokenOf_eq,
      fixed_words.1,fixed_words.2.1]
    rfl
  · exact ⟨"on",List.mem_cons_self,'o',by decide,by decide⟩
  · intro part member
    rcases List.mem_cons.mp member with rfl | member
    · exact on_plain.keyless_text
    · rcases List.mem_append.mp member with member | member
      · obtain ⟨item,_,inside⟩ := List.mem_flatMap.mp member
        exact item.looked_parts.2 part inside
      · rcases List.mem_cons.mp member with rfl | member
        · exact at_plain.keyless_text
        · rcases List.mem_cons.mp member with rfl | member
          · exact request.clock_unbroken.plain.keyless_text
          · exact zone_keyless part member

theorem dayTokens_cases (request : Request) :
    ∀ token ∈ request.dayTokens, token = .blank ∨ ∃ name, nameOf token = some name := by
  intro token member
  obtain ⟨item,_,inside⟩ := List.mem_flatMap.mp member
  exact item.tokens_cases token inside

theorem tokens_silent (request : Request) :
    Silent (.marker .date :: (request.dayTokens ++ .marker .time :: request.timeWords.map .word)) := by
  intro token member
  rcases List.mem_cons.mp member with rfl | member
  · decide
  · rcases List.mem_append.mp member with member | member
    · rcases request.dayTokens_cases token member with rfl | ⟨name,found⟩
      · decide
      · exact named_silent found
    · rcases List.mem_cons.mp member with rfl | member
      · decide
      · obtain ⟨word,inside,rfl⟩ := List.mem_map.mp member
        exact (request.timeWords_unused word inside).onDial.silent

theorem tokens_names (request : Request) :
    (.marker .date :: (request.dayTokens ++ .marker .time :: request.timeWords.map .word) : List Token).filterMap nameOf =
      (request.days.map Item.span).flatMap Span.parsed := by
  have days : request.dayTokens.filterMap nameOf = (request.days.map Item.span).flatMap Span.parsed := by
    unfold dayTokens
    rw [List.filterMap_flatMap,List.flatMap_map]
    exact congrArg List.flatten (List.map_congr_left fun item _ => item.tokens_names)
  have words := (Unused.used_eq request.timeWords_unused).2
  rw [List.filterMap_cons_none rfl,List.filterMap_append,List.filterMap_cons_none rfl,days,words,List.append_nil]

theorem segments_tokens (request : Request) :
    Residual.segments (used (.marker .date :: (request.dayTokens ++ .marker .time :: request.timeWords.map .word))) =
      [" ".intercalate request.timeWords] := by
  have split : used (.marker .date :: (request.dayTokens ++ .marker .time :: request.timeWords.map .word)) =
      .marker .date :: (used request.dayTokens ++ .marker .time :: request.timeWords.map .word) := by
    conv => rhs; rw [← (Unused.used_eq request.timeWords_unused).1]
    simp only [used,List.map_cons,List.map_append]
    rfl
  have blank : ∀ token ∈ used request.dayTokens, token = .blank := by
    intro token member
    obtain ⟨before,inside,rfl⟩ := List.mem_map.mp member
    rcases request.dayTokens_cases before inside with rfl | ⟨name,found⟩
    · rfl
    · rw [found]
      rfl
  have sound : SoundWords request.timeWords := fun word member => (request.timeWords_unused word member).sound
  rw [split,Residual.segments_opened,Residual.segments_marker,
    Residual.segments_silent (fun token member => by rw [blank token member]; rfl),
    Residual.segments_spoken,Residual.runText,Residual.wordsOf_words]
  · rfl
  · intro token member
    obtain ⟨word,_,rfl⟩ := List.mem_map.mp member
    rfl
  · rwa [Residual.wordsOf_words]
  · rw [Residual.wordsOf_words]
    exact List.cons_ne_nil _ _
  · unfold wordsOf
    rw [List.filterMap_eq_nil_iff]
    intro token member
    rw [blank token member]
    rfl

-- The time of day in UTC, whole days dropped.
def utc (request : Request) (zone : Offset) : TimeOfDay :=
  .ofSeconds (request.hour.val * 3600 + request.minute.val * 60 - (request.zone.stated.getD zone).seconds)

theorem reading_time (request : Request) (zone : Offset) :
    Residual.reading zone (" ".intercalate request.timeWords) = .time (request.utc zone) := by
  obtain ⟨gap,last,blank,ending,spelled⟩ := request.zone.ending
  have none_blank : Text.Blanks [] := by simp [Text.Blanks]
  have written : ClockText.Written ⟨_,_,_,none,_⟩ _ :=
    .parts request.clock_face ending none_blank none_blank blank none_blank
  have read : ClockText.read? (" ".intercalate request.timeWords).toList =
      some ⟨request.hour.val,some request.minute.val,none,none,request.zone.stated⟩ := by
    apply ClockText.read_of_written
    unfold timeWords
    rw [spelled]
    simpa [ClockText.halfText] using written
  have parsed : TimeOfDay.parse? zone (" ".intercalate request.timeWords).toList = some (request.utc zone) := by
    unfold TimeOfDay.parse?
    rw [read,Option.bind_some]
    simp [ClockText.time?,ClockText.hour24?,utc]
  unfold Residual.reading
  rw [parsed]

theorem spans_made (request : Request) : (Entry.listed (request.days.map fun item => item.span.numbers)).WellMade := by
  refine ⟨by simpa using request.some_day,?_⟩
  intro numbers member
  obtain ⟨item,_,rfl⟩ := List.mem_map.mp member
  cases item.span <;> simp [Span.numbers]

theorem compile_phrase (request : Request) (zone : Offset) : compile zone request.phrase =
    ⟨toString (request.utc zone).minute.val,toString (request.utc zone).hour.val,"*","*",
      (Entry.listed (request.days.map fun item => item.span.numbers)).text,""⟩ := by
  have lexed := request.lex_phrase
  have silent := request.tokens_silent
  have names := request.tokens_names
  have segment := request.segments_tokens
  unfold compile compileTokens
  rw [lexed,runAll_silent zone silent ⟨.date,_,rfl⟩]
  generalize (.marker .date :: (request.dayTokens ++ .marker .time :: request.timeWords.map .word) : List Token) = tokens
    at names segment
  have some_span : request.days.map Item.span ≠ [] := by simpa using request.some_day
  have weekdays := get_first ⟨tokens,{}⟩ ([] : List (Span .month)) (by decide) some_span
    (by rw [List.flatMap_nil,List.append_nil]; exact names)
  have months := Calendar.get_read ⟨tokens,{}⟩ .month
  have days : (Calendar.read ⟨tokens,{}⟩).fields.get .dayOfMonth = none :=
    Calendar.get_read_other ⟨tokens,{}⟩ fun kind => by cases kind <;> decide
  have unlisted := items_first (by decide : Kind.month ≠ .weekday) [] (request.days.map Item.span)
  rw [List.flatMap_nil,List.nil_append,← names] at unlisted
  dsimp only at months
  rw [List.map_map] at weekdays
  rw [unlisted] at months
  have enabled : (Calendar.read ⟨tokens,{}⟩).fields.disabled = false := Fields.disabled_write _ _
  unfold Residual.read
  rw [show (Calendar.read ⟨tokens,{}⟩).tokens = used tokens from rfl,segment]
  generalize (Calendar.read ⟨tokens,{}⟩).fields = fields at weekdays months days enabled
  have weekday := Fields.shown_entry weekdays request.spans_made
  have month : fields.shown .month = "*" := by
    unfold Fields.shown
    rw [show fields.get .month = none from months]
    rfl
  have day : fields.shown .dayOfMonth = "*" := by
    unfold Fields.shown
    rw [days]
    rfl
  rw [List.foldr_cons,List.foldr_nil,Residual.take,reading_time]
  dsimp only
  rw [Draft.schedule_timed _ enabled,day,month,show fields.shown .dayOfWeek = _ from weekday]
  rfl

end Request
end Recurrence.Weekly
