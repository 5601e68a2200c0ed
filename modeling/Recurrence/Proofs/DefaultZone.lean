import Recurrence.Proofs.Never
import Recurrence.Proofs.OffsetText
import Recurrence.Proofs.ResidualFields

namespace Recurrence

namespace TimeOfDay

def minutes (time : TimeOfDay) : Int := time.hour.val * 60 + time.minute.val

theorem minutes_range (time : TimeOfDay) : 0 ≤ time.minutes ∧ time.minutes < 1440 := by
  unfold minutes
  omega

theorem eq_of_minutes {one two : TimeOfDay} (same : one.minutes = two.minutes) : one = two := by
  unfold minutes at same
  have hours : one.hour = two.hour := Fin.ext (by omega)
  have rest : one.minute = two.minute := Fin.ext (by omega)
  cases one
  cases two
  cases hours
  cases rest
  rfl

theorem minutes_ofSeconds (seconds : Int) : (ofSeconds seconds).minutes = seconds / 60 % 1440 := by
  simp only [minutes,ofSeconds,secondsPerDay]
  omega

end TimeOfDay

namespace ClockText

-- The seconds since midnight that a clock in its own zone shows, if the text is good for a clock time.
def shown? (clock : ClockText) : Option Nat :=
  clock.hour24?.bind fun hour =>
    if (clock.minute.isSome ∨ clock.half.isSome) ∧ clock.minute.getD 0 < 60 ∧ clock.second.getD 0 < 60 then
      some (hour * 3600 + clock.minute.getD 0 * 60 + clock.second.getD 0)
    else none

theorem time_shown (zone : Offset) (clock : ClockText) : clock.time? zone =
    clock.shown?.map fun seconds => TimeOfDay.ofSeconds (seconds - (clock.offset.getD zone).seconds) := by
  unfold time? shown?
  cases clock.hour24? with
  | none => rfl
  | some hour =>
    simp only [Option.bind_eq_bind,Option.bind_some]
    split
    · simp
    · rfl

-- A clock time that names its offset.
def Zoned (text : List Char) : Prop := ∃ clock, read? text = some clock ∧ clock.offset.isSome = true

theorem parse_shown (zone : Offset) (text : List Char) : TimeOfDay.parse? zone text =
    (read? text).bind fun clock => clock.shown?.map fun seconds =>
      TimeOfDay.ofSeconds (seconds - (clock.offset.getD zone).seconds) := by
  unfold TimeOfDay.parse?
  exact congrArg _ (funext (time_shown zone))

theorem parse_isSome (one two : Offset) (text : List Char) :
    (TimeOfDay.parse? one text).isSome = (TimeOfDay.parse? two text).isSome := by
  rw [parse_shown,parse_shown]
  cases read? text with
  | none => rfl
  | some clock => cases known : clock.shown? <;> simp [known]

theorem parse_zoned (one two : Offset) (zoned : Zoned text) : TimeOfDay.parse? one text = TimeOfDay.parse? two text := by
  obtain ⟨clock,read,named⟩ := zoned
  obtain ⟨offset,known⟩ := Option.isSome_iff_exists.mp named
  rw [parse_shown,parse_shown,read,Option.bind_some,Option.bind_some,known]
  rfl

theorem parse_unzoned (one two : Offset) (unzoned : ¬ Zoned text) (known : TimeOfDay.parse? one text = some time) :
    ∃ seconds : Int, time = TimeOfDay.ofSeconds (seconds - one.seconds) ∧
      TimeOfDay.parse? two text = some (TimeOfDay.ofSeconds (seconds - two.seconds)) := by
  rw [parse_shown] at known ⊢
  obtain ⟨clock,read,known⟩ := Option.bind_eq_some_iff.mp known
  obtain ⟨seconds,shown,rfl⟩ := Option.map_eq_some_iff.mp known
  rw [read,Option.bind_some,shown,Option.map_some]
  cases named : clock.offset with
  | some offset => exact absurd ⟨clock,read,by rw [named]; rfl⟩ unzoned
  | none => exact ⟨seconds,rfl,rfl⟩

end ClockText

theorem Stage.runAll_zone (one two : Offset) {stages : List Stage} (early : .residual ∉ stages) (draft : Draft) :
    runAll one stages draft = runAll two stages draft := by
  induction stages generalizing draft with
  | nil => rfl
  | cons stage rest ih =>
    have same : stage.run one draft = stage.run two draft := by
      cases stage with
      | residual => exact absurd List.mem_cons_self early
      | markers | frequency | calendar | parity | never => rfl
    show runAll one rest (stage.run one draft) = runAll two rest (stage.run two draft)
    rw [same]
    exact ih (fun member => early (List.mem_cons_of_mem _ member)) _

namespace Phrase

-- What is left of a phrase for clock times and days of the month.
def residue (phrase : String) : Draft :=
  Stage.runAll .utc [.markers,.frequency,.calendar,.parity,.never] ⟨lex phrase,{}⟩

-- The earliest segment that is a clock time.
def clockSegment? (phrase : String) : Option String :=
  (Clause.Residual.segments (residue phrase).tokens).find? fun segment =>
    (TimeOfDay.parse? .utc segment.toList).isSome

def clockTime? (zone : Offset) (phrase : String) : Option TimeOfDay :=
  (clockSegment? phrase).bind fun segment => TimeOfDay.parse? zone segment.toList

theorem clockSegment_spelled (zone : Offset) (phrase segment : String) (found : clockSegment? phrase = some segment) :
    (TimeOfDay.parse? zone segment.toList).isSome = true := by
  unfold clockSegment? at found
  have spelled := List.find?_some found
  rwa [ClockText.parse_isSome .utc zone] at spelled

theorem runAll_residue (zone : Offset) (phrase : String) :
    Stage.runAll zone Stage.inOrder ⟨lex phrase,{}⟩ = Clause.Residual.read zone (residue phrase) := by
  unfold residue
  rw [Stage.runAll_zone .utc zone (by decide)]
  generalize lex phrase = tokens
  rfl

theorem compile_residue (zone : Offset) (phrase : String) :
    compile zone phrase = (Clause.Residual.read zone (residue phrase)).schedule := by
  rw [← runAll_residue]
  rfl

theorem residue_cancelled (zone : Offset) (phrase : String) (member : Clause.Never.never ∈ lex phrase) :
    (Clause.Residual.read zone (residue phrase)).fields.disabled = true := by
  have sound := lex_sound phrase
  rw [← runAll_residue]
  generalize lex phrase = tokens at member sound ⊢
  exact (runAll_never zone ⟨tokens,{}⟩ member sound).1

end Phrase

namespace Clause.Residual

theorem reading_zone (one two : Offset) (segment : String) :
    isOther one segment = isOther two segment ∧
      said .dayOfMonth (reading one segment) = said .dayOfMonth (reading two segment) := by
  have same := ClockText.parse_isSome one two segment.toList
  unfold isOther reading
  cases first : TimeOfDay.parse? one segment.toList <;> cases second : TimeOfDay.parse? two segment.toList <;>
    rw [first,second] at same
  · exact ⟨rfl,rfl⟩
  · cases same
  · cases same
  · exact ⟨rfl,rfl⟩

theorem said_clock (zone : Offset) (segment : String) :
    said .hour (reading zone segment) =
        (TimeOfDay.parse? zone segment.toList).map (fun time => Entry.number time.hour) ∧
      said .minute (reading zone segment) =
        (TimeOfDay.parse? zone segment.toList).map (fun time => Entry.number time.minute) := by
  unfold reading
  cases TimeOfDay.parse? zone segment.toList with
  | some time => exact ⟨rfl,rfl⟩
  | none =>
    dsimp only
    split <;> exact ⟨rfl,rfl⟩

theorem read_zone (one two : Offset) (draft : Draft) :
    (read one draft).tokens = (read two draft).tokens ∧
      (read one draft).fields.disabled = (read two draft).fields.disabled ∧
      ∀ field, field ≠ .hour → field ≠ .minute →
        (read one draft).fields.get field = (read two draft).fields.get field := by
  have other : isOther one = isOther two := funext fun segment => (reading_zone one two segment).1
  refine ⟨by rw [read_tokens,read_tokens,other],by rw [read_disabled,read_disabled],?_⟩
  intro field hour minute
  have same : (fun segment => said field (reading one segment)) = fun segment => said field (reading two segment) := by
    funext segment
    cases field with
    | hour => exact absurd rfl hour
    | minute => exact absurd rfl minute
    | dayOfMonth => exact (reading_zone one two segment).2
    | month | dayOfWeek => cases reading one segment <;> cases reading two segment <;> rfl
  rw [read_get,read_get,same]

end Clause.Residual

theorem findSome?_find? {α β : Type} {f : α → Option β} {p : α → Bool} (agree : ∀ item, (f item).isSome = p item)
    (items : List α) : items.findSome? f = (items.find? p).bind f := by
  induction items with
  | nil => rfl
  | cons item rest ih =>
    rw [List.findSome?_cons,List.find?_cons,ih,← agree item]
    cases known : f item with
    | none => simp
    | some value => simp [known]

theorem residue_clock (zone : Offset) (phrase : String) :
    (Clause.Residual.read zone (Phrase.residue phrase)).fields.get .hour =
        ((Phrase.clockTime? zone phrase).map fun time => Entry.number time.hour).or
          ((Phrase.residue phrase).fields.get .hour) ∧
      (Clause.Residual.read zone (Phrase.residue phrase)).fields.get .minute =
        ((Phrase.clockTime? zone phrase).map fun time => Entry.number time.minute).or
          ((Phrase.residue phrase).fields.get .minute) := by
  have clock (segment : String) := Clause.Residual.said_clock zone segment
  have found (segment : String) : (TimeOfDay.parse? zone segment.toList).isSome =
      (TimeOfDay.parse? .utc segment.toList).isSome := ClockText.parse_isSome zone .utc segment.toList
  unfold Phrase.clockTime? Phrase.clockSegment?
  simp only [Clause.Residual.read_get,clock]
  rw [findSome?_find? (fun segment => by rw [Option.isSome_map,found]),
    findSome?_find? (fun segment => by rw [Option.isSome_map,found])]
  cases (Clause.Residual.segments (Phrase.residue phrase).tokens).find? fun segment =>
      (TimeOfDay.parse? .utc segment.toList).isSome with
  | none => exact ⟨rfl,rfl⟩
  | some segment => exact ⟨rfl,rfl⟩

theorem Fields.shown_congr {one two : Fields} (same : one.get field = two.get field) : one.shown field = two.shown field := by
  unfold shown
  rw [same]

namespace Schedule

def SameClock (one two : Schedule) : Prop := one.hour = two.hour ∧ one.minute = two.minute

-- Hours and minutes are numbers, and they are the same time of day once each is moved on by so many minutes.
def Turned (one two : Schedule) (forward onward : Int) : Prop :=
  ∃ hour minute hour' minute' : Nat, one.hour = toString hour ∧ one.minute = toString minute ∧
    two.hour = toString hour' ∧ two.minute = toString minute' ∧
    (hour * 60 + minute + forward) % 1440 = (hour' * 60 + minute' + onward) % 1440

end Schedule

theorem turned_minutes (seconds east west : Int) :
    ((TimeOfDay.ofSeconds (seconds - 60 * east)).minutes + east) % 1440 =
      ((TimeOfDay.ofSeconds (seconds - 60 * west)).minutes + west) % 1440 := by
  rw [TimeOfDay.minutes_ofSeconds,TimeOfDay.minutes_ofSeconds]
  omega

theorem schedule_clock {draft : Draft} (enabled : ¬ draft.fields.disabled = true) {time : TimeOfDay}
    (hour : draft.fields.get .hour = some (.number time.hour))
    (minute : draft.fields.get .minute = some (.number time.minute)) :
    draft.schedule.hour = toString time.hour.val ∧ draft.schedule.minute = toString time.minute.val := by
  unfold Draft.schedule
  rw [if_neg enabled]
  exact ⟨Fields.shown_entry hour trivial,Fields.shown_entry minute trivial⟩

theorem schedule_open {first second : Draft} (words : first.tokens = second.tokens)
    (enabled : ¬ first.fields.disabled = true) (enabled' : ¬ second.fields.disabled = true)
    (same : ∀ field, field ≠ .hour → field ≠ .minute → first.fields.get field = second.fields.get field) :
    first.schedule.dayOfMonth = second.schedule.dayOfMonth ∧ first.schedule.month = second.schedule.month ∧
      first.schedule.dayOfWeek = second.schedule.dayOfWeek ∧ first.schedule.unparsed = second.schedule.unparsed := by
  have left : first.unparsed = second.unparsed := by
    unfold Draft.unparsed Draft.words
    rw [words]
  unfold Draft.schedule
  rw [if_neg enabled,if_neg enabled']
  exact ⟨Fields.shown_congr (same _ (by decide) (by decide)),Fields.shown_congr (same _ (by decide) (by decide)),
    Fields.shown_congr (same _ (by decide) (by decide)),left⟩

theorem same_clock {first second : Draft} (enabled : ¬ first.fields.disabled = true)
    (enabled' : ¬ second.fields.disabled = true) (hour : first.fields.get .hour = second.fields.get .hour)
    (minute : first.fields.get .minute = second.fields.get .minute) : first.schedule.SameClock second.schedule := by
  unfold Draft.schedule
  rw [if_neg enabled,if_neg enabled']
  exact ⟨Fields.shown_congr hour,Fields.shown_congr minute⟩

-- Two zones that are given as texts make the same schedule but for the clock, and the clock is turned by
-- the difference of the zones. It is not turned at all when the schedule is cancelled, or when there is no
-- clock time, or when the earliest one names its offset.
theorem zone_turns_clock (phrase : String) {first second : String} {one two : Offset}
    (given : Offset.parse first = .ok one) (given' : Offset.parse second = .ok two) :
    (compile one phrase).dayOfMonth = (compile two phrase).dayOfMonth ∧
    (compile one phrase).month = (compile two phrase).month ∧
    (compile one phrase).dayOfWeek = (compile two phrase).dayOfWeek ∧
    (compile one phrase).unparsed = (compile two phrase).unparsed ∧
    (compile one phrase).fullyParsed = (compile two phrase).fullyParsed ∧
    ((compile one phrase).SameClock (compile two phrase) ∨
      (compile one phrase).Turned (compile two phrase) one.minutes two.minutes) ∧
    ((Clause.Never.never ∈ Phrase.lex phrase ∨
        ∀ segment, Phrase.clockSegment? phrase = some segment → ClockText.Zoned segment.toList) →
      (compile one phrase).SameClock (compile two phrase)) := by
  have whole := Offset.parse_whole given
  have whole' := Offset.parse_whole given'
  obtain ⟨words,cancelled,same⟩ := Clause.Residual.read_zone one two (Phrase.residue phrase)
  have clock := residue_clock one phrase
  have clock' := residue_clock two phrase
  have spelled (zone : Offset) := Phrase.clockSegment_spelled zone phrase
  have never := Phrase.residue_cancelled one phrase
  rw [Phrase.compile_residue,Phrase.compile_residue]
  unfold Phrase.clockTime? at clock clock'
  generalize Phrase.clockSegment? phrase = found at clock clock' spelled ⊢
  generalize Clause.Residual.read one (Phrase.residue phrase) = draft at words cancelled same clock never ⊢
  generalize Clause.Residual.read two (Phrase.residue phrase) = draft' at words cancelled same clock' ⊢
  by_cases disabled : draft.fields.disabled = true
  · have equal : draft.schedule = draft'.schedule := by
      rw [schedule_disabled disabled,schedule_disabled (cancelled ▸ disabled)]
      unfold Draft.unparsed Draft.words
      rw [words]
    rw [equal]
    exact ⟨rfl,rfl,rfl,rfl,rfl,.inl ⟨rfl,rfl⟩,fun _ => ⟨rfl,rfl⟩⟩
  · have disabled' : ¬ draft'.fields.disabled = true := cancelled ▸ disabled
    obtain ⟨days,months,weekdays,left⟩ := schedule_open words disabled disabled' same
    refine ⟨days,months,weekdays,left,by unfold Schedule.fullyParsed; rw [left],?_⟩
    rw [or_iff_right fun member => disabled (never member)]
    cases found with
    | none =>
      have unturned := same_clock disabled disabled' (clock.1.trans clock'.1.symm) (clock.2.trans clock'.2.symm)
      exact ⟨.inl unturned,fun _ => unturned⟩
    | some segment =>
      obtain ⟨time,known⟩ := Option.isSome_iff_exists.mp (spelled one segment rfl)
      simp only [Option.bind_some,known,Option.map_some,Option.some_or] at clock clock'
      by_cases zoned : ClockText.Zoned segment.toList
      · rw [← ClockText.parse_zoned one two zoned,known] at clock'
        have unturned := same_clock disabled disabled' (clock.1.trans clock'.1.symm) (clock.2.trans clock'.2.symm)
        exact ⟨.inl unturned,fun _ => unturned⟩
      · refine ⟨.inr ?_,fun each => absurd (each segment rfl) zoned⟩
        obtain ⟨seconds,rfl,known'⟩ := ClockText.parse_unzoned one two zoned known
        rw [known'] at clock'
        obtain ⟨hour,minute⟩ := schedule_clock disabled clock.1 clock.2
        obtain ⟨hour',minute'⟩ := schedule_clock disabled' clock'.1 clock'.2
        refine ⟨_,_,_,_,hour,minute,hour',minute',?_⟩
        have turned := turned_minutes seconds one.minutes two.minutes
        rwa [← whole,← whole'] at turned

theorem zone_turns_clock_daily : Offset.parse "+02:00" = .ok ⟨7200,by decide⟩ ∧
    Offset.parse "-05:30" = .ok ⟨-19800,by decide⟩ ∧
    compile ⟨7200,by decide⟩ "daily at 22:15" = ⟨"15","20","*","*","*",""⟩ ∧
    compile ⟨-19800,by decide⟩ "daily at 22:15" = ⟨"45","3","*","*","*",""⟩ ∧
    (compile ⟨7200,by decide⟩ "daily at 22:15").Turned (compile ⟨-19800,by decide⟩ "daily at 22:15") 120 (-330) := by
  have east : Offset.parse "+02:00" = .ok ⟨7200,by decide⟩ := by rfl
  have west : Offset.parse "-05:30" = .ok ⟨-19800,by decide⟩ := by rfl
  have early : compile ⟨7200,by decide⟩ "daily at 22:15" = ⟨"15","20","*","*","*",""⟩ := by decide +kernel
  have late : compile ⟨-19800,by decide⟩ "daily at 22:15" = ⟨"45","3","*","*","*",""⟩ := by decide +kernel
  obtain ⟨_,_,_,_,_,turned,_⟩ := zone_turns_clock "daily at 22:15" east west
  refine ⟨east,west,early,late,turned.resolve_left ?_⟩
  rw [early,late]
  exact fun same => absurd same.1 (by decide)

end Recurrence
