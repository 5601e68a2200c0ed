import Recurrence.Proofs.WeeklySchedule

namespace Recurrence

theorem Offset.minutes_range (offset : Offset) : -1440 ≤ offset.minutes ∧ offset.minutes < 1440 := by
  have within := offset.within_day
  unfold secondsPerDay at within
  unfold minutes
  omega

-- A minute of the week; days count from Sunday.
structure Moment where
  day : Fin 7
  time : TimeOfDay
deriving DecidableEq

def Moment.minutes (moment : Moment) : Int := moment.day.val * 1440 + moment.time.minutes

-- The minutes of the week at which a schedule comes round, if the day of the month and the month are open.
def Schedule.comesAt (schedule : Schedule) (moment : Moment) : Bool :=
  schedule.dayOfMonth == "*" && schedule.month == "*" && inField 7 schedule.dayOfWeek moment.day.val &&
    inField 24 schedule.hour moment.time.hour.val && inField 60 schedule.minute moment.time.minute.val

theorem every_day {holds : Nat → Prop} (first : Fin 7) (some_day : holds first.val)
    (next : ∀ day : Fin 7, holds day.val ↔ holds ((day.val + 1) % 7)) : ∀ day : Fin 7, holds day.val := by
  have onward (count : Nat) : holds ((first.val + count) % 7) := by
    induction count with
    | zero => rwa [Nat.add_zero,Nat.mod_eq_of_lt first.isLt]
    | succ count ih =>
      have step := (next ⟨(first.val + count) % 7,Nat.mod_lt _ (by decide)⟩).mp ih
      have same : ((first.val + count) % 7 + 1) % 7 = (first.val + (count + 1)) % 7 := by omega
      rwa [← same]
  intro day
  have reached := onward (day.val + 7 - first.val)
  have same : (first.val + (day.val + 7 - first.val)) % 7 = day.val := by omega
  rwa [same] at reached

namespace Weekly.Request

def time (request : Request) : TimeOfDay := ⟨request.hour,request.minute⟩

-- The minutes by which the zone of the clock time is ahead of UTC.
def east (request : Request) (zone : Offset) : Int := (request.zone.stated.getD zone).minutes

def Names (request : Request) (day : Nat) : Prop := ∃ item ∈ request.days, inItem 7 item.span.numbers day = true

-- The moments that the phrase speaks of, in its own zone.
def Says (request : Request) (moment : Moment) : Prop := request.Names moment.day.val ∧ moment.time = request.time

theorem comesAt_iff (request : Request) (zone : Offset) (moment : Moment) :
    (compile zone request.phrase).comesAt moment = true ↔ request.Names moment.day.val ∧ moment.time = request.utc zone := by
  rw [compile_phrase]
  unfold Schedule.comesAt Names
  dsimp only
  rw [inField_listed request.spans_made,inField_number,inField_number]
  simp only [Bool.and_eq_true,beq_iff_eq,List.any_map,List.any_eq_true,Function.comp_apply,true_and,and_assoc]
  constructor
  · intro ⟨named,hour,minute⟩
    exact ⟨named,TimeOfDay.eq_of_minutes (by unfold TimeOfDay.minutes; rw [hour,minute])⟩
  · intro ⟨named,same⟩
    rw [same]
    exact ⟨named,rfl,rfl⟩

theorem some_named (request : Request) : ∃ day : Fin 7, request.Names day.val := by
  have numbers : ∀ entry ∈ Dated.names .weekday, entry.2 < 7 := by decide
  obtain ⟨item,rest,split⟩ := List.exists_cons_of_ne_nil request.some_day
  have first : item ∈ request.days := by rw [split]; exact List.mem_cons_self
  cases spelled : item.span with
  | single name =>
    refine ⟨⟨name.number,numbers _ name.known⟩,item,first,?_⟩
    rw [spelled]
    simp [Dated.Span.numbers,inItem]
  | range name last =>
    refine ⟨⟨name.number,numbers _ name.known⟩,item,first,?_⟩
    rw [spelled]
    simp [Dated.Span.numbers,inItem]

theorem stated_whole (request : Request) {zone : Offset} (whole : zone.seconds = 60 * zone.minutes) :
    (request.zone.stated.getD zone).seconds = 60 * request.east zone := by
  unfold east
  rcases request.zone.said_cases with ⟨_,unstated⟩ | ⟨written,offset,_,stated,read⟩
  · rw [unstated]
    exact whole
  · rw [stated]
    exact Offset.read_whole read

theorem utc_minutes (request : Request) {zone : Offset} (whole : zone.seconds = 60 * zone.minutes) :
    (request.utc zone).minutes = (request.time.minutes - request.east zone) % 1440 := by
  unfold utc
  rw [TimeOfDay.minutes_ofSeconds,request.stated_whole whole]
  unfold time TimeOfDay.minutes
  dsimp only
  omega

theorem utc_iff (request : Request) {zone : Offset} (whole : zone.seconds = 60 * zone.minutes) (time : TimeOfDay) :
    time = request.utc zone ↔ (time.minutes + request.east zone) % 1440 = request.time.minutes := by
  have known := request.utc_minutes whole
  have range := time.minutes_range
  have spoken := request.time.minutes_range
  constructor
  · rintro rfl
    omega
  · intro same
    exact TimeOfDay.eq_of_minutes (by omega)

-- The days that the conversion to UTC passes, backwards or forwards.
def carry (request : Request) (zone : Offset) : Int := (request.time.minutes - request.east zone) / 1440

theorem carry_range (request : Request) (zone : Offset) : -1 ≤ request.carry zone ∧ request.carry zone ≤ 1 := by
  have spoken := request.time.minutes_range
  have east : -1440 ≤ request.east zone ∧ request.east zone < 1440 := Offset.minutes_range _
  unfold carry
  omega

theorem says_iff (request : Request) {zone : Offset} (whole : zone.seconds = 60 * zone.minutes) (moment : Moment) :
    (∃ spoken, request.Says spoken ∧ (moment.minutes + request.east zone) % 10080 = spoken.minutes) ↔
      moment.time = request.utc zone ∧
        ∃ day : Fin 7, request.Names day.val ∧ (day.val + request.carry zone) % 7 = moment.day.val := by
  have range := moment.time.minutes_range
  have spoken_range := request.time.minutes_range
  rw [utc_iff request whole]
  unfold carry Moment.minutes
  constructor
  · intro ⟨spoken,⟨named,same⟩,passed⟩
    rw [same] at passed
    exact ⟨by omega,spoken.day,named,by omega⟩
  · intro ⟨converted,day,named,moved⟩
    exact ⟨⟨day,request.time⟩,⟨named,rfl⟩,by dsimp only; omega⟩

theorem all_named (request : Request) (zone : Offset) (crosses : request.carry zone ≠ 0)
    (moved : ∀ day : Fin 7, request.Names day.val ↔
      ∃ before : Fin 7, request.Names before.val ∧ (before.val + request.carry zone) % 7 = day.val) :
    ∀ day : Fin 7, request.Names day.val := by
  obtain ⟨first,named⟩ := request.some_named
  have range := request.carry_range zone
  refine every_day first named fun day => ?_
  have following : (day.val + 1) % 7 < 7 := Nat.mod_lt _ (by decide)
  -- Forwards by a day the weekday comes from the one before it, backwards from the one behind it.
  by_cases onward : request.carry zone = 1
  · rw [moved ⟨(day.val + 1) % 7,following⟩,onward]
    constructor
    · exact fun named => ⟨day,named,by dsimp only; omega⟩
    · intro ⟨before,named,same⟩
      have equal : before = day := Fin.ext (by dsimp only at same; omega)
      rwa [← equal]
  · rw [moved day]
    constructor
    · intro ⟨before,named,same⟩
      have equal : before.val = (day.val + 1) % 7 := by omega
      rwa [← equal]
    · exact fun named => ⟨⟨(day.val + 1) % 7,following⟩,named,by dsimp only; omega⟩

theorem kept_iff (request : Request) (zone : Offset) :
    (∀ day : Fin 7, request.Names day.val ↔
      ∃ before : Fin 7, request.Names before.val ∧ (before.val + request.carry zone) % 7 = day.val) ↔
      (∀ day : Fin 7, request.Names day.val) ∨ request.carry zone = 0 := by
  constructor
  · intro moved
    by_cases crosses : request.carry zone = 0
    · exact .inr crosses
    · exact .inl (request.all_named zone crosses moved)
  · intro stays day
    rcases stays with every | crosses
    · have bound : (day.val + 7 - request.carry zone) % 7 < 7 := Int.emod_lt_of_pos _ (by decide)
      have range := request.carry_range zone
      refine ⟨fun _ => ⟨⟨((day.val + 7 - request.carry zone) % 7).toNat,by omega⟩,every _,?_⟩,fun _ => every day⟩
      dsimp only
      omega
    · rw [crosses]
      constructor
      · exact fun named => ⟨day,named,by omega⟩
      · intro ⟨before,named,same⟩
        have equal : before = day := Fin.ext (by omega)
        rwa [← equal]

end Weekly.Request

-- The clock time of a weekly phrase is converted within the day that the phrase names. These are the
-- moments that the phrase speaks of unless the conversion passes midnight, and then only if all seven
-- days are named.
theorem weekly_moments (request : Weekly.Request) {written : String} {zone : Offset}
    (given : Offset.parse written = .ok zone) :
    (compile zone request.phrase).fullyParsed = true ∧
    (∀ moment, (compile zone request.phrase).comesAt moment = true ↔ ∃ spoken, request.Says spoken ∧
      moment.day = spoken.day ∧ (moment.time.minutes + request.east zone) % 1440 = spoken.time.minutes) ∧
    ((∀ moment, (compile zone request.phrase).comesAt moment = true ↔ ∃ spoken, request.Says spoken ∧
        (moment.minutes + request.east zone) % 10080 = spoken.minutes) ↔
      (∀ day : Fin 7, request.Names day.val) ∨
        0 ≤ request.time.minutes - request.east zone ∧ request.time.minutes - request.east zone < 1440) := by
  have whole := Offset.parse_whole given
  refine ⟨?_,?_,?_⟩
  · rw [request.compile_phrase]
    rfl
  · intro moment
    rw [request.comesAt_iff,request.utc_iff whole]
    constructor
    · intro ⟨named,converted⟩
      exact ⟨⟨moment.day,request.time⟩,⟨named,rfl⟩,rfl,converted⟩
    · intro ⟨spoken,⟨named,same⟩,day,converted⟩
      rw [day,← same]
      exact ⟨named,converted⟩
  · have within : request.carry zone = 0 ↔
        0 ≤ request.time.minutes - request.east zone ∧ request.time.minutes - request.east zone < 1440 := by
      unfold Weekly.Request.carry
      omega
    rw [← within,← request.kept_iff zone]
    -- The converted time is the same on both sides, so only the weekdays are compared.
    simp only [request.comesAt_iff,request.says_iff whole]
    constructor
    · intro equal day
      simpa using equal ⟨day,request.utc zone⟩
    · intro kept moment
      rw [kept moment.day,and_comm]

-- `on Fri-sunday, and wed at 09:05 EST`
def Weekly.weekend : Weekly.Request where
  days := [⟨.range ⟨"Fri",5,by decide +kernel⟩ ⟨"sunday",0,by decide +kernel⟩,.hyphen,true,true⟩,
    ⟨.single ⟨"wed",3,by decide +kernel⟩,.upTo,false,false⟩]
  some_day := List.cons_ne_nil _ _
  hour := 9
  minute := 5
  wide := true
  zone := .named "EST" "-05:00" (by decide +kernel)

theorem weekly_moments_weekend : Offset.parse "+00:00" = .ok .utc ∧
    Weekly.weekend.phrase = "on Fri-sunday, and wed at 09:05 EST" ∧
    (compile .utc Weekly.weekend.phrase).fullyParsed = true ∧
    ∀ moment, (compile .utc Weekly.weekend.phrase).comesAt moment = true ↔
      ∃ spoken, Weekly.weekend.Says spoken ∧ (moment.minutes + -300) % 10080 = spoken.minutes := by
  have given : Offset.parse "+00:00" = .ok .utc := by rfl
  have east : Weekly.weekend.east .utc = -300 := by decide +kernel
  obtain ⟨parsed,_,week⟩ := weekly_moments Weekly.weekend given
  rw [east] at week
  exact ⟨given,by decide +kernel,parsed,week.mpr (.inr (by decide))⟩

-- Past midnight the weekday is not the one that the clock time falls on.
theorem monday_late : compile .utc "on mon at 23:00 est" = ⟨"0","4","*","*","1",""⟩ ∧
    ¬ ∀ moment, (compile .utc "on mon at 23:00 est").comesAt moment = true ↔ ∃ spoken : Moment,
      spoken.day = 1 ∧ spoken.time = ⟨23,0⟩ ∧ (moment.minutes + -300) % 10080 = spoken.minutes := by
  have compiled : compile .utc "on mon at 23:00 est" = ⟨"0","4","*","*","1",""⟩ := by decide +kernel
  refine ⟨compiled,fun week => ?_⟩
  have monday := week ⟨1,⟨4,0⟩⟩
  rw [compiled] at monday
  obtain ⟨spoken,day,time,passed⟩ := monday.mp (by decide)
  unfold Moment.minutes at passed
  rw [day,time] at passed
  exact absurd passed (by decide)

end Recurrence
