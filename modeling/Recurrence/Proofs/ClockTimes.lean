import Recurrence.Proofs.ClockGrammar
import Recurrence.Proofs.DefaultZone

namespace Recurrence
open Text

theorem TimeOfDay.ofSeconds_iff {time : TimeOfDay} : ofSeconds seconds = time ↔
    ∃ late, 0 ≤ late ∧ late < 60 ∧ seconds % 86400 = (time.hour.val : Int) * 3600 + time.minute.val * 60 + late := by
  have turned := minutes_ofSeconds seconds
  constructor
  · rintro rfl
    refine ⟨seconds % 60,by omega,by omega,?_⟩
    unfold minutes at turned
    omega
  · rintro ⟨late,_,_,split⟩
    refine eq_of_minutes (turned.trans ?_)
    unfold minutes
    omega

namespace ClockText

-- The hour of the day that an hour of the clock is. With a half of the day the hours go from 1 to 12, and
-- twelve is the first hour of its half.
inductive HourOfDay : Nat → Option Half → Nat → Prop where
  | whole (below : h < 24) : HourOfDay h none h
  | midnight : HourOfDay 12 (some .am) 0
  | morning (above : 1 ≤ h) (below : h < 12) : HourOfDay h (some .am) h
  | noon : HourOfDay 12 (some .pm) 12
  | evening (above : 1 ≤ h) (below : h < 12) : HourOfDay h (some .pm) (h + 12)

theorem hour24_iff {clock : ClockText} : clock.hour24? = some n ↔ HourOfDay clock.hour clock.half n := by
  obtain ⟨h,m,s,daytime,zone⟩ := clock
  unfold hour24?
  dsimp only
  constructor
  · intro known
    match daytime with
    | none =>
      simp only [Option.ite_none_right_eq_some,Option.some.injEq] at known
      obtain ⟨below,rfl⟩ := known
      exact .whole below
    | some .am =>
      simp only [Option.ite_none_right_eq_some,Option.some.injEq] at known
      obtain ⟨⟨above,below⟩,rfl⟩ := known
      by_cases twelve : h = 12
      · subst twelve
        exact .midnight
      · have same : h % 12 + 0 = h := by omega
        rw [same]
        exact .morning above (by omega)
    | some .pm =>
      simp only [Option.ite_none_right_eq_some,Option.some.injEq] at known
      obtain ⟨⟨above,below⟩,rfl⟩ := known
      by_cases twelve : h = 12
      · subst twelve
        exact .noon
      · have same : h % 12 + 12 = h + 12 := by omega
        rw [same]
        exact .evening above (by omega)
  · intro told
    cases told with
    | whole below => simp [below]
    | midnight => simp
    | morning above below =>
      have inside : n % 12 = n := by omega
      simp [inside,above,Nat.le_of_lt below]
    | noon => simp
    | evening above below =>
      have inside : h % 12 = h := by omega
      simp [inside,above,Nat.le_of_lt below]

-- How far east of UTC a clock time is read: as its end says, or as the zone says if that is empty.
inductive Distance (zone : Offset) : Int → List Char → Prop where
  | assumed : Distance zone zone.seconds []
  | told (spelled : Offset.Spelled east text) : Distance zone east text

theorem distance_iff {zone : Offset} : Distance zone east last ↔
    ∃ offset, Ending offset last ∧ (offset.getD zone).seconds = east := by
  constructor
  · intro distance
    cases distance with
    | assumed => exact ⟨none,.absent,rfl⟩
    | told spelled => exact ⟨some ⟨east,spelled.within_day⟩,.present (Offset.read_spelled.mpr spelled),rfl⟩
  · rintro ⟨offset,ending,rfl⟩
    cases ending with
    | absent => exact .assumed
    | present read => exact .told (Offset.read_spelled.mp read)

-- The seconds after midnight, UTC, that a text tells. Between blanks it is written in figures, with a half of
-- the day and with an offset or without; the figures have minutes if there is no half of the day.
inductive Tells (zone : Offset) (text : List Char) : Int → Prop where
  | clock (written : trim text = figures ++ (gap ++ (halfText daytime ++ (space ++ last))))
      (face : Face h m s figures) (apart : Blanks gap) (between : Blanks space) (hours : HourOfDay h daytime n)
      (distance : Distance zone east last) (timed : m.isSome ∨ daytime.isSome) (minutes : m.getD 0 < 60)
      (seconds : s.getD 0 < 60) :
      Tells zone text ((n * 3600 + m.getD 0 * 60 + s.getD 0 : Nat) - east)

theorem written_iff {clock : ClockText} : Written clock text ↔ ∃ figures gap space last,
    trim text = figures ++ (gap ++ (halfText clock.half ++ (space ++ last))) ∧
      Face clock.hour clock.minute clock.second figures ∧ Blanks gap ∧ Blanks space ∧ Ending clock.offset last := by
  constructor
  · intro written
    cases written with
    | @parts h m s figures zone last b₁ b₂ b₃ b₄ daytime face ending before gap space behind =>
      obtain ⟨b₂',b₃',gap',space',trimmed⟩ := trimEnd_parts_behind daytime ending gap space behind
      have front := trim_figures face before (b₂ ++ (halfText daytime ++ (b₃ ++ (last ++ b₄))))
      rw [trimmed] at front
      exact ⟨figures,b₂',b₃',last,front,face,gap',space',ending⟩
  · rintro ⟨figures,gap,space,last,trimmed,face,apart,between,ending⟩
    obtain ⟨b₁,b₄,split,before,behind⟩ := trim_parts text
    have spelled : text = b₁ ++ (figures ++ (gap ++ (halfText clock.half ++ (space ++ (last ++ b₄))))) := by
      rw [trimmed] at split
      simpa only [List.append_assoc] using split
    rw [spelled]
    exact .parts face ending before apart between behind

theorem shown_iff {clock : ClockText} : clock.shown? = some total ↔ ∃ n, HourOfDay clock.hour clock.half n ∧
    (clock.minute.isSome ∨ clock.half.isSome) ∧ clock.minute.getD 0 < 60 ∧ clock.second.getD 0 < 60 ∧
      total = n * 3600 + clock.minute.getD 0 * 60 + clock.second.getD 0 := by
  unfold shown?
  simp only [Option.bind_eq_some_iff,Option.ite_none_right_eq_some,Option.some.injEq,hour24_iff,and_assoc]
  simp only [eq_comm]

theorem tells_iff {zone : Offset} : Tells zone text total ↔ ∃ clock shown, read? text = some clock ∧
    clock.shown? = some shown ∧ total = shown - (clock.offset.getD zone).seconds := by
  simp only [read_iff,written_iff,shown_iff]
  constructor
  · intro tells
    obtain @⟨figures,gap,daytime,space,last,h,m,s,n,east,written,face,apart,between,hours,distance,timed,minutes,below⟩ := tells
    obtain ⟨offset,ending,rfl⟩ := distance_iff.mp distance
    exact ⟨⟨h,m,s,daytime,offset⟩,_,⟨figures,gap,space,last,written,face,apart,between,ending⟩,
      ⟨n,hours,timed,minutes,below,rfl⟩,rfl⟩
  · rintro ⟨clock,shown,⟨figures,gap,space,last,written,face,apart,between,ending⟩,
      ⟨n,hours,timed,minutes,below,rfl⟩,rfl⟩
    exact .clock written face apart between hours (distance_iff.mpr ⟨clock.offset,ending,rfl⟩) timed minutes below

end ClockText

-- A text is a clock time if it is written as one, and then it is the time of day in UTC that is told by it,
-- less the seconds of the minute.
theorem clock_time_iff {zone : Offset} {text : List Char} {time : TimeOfDay} :
    TimeOfDay.parse? zone text = some time ↔ ∃ seconds, ClockText.Tells zone text seconds ∧
      ∃ late, 0 ≤ late ∧ late < 60 ∧ seconds % 86400 = (time.hour.val : Int) * 3600 + time.minute.val * 60 + late := by
  simp only [ClockText.parse_shown,Option.bind_eq_some_iff,Option.map_eq_some_iff,Option.bind_eq_bind,Option.pure_def,
    Option.some.injEq,TimeOfDay.ofSeconds_iff,ClockText.tells_iff]
  constructor
  · rintro ⟨clock,read,_,⟨shown,known,rfl⟩,late⟩
    exact ⟨_,⟨clock,shown,read,known,rfl⟩,late⟩
  · rintro ⟨_,⟨clock,shown,read,known,rfl⟩,late⟩
    exact ⟨clock,read,_,⟨shown,known,rfl⟩,late⟩

-- Seconds count where the offset is not of whole minutes.
example : TimeOfDay.parse? ⟨-59,by decide⟩ "23:59:01".toList = some ⟨0,0⟩ := by decide

end Recurrence
