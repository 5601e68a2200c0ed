import Recurrence.Proofs.DefaultZone
import Recurrence.Proofs.Figures

namespace Recurrence.Clause.Residual

-- The runs of a sequence: each goes as far as the next marker, and the last one to the end.
inductive Parted : List Token → List (List Token) → Prop where
  | last (unmarked : ∀ token ∈ run, token.isMarker = false) : Parted run [run]
  | next (unmarked : ∀ token ∈ run, token.isMarker = false) (later : Parted rest runs) :
      Parted (run ++ .marker kind :: rest) (run :: runs)

theorem Parted.split (parted : Parted tokens runs) : tokens.splitOnP Token.isMarker = runs := by
  induction parted with
  | last unmarked => exact List.splitOnP_eq_singleton unmarked
  | @next run rest runs kind unmarked later ih =>
    rw [List.splitOnP_append_cons run rest (by rfl),List.splitOnP_eq_singleton unmarked,ih]
    rfl

theorem Parted.cons (unmarked : token.isMarker = false) (parted : Parted rest (run :: runs)) :
    Parted (token :: rest) ((token :: run) :: runs) := by
  have longer {run : List Token} (others : ∀ token ∈ run, token.isMarker = false) :
      ∀ other ∈ token :: run, other.isMarker = false := by
    intro other member
    rcases List.mem_cons.mp member with rfl | member
    · exact unmarked
    · exact others other member
  cases parted with
  | last others => exact .last (longer others)
  | next others later => exact .next (longer others) later

theorem split_parted (tokens : List Token) : Parted tokens (tokens.splitOnP Token.isMarker) := by
  induction tokens with
  | nil => exact .last (by simp)
  | cons token rest ih =>
    rw [List.splitOnP_cons_eq_if_modifyHead]
    cases marked : token.isMarker with
    | true =>
      obtain ⟨kind,rfl⟩ : ∃ kind, token = .marker kind := by
        cases token with
        | marker kind => exact ⟨kind,rfl⟩
        | word text => cases marked
        | blank => cases marked
      have unmarked : ∀ token ∈ ([] : List Token), token.isMarker = false := by simp
      exact .next unmarked ih
    | false =>
      obtain ⟨run,runs,split⟩ := List.exists_cons_of_ne_nil (List.splitOnP_ne_nil Token.isMarker rest)
      rw [split] at ih ⊢
      exact ih.cons marked

theorem parted_iff : Parted tokens runs ↔ runs = tokens.splitOnP Token.isMarker :=
  ⟨fun parted => parted.split.symm,fun same => same ▸ split_parted tokens⟩

-- What a segment can say, a clock time or numbers alone. It is never both.
def clock? (zone : Offset) (segment : String) : Option TimeOfDay := TimeOfDay.parse? zone segment.toList
def isNumbers (segment : String) : Bool := segment.toList.all fun c => c.isDigit || Text.isBlank c

theorem numbers_no_clock {segment : String} (zone : Offset) (numbers : isNumbers segment = true) : clock? zone segment = none := by
  refine ClockText.numbers_no_time zone fun c inside => ?_
  exact Bool.or_eq_true_iff.mp (List.all_eq_true.mp numbers c inside)

theorem reading_eq (zone : Offset) (segment : String) : reading zone segment =
    match clock? zone segment with
    | some time => .time time
    | none => if isNumbers segment then .days (segmentWords segment) else .other := rfl

theorem isOther_eq (zone : Offset) (segment : String) :
    isOther zone segment = ((clock? zone segment).isNone && !isNumbers segment) := by
  unfold isOther
  rw [reading_eq]
  cases clock? zone segment with
  | some time => rfl
  | none => cases isNumbers segment <;> rfl

theorem said_days (zone : Offset) (segment : String) : said .dayOfMonth (reading zone segment) =
    if isNumbers segment then some (.days (segmentWords segment)) else none := by
  rw [reading_eq]
  cases numbers : isNumbers segment with
  | true =>
    rw [numbers_no_clock zone numbers]
    rfl
  | false => cases clock? zone segment <;> rfl

-- The segments while they are gone over: those that are still there, and what the others said.
structure Sweep where
  remaining : List String
  fields : Fields
deriving DecidableEq

namespace Sweep

-- A segment that says something is taken out where it stands. There is nothing to visit behind the last segment.
def visit (zone : Offset) (sweep : Sweep) (i : Nat) : Option Sweep :=
  sweep.remaining[i]?.map fun segment =>
    match clock? zone segment with
    | some time => ⟨sweep.remaining.eraseIdx i,
        (sweep.fields.set .hour (.number time.hour)).set .minute (.number time.minute)⟩
    | none =>
      if isNumbers segment then
        ⟨sweep.remaining.eraseIdx i,sweep.fields.set .dayOfMonth (.days (segmentWords segment))⟩
      else sweep

-- The positions below a number, from the last one to the first.
def down (zone : Offset) : Nat → Sweep → Option Sweep
  | 0,sweep => some sweep
  | i + 1,sweep => (sweep.visit zone i).bind (down zone i)

def draft (sweep : Sweep) : Draft :=
  ⟨sweep.remaining.flatMap fun segment => (segmentWords segment).map .word,sweep.fields⟩

theorem visit_at (zone : Offset) (before behind : List String) (segment : String) (fields : Fields) :
    visit zone ⟨before ++ segment :: behind,fields⟩ before.length =
      some ⟨before ++ ([segment].filter (isOther zone) ++ behind),fields.write (told (reading zone segment))⟩ := by
  have erased : (before ++ segment :: behind).eraseIdx before.length = before ++ behind := by
    rw [List.eraseIdx_append_of_length_le (Nat.le_refl _),Nat.sub_self]
    rfl
  unfold visit
  dsimp only
  rw [List.getElem?_append_right (Nat.le_refl _),Nat.sub_self,List.getElem?_cons_zero,Option.map_some,erased,
    List.filter_singleton,isOther_eq,reading_eq]
  cases clock? zone segment with
  | some time => rfl
  | none => cases isNumbers segment <;> rfl

-- What has been gone over is behind the position that comes next, and those before it are as they were: so each
-- segment is met once, where it stood at first, and an earlier one writes after a later one.
theorem down_all (zone : Offset) (found behind : List String) (fields : Fields) :
    down zone found.length ⟨found ++ behind,fields⟩ = some ⟨found.filter (isOther zone) ++ behind,
      fields.write (found.reverse.flatMap fun segment => told (reading zone segment))⟩ := by
  induction found using List.reverseRecOn generalizing behind fields with
  | nil => rfl
  | append_singleton before segment ih =>
    rw [List.length_append,List.length_singleton,down,List.append_assoc,List.singleton_append,visit_at,Option.bind_some,
      ih,← Fields.write_append,List.filter_append,List.append_assoc,List.reverse_append]
    rfl

theorem down_read (zone : Offset) (draft : Draft) :
    (down zone (segments draft.tokens).length ⟨segments draft.tokens,draft.fields⟩).map Sweep.draft =
      some (read zone draft) := by
  have all := down_all zone (segments draft.tokens) [] draft.fields
  rw [List.append_nil,List.append_nil,← read_told] at all
  rw [all,Option.map_some,Sweep.draft,← read_tokens]

end Sweep

-- What the stage makes of a draft that has these segments, told from the first one on.
structure ReadOnce (zone : Offset) (found : List String) (draft next : Draft) : Prop where
  left : next.tokens = (found.filter fun segment => (clock? zone segment).isNone && !isNumbers segment).flatMap
    fun segment => (segmentWords segment).map .word
  timed : ∀ time, found.findSome? (clock? zone) = some time →
    next.fields.get .hour = some (.number time.hour) ∧ next.fields.get .minute = some (.number time.minute)
  untimed : found.findSome? (clock? zone) = none →
    next.fields.get .hour = draft.fields.get .hour ∧ next.fields.get .minute = draft.fields.get .minute
  dated : ∀ segment, found.find? isNumbers = some segment →
    next.fields.get .dayOfMonth = some (.days (segmentWords segment))
  undated : found.find? isNumbers = none → next.fields.get .dayOfMonth = draft.fields.get .dayOfMonth
  month : next.fields.get .month = draft.fields.get .month
  dayOfWeek : next.fields.get .dayOfWeek = draft.fields.get .dayOfWeek
  disabled : next.fields.disabled = draft.fields.disabled

theorem read_clock (zone : Offset) (draft : Draft) :
    (read zone draft).fields.get .hour = (((segments draft.tokens).findSome? (clock? zone)).map
        fun time => Entry.number time.hour).or (draft.fields.get .hour) ∧
      (read zone draft).fields.get .minute = (((segments draft.tokens).findSome? (clock? zone)).map
        fun time => Entry.number time.minute).or (draft.fields.get .minute) := by
  have hour : (fun segment => said .hour (reading zone segment)) =
      fun segment => (clock? zone segment).map fun time => Entry.number time.hour :=
    funext fun segment => (said_clock zone segment).1
  have minute : (fun segment => said .minute (reading zone segment)) =
      fun segment => (clock? zone segment).map fun time => Entry.number time.minute :=
    funext fun segment => (said_clock zone segment).2
  rw [read_get,read_get,hour,minute,List.map_findSome?,List.map_findSome?]
  exact ⟨rfl,rfl⟩

theorem read_days (zone : Offset) (draft : Draft) : (read zone draft).fields.get .dayOfMonth =
    (((segments draft.tokens).find? isNumbers).map fun segment => Entry.days (segmentWords segment)).or
      (draft.fields.get .dayOfMonth) := by
  have agree (segment : String) : (said .dayOfMonth (reading zone segment)).isSome = isNumbers segment := by
    rw [said_days]
    cases isNumbers segment <;> rfl
  rw [read_get,findSome?_find? agree]
  cases found : (segments draft.tokens).find? isNumbers with
  | none => rfl
  | some segment =>
    rw [Option.bind_some,said_days,if_pos (List.find?_some found)]
    rfl

-- The stage meets each segment once, at a position that is there, and what it makes of them is told from the
-- first one on: the first clock time and the first numbers are written, and the words of all that is neither stay.
theorem segments_read_once (zone : Offset) (draft : Draft) :
    ∃ runs, (∀ others, Parted draft.tokens others ↔ others = runs) ∧
      (Sweep.down zone ((runs.map runText).filter (· != "")).length
        ⟨(runs.map runText).filter (· != ""),draft.fields⟩).map Sweep.draft = some (read zone draft) ∧
      ReadOnce zone ((runs.map runText).filter (· != "")) draft (read zone draft) := by
  refine ⟨draft.tokens.splitOnP Token.isMarker,fun others => parted_iff,?_⟩
  rw [← segments_eq]
  obtain ⟨hour,minute⟩ := read_clock zone draft
  have days := read_days zone draft
  refine ⟨Sweep.down_read zone draft,?_⟩
  exact {
    left := by
      have other : isOther zone = fun segment => (clock? zone segment).isNone && !isNumbers segment :=
        funext (isOther_eq zone)
      rw [read_tokens,other]
    timed := fun time first => by
      rw [first] at hour minute
      exact ⟨hour,minute⟩
    untimed := fun none_found => by
      rw [none_found] at hour minute
      exact ⟨hour,minute⟩
    dated := fun segment first => by
      rw [first] at days
      exact days
    undated := fun none_found => by
      rw [none_found] at days
      exact days
    month := read_named zone draft .month
    dayOfWeek := read_named zone draft .weekday
    disabled := read_disabled zone draft }

-- The earlier clock time is written, and the days stand between the two.
example : read .utc ⟨[.marker .time,.word "10am",.marker .date,.word "5",.marker .time,.word "11am"],{}⟩ =
    ⟨[],{minute := some (.number 0),hour := some (.number 10),dayOfMonth := some (.days ["5"])}⟩ := by decide +kernel

end Recurrence.Clause.Residual
