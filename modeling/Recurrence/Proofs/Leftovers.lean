import Recurrence.Proofs.ClockTimes
import Recurrence.Proofs.SegmentSweep

namespace Recurrence
open Text

namespace ClockText

theorem Written.cut {clock : ClockText} (written : Written clock (front ++ c :: back)) (blank : isBlank c = true)
    (spoken : words front ≠ []) : (∃ offset, Written {clock with offset := offset} front) ∨
      Written {clock with half := none, offset := none} front := by
  have unspoken {text : List Char} (blanks : Blanks text) : words front = words text → False :=
    fun same => spoken (same.trans (words_blank blanks))
  have none_blank : Blanks [] := by simp [Blanks]
  generalize whole : front ++ c :: back = text at written
  cases written with
  | @parts h m s figures zone last b₁ b₂ b₃ b₄ daytime face ending before gap space behind =>
    rcases cut_blanks before whole with blanks | ⟨more,rfl,afterBlanks⟩
    · exact (unspoken blanks rfl).elim
    obtain ⟨more,rfl,afterFigures⟩ := cut_solid face.onFace.solid blank afterBlanks
    rcases cut_blanks gap afterFigures with blanks | ⟨more,rfl,afterGap⟩
    · have alone : Written ⟨h,m,s,none,none⟩ (b₁ ++ (figures ++ (more ++ ([] ++ ([] ++ ([] ++ [])))))) :=
        .parts face .absent before blanks none_blank none_blank
      exact .inr (by simpa using alone)
    obtain ⟨more,rfl,afterHalf⟩ := cut_solid (halfText_onFace daytime).solid blank afterGap
    rcases cut_blanks space afterHalf with blanks | ⟨more,rfl,afterSpace⟩
    · have halved : Written ⟨h,m,s,daytime,none⟩ (b₁ ++ (figures ++ (b₂ ++ (halfText daytime ++ (more ++ ([] ++ [])))))) :=
        .parts face .absent before gap blanks none_blank
      exact .inl ⟨none,by simpa using halved⟩
    obtain ⟨more,rfl,afterLast⟩ := cut_solid ending.onFace.solid blank afterSpace
    have blanks : Blanks more := fun d inside => behind d (afterLast ▸ List.mem_append_left _ inside)
    exact .inl ⟨zone,.parts face ending before gap space blanks⟩

theorem HourOfDay.below (hours : HourOfDay h daytime n) : h < 24 := by
  cases hours with
  | whole below => exact below
  | midnight | noon => decide
  | morning above below => omega
  | evening above below => omega

theorem shown_halved {clock : ClockText} (shown : clock.shown?.isSome = true) (minutes : clock.minute.isSome = true) :
    ({clock with half := none, offset := none} : ClockText).shown?.isSome = true := by
  obtain ⟨total,known⟩ := Option.isSome_iff_exists.mp shown
  obtain ⟨n,hours,_,minute,second,_⟩ := shown_iff.mp known
  exact Option.isSome_iff_exists.mpr ⟨_,shown_iff.mpr ⟨clock.hour,.whole hours.below,.inl minutes,minute,second,rfl⟩⟩

theorem Written.digits (written : Written ⟨h,none,s,none,none⟩ text) : ∀ c ∈ text, c.isDigit = true ∨ isBlank c = true := by
  cases written with
  | @parts h m s figures zone last b₁ b₂ b₃ b₄ daytime face ending before gap space behind =>
    cases ending
    cases face with
    | figures some_digit short all minutes seconds ordered =>
      cases ordered rfl
      intro c inside
      simp only [minutes.absent_text,seconds.absent_text,halfText,List.mem_append,List.not_mem_nil,or_false,
        false_or] at inside
      rcases inside with inside | inside | inside | inside | inside
      · exact .inr (before c inside)
      · exact .inl (all c inside)
      · exact .inr (gap c inside)
      · exact .inr (space c inside)
      · exact .inr (behind c inside)

theorem parse_isSome_iff {zone : Offset} : (TimeOfDay.parse? zone text).isSome = true ↔
    ∃ clock, Written clock text ∧ clock.shown?.isSome = true := by
  rw [parse_shown]
  cases read : read? text with
  | none =>
    simp only [Option.bind_none,Option.isSome_none,Bool.false_eq_true,false_iff,not_exists,not_and]
    intro clock written
    rw [read_of_written written] at read
    cases read
  | some clock =>
    have told (shown : Option Nat) : ((do let seconds ← shown; pure (seconds : Int)).map fun seconds =>
        TimeOfDay.ofSeconds (seconds - (clock.offset.getD zone).seconds)).isSome = shown.isSome := by
      cases shown <;> rfl
    rw [Option.bind_some,told]
    refine ⟨fun shown => ⟨clock,written_of_read read,shown⟩,?_⟩
    rintro ⟨other,written,shown⟩
    rw [read_of_written written] at read
    cases read
    exact shown

theorem parse_cut {zone : Offset} (known : (TimeOfDay.parse? zone (front ++ c :: back)).isSome = true)
    (blank : isBlank c = true) (spoken : words front ≠ []) :
    (TimeOfDay.parse? zone front).isSome = true ∨ ∀ d ∈ front, d.isDigit = true ∨ isBlank d = true := by
  obtain ⟨clock,written,shown⟩ := parse_isSome_iff.mp known
  rcases written.cut blank spoken with ⟨offset,kept⟩ | halved
  · exact .inl (parse_isSome_iff.mpr ⟨_,kept,shown⟩)
  · obtain ⟨h,m,s,half,offset⟩ := clock
    cases m with
    | some minute => exact .inl (parse_isSome_iff.mpr ⟨_,halved,shown_halved shown rfl⟩)
    | none => exact .inr halved.digits

theorem parse_respaced {one two : List Char} (zone : Offset) (same : words one = words two) :
    TimeOfDay.parse? zone one = TimeOfDay.parse? zone two := by
  have read : read? one = read? two := by
    refine Option.ext fun clock => ?_
    rw [read_iff,read_iff]
    exact ⟨fun written => written.respaced same.symm,fun written => written.respaced same⟩
  unfold TimeOfDay.parse?
  rw [read]

end ClockText

namespace Clause.Residual

theorem isNumbers_iff {segment : String} :
    isNumbers segment = true ↔ ∀ word ∈ words segment.toList, ∀ c ∈ word, c.isDigit = true := by
  simp only [isNumbers,List.all_eq_true,Bool.or_eq_true]
  constructor
  · intro numbers word member c inside
    have visible : isBlank c = false := runs_solid member inside
    refine (numbers c (mem_splitOnP (List.mem_filter.mp member).1 c inside).1).resolve_right ?_
    simp [visible]
  · intro digits c inside
    cases visible : isBlank c with
    | true => exact .inr rfl
    | false =>
      obtain ⟨word,member,within⟩ := mem_words inside visible
      exact .inl (digits word member c within)

theorem isOther_respaced {one two : String} (zone : Offset) (same : words one.toList = words two.toList) :
    isOther zone one = isOther zone two := by
  have clock : clock? zone one = clock? zone two := ClockText.parse_respaced zone same
  have numbers : isNumbers one = isNumbers two := by
    rw [Bool.eq_iff_iff,isNumbers_iff,isNumbers_iff,same]
  rw [isOther_eq,isOther_eq,clock,numbers]

theorem segmentWords_sound (segment : String) : SoundWords (segmentWords segment) := by
  intro word member
  obtain ⟨run,listed,rfl⟩ := List.mem_map.mp member
  refine ⟨fun empty => runs_nonempty listed (String.ofList_eq_empty_iff.mp empty),?_⟩
  rw [String.toList_ofList]
  exact fun c inside => runs_solid listed inside

theorem words_respaced (segment : String) :
    words (" ".intercalate (segmentWords segment)).toList = words segment.toList := by
  rw [words_joined (segmentWords_sound segment),segmentWords,List.map_map]
  simp [Function.comp_def]

theorem other_joined {zone : Offset} {segment : String} (other : isOther zone segment = true) (more : List String) :
    isOther zone (" ".intercalate (segmentWords segment ++ more)) = true := by
  have alone : isOther zone (" ".intercalate (segmentWords segment)) = true :=
    (isOther_respaced zone (words_respaced segment)).trans other
  cases more with
  | nil =>
    rw [List.append_nil]
    exact alone
  | cons word rest =>
    have spoken : segmentWords segment ≠ [] := by
      intro silent
      rw [silent] at alone
      cases alone
    have joined : (" ".intercalate (segmentWords segment ++ word :: rest)).toList =
        (" ".intercalate (segmentWords segment)).toList ++ ' ' :: (" ".intercalate (word :: rest)).toList := by
      rw [toList_joined,toList_joined,toList_joined,List.map_append]
      exact intercalate_joined ' ' (by simpa using spoken) (by simp)
    have some_word : words (" ".intercalate (segmentWords segment)).toList ≠ [] := by
      rw [words_joined (segmentWords_sound segment)]
      simpa using spoken
    rw [isOther_eq,Bool.and_eq_true,Option.isNone_iff_eq_none,Bool.not_eq_true'] at alone ⊢
    obtain ⟨no_clock,letters⟩ := alone
    constructor
    · cases known : clock? zone (" ".intercalate (segmentWords segment ++ word :: rest)) with
      | none => rfl
      | some time =>
        have cut := Option.isSome_of_eq_some known
        rw [clock?,joined] at cut
        rcases ClockText.parse_cut cut (by decide) some_word with clock | numbers
        · rw [← clock?,no_clock] at clock
          cases clock
        · have all : isNumbers (" ".intercalate (segmentWords segment)) = true :=
            List.all_eq_true.mpr fun c inside => Bool.or_eq_true_iff.mpr (numbers c inside)
          rw [letters] at all
          cases all
    · rw [isNumbers,joined,List.all_append,← isNumbers,letters]
      rfl

-- The words that the stage leaves, and that they make one segment.
def leftWords (zone : Offset) (tokens : List Token) : List String :=
  ((segments tokens).filter (isOther zone)).flatMap segmentWords

theorem read_left (zone : Offset) (draft : Draft) : (read zone draft).tokens = (leftWords zone draft.tokens).map .word := by
  rw [read_tokens,leftWords,List.map_flatMap]

theorem leftWords_sound (zone : Offset) (tokens : List Token) : SoundWords (leftWords zone tokens) := by
  intro word member
  obtain ⟨segment,_,inside⟩ := List.mem_flatMap.mp member
  exact segmentWords_sound segment word inside

theorem segments_left (zone : Offset) (draft : Draft) (spoken : leftWords zone draft.tokens ≠ []) :
    segments (read zone draft).tokens = [" ".intercalate (leftWords zone draft.tokens)] := by
  have left := wordsOf_words (leftWords zone draft.tokens)
  rw [read_left,segments_spoken]
  · rw [runText,left]
  · intro token member
    obtain ⟨word,_,rfl⟩ := List.mem_map.mp member
    rfl
  · rw [left]
    exact leftWords_sound zone draft.tokens
  · rwa [left]

theorem left_other (zone : Offset) (draft : Draft) (spoken : leftWords zone draft.tokens ≠ []) :
    isOther zone (" ".intercalate (leftWords zone draft.tokens)) = true := by
  unfold leftWords at spoken ⊢
  cases others : (segments draft.tokens).filter (isOther zone) with
  | nil => simp [others] at spoken
  | cons segment rest =>
    have other : isOther zone segment = true := by
      have listed : segment ∈ (segments draft.tokens).filter (isOther zone) := others ▸ List.mem_cons_self
      exact (List.mem_filter.mp listed).2
    rw [List.flatMap_cons]
    exact other_joined other _

theorem left_unread (zone : Offset) (draft : Draft) :
    ∀ segment ∈ segments (read zone draft).tokens, isOther zone segment = true := by
  intro segment member
  by_cases spoken : leftWords zone draft.tokens = []
  · rw [read_left,spoken] at member
    cases member
  · rw [segments_left zone draft spoken,List.mem_singleton] at member
    rw [member]
    exact left_other zone draft spoken

theorem read_unread {zone : Offset} {draft : Draft} (unread : ∀ segment ∈ segments draft.tokens, isOther zone segment = true) :
    (read zone draft).fields = draft.fields := by
  have silent : ((segments draft.tokens).reverse.flatMap fun segment => told (reading zone segment)) = [] := by
    refine List.flatMap_eq_nil_iff.mpr fun segment member => ?_
    have other := unread segment (List.mem_reverse.mp member)
    rw [isOther,beq_iff_eq] at other
    rw [other]
    rfl
  rw [read_told,silent]
  rfl

-- Run again on what it left, the stage changes nothing. What is left of different segments stands together then,
-- as one segment, and is neither a clock time nor numbers.
theorem read_again (zone : Offset) (draft : Draft) : read zone (read zone draft) = read zone draft ∧
    ∀ segment ∈ segments (read zone draft).tokens, clock? zone segment = none ∧ isNumbers segment = false := by
  have unread := left_unread zone draft
  have same_fields := read_unread unread
  have same_words : leftWords zone (read zone draft).tokens = leftWords zone draft.tokens := by
    by_cases spoken : leftWords zone draft.tokens = []
    · rw [read_left,spoken]
      rfl
    · have segment := segments_left zone draft spoken
      have other := left_other zone draft spoken
      unfold leftWords at segment other ⊢
      rw [segment,List.filter_singleton,other]
      exact (List.flatMap_singleton _ _).trans (segmentWords_joined (leftWords_sound zone draft.tokens))
  constructor
  · have same_tokens : (read zone (read zone draft)).tokens = (read zone draft).tokens := by
      rw [read_left zone (read zone draft),same_words,← read_left]
    calc read zone (read zone draft) = ⟨(read zone (read zone draft)).tokens,(read zone (read zone draft)).fields⟩ := rfl
      _ = ⟨(read zone draft).tokens,(read zone draft).fields⟩ := by rw [same_tokens,same_fields]
  · intro segment member
    have other := unread segment member
    rwa [isOther_eq,Bool.and_eq_true,Option.isNone_iff_eq_none,Bool.not_eq_true'] at other

end Clause.Residual
end Recurrence
