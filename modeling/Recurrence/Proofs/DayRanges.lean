import Recurrence.Proofs.FieldGrammar
import Recurrence.Proofs.Leftovers
import Recurrence.Proofs.MarkerKinds
import Recurrence.Proofs.Remainder

namespace Recurrence

-- A range word directly between two numbers, and what the stage of the names leaves of the three.
def spokenRange (low high : String) : List Token := [.word low,.word Lexicon.range,.word high]
def leftRange (low high : String) : List Token := [.word low,.blank,.word high]

structure NumberPair (low high : String) : Prop where
  low : Numeral low.toList
  high : Numeral high.toList

theorem Numeral.ne_word {word other : String} (written : Numeral word.toList)
    (lettered : Clause.Frequency.isNumeric other = false) : word ≠ other := by
  intro same
  have numeric : Clause.Frequency.isNumeric word = true := List.all_eq_true.mpr written.2
  rw [same,lettered] at numeric
  cases numeric

theorem Text.infix_replaced {part before after : List α} (absent : c ∉ part) (inside : part <:+: before ++ c :: after)
    (middle : List α) : part <:+: before ++ (middle ++ after) := by
  rcases infix_append_cons absent inside with earlier | later
  · exact earlier.trans (List.prefix_append before _).isInfix
  · exact later.trans ((List.suffix_append middle after).trans (List.suffix_append before _)).isInfix

variable {low high : String} {part : List Token}

theorem NumberPair.absent (numbers : NumberPair low high) {other : String} (lettered : Clause.Frequency.isNumeric other = false)
    (apart : other ≠ Lexicon.range) : .word other ∉ spokenRange low high := by
  simp only [spokenRange,List.mem_cons,List.not_mem_nil,or_false,Token.word.injEq,not_or]
  exact ⟨(numbers.low.ne_word lettered).symm,apart,(numbers.high.ne_word lettered).symm⟩

namespace Clause

theorem Markers.infix_read {draft : Draft} (absent : .word "from" ∉ part) (inside : part <:+: draft.tokens) :
    part <:+: (read draft).tokens := by
  have settled (kind : Marker) : part <:+: settledFrom kind draft.tokens := by
    rcases settledFrom_parts kind draft.tokens with same | ⟨before,after,split,settled⟩
    · rwa [same]
    · rw [split] at inside
      rw [settled]
      exact Text.infix_replaced absent inside [.marker kind]
  obtain ⟨kind,same | ⟨front,opened⟩⟩ := read_cases draft
  · rw [same]
    exact settled kind
  · rw [opened]
    exact List.infix_cons (settled kind)

namespace Frequency

theorem counted_range {words : List String} (member : Lexicon.range ∈ words) : counted words = none := by
  cases known : counted words with
  | none => rfl
  | some entries =>
    obtain ⟨intervals,unit,rfl,_,numeric,inUnit⟩ := counted_parts known
    rcases List.mem_append.mp member with interval | last
    · cases numeric _ interval
    · rw [← List.mem_singleton.mp last] at inUnit
      cases inUnit

theorem range_inClause (numbers : NumberPair low high) : ∀ token ∈ spokenRange low high, inClause token = true := by
  have apart : every ∉ spokenRange low high := numbers.absent (by decide) (by decide)
  intro token member
  have other : token ≠ every := fun same => apart (same ▸ member)
  have unmarked : token.isMarker = false := by
    simp only [spokenRange,List.mem_cons,List.not_mem_nil,or_false] at member
    rcases member with rfl | rfl | rfl <;> rfl
  rw [inClause,unmarked,bne_iff_ne.mpr other]
  rfl

theorem range_leaves (numbers : NumberPair low high) {clause : List Token} (inside : spokenRange low high <:+: clause) :
    spokenRange low high <:+: leaves clause := by
  cases clause with
  | nil => cases List.infix_nil.mp inside
  | cons head others =>
    have range_word : Lexicon.range ∈ wordsOf (head :: others) :=
      mem_wordsOf.mpr (inside.subset (List.mem_cons_of_mem _ List.mem_cons_self))
    cases whole : head.word?.bind wholeUnit with
    | none =>
      simp only [leaves,whole,counted_range range_word,Option.isSome_none,Bool.false_eq_true,if_false]
      exact inside
    | some entries =>
      obtain ⟨unit,spoken,known⟩ := Option.bind_eq_some_iff.mp whole
      have head_word : head = .word unit := by cases head <;> cases spoken; rfl
      have lettered : isNumeric unit = false := by
        rw [Bool.eq_false_iff]
        intro numeric
        rw [wholeUnit_numeric numeric] at known
        cases known
      have apart : unit ≠ Lexicon.range := by
        intro same
        rw [same] at known
        cases known
      have absent : head ∉ spokenRange low high := head_word ▸ numbers.absent lettered apart
      simp only [leaves,whole,Option.isSome_some,if_true]
      have behind : spokenRange low high <:+: [] ++ head :: others := inside
      exact Text.infix_replaced absent behind []

theorem range_read (numbers : NumberPair low high) {draft : Draft} (inside : spokenRange low high <:+: draft.tokens) :
    spokenRange low high <:+: (read draft).tokens := by
  obtain ⟨tokens,fields⟩ := draft
  rcases clause_parts tokens with absent | ⟨before,clause,after,rfl,first,within,ends⟩
  · rwa [(read_absent ⟨tokens,fields⟩ absent).1]
  · rw [read_first first within ends]
    have apart : every ∉ spokenRange low high := numbers.absent (by decide) (by decide)
    have inClauses := range_inClause numbers
    have clause_end : spokenRange low high <:+: clause ++ after →
        spokenRange low high <:+: clause ∨ spokenRange low high <:+: after := by
      intro behind
      cases after with
      | nil => exact .inl (by rwa [List.append_nil] at behind)
      | cons token rest =>
        have outside : token ∉ spokenRange low high := by
          intro member
          have stops := ends token rfl
          rw [inClauses token member] at stops
          cases stops
        rcases Text.infix_append_cons outside behind with here | later
        · exact .inl here
        · exact .inr (List.infix_cons later)
    rcases Text.infix_append_cons apart inside with earlier | behind
    · exact earlier.trans (List.prefix_append before _).isInfix
    · have kept : spokenRange low high <:+: leaves clause ++ after := by
        rcases clause_end behind with here | later
        · exact (range_leaves numbers here).trans (List.prefix_append _ after).isInfix
        · exact later.trans (List.suffix_append _ after).isInfix
      exact kept.trans (List.suffix_append before _).isInfix

end Frequency

theorem Calendar.range_used (numbers : NumberPair low high) {tokens : List Token} (inside : spokenRange low high <:+: tokens) :
    leftRange low high <:+: used tokens := by
  have low_unnamed : nameOf (.word low) = none := (Figures.of_numeral numbers.low).unnamed
  have high_unnamed : nameOf (.word high) = none := (Figures.of_numeral numbers.high).unnamed
  have left : used (spokenRange low high) = leftRange low high := by
    have range_named : (nameOf (.word Lexicon.range)).isSome = true := by decide
    simp only [used,spokenRange,leftRange,List.map_cons,List.map_nil,low_unnamed,high_unnamed,range_named,
      Option.isSome_none,Bool.false_eq_true,if_true,if_false]
  rw [← left]
  exact inside.map _

namespace Parity

theorem numeral_alone {word : String} (written : Numeral word.toList) (token : Token) :
    meaning? (.word word) token = none ∧ meaning? token (.word word) = none := by
  have lettered : ∀ meaning ∈ meanings, Frequency.isNumeric meaning.1.1 = false ∧ Frequency.isNumeric meaning.1.2 = false := by
    decide
  constructor
  · refine Option.eq_none_iff_forall_ne_some.mpr fun entry known => ?_
    obtain ⟨parity,unit,first,_,listed⟩ := meaning_mem known
    exact written.ne_word (lettered _ listed).1 (Token.word.inj first)
  · refine Option.eq_none_iff_forall_ne_some.mpr fun entry known => ?_
    obtain ⟨parity,unit,_,second,listed⟩ := meaning_mem known
    exact written.ne_word (lettered _ listed).2 (Token.word.inj second)

theorem range_used (numbers : NumberPair low high) {tokens : List Token} (inside : leftRange low high <:+: tokens) :
    leftRange low high <:+: used tokens := by
  obtain ⟨before,after,rfl⟩ := inside
  have low_alone := numeral_alone numbers.low
  have high_alone := numeral_alone numbers.high
  have left : used (before ++ leftRange low high ++ after) = used before ++ leftRange low high ++ used after := by
    simp only [leftRange,List.append_assoc,List.cons_append,List.nil_append]
    rw [used_stop fun token => (low_alone token).2,used_start fun token => (low_alone token).1,used_start fun _ => rfl,
      used_start fun token => (high_alone token).1]
  rw [left]
  exact ⟨used before,used after,rfl⟩

end Parity
end Clause

theorem Phrase.range_residue (numbers : NumberPair low high) {phrase : String} (uncancelled : Clause.Never.never ∉ lex phrase)
    (spoken : spokenRange low high <:+: lex phrase) : leftRange low high <:+: (residue phrase).tokens := by
  have sound := lex_sound phrase
  unfold residue
  generalize lex phrase = tokens at uncancelled spoken sound
  have absent : Clause.Never.never ∉ (Stage.runAll .utc [.markers,.frequency,.calendar,.parity] ⟨tokens,{}⟩).tokens := by
    intro member
    have kept := runAll_kept .utc [.markers,.frequency,.calendar,.parity] ⟨tokens,{}⟩ sound fun stage _ => uses_recognized stage
    exact uncancelled (mem_wordsOf.mp (kept.sublist.subset (mem_wordsOf.mpr member)))
  show leftRange low high <:+: (Clause.Never.read
    (Stage.runAll .utc [.markers,.frequency,.calendar,.parity] ⟨tokens,{}⟩)).tokens
  rw [Clause.Never.read_silent absent]
  have settled : spokenRange low high <:+: (Clause.Markers.read ⟨tokens,{}⟩).tokens :=
    Clause.Markers.infix_read (numbers.absent (by decide) (by decide)) spoken
  exact Clause.Parity.range_used numbers (Clause.Calendar.range_used numbers (Clause.Frequency.range_read numbers settled))

namespace Clause.Residual

theorem infix_run {tokens : List Token} (unmarked : ∀ token ∈ part, token.isMarker = false) (inside : part <:+: tokens) :
    ∃ run ∈ tokens.splitOnP Token.isMarker, part <:+: run := by
  have parted := split_parted tokens
  generalize tokens.splitOnP Token.isMarker = runs at parted
  induction parted with
  | last _ => exact ⟨_,List.mem_singleton_self _,inside⟩
  | @next run rest runs kind _ later ih =>
    have absent : .marker kind ∉ part := fun member => by cases unmarked _ member
    rcases Text.infix_append_cons absent inside with here | behind
    · exact ⟨run,List.mem_cons_self,here⟩
    · obtain ⟨found,member,within⟩ := ih behind
      exact ⟨found,List.mem_cons_of_mem run member,within⟩

theorem run_segment {tokens run : List Token} (member : run ∈ tokens.splitOnP Token.isMarker)
    (sound : SoundWords (wordsOf run)) (spoken : wordsOf run ≠ []) : runText run ∈ segments tokens := by
  rw [segments_eq]
  refine List.mem_filter.mpr ⟨List.mem_map_of_mem member,bne_iff_ne.mpr fun silent => ?_⟩
  exact spoken ((joined_eq_empty sound).mp silent)

theorem read_all (zone : Offset) (draft : Draft) : (read zone draft).words = [] ↔
    ∀ segment ∈ segments draft.tokens, (clock? zone segment).isSome = true ∨ isNumbers segment = true := by
  have left : (read zone draft).words = leftWords zone draft.tokens := by
    rw [Draft.words,read_left,wordsOf_words]
  rw [left,leftWords,List.flatMap_eq_nil_iff]
  constructor
  · intro silent segment member
    cases other : isOther zone segment with
    | true =>
      have wordless := silent segment (List.mem_filter.mpr ⟨member,other⟩)
      refine .inr (isNumbers_iff.mpr fun word listed => ?_)
      rw [List.map_eq_nil_iff.mp wordless] at listed
      cases listed
    | false =>
      rw [isOther_eq,Bool.and_eq_false_iff,Option.isNone_eq_false_iff,Bool.not_eq_false'] at other
      exact other
  · intro each segment listed
    obtain ⟨member,other⟩ := List.mem_filter.mp listed
    rw [isOther_eq,Bool.and_eq_true,Option.isNone_iff_eq_none,Bool.not_eq_true'] at other
    rcases each segment member with clock | digits
    · rw [other.1] at clock
      cases clock
    · rw [other.2] at digits
      cases digits

theorem days_shown {zone : Offset} {draft : Draft} (made : (read zone draft).fields.WellMade)
    (enabled : ¬ (read zone draft).fields.disabled = true) (first : (segments draft.tokens).find? isNumbers = some days) :
    (read zone draft).schedule.dayOfMonth = ",".intercalate (segmentWords days) ∧
      ∀ day ∈ segmentWords days, Numeral day.toList := by
  have known : (read zone draft).fields.get .dayOfMonth = some (.days (segmentWords days)) := by
    rw [read_days,first,Option.map_some,Option.some_or]
  have entry := made .dayOfMonth _ known
  refine ⟨?_,entry.2⟩
  unfold Draft.schedule
  rw [if_neg enabled]
  exact Fields.shown_entry known entry

end Clause.Residual

namespace Phrase
open Clause.Residual

-- The runs of a phrase between its markers, as the last stage finds them.
def runs (phrase : String) : List (List Token) := (residue phrase).tokens.splitOnP Token.isMarker

theorem residue_sound (phrase : String) : SoundWords (residue phrase).words := by
  have sound := lex_sound phrase
  unfold residue
  generalize lex phrase = tokens at sound ⊢
  exact sound.sublist (runAll_kept .utc _ ⟨tokens,{}⟩ sound fun stage _ => uses_recognized stage).sublist

theorem run_sound {phrase : String} (member : run ∈ runs phrase) : SoundWords (wordsOf run) := by
  have sound := residue_sound phrase
  rw [Draft.words,wordsOf_splitOnP] at sound
  exact sound.sublist (List.sublist_flatten_of_mem (List.mem_map_of_mem member))

theorem residue_made (zone : Offset) (phrase : String) : (Clause.Residual.read zone (residue phrase)).fields.WellMade := by
  have sound := lex_sound phrase
  rw [← runAll_residue]
  generalize lex phrase = tokens at sound ⊢
  exact runAll_made zone Stage.inOrder ⟨tokens,{}⟩ sound Fields.WellMade.empty

theorem residue_enabled (zone : Offset) {phrase : String} (uncancelled : Clause.Never.never ∉ lex phrase) :
    ¬ (Clause.Residual.read zone (residue phrase)).fields.disabled = true := by
  have sound := lex_sound phrase
  rw [← runAll_residue]
  generalize lex phrase = tokens at sound uncancelled ⊢
  exact fun disabled => uncancelled ((cancelled_iff zone tokens sound).mp disabled)

theorem all_understood (zone : Offset) (phrase : String) : (compile zone phrase).fullyParsed = true ↔
    ∀ segment ∈ segments (residue phrase).tokens, (clock? zone segment).isSome = true ∨ isNumbers segment = true := by
  rw [compile_fullyParsed,(compile_leftover zone phrase).2.1,runAll_residue]
  exact read_all zone (residue phrase)

end Phrase

open Clause.Residual

-- A range word between two numbers makes no range of days. The numbers reach the last stage as neighbours, and where
-- they stand among digits alone the days of the month are a list without a hyphen: the numbers of the earliest such
-- segment. The range word is used up all the same, so only other segments can keep the phrase from being understood.
theorem day_ranges_listed (zone : Offset) {phrase : String} (uncancelled : Clause.Never.never ∉ Phrase.lex phrase)
    (numbers : NumberPair low high) (spoken : spokenRange low high <:+: Phrase.lex phrase) :
    (∃ run ∈ Phrase.runs phrase, leftRange low high <:+: run) ∧
    ∀ run ∈ Phrase.runs phrase, leftRange low high <:+: run → isNumbers (runText run) = true →
      ∃ days, (segments (Phrase.residue phrase).tokens).find? isNumbers = some days ∧
        (compile zone phrase).dayOfMonth = ",".intercalate (segmentWords days) ∧
        (days = runText run → [low,high] <:+: segmentWords days) ∧
        '-' ∉ (compile zone phrase).dayOfMonth.toList ∧
        Lexicon.range ∉ (compile zone phrase).leftover ∧
        ((compile zone phrase).fullyParsed = true ↔ ∀ segment ∈ segments (Phrase.residue phrase).tokens,
          (clock? zone segment).isSome = true ∨ isNumbers segment = true) := by
  constructor
  · refine infix_run (fun token member => ?_) (Phrase.range_residue numbers uncancelled spoken)
    simp only [leftRange,List.mem_cons,List.not_mem_nil,or_false] at member
    rcases member with rfl | rfl | rfl <;> rfl
  · intro run member inside digits
    have sound := Phrase.run_sound member
    have neighbours : [low,high] <:+: wordsOf run := inside.filterMap Token.word?
    have some_word : wordsOf run ≠ [] := by
      intro silent
      rw [silent] at neighbours
      cases List.infix_nil.mp neighbours
    have listed := run_segment member sound some_word
    obtain ⟨days,first⟩ := Option.isSome_iff_exists.mp (List.find?_isSome.mpr ⟨_,listed,digits⟩)
    obtain ⟨shown,numerals⟩ := days_shown (Phrase.residue_made zone phrase) (Phrase.residue_enabled zone uncancelled) first
    rw [← Phrase.compile_residue] at shown
    refine ⟨days,first,shown,?_,?_,?_,Phrase.all_understood zone phrase⟩
    · intro same
      rw [same,runText,segmentWords_joined sound]
      exact neighbours
    · rw [shown]
      intro hyphen
      rcases Entry.mem_commas hyphen with comma | ⟨day,listed,within⟩
      · cases comma
      · exact (numerals day listed).absent (by decide) within
    · exact fun left => (leftover_word zone phrase left).unnamed.2.2 rfl

theorem day_ranges_listed_may : Clause.Never.never ∉ Phrase.lex "8 to 10 may at 5pm" ∧ NumberPair "8" "10" ∧
    spokenRange "8" "10" <:+: Phrase.lex "8 to 10 may at 5pm" ∧
    (compile .utc "8 to 10 may at 5pm").dayOfMonth = "8,10" ∧ (compile .utc "8 to 10 may at 5pm").fullyParsed = true := by
  have lexed : Phrase.lex "8 to 10 may at 5pm" =
      [.word "8",.word "-",.word "10",.word "may",.marker .time,.word "5pm"] := by decide +kernel
  have runs : Phrase.runs "8 to 10 may at 5pm" = [[],[.word "8",.blank,.word "10",.blank],[.word "5pm"]] := by decide +kernel
  have segmented : segments (Phrase.residue "8 to 10 may at 5pm").tokens = ["8 10","5pm"] := by
    rw [segments_eq,← Phrase.runs,runs]
    decide
  have uncancelled : Clause.Never.never ∉ Phrase.lex "8 to 10 may at 5pm" := by rw [lexed]; decide
  have numbers : NumberPair "8" "10" := ⟨by decide,by decide⟩
  have spoken : spokenRange "8" "10" <:+: Phrase.lex "8 to 10 may at 5pm" := by rw [lexed]; exact ⟨[],_,rfl⟩
  have member : [.word "8",.blank,.word "10",.blank] ∈ Phrase.runs "8 to 10 may at 5pm" := by rw [runs]; decide
  obtain ⟨days,first,shown,_,_,_,understood⟩ := (day_ranges_listed .utc uncancelled numbers spoken).2
    [.word "8",.blank,.word "10",.blank] member ⟨[],[.blank],rfl⟩ (by decide)
  rw [segmented] at first understood
  have earliest : days = "8 10" := (Option.some.inj first).symm
  refine ⟨uncancelled,numbers,spoken,?_,understood.mpr (by decide +kernel)⟩
  rw [shown,earliest]
  decide +kernel

theorem thirteenth_to_fifteenth : Clause.Never.never ∉ Phrase.lex "on 13 to 15 june" ∧ NumberPair "13" "15" ∧
    spokenRange "13" "15" <:+: Phrase.lex "on 13 to 15 june" ∧
    (∃ run ∈ Phrase.runs "on 13 to 15 june", leftRange "13" "15" <:+: run ∧ isNumbers (runText run) = true) ∧
    compile .utc "on 13 to 15 june" = ⟨"*","*","13,15","6","*",""⟩ ∧
    ¬ ("13-15".toList <:+: (compile .utc "on 13 to 15 june").dayOfMonth.toList ∨
      (compile .utc "on 13 to 15 june").fullyParsed = false) := by
  have lexed : Phrase.lex "on 13 to 15 june" = [.marker .date,.word "13",.word "-",.word "15",.word "jun"] := by decide +kernel
  have runs : Phrase.runs "on 13 to 15 june" = [[],[.word "13",.blank,.word "15",.blank]] := by decide +kernel
  have compiled : compile .utc "on 13 to 15 june" = ⟨"*","*","13,15","6","*",""⟩ := by decide +kernel
  refine ⟨by rw [lexed]; decide,⟨by decide,by decide⟩,by rw [lexed]; exact ⟨[.marker .date],[.word "jun"],rfl⟩,?_,compiled,?_⟩
  · rw [runs]
    exact ⟨_,List.mem_cons_of_mem _ List.mem_cons_self,⟨[],[.blank],rfl⟩,by decide⟩
  · rw [compiled]
    decide

end Recurrence
