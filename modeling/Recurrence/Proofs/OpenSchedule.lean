import Recurrence.Proofs.ListedNames
import Recurrence.Proofs.MarkerKinds
import Recurrence.Proofs.Remainder
import Recurrence.Proofs.Silence

namespace Recurrence

-- Nothing is said of the fields, or only that one is open.
def Fields.Open (fields : Fields) : Prop := ∀ field entry, fields.get field = some entry → entry = .any

-- All is understood, and every minute is asked for.
structure Draft.Open (draft : Draft) : Prop where
  wordless : draft.words = []
  enabled : draft.fields.disabled = false
  fields : draft.fields.Open

theorem Draft.Open.unspoken {draft : Draft} (opened : draft.Open) (word : String) : .word word ∉ draft.tokens := by
  intro member
  have spoken : word ∈ draft.words := mem_wordsOf.mpr member
  rw [opened.wordless] at spoken
  cases spoken

-- Range words without a name say nothing, and are used all the same.
def Idle (tokens : List Token) : Prop := ∀ word ∈ wordsOf tokens, word = Lexicon.range

theorem Idle.wordless (wordless : wordsOf tokens = []) : Idle tokens := by
  intro word member
  rw [wordless] at member
  cases member

theorem Idle.absent (idle : Idle tokens) (other : word ≠ Lexicon.range) : .word word ∉ tokens :=
  fun member => other (idle word (mem_wordsOf.mpr member))

namespace Fields

theorem open_empty : ({} : Fields).Open := by
  intro field entry known
  rw [get_empty] at known
  cases known

theorem Open.congr {fields others : Fields} (same : ∀ field, fields.get field = others.get field) :
    fields.Open ↔ others.Open := by
  simp only [Open,same]

theorem Open.unwritten {fields : Fields} (opened : (fields.write entries).Open) (closed : ∀ entry ∈ entries, entry.2 ≠ .any) :
    entries = [] := by
  refine List.eq_nil_iff_forall_not_mem.mpr fun entry member => ?_
  rcases fields.get_write entries entry.1 with ⟨_,untouched⟩ | ⟨found,listed,known⟩
  · exact untouched entry member rfl
  · exact closed _ listed (opened _ _ known)

end Fields

theorem Draft.expression_open {draft : Draft} (made : draft.fields.WellMade) :
    draft.schedule.expression = "* * * * *" ↔ draft.fields.disabled = false ∧ draft.fields.Open := by
  by_cases disabled : draft.fields.disabled = true
  · have cancelled : (Schedule.never draft.unparsed).expression ≠ "* * * * *" := by
      show "0 0 31 2 0" ≠ "* * * * *"
      decide
    simp [schedule_disabled disabled,cancelled,disabled]
  · have stars : SoundWords (Field.all.map fun _ => Entry.any.text) := by
      unfold SoundWords
      decide
    have shown : SoundWords (Field.all.map draft.fields.shown) := by
      intro text member
      obtain ⟨field,_,rfl⟩ := List.mem_map.mp member
      exact Fields.shown_sound made field
    have joined : draft.schedule.expression = "* * * * *" ↔
        Field.all.map draft.fields.shown = Field.all.map fun _ => Entry.any.text := by
      unfold Schedule.expression
      rw [schedule_enabled disabled]
      exact Clause.Residual.joined_inj shown stars
    rw [joined,List.map_inj_left]
    simp only [Fields.shown_any made,Field.mem_all,true_implies]
    simp [disabled,Fields.Open]

namespace Clause

theorem Residual.said_closed {told : Reading} (known : said field told = some entry) : entry ≠ .any := by
  unfold said at known
  split at known <;> cases known <;> simp

theorem Residual.read_wordless (zone : Offset) {draft : Draft} (wordless : draft.words = []) :
    read zone draft = ⟨[],draft.fields⟩ := by
  have no_segment : segments draft.tokens = [] := by
    unfold Draft.words at wordless
    rw [wordsOf_splitOnP,List.flatMap_eq_nil_iff] at wordless
    rw [segments_eq,List.filter_eq_nil_iff]
    intro segment member
    obtain ⟨run,inside,rfl⟩ := List.mem_map.mp member
    simp [runText,wordless run inside,String.intercalate_nil]
  unfold read
  rw [no_segment]
  rfl

theorem Residual.unread_open (zone : Offset) {draft : Draft} (opened : (read zone draft).fields.Open) :
    ∀ segment ∈ segments draft.tokens, isOther zone segment = true := by
  have unsaid (field : Field) :
      (segments draft.tokens).findSome? (fun segment => said field (reading zone segment)) = none := by
    have shown := read_get zone draft field
    cases known : (segments draft.tokens).findSome? fun segment => said field (reading zone segment) with
    | none => rfl
    | some entry =>
      rw [known] at shown
      obtain ⟨segment,_,told⟩ := List.exists_of_findSome?_eq_some known
      exact absurd (opened field entry shown) (said_closed told)
  intro segment member
  have silent (field : Field) := List.findSome?_eq_none_iff.mp (unsaid field) segment member
  cases told : reading zone segment with
  | time time => cases told ▸ silent .hour
  | days numbers => cases told ▸ silent .dayOfMonth
  | other => simp [isOther,told]

theorem Residual.words_unread (zone : Offset) {draft : Draft} (sound : SoundWords draft.words)
    (unread : ∀ segment ∈ segments draft.tokens, isOther zone segment = true) : (read zone draft).words = draft.words := by
  rw [read_words zone draft sound]
  unfold Draft.words at sound ⊢
  rw [wordsOf_splitOnP] at sound ⊢
  refine List.flatMap_congr fun run member => ?_
  have run_sound := sound.sublist (List.sublist_flatten_of_mem (List.mem_map_of_mem member))
  by_cases silent : wordsOf run = []
  · simp [silent]
  · have some_text : (runText run != "") = true :=
      bne_iff_ne.mpr fun blank => silent ((joined_eq_empty run_sound).mp blank)
    exact if_pos (unread (runText run) (List.mem_filter.mpr ⟨List.mem_map_of_mem member,some_text⟩))

theorem Residual.read_open (zone : Offset) {draft : Draft} (sound : SoundWords draft.words) :
    (read zone draft).Open ↔ draft.Open := by
  constructor
  · intro opened
    have wordless : draft.words = [] :=
      (words_unread zone sound (unread_open zone opened.fields)).symm.trans opened.wordless
    rw [read_wordless zone wordless] at opened
    exact ⟨wordless,opened.enabled,opened.fields⟩
  · intro opened
    rw [read_wordless zone opened.wordless]
    exact ⟨rfl,opened.enabled,opened.fields⟩

theorem Never.read_open {draft : Draft} : (read draft).Open ↔ draft.Open := by
  by_cases spoken : never ∈ draft.tokens
  · have disabled := (read_disables spoken).1
    constructor
    · intro opened
      exact absurd (disabled.symm.trans opened.enabled) (by decide)
    · intro opened
      exact absurd spoken (opened.unspoken "never")
  · rw [read_silent spoken]

theorem Parity.read_open {draft : Draft} : (read draft).Open ↔ draft.Open := by
  have closed : ∀ entry ∈ entries draft.tokens, entry.2 ≠ .any := by
    have table : ∀ meaning ∈ meanings, meaning.2.2 ≠ .any := by decide
    intro entry member
    obtain ⟨parity,unit,listed,_⟩ := (mem_entries _).mp member
    exact table _ listed
  constructor
  · intro opened
    rwa [read_unsaid (opened.fields.unwritten closed)] at opened
  · intro opened
    have unsaid : entries draft.tokens = [] := by
      refine List.eq_nil_iff_forall_not_mem.mpr fun entry member => ?_
      obtain ⟨parity,unit,_,inside⟩ := (mem_entries _).mp member
      exact opened.unspoken parity (inside.subset List.mem_cons_self)
    rwa [read_unsaid unsaid]

theorem Calendar.named_range (named : nameOf token = some name) (foreign : ∀ kind : Kind, kind.number? token = none) :
    token = .word Lexicon.range := by
  have unnumbered (kind : Kind) : kind.value? name = none := by
    have silent := foreign kind
    rwa [← value_nameOf,named] at silent
  cases name with
  | day index => cases unnumbered .weekday
  | month number => cases unnumbered .month
  | range => exact nameOf_range.mp named

theorem Calendar.get_unnamed {draft : Draft} (unnamed : ∀ kind : Kind, draft.tokens.filterMap kind.number? = [])
    (field : Field) : (read draft).fields.get field = draft.fields.get field := by
  by_cases named : ∃ kind : Kind, field = kind.field
  · obtain ⟨kind,rfl⟩ := named
    have no_item := (some_item kind draft.tokens).not.mpr (not_not.mpr (unnamed kind))
    rw [get_read,items_sort,if_neg no_item]
  · exact get_read_other draft fun kind same => named ⟨kind,same⟩

theorem Calendar.read_open {draft : Draft} :
    (read draft).Open ↔ Idle draft.tokens ∧ draft.fields.disabled = false ∧ draft.fields.Open := by
  have still : (read draft).fields.disabled = draft.fields.disabled := Fields.disabled_write _ _
  constructor
  · intro opened
    have unnamed (kind : Kind) : draft.tokens.filterMap kind.number? = [] := by
      by_contra some_name
      have written := get_read draft kind
      rw [items_sort,if_pos ((some_item kind _).mpr some_name)] at written
      cases opened.fields _ _ written
    refine ⟨?_,still.symm.trans opened.enabled,(Fields.Open.congr (get_unnamed unnamed)).mp opened.fields⟩
    intro word member
    cases named : nameOf (.word word) with
    | none =>
      have left : .word word ∈ used draft.tokens :=
        List.mem_map.mpr ⟨.word word,mem_wordsOf.mp member,by simp [named]⟩
      exact absurd left (opened.unspoken word)
    | some name =>
      have foreign (kind : Kind) := List.filterMap_eq_nil_iff.mp (unnamed kind) _ (mem_wordsOf.mp member)
      cases named_range named foreign
      rfl
  · intro ⟨idle,enabled,opened⟩
    have unnamed (kind : Kind) : draft.tokens.filterMap kind.number? = [] := by
      refine List.filterMap_eq_nil_iff.mpr fun token member => ?_
      cases token with
      | marker mark => cases kind <;> rfl
      | blank => cases kind <;> rfl
      | word word =>
        rw [idle word (mem_wordsOf.mpr member)]
        cases kind <;> decide
    refine ⟨List.eq_nil_iff_forall_not_mem.mpr fun word member => ?_,still.trans enabled,
      (Fields.Open.congr (get_unnamed unnamed)).mpr opened⟩
    have unused := used_unnamed draft.tokens member
    have spoken : word ∈ wordsOf draft.tokens := (calendar_kept draft.tokens).sublist.subset member
    rw [idle word spoken] at unused
    exact absurd unused (by decide)

end Clause

-- What asks for nothing: fillers, markers and range words, and among them one `every` at most, which is
-- dropped if a filler or a range word follows it.
inductive AsksNothing : List Token → Prop where
  | idle (silent : Idle tokens) : AsksNothing tokens
  | dropped (silent : Idle (before ++ filler :: after)) (unmarked : filler.isMarker = false) :
      AsksNothing (before ++ Clause.Frequency.every :: filler :: after)

-- What asks for every minute, and for nothing else.
inductive AsksMinutes : List Token → Prop where
  | spoken (silent : Idle (before ++ after)) :
      AsksMinutes (before ++ Clause.Frequency.every :: .word "minute" :: after)

namespace Clause.Frequency

theorem idle_every (idle : Idle tokens) : every ∉ tokens := idle.absent (by decide)

theorem idle_first (idle : Idle (before ++ rest)) : every ∉ before :=
  fun member => idle_every idle (List.mem_append_left _ member)

theorem leaves_idle (idle : Idle (head :: others)) :
    leaves (head :: others) = head :: others ∧ said (head :: others) = [] := by
  have no_unit : head.word?.bind wholeUnit = none := by
    cases head with
    | marker kind => rfl
    | blank => rfl
    | word word =>
      rw [idle word (mem_wordsOf.mpr List.mem_cons_self)]
      rfl
  have uncounted : counted (wordsOf (head :: others)) = none := by
    cases count : counted (wordsOf (head :: others)) with
    | none => rfl
    | some entries =>
      obtain ⟨intervals,unit,spoken,some_interval,numeric,_⟩ := counted_parts count
      obtain ⟨interval,more,rfl⟩ := List.exists_cons_of_ne_nil some_interval
      have ranged : interval = Lexicon.range := idle interval (by rw [spoken]; simp)
      have number := numeric interval List.mem_cons_self
      rw [ranged] at number
      exact absurd number (by decide)
  simp [leaves,said,no_unit,uncounted]

theorem read_spoken (first : every ∉ before) (inside : inClause head = true) (after : List Token) (fields : Fields) :
    ∃ others rest, after = others ++ rest ∧ read ⟨before ++ every :: head :: after,fields⟩ =
      ⟨before ++ (leaves (head :: others) ++ rest),fields.write (said (head :: others))⟩ := by
  have within : ∀ token ∈ head :: after.takeWhile inClause, inClause token = true := by
    intro token member
    rcases List.mem_cons.mp member with rfl | member
    · exact inside
    · exact List.all_eq_true.mp List.all_takeWhile token member
  have ends : ∀ token, (after.dropWhile inClause).head? = some token → inClause token = false := by
    intro token starts
    have stops := List.head?_dropWhile_not inClause after
    simpa [starts] using stops
  refine ⟨after.takeWhile inClause,after.dropWhile inClause,List.takeWhile_append_dropWhile.symm,?_⟩
  rw [← read_first first within ends,List.cons_append,List.takeWhile_append_dropWhile]

theorem read_unasked (unasked : AsksNothing tokens) (fields : Fields) :
    Idle (read ⟨tokens,fields⟩).tokens ∧ (read ⟨tokens,fields⟩).fields = fields := by
  cases unasked with
  | idle silent =>
    rw [(read_absent ⟨tokens,fields⟩ (idle_every silent)).1]
    exact ⟨silent,rfl⟩
  | @dropped before filler after silent unmarked =>
    have inside : inClause filler = true := by
      have other : filler ≠ every := fun same => idle_every silent (by simp [same])
      simp [inClause,unmarked,other]
    obtain ⟨others,rest,rfl,ran⟩ := read_spoken (idle_first silent) inside after fields
    have clause_silent : Idle (filler :: others) := fun word member => silent word (by
      rw [← List.cons_append,wordsOf_append,wordsOf_append]
      simp [member])
    obtain ⟨left,unsaid⟩ := leaves_idle clause_silent
    rw [ran,left,unsaid]
    exact ⟨silent,rfl⟩

theorem read_minutes (asked : AsksMinutes tokens) (fields : Fields) :
    Idle (read ⟨tokens,fields⟩).tokens ∧ (read ⟨tokens,fields⟩).fields = fields.set .minute .any := by
  obtain @⟨before,after,silent⟩ := asked
  have inside : inClause (.word "minute") = true := rfl
  obtain ⟨others,rest,rfl,ran⟩ := read_spoken (idle_first silent) inside after fields
  rw [ran]
  exact ⟨silent,rfl⟩

theorem wholeUnit_open {fields : Fields} (known : wholeUnit unit = some entries) (opened : (fields.write entries).Open) :
    unit = "minute" := by
  unfold wholeUnit at known
  split at known <;> cases known
  · rfl
  · cases opened .minute _ rfl
  · cases opened .minute _ rfl
  · cases opened .minute _ rfl
  · cases opened .minute _ rfl

theorem inIntervals_closed {fields : Fields} (known : inIntervals intervals unit = some entries) :
    ¬ (fields.write entries).Open := by
  intro opened
  have closed : entries ≠ [] ∧ ∀ entry ∈ entries, entry.2 ≠ .any := by
    unfold inIntervals at known
    split at known <;> cases known <;> simp
  exact closed.1 (opened.unwritten closed.2)

theorem read_open {fields : Fields} (fields_open : fields.Open) : Idle (read ⟨tokens,fields⟩).tokens ∧ (read ⟨tokens,fields⟩).fields.Open ↔
    AsksMinutes tokens ∨ AsksNothing tokens := by
  constructor
  · intro ⟨silent,opened⟩
    rcases clause_parts tokens with absent | ⟨before,clause,after,rfl,first,within,ends⟩
    · rw [(read_absent ⟨tokens,fields⟩ absent).1] at silent
      exact .inr (.idle silent)
    · rw [read_first first within ends] at silent opened
      cases clause with
      | nil => exact absurd (by simp [leaves]) (idle_every silent)
      | cons head others =>
        cases unit : head.word?.bind wholeUnit with
        | some entries =>
          obtain ⟨word,spoken,known⟩ := Option.bind_eq_some_iff.mp unit
          have word_token : head = .word word := by cases head <;> cases spoken; rfl
          simp only [leaves,said,unit] at silent opened
          rw [word_token,wholeUnit_open known opened]
          exact .inl (.spoken silent)
        | none =>
          cases count : counted (wordsOf (head :: others)) with
          | some entries =>
            obtain ⟨intervals,last,_,_,_,known⟩ := counted_parts count
            simp only [said,unit,count] at opened
            exact absurd opened (inIntervals_closed known)
          | none =>
            simp only [leaves,unit,count] at silent
            have unmarked := within head List.mem_cons_self
            simp only [inClause,Bool.and_eq_true,Bool.not_eq_true'] at unmarked
            exact .inr (.dropped silent unmarked.1)
  · rintro (asked | unasked)
    · obtain ⟨silent,written⟩ := read_minutes asked fields
      refine ⟨silent,?_⟩
      rw [written]
      intro field entry known
      rw [Fields.get_set] at known
      split at known
      · cases known; rfl
      · exact fields_open field entry known
    · obtain ⟨silent,written⟩ := read_unasked unasked fields
      rw [written]
      exact ⟨silent,fields_open⟩

end Clause.Frequency

theorem runAll_open (zone : Offset) (kind : Marker) (sound : SoundWords (wordsOf tokens)) :
    (Stage.runAll zone Stage.inOrder ⟨tokens,{}⟩).Open ↔
      AsksMinutes (Clause.Markers.settledFrom kind tokens) ∨ AsksNothing (Clause.Markers.settledFrom kind tokens) := by
  have settled_sound := Clause.Markers.settledFrom_sound kind sound
  rw [Stage.inOrder_settled zone tokens {} kind,Stage.runAll_settled]
  generalize Clause.Markers.settledFrom kind tokens = settled at settled_sound ⊢
  have kept := Stage.runAll_between zone ⟨settled,{}⟩ ▸ runAll_kept zone [.frequency,.calendar,.parity,.never]
    ⟨settled,{}⟩ settled_sound fun stage _ => uses_recognized stage
  rw [Stage.runAll_between,Clause.Residual.read_open zone (settled_sound.sublist kept.sublist),Clause.Never.read_open,
    Clause.Parity.read_open,Clause.Calendar.read_open,
    ← Clause.Frequency.read_open Fields.open_empty]
  have enabled := Clause.Frequency.read_disabled ⟨settled,{}⟩
  simp only [enabled,true_and]

theorem compile_open (zone : Offset) (phrase : String) :
    (compile zone phrase).fullyParsed = true ∧ (compile zone phrase).expression = "* * * * *" ↔
      AsksMinutes (Clause.Markers.settleFrom (Phrase.lex phrase)) ∨
        AsksNothing (Clause.Markers.settleFrom (Phrase.lex phrase)) := by
  rw [compile_fullyParsed,(compile_leftover zone phrase).2.1]
  have sound := Phrase.lex_sound phrase
  unfold compile compileTokens
  generalize Phrase.lex phrase = tokens at sound ⊢
  have made := runAll_made zone Stage.inOrder ⟨tokens,{}⟩ sound Fields.WellMade.empty
  have opened := runAll_open zone (if tokens.contains (.marker .time) then .date else .time) sound
  rw [Draft.expression_open made]
  refine ⟨fun ⟨wordless,enabled,open_fields⟩ => opened.mp ⟨wordless,enabled,open_fields⟩,fun asked => ?_⟩
  obtain ⟨wordless,enabled,open_fields⟩ := opened.mpr asked
  exact ⟨wordless,enabled,open_fields⟩

-- A schedule that is fully parsed and runs every minute is asked for by that clause, unless the phrase
-- asks for nothing; and a phrase that has words, and asks for nothing by them, compiles to that schedule.
-- Phrases without words are left out of the second part, though it holds of them as well: of a phrase of
-- signs alone nothing survives the clean-up, and whether that should count as understood is left open.
theorem unasked_schedules (zone : Offset) (phrase : String) :
    ((compile zone phrase).fullyParsed = true ∧ (compile zone phrase).expression = "* * * * *" →
      [Clause.Frequency.every,.word "minute"] <:+: Phrase.lex phrase ∨
        AsksNothing (Clause.Markers.settleFrom (Phrase.lex phrase))) ∧
    (Phrase.lex phrase ≠ [] → AsksNothing (Clause.Markers.settleFrom (Phrase.lex phrase)) →
      (compile zone phrase).fullyParsed = true ∧ (compile zone phrase).expression = "* * * * *") := by
  have opened := compile_open zone phrase
  generalize Phrase.lex phrase = tokens at opened ⊢
  refine ⟨fun every_minute => ?_,fun _ unasked => opened.mpr (.inr unasked)⟩
  rcases opened.mp every_minute with asked | unasked
  · have inside : [Clause.Frequency.every,.word "minute"] <:+: Clause.Markers.settleFrom tokens := by
      generalize Clause.Markers.settleFrom tokens = settled at asked
      cases asked with
      | @spoken before after silent => exact ⟨before,after,by simp⟩
    refine .inl (Clause.Markers.infix_settledFrom inside ?_)
    simp [Clause.Frequency.every]
  · exact .inr unasked

theorem unasked_schedules_from : Phrase.lex "from every the" ≠ [] ∧
    AsksNothing (Clause.Markers.settleFrom (Phrase.lex "from every the")) ∧
    ((compile .utc "from every the").fullyParsed = true ∧ (compile .utc "from every the").expression = "* * * * *") ∧
    ((compile .utc "every minute at").fullyParsed = true ∧ (compile .utc "every minute at").expression = "* * * * *") ∧
    ([Clause.Frequency.every,.word "minute"] <:+: Phrase.lex "every minute at" ∨
      AsksNothing (Clause.Markers.settleFrom (Phrase.lex "every minute at"))) := by
  have lexed : Phrase.lex "from every the" = [.word "from",.word "every",.blank] := by decide +kernel
  have some_token : Phrase.lex "from every the" ≠ [] := by simp [lexed]
  have unasked : AsksNothing (Clause.Markers.settleFrom (Phrase.lex "from every the")) := by
    rw [lexed]
    show AsksNothing ([.marker .time] ++ Clause.Frequency.every :: .blank :: [])
    exact .dropped (Idle.wordless rfl) rfl
  have every_minute : (compile .utc "every minute at").fullyParsed = true ∧
      (compile .utc "every minute at").expression = "* * * * *" := by decide +kernel
  exact ⟨some_token,unasked,(unasked_schedules .utc "from every the").2 some_token unasked,every_minute,
    (unasked_schedules .utc "every minute at").1 every_minute⟩

-- The words that open a clause are used with nothing behind them.
theorem openings_alone : (compile .utc "on in at").fullyParsed = true ∧ (compile .utc "on in at").expression = "* * * * *" ∧
    ¬ [Clause.Frequency.every,.word "minute"] <:+: Phrase.lex "on in at" := by
  have lexed : Phrase.lex "on in at" = [.marker .date,.marker .date,.marker .time] := by decide +kernel
  refine ⟨by decide +kernel,by decide +kernel,?_⟩
  rw [lexed]
  decide

end Recurrence
