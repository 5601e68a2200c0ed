import Recurrence.Proofs.ClockText
import Recurrence.Proofs.Frequency
import Recurrence.Proofs.Lexing
import Recurrence.Proofs.Parity

namespace Recurrence

-- What becomes of the words of a phrase: some are left, in their order, and none is missing but those
-- that may be used.
structure Kept (uses : String → Bool) (before after : List String) : Prop where
  sublist : after.Sublist before
  unused : after.filter (fun word => !uses word) = before.filter (fun word => !uses word)

namespace Kept

theorem refl (words : List String) : Kept uses words words := ⟨.refl _,rfl⟩

theorem trans (first : Kept uses words middle) (second : Kept uses middle rest) : Kept uses words rest :=
  ⟨second.sublist.trans first.sublist,second.unused.trans first.unused⟩

theorem append (left : Kept uses words kept) (right : Kept uses others rest) :
    Kept uses (words ++ others) (kept ++ rest) :=
  ⟨left.sublist.append right.sublist,by rw [List.filter_append,List.filter_append,left.unused,right.unused]⟩

theorem spent (used : ∀ word ∈ words, uses word = true) : Kept uses words [] :=
  ⟨List.nil_sublist _,by
    rw [List.filter_nil,eq_comm,List.filter_eq_nil_iff]
    intro word member
    simp [used word member]⟩

theorem flatMap {items : List α} {words rest : α → List String}
    (each : ∀ item ∈ items, Kept uses (words item) (rest item)) :
    Kept uses (items.flatMap words) (items.flatMap rest) := by
  induction items with
  | nil => exact .refl _
  | cons item others ih =>
    rw [List.flatMap_cons,List.flatMap_cons]
    exact (each item List.mem_cons_self).append (ih fun other member => each other (List.mem_cons_of_mem _ member))

theorem mono (kept : Kept uses before after) (more : ∀ word, uses word = true → may word = true) :
    Kept may before after := by
  refine ⟨kept.sublist,?_⟩
  have fewer (words : List String) : words.filter (fun word => !may word) =
      (words.filter (fun word => !uses word)).filter (fun word => !may word) := by
    rw [List.filter_filter]
    refine List.filter_congr fun word _ => ?_
    cases known : uses word with
    | false => simp
    | true => simp [more word known]
  rw [fewer after,fewer before,kept.unused]

theorem filterMap {f : String → Option α} (kept : Kept uses before after)
    (blind : ∀ word, uses word = true → f word = none) : after.filterMap f = before.filterMap f := by
  have fewer (words : List String) : words.filterMap f = (words.filter (fun word => !uses word)).filterMap f := by
    induction words with
    | nil => rfl
    | cons word rest ih =>
      rw [List.filter_cons]
      cases known : uses word with
      | false => simp [List.filterMap_cons,ih]
      | true => simp [blind word known,ih]
  rw [fewer after,fewer before,kept.unused]

theorem mem (kept : Kept uses before after) (member : word ∈ before) (free : uses word = false) : word ∈ after := by
  have inside : word ∈ before.filter (fun word => !uses word) := List.mem_filter.mpr ⟨member,by simp [free]⟩
  rw [← kept.unused] at inside
  exact (List.mem_filter.mp inside).1

end Kept

def units : List String := ["minute","hour","day","month","year"]

-- The words that a stage may use up.
def Stage.uses : Stage → String → Bool
  | .markers,word => word == "from"
  | .frequency,word => word == "every" || units.contains word || Clause.Frequency.isNumeric word
  | .calendar,word => (Clause.Calendar.Name.ofWord? word).isSome
  | .parity,word => word == "odd" || word == "even" || units.contains word
  | .never,word => word == "never"
  | .residual,word => word.toList.all ClockText.isClockChar

theorem markers_kept (tokens : List Token) :
    Kept (Stage.uses .markers) (wordsOf tokens) (wordsOf (Clause.Markers.settle tokens)) := by
  have replaced (kind : Marker) (tokens : List Token) :
      Kept (Stage.uses .markers) (wordsOf tokens) (wordsOf (tokens.replace (.word "from") (.marker kind))) := by
    induction tokens with
    | nil => exact .refl _
    | cons token rest ih =>
      rw [List.replace_cons]
      split
      · rename_i same
        rw [← eq_of_beq same,wordsOf_cons,wordsOf_cons]
        exact (Kept.spent (by simp [Token.word?,Stage.uses])).append (.refl _)
      · rw [wordsOf_cons,wordsOf_cons]
        exact (Kept.refl _).append ih
  unfold Clause.Markers.settle Clause.Markers.settleFrom
  dsimp only
  split
  · exact replaced _ tokens
  · exact replaced _ tokens

theorem wholeUnit_units (known : Clause.Frequency.wholeUnit unit = some entries) : unit ∈ units := by
  unfold Clause.Frequency.wholeUnit at known
  split at known <;> first | decide | cases known

theorem inIntervals_units (known : Clause.Frequency.inIntervals intervals unit = some entries) :
    unit ∈ units := by
  unfold Clause.Frequency.inIntervals at known
  split at known <;> first | decide | cases known

theorem frequency_kept (draft : Draft) :
    Kept (Stage.uses .frequency) draft.words (Clause.Frequency.read draft).words := by
  have every_spent : Kept (Stage.uses .frequency) ["every"] [] := .spent (by simp [Stage.uses])
  have step := Clause.Frequency.read_step draft
  generalize Clause.Frequency.read draft = next at step ⊢
  unfold Draft.words
  cases step with
  | idle => exact .refl _
  | dropped first =>
    simp only [wordsOf_append,wordsOf_cons]
    exact (Kept.refl _).append (every_spent.append (.refl _))
  | @whole before unit entries after fields first known =>
    simp only [wordsOf_append,wordsOf_cons]
    have unit_spent : Kept (Stage.uses .frequency) [unit] [] :=
      .spent (by simp [Stage.uses,wholeUnit_units known])
    exact (Kept.refl _).append (every_spent.append (unit_spent.append (.refl _)))
  | counted first within spoken some_interval numeric known =>
    simp only [wordsOf_append,wordsOf_cons,spoken]
    refine (Kept.refl _).append (every_spent.append (Kept.append (.spent ?_) (.refl _)))
    intro word member
    rcases List.mem_append.mp member with member | member
    · simp [Stage.uses,numeric word member]
    · rw [List.mem_singleton.mp member]
      simp [Stage.uses,inIntervals_units known]

theorem named_words (named : (Clause.Calendar.Name.ofWord? word).isSome = true) :
    word ∈ Lexicon.weekdays ∨ word ∈ Lexicon.months ∨ word = Lexicon.range := by
  unfold Clause.Calendar.Name.ofWord? at named
  split at named
  · rename_i index found
    exact .inl (List.isSome_idxOf?.mp (Option.isSome_of_eq_some found))
  · split at named
    · rename_i number found
      obtain ⟨index,inside,_⟩ := Option.map_eq_some_iff.mp found
      exact .inr (.inl (List.isSome_idxOf?.mp (Option.isSome_of_eq_some inside)))
    · split at named
      · rename_i same
        exact .inr (.inr same)
      · cases named

theorem calendar_kept (tokens : List Token) :
    Kept (Stage.uses .calendar) (wordsOf tokens) (wordsOf (Clause.Calendar.used tokens)) := by
  unfold Clause.Calendar.used
  induction tokens with
  | nil => exact .refl _
  | cons token rest ih =>
    rw [List.map_cons,wordsOf_cons,wordsOf_cons]
    refine Kept.append ?_ ih
    split
    · rename_i named
      cases token with
      | word text => exact .spent (by simpa [Token.word?,Stage.uses,Clause.Calendar.nameOf] using named)
      | marker kind => cases named
      | blank => cases named
    · exact .refl _

theorem parity_kept (tokens : List Token) :
    Kept (Stage.uses .parity) (wordsOf tokens) (wordsOf (Clause.Parity.used tokens)) := by
  induction tokens using Clause.Parity.pair_induction with
  | nil => exact .refl _
  | single token => exact .refl _
  | pair first second rest entry known ih =>
    obtain ⟨parity,unit,rfl,rfl,parities,unitss⟩ := Clause.Parity.meaning_words known
    rw [Clause.Parity.used_pair known]
    simp only [wordsOf_cons]
    have parity_spent : Kept (Stage.uses .parity) [parity] [] := .spent (by
      rcases parities with rfl | rfl <;> simp [Stage.uses])
    have unit_spent : Kept (Stage.uses .parity) [unit] [] := .spent (by
      rcases unitss with rfl | rfl | rfl <;> simp [Stage.uses,units])
    exact parity_spent.append (unit_spent.append ih)
  | apart first second rest unknown ih =>
    rw [Clause.Parity.used_apart unknown,wordsOf_cons,wordsOf_cons first (Clause.Parity.used _)]
    exact (Kept.refl _).append ih

theorem never_kept (draft : Draft) : Kept (Stage.uses .never) draft.words (Clause.Never.read draft).words := by
  unfold Clause.Never.read Draft.words
  split
  · generalize draft.tokens = tokens
    dsimp only
    induction tokens with
    | nil => exact .refl _
    | cons token rest ih =>
      rw [List.filter_cons]
      split
      · rw [wordsOf_cons,wordsOf_cons]
        exact (Kept.refl _).append ih
      · rename_i same
        have never : token = Clause.Never.never := by simpa using same
        rw [wordsOf_cons,never]
        exact Kept.append (.spent (by simp [Clause.Never.never,Token.word?,Stage.uses])) ih
  · exact .refl _

theorem understood_chars {segment : String} (understood : Clause.Residual.isOther zone segment = false) :
    ∀ c ∈ segment.toList, ClockText.OnClock c := by
  unfold Clause.Residual.isOther Clause.Residual.reading at understood
  split at understood
  · rename_i time known
    obtain ⟨clock,read,_⟩ := Option.bind_eq_some_iff.mp known
    exact ClockText.read_chars read
  · split at understood
    · rename_i numbers
      intro c inside
      rcases Bool.or_eq_true_iff.mp (List.all_eq_true.mp numbers c inside) with digit | blank
      · exact ClockText.onClock_digit digit
      · exact .inr blank
    · cases understood

theorem segment_kept (zone : Offset) {words : List String} (sound : SoundWords words) :
    Kept (Stage.uses .residual) words
      (if Clause.Residual.isOther zone (" ".intercalate words) then words else []) := by
  split
  · exact .refl _
  · rename_i understood
    refine .spent fun word member => ?_
    rw [Bool.not_eq_true] at understood
    refine List.all_eq_true.mpr fun c inside => ?_
    have in_segment := mem_joined member inside
    exact (understood_chars understood c in_segment).resolve_right (by simp [(sound word member).2 c inside])

theorem residual_kept (zone : Offset) (draft : Draft) (sound : SoundWords draft.words) :
    Kept (Stage.uses .residual) draft.words (Clause.Residual.read zone draft).words := by
  rw [Clause.Residual.read_words zone draft sound]
  unfold Draft.words at sound ⊢
  rw [wordsOf_splitOnP] at sound ⊢
  refine .flatMap fun run member => segment_kept zone (sound.sublist ?_)
  exact List.sublist_flatten_of_mem (List.mem_map_of_mem member)

theorem stage_kept (zone : Offset) (stage : Stage) (draft : Draft) (sound : SoundWords draft.words) :
    Kept stage.uses draft.words (stage.run zone draft).words := by
  cases stage with
  | markers => exact markers_kept draft.tokens
  | frequency => exact frequency_kept draft
  | calendar => exact calendar_kept draft.tokens
  | parity => exact parity_kept draft.tokens
  | never => exact never_kept draft
  | residual => exact residual_kept zone draft sound

theorem runAll_kept (zone : Offset) (stages : List Stage) (draft : Draft) (sound : SoundWords draft.words)
    (within : ∀ stage ∈ stages, ∀ word, stage.uses word = true → may word = true) :
    Kept may draft.words (Stage.runAll zone stages draft).words := by
  induction stages generalizing draft with
  | nil => exact .refl _
  | cons stage rest ih =>
    have step := stage_kept zone stage draft sound
    exact (step.mono (within stage List.mem_cons_self)).trans
      (ih (stage.run zone draft) (sound.sublist step.sublist)
        fun later member => within later (List.mem_cons_of_mem _ member))

-- Words that mean something in some clause: the fixed ones, the names of the calendar, and whatever
-- is written like a clock time, which includes numbers and the range word.
def fixedWords : List String :=
  ["every","from","never","odd","even","minute","hour","day","month","year"]
def isRecognized (word : String) : Bool :=
  fixedWords.contains word || Lexicon.weekdays.contains word || Lexicon.months.contains word ||
    word.toList.all ClockText.isClockChar
def unrecognized (words : List String) : List String := words.filter (fun word => !isRecognized word)

theorem named_recognized (named : (Clause.Calendar.Name.ofWord? word).isSome = true) : isRecognized word = true := by
  rcases named_words named with weekday | month | rfl
  · simp [isRecognized,weekday]
  · simp [isRecognized,month]
  · decide

theorem uses_recognized (stage : Stage) (word : String) (used : stage.uses word = true) :
    isRecognized word = true := by
  cases stage with
  | markers => rw [eq_of_beq used]; decide
  | frequency =>
    simp only [Stage.uses,Bool.or_eq_true] at used
    rcases used with (same | unit) | numeric
    · rw [eq_of_beq same]; decide
    · have inside : word ∈ units := by simpa using unit
      have all : ∀ unit ∈ units, isRecognized unit = true := by decide
      exact all word inside
    · refine Bool.or_eq_true_iff.mpr (.inr (List.all_eq_true.mpr fun c inside => ?_))
      simp [ClockText.isClockChar,List.all_eq_true.mp numeric c inside]
  | calendar => exact named_recognized used
  | parity =>
    simp only [Stage.uses,Bool.or_eq_true] at used
    rcases used with (same | same) | unit
    · rw [eq_of_beq same]; decide
    · rw [eq_of_beq same]; decide
    · have inside : word ∈ units := by simpa using unit
      have all : ∀ unit ∈ units, isRecognized unit = true := by decide
      exact all word inside
  | never => rw [eq_of_beq used]; decide
  | residual => exact Bool.or_eq_true_iff.mpr (.inr used)

-- Whatever the stages, and in whatever order they run, the words that are left are some of those
-- there were, in their order, and a word that means nothing is never lost. So it is with the
-- remainder of a phrase.
theorem no_word_lost (zone : Offset) :
    (∀ (stages : List Stage) (draft : Draft), SoundWords draft.words →
      (Stage.runAll zone stages draft).words.Sublist draft.words ∧
        unrecognized (Stage.runAll zone stages draft).words = unrecognized draft.words) ∧
    ∀ phrase : String, (compile zone phrase).leftover.Sublist (wordsOf (Phrase.lex phrase)) ∧
      unrecognized (compile zone phrase).leftover = unrecognized (wordsOf (Phrase.lex phrase)) ∧
      (compile zone phrase).unparsed = " ".intercalate (compile zone phrase).leftover := by
  have runs (stages : List Stage) (draft : Draft) (sound : SoundWords draft.words) :
      Kept isRecognized draft.words (Stage.runAll zone stages draft).words :=
    runAll_kept zone stages draft sound fun stage _ => uses_recognized stage
  refine ⟨fun stages draft sound => ⟨(runs stages draft sound).sublist,(runs stages draft sound).unused⟩,?_⟩
  intro phrase
  have sound := Phrase.lex_sound phrase
  unfold compile compileTokens
  generalize Phrase.lex phrase = tokens at sound ⊢
  have kept := runs Stage.inOrder ⟨tokens,{}⟩ sound
  have left_sound := sound.sublist kept.sublist
  rw [Draft.schedule_leftover _ left_sound,Draft.schedule_unparsed _ left_sound]
  exact ⟨kept.sublist,kept.unused,rfl⟩

theorem no_word_lost_out_of_order :
    SoundWords ["foo","5pm","every","2","hour","bar"] ∧
      (Stage.runAll .utc [.residual,.frequency,.residual]
        ⟨["foo","5pm","every","2","hour","bar"].map .word,{}⟩).words.Sublist ["foo","5pm","every","2","hour","bar"] ∧
      unrecognized (Stage.runAll .utc [.residual,.frequency,.residual]
        ⟨["foo","5pm","every","2","hour","bar"].map .word,{}⟩).words = ["foo","bar"] := by
  have sound : SoundWords ["foo","5pm","every","2","hour","bar"] := by
    unfold SoundWords
    decide +kernel
  have kept := (no_word_lost .utc).1 [.residual,.frequency,.residual]
    ⟨["foo","5pm","every","2","hour","bar"].map .word,{}⟩ sound
  exact ⟨sound,kept.1,kept.2.trans (by decide +kernel)⟩

end Recurrence
