import Recurrence.Proofs.FieldGrammar
import Recurrence.Proofs.ListText
import Recurrence.Proofs.ResidualFields

namespace Recurrence
namespace Clause.Calendar

def Kind.other : Kind → Kind
  | .weekday => .month
  | .month => .weekday

-- The number of a token that is a name of the kind: Sunday is 0, January is 1.
def Kind.number? : Kind → Token → Option Nat
  | .weekday,token => token.word?.bind Lexicon.dayIndex
  | .month,token => token.word?.bind Lexicon.monthNumber

-- A range word stands among the tokens, and no name of the other kind stands before it.
def Ranged (kind : Kind) (gap : List Token) : Prop :=
  ∃ front back, gap = front ++ .word Lexicon.range :: back ∧ ∀ token ∈ front, kind.other.number? token = none

-- The text lists the names of a kind as they stand among the tokens: their numbers in order, and one
-- character between neighbours, a hyphen where a range word joins them and a comma elsewhere.
structure Lists (kind : Kind) (tokens : List Token) (text : String) : Prop where
  numbers : numbersIn text = tokens.filterMap kind.number?
  between : (separatorsIn text).length + 1 = (numbersIn text).length
  joined : ∀ before first gap second after, tokens = before ++ first :: (gap ++ second :: after) →
    kind.number? first ≠ none → kind.number? second ≠ none → (∀ token ∈ gap, kind.number? token = none) →
    ∃ mark, (separatorsIn text)[(before.filterMap kind.number?).length]? = some mark ∧
      (mark = '-' ∧ Ranged kind gap ∨ mark = ',' ∧ ¬ Ranged kind gap)

theorem dayIndex_mem (known : Lexicon.dayIndex word = some index) : word ∈ Lexicon.weekdays :=
  List.isSome_idxOf?.mp (Option.isSome_of_eq_some known)

theorem weekday_no_month (known : Lexicon.dayIndex word = some index) : Lexicon.monthNumber word = none := by
  have apart : ∀ word ∈ Lexicon.weekdays, Lexicon.monthNumber word = none := by decide
  exact apart word (dayIndex_mem known)

theorem value_nameOf (kind : Kind) (token : Token) : (nameOf token).bind kind.value? = kind.number? token := by
  cases token with
  | marker mark => cases kind <;> rfl
  | blank => cases kind <;> rfl
  | word text =>
    show (Name.ofWord? text).bind kind.value? = kind.number? (.word text)
    unfold Name.ofWord?
    cases day : Lexicon.dayIndex text with
    | some index =>
      have no_month := weekday_no_month day
      cases kind <;> simp [Kind.value?,Kind.number?,Token.word?,day,no_month]
    | none =>
      cases month : Lexicon.monthNumber text with
      | some number => cases kind <;> simp [Kind.value?,Kind.number?,Token.word?,day,month]
      | none =>
        dsimp only
        split <;> cases kind <;> simp [Kind.value?,Kind.number?,Token.word?,day,month]

theorem nameOf_range {token : Token} : nameOf token = some .range ↔ token = .word Lexicon.range := by
  constructor
  · intro named
    cases token with
    | marker mark => cases named
    | blank => cases named
    | word text =>
      have named : Name.ofWord? text = some .range := named
      unfold Name.ofWord? at named
      split at named
      · cases named
      · split at named
        · cases named
        · split at named
          · rename_i same
            rw [same]
          · cases named
  · rintro rfl
    decide

theorem named_kind (kind : Kind) {name : Name} (solid : name ≠ .range) (foreign : kind.value? name = none) :
    kind.other.value? name ≠ none := by
  cases kind <;> cases name <;> simp_all [Kind.value?,Kind.other]

theorem head_ranged {kind : Kind} {gap : List Token} (foreign : ∀ token ∈ gap, kind.number? token = none)
    {rest : List Name} (solid : rest.head? ≠ some .range) :
    (gap.filterMap nameOf ++ rest).head? = some .range ↔ Ranged kind gap := by
  induction gap with
  | nil =>
    refine ⟨fun starts => absurd starts solid,?_⟩
    intro ⟨front,back,split,_⟩
    simp at split
  | cons token gap ih =>
    have later := ih fun token member => foreign token (List.mem_cons_of_mem _ member)
    have here := foreign token List.mem_cons_self
    rw [← value_nameOf] at here
    cases named : nameOf token with
    | none =>
      have ordinary : token ≠ .word Lexicon.range := fun same => by rw [nameOf_range.mpr same] at named; cases named
      have silent : kind.other.number? token = none := by rw [← value_nameOf,named]; rfl
      rw [List.filterMap_cons_none named,later]
      constructor
      · intro ⟨front,back,split,clear⟩
        refine ⟨token :: front,back,by rw [split]; rfl,?_⟩
        intro other member
        rcases List.mem_cons.mp member with rfl | member
        · exact silent
        · exact clear other member
      · intro ⟨front,back,split,clear⟩
        cases front with
        | nil => exact absurd (List.cons.inj split).1 ordinary
        | cons first front =>
          exact ⟨front,back,(List.cons.inj split).2,fun other member => clear other (List.mem_cons_of_mem _ member)⟩
    | some name =>
      rw [List.filterMap_cons_some named,List.cons_append,List.head?_cons,Option.some.injEq]
      rw [named,Option.bind_some] at here
      constructor
      · rintro rfl
        exact ⟨[],gap,by rw [nameOf_range.mp named]; rfl,by simp⟩
      · intro ⟨front,back,split,clear⟩
        apply Decidable.byContradiction
        intro solid_name
        cases front with
        | nil =>
          have same := nameOf_range.mpr (List.cons.inj split).1
          rw [named] at same
          exact solid_name (Option.some.inj same)
        | cons first front =>
          have silent := clear first List.mem_cons_self
          rw [← (List.cons.inj split).1,← value_nameOf,named,Option.bind_some] at silent
          exact named_kind kind solid_name here silent

theorem marks_append (kind : Kind) (front rest : List Name) : ∃ earlier,
    marks kind (front ++ rest) = earlier ++ marks kind rest ∧ earlier.length = (front.filterMap kind.value?).length := by
  induction front with
  | nil => exact ⟨[],rfl,rfl⟩
  | cons name front ih =>
    obtain ⟨earlier,split,counted⟩ := ih
    cases known : kind.value? name with
    | none =>
      refine ⟨earlier,?_,by rw [List.filterMap_cons_none known,counted]⟩
      rw [List.cons_append,marks_other known,split]
    | some n =>
      refine ⟨(n,(front ++ rest).head? == some .range) :: earlier,?_,?_⟩
      · rw [List.cons_append,marks_value known,split]
        rfl
      · rw [List.filterMap_cons_some known,List.length_cons,List.length_cons,counted]

theorem marks_numbers (kind : Kind) (names : List Name) : (marks kind names).map Prod.fst = names.filterMap kind.value? := by
  induction names with
  | nil => rfl
  | cons name rest ih =>
    cases known : kind.value? name with
    | none => rw [marks_other known,List.filterMap_cons_none known,ih]
    | some n => rw [marks_value known,List.filterMap_cons_some known,List.map_cons,ih]

theorem numbers_named (kind : Kind) (tokens : List Token) :
    (tokens.filterMap nameOf).filterMap kind.value? = tokens.filterMap kind.number? := by
  have same : (fun token => (nameOf token).bind kind.value?) = kind.number? := funext (value_nameOf kind)
  rw [List.filterMap_filterMap,same]

theorem named_token {kind : Kind} (named : kind.number? token ≠ none) :
    ∃ name, nameOf token = some name ∧ kind.value? name ≠ none := by
  rw [← value_nameOf] at named
  cases found : nameOf token with
  | none => rw [found] at named; exact absurd rfl named
  | some name => rw [found] at named; exact ⟨name,rfl,named⟩

theorem group_lists (kind : Kind) (tokens : List Token) (some_name : tokens.filterMap kind.number? ≠ []) :
    Lists kind tokens (Entry.listed (group (marks kind (tokens.filterMap nameOf)))).text := by
  have numbers : (marks kind (tokens.filterMap nameOf)).map Prod.fst = tokens.filterMap kind.number? := by
    rw [marks_numbers,numbers_named]
  have read : numbersIn (Entry.listed (group (marks kind (tokens.filterMap nameOf)))).text = tokens.filterMap kind.number? := by
    unfold numbersIn
    rw [text_group,numbers_spelled,numbers]
  have marks_read : separatorsIn (Entry.listed (group (marks kind (tokens.filterMap nameOf)))).text =
      (marks kind (tokens.filterMap nameOf)).dropLast.map fun mark => separator mark.2 := by
    unfold separatorsIn
    rw [text_group,separators_spelled]
  refine ⟨read,?_,?_⟩
  · rw [marks_read,read,← numbers,List.length_map,List.length_map,List.length_dropLast]
    have some_mark : 0 < (marks kind (tokens.filterMap nameOf)).length := by
      rw [List.length_pos_iff]
      intro empty
      rw [empty] at numbers
      exact some_name numbers.symm
    omega
  · intro before first gap second after split first_named second_named foreign
    obtain ⟨one,opens,known⟩ := named_token first_named
    obtain ⟨two,closes,known_two⟩ := named_token second_named
    have solid : (two :: after.filterMap nameOf).head? ≠ some .range := by
      rw [List.head?_cons,ne_eq,Option.some.injEq]
      rintro rfl
      cases kind <;> exact known_two rfl
    have names : tokens.filterMap nameOf =
        before.filterMap nameOf ++ one :: (gap.filterMap nameOf ++ two :: after.filterMap nameOf) := by
      rw [split,List.filterMap_append,List.filterMap_cons_some opens,List.filterMap_append,List.filterMap_cons_some closes]
    obtain ⟨n,value⟩ := Option.ne_none_iff_exists'.mp known
    obtain ⟨earlier,marked,counted⟩ := marks_append kind (before.filterMap nameOf)
      (one :: (gap.filterMap nameOf ++ two :: after.filterMap nameOf))
    have later : marks kind (gap.filterMap nameOf ++ two :: after.filterMap nameOf) ≠ [] := by
      intro empty
      have none_left := marks_numbers kind (gap.filterMap nameOf ++ two :: after.filterMap nameOf)
      rw [empty,List.map_nil,eq_comm,List.filterMap_eq_nil_iff] at none_left
      exact known_two (none_left two (by simp))
    rw [marks_read,names,marked,marks_value value,List.dropLast_append_cons,List.dropLast_cons_of_ne_nil later,
      ← numbers_named,← counted,List.map_append,List.getElem?_append_right (by simp)]
    refine ⟨separator ((gap.filterMap nameOf ++ two :: after.filterMap nameOf).head? == some .range),?_,?_⟩
    · rw [List.length_map,Nat.sub_self]
      rfl
    rw [← head_ranged foreign solid]
    cases ranged : (gap.filterMap nameOf ++ two :: after.filterMap nameOf).head? == some .range with
    | true => exact .inl ⟨rfl,eq_of_beq ranged⟩
    | false => exact .inr ⟨rfl,fun same => by rw [same] at ranged; cases ranged⟩

theorem some_item (kind : Kind) (tokens : List Token) :
    group (marks kind (tokens.filterMap nameOf)) ≠ [] ↔ tokens.filterMap kind.number? ≠ [] := by
  rw [← numbers_named,← marks_numbers]
  cases marks kind (tokens.filterMap nameOf) with
  | nil => simp [group]
  | cons mark rest =>
    obtain ⟨item,items,_,grouped⟩ := group_cons mark rest
    simp [grouped]

end Clause.Calendar

theorem Clause.Frequency.read_weekdays (draft : Draft) :
    (read draft).fields.get .dayOfWeek = draft.fields.get .dayOfWeek ∨
      (read draft).fields.get .dayOfWeek = some .any := by
  have step := read_step draft
  generalize read draft = next at step ⊢
  cases step with
  | idle => exact .inl rfl
  | dropped first => exact .inl rfl
  | @whole before unit entries after fields first known =>
    rcases fields.get_write entries .dayOfWeek with ⟨kept,_⟩ | ⟨entry,member,written⟩
    · exact .inl kept
    · refine .inr (written.trans ?_)
      unfold wholeUnit at known
      split at known <;> cases known <;> simp_all
  | @counted before clause intervals unit entries after fields first within spoken some_interval numeric known =>
    rcases fields.get_write entries .dayOfWeek with ⟨kept,_⟩ | ⟨entry,member,written⟩
    · exact .inl kept
    · unfold inIntervals at known
      split at known <;> cases known <;> simp_all

theorem runAll_names (zone : Offset) (tokens : List Token) (sound : SoundWords (wordsOf tokens))
    (kind : Clause.Calendar.Kind) (unreplaced : kind = .month → ¬ Phrase.AlternatesMonths zone tokens) :
    (Stage.runAll zone Stage.inOrder ⟨tokens,{}⟩).fields.get kind.field =
      if tokens.filterMap kind.number? ≠ [] then
        some (.listed (Clause.Calendar.group (Clause.Calendar.marks kind (tokens.filterMap Clause.Calendar.nameOf))))
      else (Stage.runAll zone [.markers,.frequency] ⟨tokens,{}⟩).fields.get kind.field := by
  have names := names_kept zone ⟨tokens,{}⟩ sound
  have split : Stage.runAll zone Stage.inOrder ⟨tokens,{}⟩ = Clause.Residual.read zone (Clause.Never.read
      (Clause.Parity.read (Stage.runAll zone [.markers,.frequency,.calendar] ⟨tokens,{}⟩))) := rfl
  have calendar := Clause.Calendar.get_read (Stage.runAll zone [.markers,.frequency] ⟨tokens,{}⟩) kind
  rw [names,Clause.Calendar.items_sort] at calendar
  have cancelled (draft : Draft) : (Clause.Never.read draft).fields.get kind.field = draft.fields.get kind.field := by
    unfold Clause.Never.read
    split
    · exact Fields.get_disable _ _
    · rfl
  unfold Phrase.AlternatesMonths at unreplaced
  rw [← Clause.Parity.says_month] at unreplaced
  have untouched : ∀ entry ∈ Clause.Parity.entries (Stage.runAll zone [.markers,.frequency,.calendar] ⟨tokens,{}⟩).tokens,
      entry.1 ≠ kind.field := by
    intro entry member same
    cases kind with
    | weekday => exact Clause.Parity.silent_on_weekdays _ entry member same
    | month => exact unreplaced rfl ⟨entry,member,same⟩
  rw [split,Clause.Residual.read_named,cancelled,Clause.Parity.read,Fields.get_write_of_not_mem _ _ _ untouched]
  simp only [Clause.Calendar.some_item] at calendar
  exact calendar

theorem runAll_lists (zone : Offset) (tokens : List Token) (sound : SoundWords (wordsOf tokens))
    (kind : Clause.Calendar.Kind) (unreplaced : kind = .month → ¬ Phrase.AlternatesMonths zone tokens)
    (some_name : tokens.filterMap kind.number? ≠ []) :
    Clause.Calendar.Lists kind tokens ((Stage.runAll zone Stage.inOrder ⟨tokens,{}⟩).fields.shown kind.field) := by
  have known := runAll_names zone tokens sound kind unreplaced
  rw [if_pos some_name] at known
  have made : (Entry.listed (Clause.Calendar.group
      (Clause.Calendar.marks kind (tokens.filterMap Clause.Calendar.nameOf)))).WellMade :=
    ⟨(Clause.Calendar.some_item kind tokens).mpr some_name,fun item => Clause.Calendar.group_nonempty⟩
  rw [Fields.shown_entry known made]
  exact Clause.Calendar.group_lists kind tokens some_name

theorem runAll_no_weekday (zone : Offset) (tokens : List Token) (sound : SoundWords (wordsOf tokens))
    (none_named : tokens.filterMap Clause.Calendar.Kind.weekday.number? = []) :
    (Stage.runAll zone Stage.inOrder ⟨tokens,{}⟩).fields.shown .dayOfWeek = "*" := by
  have known : (Stage.runAll zone Stage.inOrder ⟨tokens,{}⟩).fields.get .dayOfWeek = _ :=
    runAll_names zone tokens sound .weekday fun same => by cases same
  rw [none_named,if_neg (fun empty => empty rfl)] at known
  unfold Fields.shown
  rcases Clause.Frequency.read_weekdays (Clause.Markers.read ⟨tokens,{}⟩) with kept | written
  · rw [known.trans kept]
    rfl
  · rw [known.trans written]
    rfl

-- A schedule that is not cancelled shows the weekdays of its phrase, and the months unless an odd or
-- even month replaces them.
theorem names_shown (zone : Offset) (phrase : String) (uncancelled : Clause.Never.never ∉ Phrase.lex phrase) :
    ((compile zone phrase).dayOfWeek = "*" ↔
      ∀ token ∈ Phrase.lex phrase, Clause.Calendar.Kind.weekday.number? token = none) ∧
    ((∃ token ∈ Phrase.lex phrase, Clause.Calendar.Kind.weekday.number? token ≠ none) →
      Clause.Calendar.Lists .weekday (Phrase.lex phrase) (compile zone phrase).dayOfWeek) ∧
    ((∃ token ∈ Phrase.lex phrase, Clause.Calendar.Kind.month.number? token ≠ none) →
      ¬ Phrase.AlternatesMonths zone (Phrase.lex phrase) →
      Clause.Calendar.Lists .month (Phrase.lex phrase) (compile zone phrase).month) := by
  have sound := Phrase.lex_sound phrase
  unfold compile compileTokens
  generalize Phrase.lex phrase = tokens at sound uncancelled ⊢
  have found (kind : Clause.Calendar.Kind) :
      tokens.filterMap kind.number? ≠ [] ↔ ∃ token ∈ tokens, kind.number? token ≠ none := by
    rw [ne_eq,List.filterMap_eq_nil_iff]
    simp
  have weekdays := runAll_lists zone tokens sound .weekday fun same => by cases same
  have months := runAll_lists zone tokens sound .month
  have no_weekday := runAll_no_weekday zone tokens sound
  have enabled : ¬ (Stage.runAll zone Stage.inOrder ⟨tokens,{}⟩).fields.disabled = true :=
    fun disabled => uncancelled ((cancelled_iff zone tokens sound).mp disabled)
  generalize Stage.runAll zone Stage.inOrder ⟨tokens,{}⟩ = last at weekdays months no_weekday enabled ⊢
  unfold Draft.schedule
  rw [if_neg enabled]
  refine ⟨⟨?_,?_⟩,?_,?_⟩
  · intro open_field token member
    apply Decidable.byContradiction
    intro named
    have listed := (weekdays ((found .weekday).mpr ⟨token,member,named⟩)).numbers
    rw [show last.fields.shown Clause.Calendar.Kind.weekday.field = "*" from open_field] at listed
    exact (found .weekday).mpr ⟨token,member,named⟩ (listed.symm.trans (by decide))
  · exact fun unnamed => no_weekday (List.filterMap_eq_nil_iff.mpr unnamed)
  · exact fun named => weekdays ((found .weekday).mpr named)
  · exact fun named unreplaced => months (fun _ => unreplaced) ((found .month).mpr named)

theorem names_shown_mixed : Clause.Never.never ∉ Phrase.lex "mon-fri sun in oct to dec, jan" ∧
    compile .utc "mon-fri sun in oct to dec, jan" = ⟨"*","*","*","10-12,1","1-5,0",""⟩ ∧
    Clause.Calendar.Lists .weekday (Phrase.lex "mon-fri sun in oct to dec, jan") "1-5,0" ∧
    Clause.Calendar.Lists .month (Phrase.lex "mon-fri sun in oct to dec, jan") "10-12,1" := by
  have lexed : Phrase.lex "mon-fri sun in oct to dec, jan" = [.word "mon",.word "-",.word "fri",.word "sun",
      .marker .date,.word "oct",.word "-",.word "dec",.word "jan"] := by decide +kernel
  have compiled : compile .utc "mon-fri sun in oct to dec, jan" = ⟨"*","*","*","10-12,1","1-5,0",""⟩ := by decide +kernel
  have uncancelled : Clause.Never.never ∉ Phrase.lex "mon-fri sun in oct to dec, jan" := by rw [lexed]; decide
  obtain ⟨_,weekdays,months⟩ := names_shown .utc "mon-fri sun in oct to dec, jan" uncancelled
  have unreplaced : ¬ Phrase.AlternatesMonths .utc (Phrase.lex "mon-fri sun in oct to dec, jan") := by
    rw [lexed]
    intro ⟨parity,among,inside⟩
    have kept := inside.subset List.mem_cons_self
    simp only [List.mem_cons,List.not_mem_nil,or_false] at among
    rcases among with rfl | rfl <;> revert kept <;> decide +kernel
  rw [compiled] at weekdays months
  exact ⟨uncancelled,compiled,weekdays ⟨.word "mon",by rw [lexed]; decide,by decide⟩,
    months ⟨.word "oct",by rw [lexed]; decide,by decide⟩ unreplaced⟩

end Recurrence
