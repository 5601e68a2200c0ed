import Mathlib.Data.List.Forall2
import Recurrence.Compile
import Recurrence.Proofs.Frequency
import Recurrence.Proofs.Parity
import Recurrence.Proofs.Segments

namespace Recurrence

-- A token without the kind of its marker: what a reader sees who is only told where clauses begin.
def Token.kindless : Token → Token
  | .marker _ => .marker .time
  | token => token

namespace Token

theorem kindless_isMarker (token : Token) : token.kindless.isMarker = token.isMarker := by cases token <;> rfl

theorem kindless_word? (token : Token) : token.kindless.word? = token.word? := by cases token <;> rfl

theorem kindless_eq_word {token : Token} {spoken : String} : token.kindless = .word spoken ↔ token = .word spoken := by
  cases token <;> simp [kindless]

theorem kindless_bne_word (token : Token) (spoken : String) : (token.kindless != .word spoken) = (token != .word spoken) := by
  rw [Bool.eq_iff_iff,bne_iff_ne,bne_iff_ne,ne_eq,ne_eq,kindless_eq_word]

end Token

theorem wordsOf_kindless (tokens : List Token) : wordsOf (tokens.map Token.kindless) = wordsOf tokens := by
  unfold wordsOf
  rw [List.filterMap_map]
  exact congrArg (List.filterMap · tokens) (funext Token.kindless_word?)

namespace Draft

def kindless (draft : Draft) : Draft := {draft with tokens := draft.tokens.map Token.kindless}
def opened (kind : Marker) (draft : Draft) : Draft := {draft with tokens := .marker kind :: draft.tokens}

end Draft

-- A reader that does not ask for kinds, and that a marker in front of everything does not disturb.
structure Indifferent (read : Draft → Draft) : Prop where
  kindless : ∀ draft : Draft, read draft.kindless = (read draft).kindless
  opened : ∀ (kind : Marker) (draft : Draft), read (draft.opened kind) = (read draft).opened kind

namespace Clause

namespace Frequency

theorem inClause_kindless (token : Token) : inClause token.kindless = inClause token := by
  unfold inClause every
  rw [token.kindless_isMarker,token.kindless_bne_word]

theorem read_kindless (draft : Draft) : read draft.kindless = (read draft).kindless := by
  have seeks : (fun token : Token => token != every) ∘ Token.kindless = (· != every) :=
    funext fun token => token.kindless_bne_word "every"
  have clause : inClause ∘ Token.kindless = inClause := funext inClause_kindless
  unfold read outcome Draft.kindless
  dsimp only
  rw [List.dropWhile_map,List.takeWhile_map,seeks]
  generalize draft.tokens.takeWhile (· != every) = before
  cases draft.tokens.dropWhile (· != every) with
  | nil => rfl
  | cons first after =>
    simp only [List.map_cons,List.takeWhile_map,List.dropWhile_map,clause]
    cases after.takeWhile inClause with
    | nil => rfl
    | cons head others =>
      have spoken : wordsOf (head.kindless :: others.map Token.kindless) = wordsOf (head :: others) :=
        wordsOf_kindless (head :: others)
      simp only [List.map_cons,head.kindless_word?,spoken]
      cases head.word?.bind wholeUnit with
      | some entries => simp
      | none =>
        cases counted (wordsOf (head :: others)) with
        | some entries => simp
        | none => simp

theorem read_opened (kind : Marker) (draft : Draft) : read (draft.opened kind) = (read draft).opened kind := by
  obtain ⟨tokens,fields⟩ := draft
  rcases clause_parts tokens with absent | ⟨before,clause,after,rfl,first,within,ends⟩
  · have still : every ∉ .marker kind :: tokens := by simpa [every] using absent
    rw [(read_absent ⟨tokens,fields⟩ absent).1]
    exact (read_absent ⟨.marker kind :: tokens,fields⟩ still).1
  · have still : every ∉ .marker kind :: before := by simpa [every] using first
    rw [read_first first within ends]
    exact read_first still within ends

end Frequency

namespace Calendar

theorem nameOf_kindless (token : Token) : nameOf token.kindless = nameOf token := by
  unfold nameOf
  rw [token.kindless_word?]

theorem read_kindless (draft : Draft) : read draft.kindless = (read draft).kindless := by
  have names : nameOf ∘ Token.kindless = nameOf := funext nameOf_kindless
  have left : used (draft.tokens.map Token.kindless) = (used draft.tokens).map Token.kindless := by
    unfold used
    rw [List.map_map,List.map_map]
    refine List.map_congr_left fun token _ => ?_
    simp only [Function.comp_apply,nameOf_kindless]
    split <;> rfl
  unfold read Draft.kindless entries
  rw [left,List.filterMap_map,names]

theorem read_opened (kind : Marker) (draft : Draft) : read (draft.opened kind) = (read draft).opened kind := rfl

end Calendar

namespace Parity

theorem meaning_kindless (first second : Token) : meaning? first.kindless second.kindless = meaning? first second := by
  cases first <;> cases second <;> rfl

theorem entries_kindless (tokens : List Token) : entries (tokens.map Token.kindless) = entries tokens := by
  induction tokens using pair_induction with
  | nil => rfl
  | single token => rfl
  | pair first second rest entry known ih =>
    rw [List.map_cons,List.map_cons,entries_pair known,entries_pair (meaning_kindless first second ▸ known),ih]
  | apart first second rest unknown ih =>
    rw [List.map_cons,List.map_cons,entries_apart unknown,entries_apart (meaning_kindless first second ▸ unknown)]
    exact ih

theorem used_kindless (tokens : List Token) : used (tokens.map Token.kindless) = (used tokens).map Token.kindless := by
  induction tokens using pair_induction with
  | nil => rfl
  | single token => rfl
  | pair first second rest entry known ih =>
    rw [List.map_cons,List.map_cons,used_pair known,used_pair (meaning_kindless first second ▸ known),ih]
    rfl
  | apart first second rest unknown ih =>
    rw [List.map_cons,List.map_cons,used_apart unknown,used_apart (meaning_kindless first second ▸ unknown),List.map_cons]
    exact congrArg (first.kindless :: ·) ih

theorem read_kindless (draft : Draft) : read draft.kindless = (read draft).kindless := by
  unfold read Draft.kindless
  rw [used_kindless,entries_kindless]

theorem read_opened (kind : Marker) (draft : Draft) : read (draft.opened kind) = (read draft).opened kind := by
  unfold read Draft.opened
  cases draft.tokens with
  | nil => rfl
  | cons first rest => rfl

end Parity

namespace Never

theorem read_kindless (draft : Draft) : read draft.kindless = (read draft).kindless := by
  have found : never ∈ draft.tokens.map Token.kindless ↔ never ∈ draft.tokens := by
    simp [List.mem_map,never,Token.kindless_eq_word]
  have others : (fun token : Token => token != never) ∘ Token.kindless = (· != never) :=
    funext fun token => token.kindless_bne_word "never"
  unfold read Draft.kindless
  simp only [List.contains_iff_mem,found,List.filter_map,others]
  split <;> rfl

theorem read_opened (kind : Marker) (draft : Draft) : read (draft.opened kind) = (read draft).opened kind := by
  unfold read Draft.opened
  simp only [List.contains_iff_mem,List.mem_cons]
  have apart : never ≠ .marker kind := by simp [never]
  simp only [apart,false_or]
  split
  · rfl
  · rfl

end Never

namespace Residual

theorem split_kindless (tokens : List Token) : (tokens.map Token.kindless).splitOnP Token.isMarker =
    (tokens.splitOnP Token.isMarker).map (·.map Token.kindless) := by
  induction tokens with
  | nil => rfl
  | cons token rest ih =>
    rw [List.map_cons,List.splitOnP_cons_eq_if_modifyHead,List.splitOnP_cons_eq_if_modifyHead,token.kindless_isMarker,ih]
    split
    · rfl
    · cases rest.splitOnP Token.isMarker <;> rfl

theorem segments_kindless (tokens : List Token) : segments (tokens.map Token.kindless) = segments tokens := by
  have texts : (fun run => runText (run.map Token.kindless)) = runText :=
    funext fun run => by unfold runText; rw [wordsOf_kindless]
  rw [segments_eq,segments_eq,split_kindless,List.map_map]
  exact congrArg (fun text => ((tokens.splitOnP Token.isMarker).map text).filter (· != "")) texts

theorem read_kindless (zone : Offset) (draft : Draft) : read zone draft.kindless = read zone draft := by
  unfold read Draft.kindless
  rw [segments_kindless]

theorem read_opened (zone : Offset) (kind : Marker) (draft : Draft) : read zone (draft.opened kind) = read zone draft := by
  unfold read Draft.opened
  rw [segments_opened]

end Residual

namespace Markers

-- Apart from kinds and from a marker in front, the stage only makes a marker of the first `from`.
def settledFrom (kind : Marker) (tokens : List Token) : List Token := tokens.replace (.word "from") (.marker kind)

theorem settledFrom_parts (kind : Marker) (tokens : List Token) : settledFrom kind tokens = tokens ∨
    ∃ before after, tokens = before ++ .word "from" :: after ∧ settledFrom kind tokens = before ++ .marker kind :: after := by
  by_cases spoken : .word "from" ∈ tokens
  · obtain ⟨before,after,rfl,first⟩ := List.eq_append_cons_of_mem spoken
    refine .inr ⟨before,after,rfl,?_⟩
    rw [settledFrom,List.replace_append_right first,List.replace_cons_self]
  · exact .inl (List.replace_of_not_mem (by simpa using spoken))

theorem settledFrom_sound (kind : Marker) (sound : SoundWords (wordsOf tokens)) :
    SoundWords (wordsOf (settledFrom kind tokens)) := by
  rcases settledFrom_parts kind tokens with same | ⟨before,after,rfl,settled⟩
  · rwa [same]
  · rw [settled]
    refine sound.sublist ?_
    simp [wordsOf_append,wordsOf_cons,Token.word?]

theorem infix_settledFrom (inside : part <:+: settledFrom kind tokens) (unmarked : .marker kind ∉ part) : part <:+: tokens := by
  rcases settledFrom_parts kind tokens with same | ⟨before,after,rfl,settled⟩
  · rwa [same] at inside
  · rw [settled] at inside
    rcases Text.infix_append_cons unmarked inside with earlier | later
    · exact earlier.trans (List.prefix_append _ _).isInfix
    · exact later.trans ⟨before ++ [.word "from"],[],by simp⟩

theorem settledFrom_kindless (kind : Marker) (tokens : List Token) :
    (settledFrom kind tokens).map Token.kindless = settledFrom .time (tokens.map Token.kindless) := by
  unfold settledFrom
  induction tokens with
  | nil => rfl
  | cons token rest ih =>
    by_cases here : token = .word "from"
    · subst here
      rfl
    · have still : token.kindless ≠ .word "from" := fun same => here (Token.kindless_eq_word.mp same)
      rw [List.replace_cons,List.map_cons,List.replace_cons,beq_false_of_ne (Ne.symm here),beq_false_of_ne (Ne.symm still)]
      exact congrArg (token.kindless :: ·) ih

theorem read_cases (draft : Draft) : ∃ kind, read draft = ⟨settledFrom kind draft.tokens,draft.fields⟩ ∨
    ∃ front, read draft = Draft.opened front ⟨settledFrom kind draft.tokens,draft.fields⟩ := by
  unfold read settle
  refine ⟨if draft.tokens.contains (.marker .time) then .date else .time,?_⟩
  dsimp only
  cases missing (settleFrom draft.tokens) with
  | none => exact .inl rfl
  | some front => exact .inr ⟨front,rfl⟩

end Markers
end Clause

namespace Stage

theorem indifferent (zone : Offset) : ∀ stage ∈ [frequency,calendar,parity,never], Indifferent (stage.run zone) := by
  intro stage listed
  simp only [List.mem_cons,List.not_mem_nil,or_false] at listed
  rcases listed with rfl | rfl | rfl | rfl
  · exact ⟨Clause.Frequency.read_kindless,Clause.Frequency.read_opened⟩
  · exact ⟨Clause.Calendar.read_kindless,Clause.Calendar.read_opened⟩
  · exact ⟨Clause.Parity.read_kindless,Clause.Parity.read_opened⟩
  · exact ⟨Clause.Never.read_kindless,Clause.Never.read_opened⟩

theorem runAll_indifferent {zone : Offset} {stages : List Stage} (each : ∀ stage ∈ stages, Indifferent (stage.run zone)) :
    Indifferent (runAll zone stages) := by
  induction stages with
  | nil => exact ⟨fun _ => rfl,fun _ _ => rfl⟩
  | cons stage rest ih =>
    have here := each stage List.mem_cons_self
    have later := ih fun stage listed => each stage (List.mem_cons_of_mem _ listed)
    constructor
    · intro draft
      show runAll zone rest (stage.run zone draft.kindless) = (runAll zone rest (stage.run zone draft)).kindless
      rw [here.kindless,later.kindless]
    · intro kind draft
      show runAll zone rest (stage.run zone (draft.opened kind)) = (runAll zone rest (stage.run zone draft)).opened kind
      rw [here.opened,later.opened]

-- What is read once the markers are settled.
def settled : List Stage := inOrder.tail

theorem runAll_settled (zone : Offset) (draft : Draft) : runAll zone settled draft =
    Clause.Residual.read zone (runAll zone [frequency,calendar,parity,never] draft) := rfl

theorem runAll_between (zone : Offset) (draft : Draft) : runAll zone [frequency,calendar,parity,never] draft =
    Clause.Never.read (Clause.Parity.read (Clause.Calendar.read (Clause.Frequency.read draft))) := rfl

theorem settled_kindless (zone : Offset) (draft : Draft) : runAll zone settled draft.kindless = runAll zone settled draft := by
  rw [runAll_settled,(runAll_indifferent (indifferent zone)).kindless,Clause.Residual.read_kindless,← runAll_settled]

theorem settled_opened (zone : Offset) (kind : Marker) (draft : Draft) :
    runAll zone settled (draft.opened kind) = runAll zone settled draft := by
  rw [runAll_settled,(runAll_indifferent (indifferent zone)).opened,Clause.Residual.read_opened,← runAll_settled]

theorem inOrder_settled (zone : Offset) (tokens : List Token) (fields : Fields) (kind : Marker) :
    runAll zone inOrder ⟨tokens,fields⟩ = runAll zone settled ⟨Clause.Markers.settledFrom kind tokens,fields⟩ := by
  -- Without kinds the replacements by one marker and by another are the same.
  have same (chosen : Marker) : runAll zone settled ⟨Clause.Markers.settledFrom chosen tokens,fields⟩ =
      runAll zone settled ⟨Clause.Markers.settledFrom kind tokens,fields⟩ := by
    rw [← settled_kindless,← settled_kindless zone ⟨Clause.Markers.settledFrom kind tokens,fields⟩]
    unfold Draft.kindless
    rw [Clause.Markers.settledFrom_kindless,Clause.Markers.settledFrom_kindless]
  show runAll zone settled (Clause.Markers.read ⟨tokens,fields⟩) = _
  obtain ⟨chosen,plain | ⟨front,opened⟩⟩ := Clause.Markers.read_cases ⟨tokens,fields⟩
  · rw [plain]
    exact same chosen
  · rw [opened,settled_opened]
    exact same chosen

theorem inOrder_kindless (zone : Offset) (tokens : List Token) (fields : Fields) :
    runAll zone inOrder ⟨tokens.map Token.kindless,fields⟩ = runAll zone inOrder ⟨tokens,fields⟩ := by
  rw [inOrder_settled zone _ fields .time,inOrder_settled zone tokens fields .time,
    ← Clause.Markers.settledFrom_kindless .time]
  exact settled_kindless zone ⟨Clause.Markers.settledFrom .time tokens,fields⟩

end Stage

-- The words that open a clause, and the words of a phrase in which some of them stand for others.
def openings : List String := Lexicon.markers.map Prod.fst
def Reopened (word other : String) : Prop := word = other ∨ word ∈ openings ∧ other ∈ openings

theorem openings_kindless : ∀ word ∈ openings, (Lexicon.resolve word).kindless = .marker .time := by decide +kernel

theorem reopened_kindless (reopened : List.Forall₂ Reopened words others) :
    (words.map Lexicon.resolve).map Token.kindless = (others.map Lexicon.resolve).map Token.kindless := by
  induction reopened with
  | nil => rfl
  | cons here _ ih =>
    rw [List.map_cons,List.map_cons,ih,List.map_cons,List.map_cons]
    rcases here with rfl | ⟨opens,other⟩
    · rfl
    · rw [openings_kindless _ opens,openings_kindless _ other]

-- Where clauses begin matters, what kind of clause a marker promises does not: the kinds can be
-- exchanged, the first stage can be left to one replacement, and `at`, `on` and `in` say the same.
theorem kinds_idle (zone : Offset) (fields : Fields) :
    (∀ tokens others : List Token, tokens.map Token.kindless = others.map Token.kindless →
      (Stage.runAll zone Stage.inOrder ⟨tokens,fields⟩).schedule = (Stage.runAll zone Stage.inOrder ⟨others,fields⟩).schedule) ∧
    (∀ (tokens : List Token) (kind : Marker), (Stage.runAll zone Stage.inOrder ⟨tokens,fields⟩).schedule =
      (Stage.runAll zone Stage.inOrder.tail ⟨tokens.replace (.word "from") (.marker kind),fields⟩).schedule) ∧
    ∀ words others : List String, List.Forall₂ Reopened words others →
      compileTokens zone (words.map Lexicon.resolve) = compileTokens zone (others.map Lexicon.resolve) := by
  have exchanged (tokens others : List Token) (fields : Fields) (same : tokens.map Token.kindless = others.map Token.kindless) :
      Stage.runAll zone Stage.inOrder ⟨tokens,fields⟩ = Stage.runAll zone Stage.inOrder ⟨others,fields⟩ := by
    rw [← Stage.inOrder_kindless,same,Stage.inOrder_kindless]
  refine ⟨?_,?_,?_⟩
  · intro tokens others same
    rw [exchanged tokens others fields same]
  · intro tokens kind
    rw [Stage.inOrder_settled zone tokens fields kind]
    rfl
  · intro words others reopened
    unfold compileTokens
    rw [exchanged _ _ {} (reopened_kindless reopened)]

theorem kinds_idle_weekday :
    [.word "9am",.marker .date,.word "mon",.word "from",.word "jan"].map Token.kindless =
      [.word "9am",.marker .time,.word "mon",.word "from",.word "jan"].map Token.kindless ∧
    compileTokens .utc [.word "9am",.marker .date,.word "mon",.word "from",.word "jan"] =
      compileTokens .utc [.word "9am",.marker .time,.word "mon",.word "from",.word "jan"] ∧
    List.Forall₂ Reopened ["9am","on","mondays","from","january"] ["9am","at","mondays","from","january"] ∧
    compileTokens .utc (["9am","on","mondays","from","january"].map Lexicon.resolve) =
      compileTokens .utc (["9am","at","mondays","from","january"].map Lexicon.resolve) := by
  have same : [.word "9am",.marker .date,.word "mon",.word "from",.word "jan"].map Token.kindless =
      [.word "9am",.marker .time,.word "mon",.word "from",.word "jan"].map Token.kindless := rfl
  have reopened : List.Forall₂ Reopened ["9am","on","mondays","from","january"] ["9am","at","mondays","from","january"] :=
    .cons (.inl rfl) (.cons (.inr (by decide)) (.cons (.inl rfl) (.cons (.inl rfl) (.cons (.inl rfl) .nil))))
  obtain ⟨exchanged,_,spoken⟩ := kinds_idle .utc {}
  exact ⟨same,exchanged _ _ same,reopened,spoken _ _ reopened⟩

end Recurrence
