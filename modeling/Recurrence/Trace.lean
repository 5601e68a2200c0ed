import Recurrence.Compile

namespace Recurrence

-- What a compilation reports about itself, in the order in which it happens.
inductive Event where
  | normalized (phrase text : String)
  | tokenized (tokens : List Token)
  | settled (tokens : List Token)
  | everyBare
  | everyTaken (consumed : Nat) (fields : Fields)
  | everyDropped
  | named (fields : Fields)
  | alternated (field : Field) (entry : Entry)
  | disabled
  | timed (fields : Fields) (leftover : List Token)
  | assembled (schedule : Schedule)
  | compiled (phrase : String) (schedule : Schedule) (zone : Option Offset)
deriving DecidableEq

namespace Event

inductive Level where
  | trace
  | debug
deriving DecidableEq, Repr

def Level.name : Level → String
  | .trace => "TRACE"
  | .debug => "DEBUG"

def level : Event → Level
  | .normalized .. | .tokenized .. => .trace
  | _ => .debug

-- What an event tells under one of its names.
inductive Detail where
  | text (text : String)
  | count (n : Nat)
  | fields (fields : Fields)
deriving DecidableEq

-- The fields as a record, the ones without an entry included.
def recordText (fields : Fields) : String :=
  let shown (field : Option Entry) := match field with
    | none => "None"
    | some entry => "Some(\x22" ++ entry.text ++ "\x22)"
  "\x7b minute: " ++ shown fields.minute ++ ", hour: " ++ shown fields.hour ++
    ", day_of_month: " ++ shown fields.dayOfMonth ++ ", month: " ++ shown fields.month ++
    ", day_of_week: " ++ shown fields.dayOfWeek ++
    ", disabled: " ++ (if fields.disabled then "true" else "false") ++ " \x7d"

def details : Event → List (String × Detail)
  | .normalized phrase text =>
    [("stage",.text "normalization"),("phrase",.text phrase),("normalized",.text text)]
  | .tokenized tokens => [("stage",.text "tokenization"),("tokens",.text (textOf tokens))]
  | .settled tokens => [("stage",.text "markers"),("tokens",.text (textOf tokens))]
  | .everyBare => [("stage",.text "frequency"),("message",.text "every without a clause")]
  | .everyTaken consumed fields =>
    [("stage",.text "frequency"),("consumed",.count consumed),("fields",.fields fields)]
  | .everyDropped => [("stage",.text "frequency"),("message",.text "clause left for later stages")]
  | .named fields => [("stage",.text "calendar"),("fields",.fields fields)]
  | .alternated field entry =>
    [("stage",.text "parity"),("field",.text field.name),("value",.text entry.text)]
  | .disabled => [("stage",.text "never"),("message",.text "schedule disabled")]
  | .timed fields leftover =>
    [("stage",.text "residual"),("fields",.fields fields),("leftover",.text (textOf leftover))]
  | .assembled schedule =>
    [("stage",.text "assembly"),("expression",.text schedule.expression),("unparsed",.text schedule.unparsed)]
  | .compiled phrase schedule zone =>
    [("message",.text "compiled"),("phrase",.text phrase),("expression",.text schedule.expression)] ++
      match zone with
      | none => []
      | some zone => [("offset",.text zone.text)]

def Detail.shown : Detail → String
  | .text told => told
  | .count n => toString n
  | .fields told => recordText told

-- One line of a log.
def line (event : Event) : String :=
  " ".intercalate (event.level.name :: event.details.map (fun entry => entry.1 ++ "=" ++ entry.2.shown))

end Event

namespace Trace

-- What a stage reports when it is run on the draft. A stage that found nothing to do may be silent.
def ofStage (zone : Offset) (stage : Stage) (draft : Draft) : List Event :=
  let next := stage.run zone draft
  match stage with
  | .markers => [.settled next.tokens]
  | .frequency =>
    match Clause.Frequency.outcome draft with
    | .absent => []
    | .bare => [.everyBare]
    | .taken consumed next => [.everyTaken consumed next.fields]
    | .dropped _ => [.everyDropped]
  | .calendar => [.named next.fields]
  | .parity => (Clause.Parity.entries draft.tokens).map (fun entry => .alternated entry.1 entry.2)
  | .never => if draft.tokens.contains Clause.Never.never then [.disabled] else []
  | .residual => [.timed next.fields next.tokens]

def ofStages (zone : Offset) : List Stage → Draft → List Event
  | [],_ => []
  | stage :: rest,draft => ofStage zone stage draft ++ ofStages zone rest (stage.run zone draft)

-- The events of compiling a phrase; a zone that was given, and not only assumed, is told at the end.
def ofPhrase (given : Option Offset) (phrase : String) : List Event :=
  let zone := given.getD .utc
  let tokens := Phrase.lex phrase
  let schedule := compile zone phrase
  [.normalized phrase (Phrase.normalize phrase),.tokenized tokens] ++
    ofStages zone Stage.inOrder ⟨tokens,{}⟩ ++
    [.assembled schedule,.compiled phrase schedule given]

end Trace
end Recurrence
