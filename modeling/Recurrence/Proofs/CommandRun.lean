import Recurrence.Proofs.InputLines
import Recurrence.Proofs.FlagLayers

namespace Recurrence.CommandLine

theorem run_bind {α β : Type} (session : Session α) (next : α → Session β) (console : Console) :
    (session >>= next).run.run console =
      match session.run.run console with
      | (.ok value,after) => (next value).run.run after
      | (.error failure,after) => (.error failure,after) := by
  show (ExceptT.bindCont next (session.run.run console).1).run (session.run.run console).2 = _
  cases session.run.run console with
  | mk answer after => cases answer <;> rfl

-- What one phrase adds to the output, and to the errors.
def outputOf (settings : Settings) (zone : Offset) (phrase : String) : String :=
  (if settings.format = .yaml then "---\n" else "") ++ (compile zone phrase).render settings.format ++ "\n"

def unparsedLine (zone : Offset) (phrase : String) : String :=
  "unparsed in '" ++ phrase ++ "': " ++ (compile zone phrase).unparsed ++ "\n"

def errorsOf (settings : Settings) (zone : Offset) (verbose : Bool) (phrase : String) : String :=
  (if verbose then logOf zone phrase else "") ++
    (if !(compile zone phrase).fullyParsed && settings.showUnparsed then unparsedLine zone phrase else "")

theorem reportPhrase_run (settings : Settings) (zone : Offset) (verbose : Bool) (phrase : String) (console : Console) :
    (reportPhrase settings zone verbose phrase).run.run console =
      (.ok (compile zone phrase).fullyParsed,
        { output := console.output ++ outputOf settings zone phrase
          errors := console.errors ++ errorsOf settings zone verbose phrase }) := by
  have spoken (text : String) (before : Console) : (say text).run.run before =
      (.ok (),{before with output := before.output ++ text}) := rfl
  have warned (text : String) (before : Console) : (warn text).run.run before =
      (.ok (),{before with errors := before.errors ++ text}) := rfl
  unfold reportPhrase outputOf errorsOf unparsedLine
  cases verbose <;> by_cases yaml : settings.format = .yaml <;>
    cases shown : !(compile zone phrase).fullyParsed && settings.showUnparsed <;>
    simp only [run_bind,spoken,warned,yaml,shown,String.append_assoc,if_true,if_false,Bool.false_eq_true,
      String.empty_append,String.append_empty] <;>
    rfl

theorem reportPhrases_run (settings : Settings) (zone : Offset) (verbose allParsed : Bool) (phrases : List String)
    (console : Console) :
    (reportPhrases settings zone verbose allParsed phrases).run.run console =
      (.ok (allParsed && phrases.all (fun phrase => (compile zone phrase).fullyParsed)),
        { output := console.output ++ String.join (phrases.map (outputOf settings zone))
          errors := console.errors ++ String.join (phrases.map (errorsOf settings zone verbose)) }) := by
  induction phrases generalizing allParsed console with
  | nil =>
    simp [reportPhrases]
    rfl
  | cons phrase rest ih =>
    rw [reportPhrases,run_bind,reportPhrase_run]
    dsimp only
    rw [ih]
    simp [String.append_assoc,Bool.and_assoc]

variable {files : String → Option String} {input : ByteArray} {arguments phrases : List String}
  {request : Request} {settings : Settings} {zone : Offset} {failure : Failure}

-- Everything that can fail, in its order.
def prepare (files : String → Option String) (input : ByteArray) (request : Request) :
    Except Failure (Settings × Offset × List String) := do
  let settings ← Settings.load (layersOf files request)
  let zone ← Offset.parse settings.defaultOffset
  let phrases ← phrasesFor input request
  return (settings,zone,phrases)

def reported (verbose : Bool) (settings : Settings) (zone : Offset) (phrases : List String) : Outcome :=
  { status := if settings.strict && !phrases.all (fun phrase => (compile zone phrase).fullyParsed) then 1 else 0
    output := String.join (phrases.map (outputOf settings zone))
    errors := String.join (phrases.map (errorsOf settings zone verbose)) }

theorem run_request (asked : read arguments = .request request) :
    run files input arguments =
      match prepare files input request with
      | .ok (settings,zone,phrases) => reported request.verbose settings zone phrases
      | .error failure => ⟨2,"",failure.message ++ "\n"⟩ := by
  have lifted {α : Type} (result : Except Failure α) (console : Console) :
      (liftM result : Session α).run.run console = (result,console) := rfl
  unfold run serve prepare
  rw [asked]
  simp only [run_bind,lifted]
  cases Settings.load (layersOf files request) with
  | error failure => simp [bind,Except.bind]
  | ok settings =>
    cases zoned : Offset.parse settings.defaultOffset with
    | error failure => simp [bind,Except.bind,zoned]
    | ok zone =>
      cases phrasesFor input request with
      | error failure => simp [bind,Except.bind,zoned]
      | ok phrases =>
        simp only [bind,Except.bind,zoned,reportPhrases_run,Bool.true_and]
        rfl

theorem run_prepared (asked : read arguments = .request request)
    (loaded : Settings.load (layersOf files request) = .ok settings)
    (zoned : Offset.parse settings.defaultOffset = .ok zone) (found : phrasesFor input request = .ok phrases) :
    run files input arguments = reported request.verbose settings zone phrases := by
  have prepared : prepare files input request = .ok (settings,zone,phrases) := by
    simp [prepare,loaded,zoned,found,bind,Except.bind,pure,Except.pure]
  rw [run_request asked,prepared]

theorem prepare_error_iff :
    prepare files input request = .error failure ↔
      Settings.load (layersOf files request) = .error failure ∨
      ∃ settings, Settings.load (layersOf files request) = .ok settings ∧
        (Offset.parse settings.defaultOffset = .error failure ∨
        ∃ zone, Offset.parse settings.defaultOffset = .ok zone ∧ phrasesFor input request = .error failure) := by
  unfold prepare
  cases Settings.load (layersOf files request) with
  | error cause => simp [bind,Except.bind]
  | ok settings =>
    cases zoned : Offset.parse settings.defaultOffset with
    | error cause => simp [bind,Except.bind,zoned]
    | ok zone => cases found : phrasesFor input request <;> simp [bind,Except.bind,pure,Except.pure,zoned]

theorem phrasesFor_error_iff :
    phrasesFor input request = .error failure ↔
      request.phrases = [] ∧ (∃ line ∈ inputLines input, String.fromUTF8? line.toByteArray = none) ∧
        failure = .undecodableInput := by
  unfold phrasesFor
  cases spoken : request.phrases <;> simp [readPhrases_error_iff]

theorem phrasesFor_decoded {text : String} (silent : request.phrases = [])
    (decoded : String.fromUTF8? input = some text) : phrasesFor input request = .ok (textPhrases text) := by
  have bytes : input = text.toUTF8 := by
    unfold String.fromUTF8? at decoded
    split at decoded
    · exact congrArg String.toUTF8 (Option.some.inj decoded)
    · cases decoded
  rw [phrasesFor,silent,bytes]
  exact readPhrases_text text

theorem ofExcept_undecided (result : Except UsageError Request) (request : Request) :
    Taken.ofExcept result ≠ .decided (.request request) := by
  cases result <;> simp [Taken.ofExcept]

theorem takeArgument_undecided (argument : String) (start request : Request) :
    takeArgument argument start ≠ .decided (.request request) := by
  have letters (text : List Char) : takeLetters argument text start ≠ .decided (.request request) := by
    fun_induction takeLetters argument text start <;> simp_all [ofExcept_undecided]
  have name (text : List Char) : takeName argument text start ≠ .decided (.request request) := by
    unfold takeName
    dsimp only
    split <;> simp [ofExcept_undecided]
  unfold takeArgument
  split
  · apply name
  · apply letters
  · simp

theorem readFrom_append {start : Request} (phrases : List String)
    (asked : readFrom start arguments = .request request) :
    ∃ more, readFrom start (arguments ++ more) = .request {request with phrases := request.phrases ++ phrases} := by
  fun_induction readFrom start arguments with
  | case1 start =>
    cases asked
    exact ⟨"--" :: phrases,by simp [readFrom]⟩
  | case2 start rest =>
    cases asked
    exact ⟨phrases,by simp [readFrom]⟩
  | case3 start argument rest notEnd reading taken =>
    exact absurd (asked ▸ taken) (takeArgument_undecided _ _ _)
  | case4 start argument rest notEnd next taken ih =>
    obtain ⟨more,added⟩ := ih asked
    exact ⟨more,by rwa [List.cons_append,readFrom,if_neg notEnd,taken]⟩
  | case6 start argument notEnd setting waiting taken value rest takes next set ih =>
    obtain ⟨more,added⟩ := ih asked
    refine ⟨more,?_⟩
    rw [List.cons_append,List.cons_append,readFrom,if_neg notEnd,taken]
    simpa only [takes,set,if_true] using added
  | case5 | case7 | case8 => cases asked

theorem join_errors (settings : Settings) (zone : Offset) (phrases : List String) :
    String.join (phrases.map (errorsOf settings zone false)) =
      if settings.showUnparsed then
        String.join ((phrases.filter (fun phrase => !(compile zone phrase).fullyParsed)).map (unparsedLine zone))
      else "" := by
  induction phrases with
  | nil => simp
  | cons phrase rest ih =>
    rw [List.map_cons,String.join_cons,ih,errorsOf,List.filter_cons]
    cases settings.showUnparsed <;> cases (compile zone phrase).fullyParsed <;> simp

-- A run says what each phrase says, one after the other, and phrases from the input are as good as
-- phrases among the arguments.
theorem run_by_phrase (asked : read arguments = .request request)
    (loaded : Settings.load (layersOf files request) = .ok settings)
    (zoned : Offset.parse settings.defaultOffset = .ok zone) :
    (∃ root, rootOf files request = .ok root ∧ Layered root request settings) ∧
    (request.phrases ≠ [] → ∀ input,
      (run files input arguments).output = String.join (request.phrases.map (fun phrase =>
        (if settings.format = .yaml then "---\n" else "") ++ (compile zone phrase).render settings.format ++ "\n")) ∧
      (request.verbose = false → (run files input arguments).errors =
        if settings.showUnparsed then
          String.join ((request.phrases.filter (fun phrase => !(compile zone phrase).fullyParsed)).map (unparsedLine zone))
        else "") ∧
      (run files input arguments).status =
        if settings.strict ∧ ∃ phrase ∈ request.phrases, (compile zone phrase).fullyParsed = false then 1 else 0) ∧
    (request.phrases = [] → ∀ input text, String.fromUTF8? input = some text →
      (textPhrases text = [] → run files input arguments = ⟨0,"",""⟩) ∧
      (textPhrases text ≠ [] →
        (∃ given, read given = .request {request with phrases := textPhrases text}) ∧
        ∀ given other, read given = .request {request with phrases := textPhrases text} →
          run files input arguments = run files other given)) := by
  refine ⟨load_layered loaded,?_,?_⟩
  case refine_1 =>
    intro spoken input
    have found : phrasesFor input request = .ok request.phrases := by simp [phrasesFor,spoken]
    rw [run_prepared asked loaded zoned found]
    refine ⟨rfl,?_,?_⟩
    · intro quiet
      rw [quiet]
      exact join_errors settings zone request.phrases
    · simp [reported]
  case refine_2 =>
    intro silent input text decoded
    have told := run_prepared asked loaded zoned (phrasesFor_decoded silent decoded)
    refine ⟨?_,?_⟩
    · intro blank
      rw [told,blank]
      simp [reported]
    · intro spoken
      refine ⟨?_,?_⟩
      · obtain ⟨more,added⟩ := readFrom_append (textPhrases text) asked
        refine ⟨arguments ++ more,?_⟩
        rwa [silent,List.nil_append] at added
      · intro given other again
        have found : phrasesFor other {request with phrases := textPhrases text} = .ok (textPhrases text) := by
          simp [phrasesFor,spoken]
        exact told.trans (run_prepared again loaded zoned found).symm

theorem strict_run :
    run (fun _ => none) .empty ["--strict","every 5 minutes","every 2 weeks"] =
      ⟨1,"*/5 * * * *\n* * * * *\n","unparsed in 'every 2 weeks': 2 week\n"⟩ ∧
    run (fun _ => none) "every 5 minutes\n\n  every 2 weeks\r\n".toUTF8 ["--strict"] =
      ⟨1,"*/5 * * * *\n* * * * *\n","unparsed in 'every 2 weeks': 2 week\n"⟩ := by
  have asked : read ["--strict","every 5 minutes","every 2 weeks"] =
      .request {phrases := ["every 5 minutes","every 2 weeks"], strict := true} := by decide
  have loaded : Settings.load [.override "output.strict" (.boolean true)] = .ok ⟨"+00:00",.expression,true,true⟩ :=
    Settings.ok_of_toOption (by decide +kernel)
  have zoned : Offset.parse "+00:00" = .ok .utc := rfl
  have lines : textPhrases "every 5 minutes\n\n  every 2 weeks\r\n" = ["every 5 minutes","every 2 weeks"] := by
    decide +kernel
  have positional : run (fun _ => none) .empty ["--strict","every 5 minutes","every 2 weeks"] =
      ⟨1,"*/5 * * * *\n* * * * *\n","unparsed in 'every 2 weeks': 2 week\n"⟩ := by
    obtain ⟨_,spoken,_⟩ := @run_by_phrase (fun _ => none) _ _ _ _ asked loaded zoned
    obtain ⟨output,errors,status⟩ := spoken (List.cons_ne_nil _ _) .empty
    have whole (outcome : Outcome) : outcome = ⟨outcome.status,outcome.output,outcome.errors⟩ := rfl
    rw [whole (run _ _ _),output,errors rfl,status]
    decide +kernel
  obtain ⟨_,_,piped⟩ := @run_by_phrase (fun _ => none) ["--strict"] {strict := true} _ _ (by decide) loaded zoned
  obtain ⟨_,again⟩ := piped rfl "every 5 minutes\n\n  every 2 weeks\r\n".toUTF8
    "every 5 minutes\n\n  every 2 weeks\r\n" (by decide +kernel)
  rw [lines] at again
  obtain ⟨_,same⟩ := again (List.cons_ne_nil _ _)
  exact ⟨positional,(same _ .empty asked).trans positional⟩

-- Why a run ends with a status of two.
inductive Fails (files : String → Option String) (input : ByteArray) (arguments : List String) : Prop where
  | usage {error : UsageError} (refused : read arguments = .refused error)
  | configuration {request : Request} {failure : Failure} (asked : read arguments = .request request)
      (unloaded : Settings.load (layersOf files request) = .error failure)
  | offset {request : Request} {settings : Settings} (asked : read arguments = .request request)
      (loaded : Settings.load (layersOf files request) = .ok settings)
      (invalid : Offset.parse? settings.defaultOffset = none)
  | input {request : Request} {settings : Settings} {zone : Offset} {line : List UInt8}
      (asked : read arguments = .request request) (loaded : Settings.load (layersOf files request) = .ok settings)
      (zoned : Offset.parse settings.defaultOffset = .ok zone) (silent : request.phrases = [])
      (member : line ∈ inputLines input) (undecodable : String.fromUTF8? line.toByteArray = none)

theorem fails_iff (asked : read arguments = .request request) :
    Fails files input arguments ↔ ∃ failure, prepare files input request = .error failure := by
  simp only [prepare_error_iff,phrasesFor_error_iff,Offset.parse_error_iff]
  constructor
  · intro fails
    cases fails with
    | usage refused => simp [asked] at refused
    | configuration again unloaded =>
      cases asked.symm.trans again
      exact ⟨_,.inl unloaded⟩
    | offset again loaded invalid =>
      cases asked.symm.trans again
      exact ⟨_,.inr ⟨_,loaded,.inl ⟨invalid,rfl⟩⟩⟩
    | input again loaded zoned silent member undecodable =>
      cases asked.symm.trans again
      exact ⟨_,.inr ⟨_,loaded,.inr ⟨_,zoned,silent,⟨_,member,undecodable⟩,rfl⟩⟩⟩
  · intro ⟨failure,failed⟩
    cases failed with
    | inl unloaded => exact .configuration asked unloaded
    | inr later =>
      obtain ⟨settings,loaded,⟨invalid,_⟩ | ⟨zone,zoned,silent,⟨line,member,undecodable⟩,_⟩⟩ := later
      · exact .offset asked loaded invalid
      · exact .input asked loaded zoned silent member undecodable

theorem status_failed_iff (files : String → Option String) (input : ByteArray) (arguments : List String) :
    (run files input arguments).status = 2 ↔ Fails files input arguments := by
  cases asked : read arguments with
  | refused error =>
    constructor
    · exact fun _ => .usage asked
    · intro _
      rw [run,asked]
  | request request =>
    rw [run_request asked,fails_iff asked]
    cases prepare files input request with
    | error failure => simp
    | ok found =>
      have told : (reported request.verbose found.1 found.2.1 found.2.2).status ≠ 2 := by
        unfold reported
        split <;> simp
      simp [told]
  | help | version =>
    constructor
    · intro failed
      simp [run,asked] at failed
    · intro fails
      cases fails <;> simp_all

theorem failed_output (fails : Fails files input arguments) : (run files input arguments).output = "" := by
  have unprepared {request : Request} (asked : read arguments = .request request) :
      (run files input arguments).output = "" := by
    obtain ⟨failure,failed⟩ := (fails_iff asked).mp fails
    rw [run_request asked,failed]
  cases fails with
  | usage refused => rw [run,refused]
  | configuration asked | offset asked | input asked => exact unprepared asked

-- A run that fails has written nothing, and one line that cannot be decoded makes it fail.
theorem failure_writes_nothing (files : String → Option String) (input : ByteArray) (arguments : List String) :
    ((run files input arguments).status = 2 → (run files input arguments).output = "") ∧
    ((run files input arguments).status = 2 ↔ Fails files input arguments) ∧
    (∀ request settings zone, read arguments = .request request → request.phrases = [] →
      Settings.load (layersOf files request) = .ok settings → Offset.parse settings.defaultOffset = .ok zone →
      (∃ line ∈ inputLines input, String.fromUTF8? line.toByteArray = none) →
      run files input arguments = ⟨2,"","I/O error: stream did not contain valid UTF-8\n"⟩) := by
  refine ⟨?_,status_failed_iff files input arguments,?_⟩
  · intro failed
    exact failed_output ((status_failed_iff files input arguments).mp failed)
  · intro request settings zone asked silent loaded zoned bad
    have failed : prepare files input request = .error .undecodableInput :=
      prepare_error_iff.mpr (.inr ⟨settings,loaded,.inr ⟨zone,zoned,phrasesFor_error_iff.mpr ⟨silent,bad,rfl⟩⟩⟩)
    rw [run_request asked,failed]
    rfl

theorem late_line_refused :
    run (fun _ => none) ⟨#[100,97,105,108,121,10,255]⟩ [] = ⟨2,"","I/O error: stream did not contain valid UTF-8\n"⟩ := by
  have loaded : Settings.load [] = .ok ⟨"+00:00",.expression,true,false⟩ :=
    Settings.ok_of_toOption (by decide +kernel)
  obtain ⟨_,_,refused⟩ := failure_writes_nothing (fun _ => none) ⟨#[100,97,105,108,121,10,255]⟩ []
  exact refused {} _ .utc rfl rfl loaded rfl (by decide +kernel)

end Recurrence.CommandLine
