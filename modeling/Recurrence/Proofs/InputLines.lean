import Recurrence.CommandLine.Run
import Recurrence.Proofs.Words

namespace Recurrence.CommandLine
open Text

def encoded (text : List Char) : List UInt8 := text.flatMap String.utf8EncodeChar

theorem line_feed_encoded {c : Char} : 10 ∈ String.utf8EncodeChar c ↔ c = '\n' := by
  constructor
  · intro member
    have bound : c.toNat < 2 ^ 32 := c.val.toNat_lt
    simp only [String.utf8EncodeChar,Char.toNat_val] at member
    apply Char.toNat_inj.mp
    show c.toNat = 10
    repeat' split at member
    all_goals
      simp [← UInt8.toNat_inj] at member
      omega
  · intro same
    subst same
    decide

theorem encoded_intercalate (parts : List (List Char)) :
    encoded (['\n'].intercalate parts) = [10].intercalate (parts.map encoded) := by
  have feed : encoded ['\n'] = [10] := by decide
  induction parts with
  | nil => rfl
  | cons first rest ih =>
    cases rest with
    | nil => simp
    | cons second rest =>
      rw [List.intercalate_cons_of_ne_nil (List.cons_ne_nil _ _)]
      simp only [encoded,List.flatMap_append] at ih feed ⊢
      rw [ih,feed]
      exact (List.intercalate_cons_of_ne_nil (List.cons_ne_nil _ _)).symm

theorem inputLines_encoded (text : List Char) :
    inputLines (encoded text).toByteArray = (text.splitOn '\n').map encoded := by
  have whole : encoded text = [10].intercalate ((text.splitOn '\n').map encoded) := by
    rw [← encoded_intercalate,List.intercalate_splitOn]
  rw [inputLines,List.toList_data_toByteArray,whole]
  apply List.splitOn_intercalate
  · intro line member inside
    obtain ⟨piece,found,rfl⟩ := List.mem_map.mp member
    obtain ⟨c,among,byte⟩ := List.mem_flatMap.mp inside
    rw [List.splitOn_eq_splitOnP] at found
    have solid := (mem_splitOnP found c among).2
    simp [line_feed_encoded.mp byte] at solid
  · simp

theorem decodeLine_encoded (line : List Char) : decodeLine (encoded line) = .ok (String.ofList line) := by
  have valid : (encoded line).toByteArray.IsValidUTF8 := ⟨line,rfl⟩
  unfold decodeLine String.fromUTF8?
  rw [dif_pos valid]
  rfl

theorem decodeLine_error_iff {line : List UInt8} {failure : Failure} :
    decodeLine line = .error failure ↔
      String.fromUTF8? line.toByteArray = none ∧ failure = .undecodableInput := by
  unfold decodeLine
  split <;> rename_i found <;> simp [found,eq_comm]

theorem readPhrases_encoded (phrases : List String) (lines : List (List Char)) :
    readPhrases phrases (lines.map encoded) =
      .ok (phrases.reverse ++ lines.filterMap (fun line => phraseOf? (String.ofList line))) := by
  induction lines generalizing phrases with
  | nil => simp [readPhrases]
  | cons line rest ih =>
    rw [List.map_cons,readPhrases,decodeLine_encoded]
    cases found : phraseOf? (String.ofList line) <;> simp [bind,Except.bind,found,ih]

theorem readPhrases_error_iff {phrases : List String} {lines : List (List UInt8)} {failure : Failure} :
    readPhrases phrases lines = .error failure ↔
      (∃ line ∈ lines, String.fromUTF8? line.toByteArray = none) ∧ failure = .undecodableInput := by
  induction lines generalizing phrases with
  | nil => simp [readPhrases]
  | cons line rest ih =>
    rw [readPhrases]
    cases decoded : decodeLine line with
    | error cause =>
      obtain ⟨bad,rfl⟩ := decodeLine_error_iff.mp decoded
      simp [bind,Except.bind,bad,eq_comm]
    | ok text =>
      have good : String.fromUTF8? line.toByteArray ≠ none := fun bad => by
        simp [decodeLine,bad] at decoded
      cases found : phraseOf? text <;> simp [bind,Except.bind,found,ih,good]

-- What a text says: its lines that are not blank, without the blanks around them.
def textPhrases (text : String) : List String :=
  (((text.toList.splitOn '\n').map trim).filter (fun line => !line.isEmpty)).map String.ofList

theorem readPhrases_text (text : String) : readPhrases [] (inputLines text.toUTF8) = .ok (textPhrases text) := by
  have bytes : text.toUTF8 = (encoded text.toList).toByteArray := String.utf8Encode_toList.symm
  have kept (lines : List (List Char)) : lines.filterMap (fun line => phraseOf? (String.ofList line)) =
      ((lines.map trim).filter (fun line => !line.isEmpty)).map String.ofList := by
    induction lines with
    | nil => rfl
    | cons line rest ih =>
      rw [List.filterMap_cons,ih,phraseOf?,String.toList_ofList,List.map_cons,List.filter_cons]
      cases trim line <;> rfl
  rw [bytes,inputLines_encoded,readPhrases_encoded,kept]
  rfl

end Recurrence.CommandLine
