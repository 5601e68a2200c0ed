import Recurrence.Proofs.LineText
import Recurrence.Render.Json

namespace Recurrence.Render.Json
open Text

variable {text rest spelled : List Char} {record : Record} {entry : String × Scalar} {value : Scalar}

-- What a letter behind a backslash stands for.
def unescaped : Char → Option Char
  | '\x22' => some '\x22'
  | '\\' => some '\\'
  | '/' => some '/'
  | 'b' => some '\x08'
  | 't' => some '\t'
  | 'n' => some '\n'
  | 'f' => some '\x0C'
  | 'r' => some '\r'
  | _ => none

def follow (c : Char) (read : List Char × List Char) : List Char × List Char := (c :: read.1,read.2)

-- The text up to its closing quotation mark, and what comes behind it. Control characters stand in no text.
def readText : List Char → Option (List Char × List Char)
  | [] => none
  | '\x22' :: rest => some ([],rest)
  | '\\' :: 'u' :: a :: b :: c :: d :: rest =>
    if [a,b,c,d].all (isDigitIn 16) then (readText rest).map (follow (Char.ofNat (numberIn 16 [a,b,c,d]))) else none
  | '\\' :: letter :: rest => (unescaped letter).bind fun c => (readText rest).map (follow c)
  | ['\\'] => none
  | c :: rest => if c.toNat < 32 then none else (readText rest).map (follow c)

def readScalar : List Char → Option (Scalar × List Char)
  | '\x22' :: rest => (readText rest).map fun read => (.text (String.ofList read.1),read.2)
  | 't' :: 'r' :: 'u' :: 'e' :: rest => some (.flag true,rest)
  | 'f' :: 'a' :: 'l' :: 's' :: 'e' :: rest => some (.flag false,rest)
  | _ => none

-- A name in quotation marks, a colon and a value.
def readMember : List Char → Option ((String × Scalar) × List Char)
  | '\x22' :: rest =>
    match readText rest with
    | some (name,':' :: rest) => (readScalar rest).map fun read => ((String.ofList name,read.1),read.2)
    | _ => none
  | _ => none

theorem followed (read : (readText text).map (follow c) = some (spelled,rest)) : ∃ later, readText text = some (later,rest) := by
  obtain ⟨inner,known,same⟩ := Option.map_eq_some_iff.mp read
  cases same
  exact ⟨inner.1,known⟩

theorem readText_shorter (read : readText text = some (spelled,rest)) : rest.length < text.length := by
  fun_induction readText text generalizing spelled rest with
  | case1 => cases read
  | case2 => cases read; simp
  | case3 a b c d behind hex ih =>
    obtain ⟨later,known⟩ := followed read
    have shorter := ih known
    simp only [List.length_cons]
    omega
  | case4 => cases read
  | case5 letter behind no_code ih =>
    obtain ⟨c,_,read⟩ := Option.bind_eq_some_iff.mp read
    obtain ⟨later,known⟩ := followed read
    have shorter := ih known
    simp only [List.length_cons]
    omega
  | case6 => cases read
  | case7 => cases read
  | case8 c behind mark hex escape alone shown ih =>
    obtain ⟨later,known⟩ := followed read
    have shorter := ih known
    simp only [List.length_cons]
    omega

theorem readScalar_shorter (read : readScalar text = some (value,rest)) : rest.length < text.length := by
  unfold readScalar at read
  split at read
  · obtain ⟨inner,known,same⟩ := Option.map_eq_some_iff.mp read
    have shorter := readText_shorter known
    cases same
    simp only [List.length_cons]
    omega
  · cases read
    simp only [List.length_cons]
    omega
  · cases read
    simp only [List.length_cons]
    omega
  · cases read

theorem readMember_shorter (read : readMember text = some (entry,rest)) : rest.length < text.length := by
  unfold readMember at read
  split at read
  · split at read
    · rename_i named
      obtain ⟨inner,known,same⟩ := Option.map_eq_some_iff.mp read
      have name_shorter := readText_shorter named
      have value_shorter := readScalar_shorter known
      cases same
      simp only [List.length_cons] at name_shorter ⊢
      omega
    · cases read
  · cases read

-- Members with commas between them, up to the brace that closes the object and the text.
def readMembers (text : List Char) : Option Record :=
  match _read : readMember text with
  | some (entry,',' :: rest) => (readMembers rest).map (entry :: ·)
  | some (entry,['\x7d']) => some [entry]
  | _ => none
termination_by text.length
decreasing_by
  have shorter := readMember_shorter _read
  simp only [List.length_cons] at shorter
  omega

def read? (text : String) : Option Record :=
  match text.toList with
  | '\x7b' :: rest => readMembers rest
  | _ => none

theorem control_code : ∀ n < 32, ['0','0',hexDigit (n / 16),hexDigit (n % 16)].all (isDigitIn 16) = true ∧
    numberIn 16 ['0','0',hexDigit (n / 16),hexDigit (n % 16)] = n := by decide

theorem readText_escape (c : Char) (rest : List Char) : readText (escape c ++ rest) = (readText rest).map (follow c) := by
  unfold escape
  simp only [beq_iff_eq]
  split
  · rename_i mark
    rw [mark]
    rfl
  split
  · rename_i backslash
    rw [backslash]
    rfl
  split
  · rename_i backspace
    rw [backspace]
    rfl
  split
  · rename_i tab
    rw [tab]
    rfl
  split
  · rename_i line_feed
    rw [line_feed]
    rfl
  split
  · rename_i form_feed
    rw [form_feed]
    rfl
  split
  · rename_i carriage_return
    rw [carriage_return]
    rfl
  split
  · rename_i control
    obtain ⟨hex,code⟩ := control_code c.toNat control
    simp only [List.cons_append,List.nil_append,readText,hex,if_true,code]
    rw [Char.ofNat_toNat]
  · rename_i mark backslash _ _ _ _ _ shown
    rw [List.singleton_append,readText]
    · exact if_neg shown
    · exact mark
    · exact fun _ _ _ _ _ same _ => backslash same
    · exact fun _ _ same _ => backslash same
    · exact fun same _ => backslash same

theorem readText_escaped (text rest : List Char) : readText (text.flatMap escape ++ '\x22' :: rest) = some (text,rest) := by
  induction text with
  | nil => rfl
  | cons c text ih =>
    rw [List.flatMap_cons,List.append_assoc,readText_escape,ih]
    rfl

theorem quoted_toList (text : String) : (quoted text).toList = '\x22' :: (text.toList.flatMap escape ++ ['\x22']) := by
  simp [quoted]

theorem readScalar_scalar (value : Scalar) (rest : List Char) :
    readScalar ((scalar value).toList ++ rest) = some (value,rest) := by
  cases value with
  | text text =>
    simp only [scalar,quoted_toList,List.cons_append,List.append_assoc,List.nil_append,readScalar,readText_escaped,
      Option.map_some,String.ofList_toList]
  | flag flag => cases flag <;> rfl

def memberText (entry : String × Scalar) : List Char := (quoted entry.1).toList ++ ':' :: (scalar entry.2).toList

theorem escape_visible (visible : 32 ≤ c.toNat) :
    escape c = if c == '\x22' then ['\\','\x22'] else if c == '\\' then ['\\','\\'] else [c] := by
  have apart (d : Char) (control : d.toNat < 32) : (c == d) = false := by
    rw [beq_eq_false_iff_ne]
    intro same
    rw [same] at visible
    omega
  simp only [escape,apart '\x08' (by decide),apart '\t' (by decide),apart '\n' (by decide),apart '\x0C' (by decide),
    apart '\r' (by decide),Nat.not_lt.mpr visible,Bool.false_eq_true,if_false]

theorem escape_onLine (shown : isLineChar c = true) : ∀ d ∈ escape c, isLineChar d = true := by
  have visible := shown
  simp only [isLineChar,Bool.and_eq_true,decide_eq_true_eq] at visible
  rw [escape_visible visible.1]
  split
  · exact List.all_eq_true.mp (by decide)
  split
  · exact List.all_eq_true.mp (by decide)
  · intro d same
    rw [List.mem_singleton.mp same]
    exact shown

theorem quoted_onLine (single : OnLine name) : OnLine (quoted name) := by
  intro c inside
  simp only [quoted_toList,List.mem_cons,List.mem_append,List.mem_flatMap,List.not_mem_nil,or_false] at inside
  rcases inside with rfl | ⟨d,within,inside⟩ | rfl
  · decide
  · exact escape_onLine (single d within) c inside
  · decide

theorem scalar_onLine (single : value.OneLine) : OnLine (scalar value) := by
  cases value with
  | text text => exact quoted_onLine single
  | flag flag => cases flag <;> exact List.all_eq_true.mp (by decide)

theorem readMember_member (entry : String × Scalar) (rest : List Char) :
    readMember (memberText entry ++ rest) = some (entry,rest) := by
  simp only [memberText,quoted_toList,List.cons_append,List.append_assoc,List.nil_append,readMember,readText_escaped,
    readScalar_scalar,Option.map_some,String.ofList_toList]

theorem readMembers_joined (nonempty : record ≠ []) :
    readMembers ([','].intercalate (record.map memberText) ++ ['\x7d']) = some record := by
  induction record with
  | nil => exact absurd rfl nonempty
  | cons entry rest ih =>
    cases rest with
    | nil =>
      have member := readMember_member entry ['\x7d']
      rw [List.map_singleton,List.intercalate_singleton,readMembers]
      split <;> simp_all
    | cons next others =>
      have later := ih (List.cons_ne_nil next others)
      have member := readMember_member entry (',' :: ([','].intercalate ((next :: others).map memberText) ++ ['\x7d']))
      rw [List.map_cons,List.map_cons,List.intercalate_cons_cons,← List.map_cons,List.append_assoc,List.append_assoc,
        List.singleton_append,readMembers]
      split <;> simp_all

theorem object_toList (record : Record) :
    (object record).toList = '\x7b' :: ([','].intercalate (record.map memberText) ++ ['\x7d']) := by
  have members : (fun entry : String × Scalar => (quoted entry.1 ++ ":" ++ scalar entry.2).toList) = memberText := by
    funext entry
    simp [memberText,String.toList_append]
  unfold object
  rw [String.toList_append,String.toList_append,String.toList_intercalate,List.map_map]
  exact congrArg (fun texts => '\x7b' :: ([','].intercalate (record.map texts) ++ ['\x7d'])) members

theorem memberText_onLine (name : OnLine entry.1) (single : entry.2.OneLine) :
    ∀ c ∈ memberText entry, isLineChar c = true := by
  intro c inside
  rcases List.mem_append.mp inside with inside | inside
  · exact quoted_onLine name c inside
  · rcases List.mem_cons.mp inside with rfl | inside
    · decide
    · exact scalar_onLine single c inside

theorem object_onLine (single : OneLine record) : OnLine (object record) := by
  intro c inside
  rw [object_toList] at inside
  rcases List.mem_cons.mp inside with rfl | inside
  · decide
  rcases List.mem_append.mp inside with inside | inside
  · rcases mem_of_intercalate inside with rfl | ⟨text,listed,within⟩
    · decide
    · obtain ⟨entry,member,rfl⟩ := List.mem_map.mp listed
      exact memberText_onLine (single entry member).1 (single entry member).2 c within
  · rw [List.mem_singleton.mp inside]
    decide

theorem read_object (nonempty : record ≠ []) : read? (object record) = some record := by
  unfold read?
  rw [object_toList]
  exact readMembers_joined nonempty

end Recurrence.Render.Json
