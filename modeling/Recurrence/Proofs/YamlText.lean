import Recurrence.Proofs.LineText
import Recurrence.Render.Yaml

namespace Recurrence.Render.Yaml
open Text

variable {record : Record} {entry : String × Scalar} {value : Scalar}

-- The text behind an opening mark: the mark that closes it is the last sign, each other one is doubled.
def readSingle : List Char → Option (List Char)
  | [] => none
  | ['\x27'] => some []
  | '\x27' :: '\x27' :: rest => (readSingle rest).map ('\x27' :: ·)
  | '\x27' :: _ => none
  | c :: rest => (readSingle rest).map (c :: ·)

-- What a text without quotes stands for.
inductive Resolved where
  | null
  | truth (flag : Bool)
  | number
  | text
deriving DecidableEq, Repr

-- The words that stand for something else than themselves.
def constants : List (String × Resolved) := [
  ("",.null), ("~",.null), ("null",.null), ("Null",.null), ("NULL",.null),
  ("true",.truth true), ("True",.truth true), ("TRUE",.truth true),
  ("false",.truth false), ("False",.truth false), ("FALSE",.truth false),
  (".inf",.number), (".Inf",.number), (".INF",.number), ("+.inf",.number), ("+.Inf",.number), ("+.INF",.number),
  ("-.inf",.number), ("-.Inf",.number), ("-.INF",.number), (".nan",.number), (".NaN",.number), (".NAN",.number)]

-- Numbers are read up to the bounds of their types; what is larger is text, and so are digits behind a zero.
def resolve (text : String) : Resolved :=
  match constants.lookup text with
  | some known => known
  | none =>
    if !isPaddedNumeral text.toList && (isInteger text.toList || isFloat text.toList) then .number else .text

-- A text in which other layout begins is not read, and no record has a number, or nothing, for a value.
def readPlain (text : String) : Option Scalar :=
  if breaksLayout text.toList then none
  else match resolve text with
    | .truth flag => some (.flag flag)
    | .text => some (.text text)
    | .null => none
    | .number => none

def readScalar : List Char → Option Scalar
  | '\x27' :: rest => (readSingle rest).map fun text => .text (String.ofList text)
  | text => readPlain (String.ofList text)

-- The key ends at the first colon, and a space stands before the value.
def readEntry (line : List Char) : Option (String × Scalar) :=
  match line.dropWhile (· != ':') with
  | ':' :: ' ' :: rest => (readScalar rest).map fun value => (String.ofList (line.takeWhile (· != ':')),value)
  | _ => none

def read? (text : String) : Option Record := (text.toList.splitOn '\n').mapM readEntry

def doubled (c : Char) : List Char := if c == '\x27' then ['\x27','\x27'] else [c]

theorem readSingle_doubled (text : List Char) : readSingle (text.flatMap doubled ++ ['\x27']) = some text := by
  induction text with
  | nil => rfl
  | cons c text ih =>
    rw [List.flatMap_cons,List.append_assoc,doubled]
    split
    · rename_i mark
      rw [eq_of_beq mark]
      simp only [List.cons_append,List.nil_append,readSingle,ih,Option.map_some]
    · rename_i other
      have unquoted : c ≠ '\x27' := by simpa using other
      rw [List.singleton_append,readSingle]
      · rw [ih,Option.map_some]
      all_goals simp [unquoted]

theorem singleQuoted_toList (text : String) :
    (singleQuoted text).toList = '\x27' :: (text.toList.flatMap doubled ++ ['\x27']) := by
  unfold singleQuoted
  simp only [String.toList_append,String.toList_ofList]
  rfl

theorem quote_breaks (rest : List Char) : breaksLayout ('\x27' :: rest) = true := by
  have indicator : indicators.contains '\x27' = true := by decide
  simp only [breaksLayout,indicator,Bool.true_or]

theorem constants_reserved : ∀ entry ∈ constants, entry.1 ∈ reserved := by decide

theorem isPlain_iff : isPlain text = true ↔ text ∉ reserved ∧ isInteger text.toList = false ∧
    isPaddedNumeral text.toList = false ∧ isFloat text.toList = false ∧ breaksLayout text.toList = false := by
  simp only [isPlain,Bool.not_eq_true',Bool.or_eq_false_iff,List.contains_eq_mem,decide_eq_false_iff_not,and_assoc]

theorem plain_layout (plain : isPlain text = true) : breaksLayout text.toList = false :=
  (isPlain_iff.mp plain).2.2.2.2

theorem resolve_plain (plain : isPlain text = true) : resolve text = .text := by
  obtain ⟨unreserved,integer,_,float,_⟩ := isPlain_iff.mp plain
  have unknown : constants.lookup text = none := by
    rw [List.lookup_eq_none_iff]
    intro entry member
    rw [bne_iff_ne]
    exact fun same => unreserved (same ▸ constants_reserved entry member)
  simp only [resolve,unknown,integer,float,Bool.or_false,Bool.and_false,Bool.false_eq_true,if_false]

example : ["NULL","True","-0x1f","1e5","1e999","007"].map resolve =
    [.null,.truth true,.number,.number,.text,.text] := by decide +kernel

theorem plain_text (plain : isPlain text = true) : readScalar text.toList = some (.text text) := by
  have layout := plain_layout plain
  have open_mark : ∀ rest, text.toList ≠ '\x27' :: rest := by
    intro rest spelled
    rw [spelled,quote_breaks] at layout
    cases layout
  rw [readScalar]
  · simp only [String.ofList_toList,readPlain,layout,resolve_plain plain,Bool.false_eq_true,if_false]
  · exact open_mark

theorem readScalar_scalar (value : Scalar) : readScalar (scalar value).toList = some value := by
  cases value with
  | flag flag => cases flag <;> rfl
  | text text =>
    by_cases plain : isPlain text = true
    · simp only [scalar,plain,if_true]
      exact plain_text plain
    · simp only [scalar,plain,Bool.false_eq_true,if_false,singleQuoted_toList,readScalar,readSingle_doubled,
        Option.map_some,String.ofList_toList]

-- Quotation marks tell a text from the truth value or the number that it looks like.
example : [scalar (.text "1e5"),scalar (.text "true"),scalar (.flag true),scalar (.text "foo")] =
    ["\x271e5\x27","\x27true\x27","true","foo"] := by decide +kernel

def entryLine (entry : String × Scalar) : List Char := entry.1.toList ++ ':' :: ' ' :: (scalar entry.2).toList

theorem readEntry_line (key : ':' ∉ entry.1.toList) : readEntry (entryLine entry) = some entry := by
  have key_part : ∀ c ∈ entry.1.toList, (c != ':') = true := by
    intro c inside
    rw [bne_iff_ne]
    exact fun colon => key (colon ▸ inside)
  have behind : (entryLine entry).dropWhile (· != ':') = ':' :: ' ' :: (scalar entry.2).toList := by
    unfold entryLine
    rw [List.dropWhile_append_of_pos key_part,List.dropWhile_cons_of_neg (by decide)]
  have front : (entryLine entry).takeWhile (· != ':') = entry.1.toList := by
    unfold entryLine
    rw [List.takeWhile_append_of_pos key_part,List.takeWhile_cons_of_neg (by decide),List.append_nil]
  unfold readEntry
  simp only [behind,front,readScalar_scalar,Option.map_some,String.ofList_toList]

theorem doubled_onLine (shown : isLineChar c = true) : ∀ d ∈ doubled c, isLineChar d = true := by
  unfold doubled
  split
  · exact List.all_eq_true.mp (by decide)
  · intro d same
    rw [List.mem_singleton.mp same]
    exact shown

theorem scalar_onLine (single : value.OneLine) : OnLine (scalar value) := by
  cases value with
  | flag flag => cases flag <;> exact List.all_eq_true.mp (by decide)
  | text text =>
    by_cases plain : isPlain text = true
    · simp only [scalar,plain,if_true]
      exact single
    · intro c inside
      simp only [scalar,plain,Bool.false_eq_true,if_false,singleQuoted_toList,List.mem_cons,List.mem_append,
        List.mem_flatMap,List.not_mem_nil,or_false] at inside
      rcases inside with rfl | ⟨d,within,inside⟩ | rfl
      · decide
      · exact doubled_onLine (single d within) c inside
      · decide

-- Texts that a trim at their end leaves as they are.
def Closed (text : List Char) : Prop := ∃ front c, text = front ++ [c] ∧ isBlank c = false

theorem Closed.append (closed : Closed text) (left : List Char) : Closed (left ++ text) := by
  obtain ⟨front,c,rfl,solid⟩ := closed
  exact ⟨left ++ front,c,(List.append_assoc left front [c]).symm,solid⟩

theorem Closed.trimEnd_line (closed : Closed text) : trimEnd (text ++ ['\n']) = text := by
  obtain ⟨front,c,rfl,solid⟩ := closed
  rw [List.append_assoc,List.singleton_append,trimEnd_append solid]
  rfl

theorem layout_end (layout : breaksLayout text = false) : ∃ front c, text = front ++ [c] ∧ c ≠ ' ' := by
  cases text with
  | nil => cases layout
  | cons first rest =>
    simp only [breaksLayout,Bool.or_eq_false_iff] at layout
    have no_space := layout.1.1.1.2
    obtain ⟨front,c,split⟩ := (List.eq_nil_or_concat' (first :: rest)).resolve_left (List.cons_ne_nil first rest)
    rw [split,List.getLast?_concat] at no_space
    exact ⟨front,c,split,by simpa using no_space⟩

theorem scalar_closed (single : value.OneLine) : Closed (scalar value).toList := by
  cases value with
  | flag flag =>
    cases flag with
    | false => exact ⟨['f','a','l','s'],'e',rfl,by decide⟩
    | true => exact ⟨['t','r','u'],'e',rfl,by decide⟩
  | text text =>
    by_cases plain : isPlain text = true
    · obtain ⟨front,c,split,other⟩ := layout_end (plain_layout plain)
      have shown : isLineChar c = true := single c (by simp [split])
      simp only [scalar,plain,if_true]
      exact ⟨front,c,split,isLineChar_blank shown other⟩
    · simp only [scalar,plain,Bool.false_eq_true,if_false,singleQuoted_toList]
      exact Closed.append (Closed.append ⟨[],'\x27',rfl,by decide⟩ (text.toList.flatMap doubled)) ['\x27']

-- The records that can be written: keys without colons, and nothing that spans two lines.
structure Writable (record : Record) : Prop where
  nonempty : record ≠ []
  single : OneLine record
  keys : ∀ entry ∈ record, ':' ∉ entry.1.toList

theorem entryLine_onLine (name : OnLine entry.1) (single : entry.2.OneLine) : ∀ c ∈ entryLine entry, isLineChar c = true := by
  intro c inside
  simp only [entryLine,List.mem_append,List.mem_cons] at inside
  rcases inside with inside | rfl | rfl | inside
  · exact name c inside
  · decide
  · decide
  · exact scalar_onLine single c inside

theorem mapping_toList (record : Record) : (mapping record).toList = ['\n'].intercalate (record.map entryLine) := by
  have lines : (fun entry : String × Scalar => (entry.1 ++ ": " ++ scalar entry.2).toList) = entryLine := by
    funext entry
    simp [entryLine,String.toList_append]
  unfold mapping
  rw [String.toList_intercalate,List.map_map]
  exact congrArg (fun line => ['\n'].intercalate (record.map line)) lines

theorem mapping_lines (writable : Writable record) : (mapping record).toList.splitOn '\n' = record.map entryLine := by
  rw [mapping_toList]
  apply List.splitOn_intercalate
  · intro line member newline
    obtain ⟨entry,inside,rfl⟩ := List.mem_map.mp member
    obtain ⟨name,value⟩ := writable.single entry inside
    exact absurd (entryLine_onLine name value '\n' newline) (by decide)
  · exact fun none => writable.nonempty (List.map_eq_nil_iff.mp none)

-- A line break follows each line, the last one as well. Blanks at the end of the whole text are cut off again,
-- and nothing more goes with it.
def document (record : Record) : String := mapping record ++ "\n"

theorem mapping_closed (nonempty : record ≠ []) (single : OneLine record) : Closed (mapping record).toList := by
  rw [mapping_toList]
  induction record with
  | nil => exact absurd rfl nonempty
  | cons entry rest ih =>
    cases rest with
    | nil =>
      rw [List.map_singleton,List.intercalate_singleton]
      exact ((scalar_closed (single entry List.mem_cons_self).2).append [':',' ']).append entry.1.toList
    | cons next others =>
      have later := ih (List.cons_ne_nil next others) fun entry member => single entry (List.mem_cons_of_mem _ member)
      rw [List.map_cons,List.map_cons,List.intercalate_cons_cons]
      exact later.append _

theorem trimEnd_document (writable : Writable record) : trimEnd (document record).toList = (mapping record).toList := by
  rw [document,String.toList_append]
  exact (mapping_closed writable.nonempty writable.single).trimEnd_line

theorem read_mapping (writable : Writable record) : read? (mapping record) = some record := by
  unfold read?
  rw [mapping_lines writable]
  have keys := writable.keys
  clear writable
  induction record with
  | nil => rfl
  | cons entry rest ih =>
    rw [List.map_cons,List.mapM_cons,readEntry_line (keys entry (List.mem_cons_self ..)),
      ih fun other member => keys other (List.mem_cons_of_mem _ member)]
    rfl

end Recurrence.Render.Yaml
