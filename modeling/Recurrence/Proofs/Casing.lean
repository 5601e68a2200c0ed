import Recurrence.Proofs.Lexing

namespace Recurrence

namespace Phrase
open Text

theorem toLower_cases (c : Char) :
    (c.toNat < 65 ∨ 90 < c.toNat) ∧ c.toLower = c ∨
      65 ≤ c.toNat ∧ c.toNat ≤ 90 ∧ c.toLower.toNat = c.toNat + 32 := by
  unfold Char.toLower
  split
  · rename_i capital
    have low : 65 ≤ c.toNat := capital.1
    have high : c.toNat ≤ 90 := capital.2
    refine .inr ⟨low,high,?_⟩
    have distance : ('a'.val - 'A'.val).toNat = 32 := by decide
    have small : c.val.toNat ≤ 90 := high
    show (c.val + ('a'.val - 'A'.val)).toNat = c.val.toNat + 32
    rw [UInt32.toNat_add,distance]
    omega
  · rename_i other
    refine .inl ⟨?_,rfl⟩
    have outside : ¬ (65 ≤ c.toNat ∧ c.toNat ≤ 90) := other
    omega

theorem capital_lower {c : Char} (low : 65 ≤ c.toNat) (high : c.toNat ≤ 90) (small : c.toLower.toNat = c.toNat + 32) :
    lower c = c.toLower ∧ isWordChar c.toLower = true := by
  have kelvin : c ≠ '\u212A' := by rintro rfl; exact absurd high (by decide)
  have dotted : c ≠ '\u0130' := by rintro rfl; exact absurd high (by decide)
  have starts : 'a' ≤ c.toLower := by show 97 ≤ c.toLower.toNat; omega
  have ends : c.toLower ≤ 'z' := by show c.toLower.toNat ≤ 122; omega
  exact ⟨by simp [lower,kelvin,dotted],by simp [isWordChar,starts,ends]⟩

theorem cleanChar_toLower (c : Char) : cleanChar c.toLower = cleanChar c := by
  rcases toLower_cases c with ⟨_,same⟩ | ⟨low,high,small⟩
  · rw [same]
  · obtain ⟨lowers,isWord⟩ := capital_lower low high small
    have still : lower c.toLower = c.toLower := lower_wordChar isWord
    rw [cleanChar_word (by rwa [still]),still,cleanChar_word (by rwa [lowers]),lowers]

theorem isBlank_toLower (c : Char) : isBlank c.toLower = isBlank c := by
  rcases toLower_cases c with ⟨_,same⟩ | ⟨low,high,small⟩
  · rw [same]
  · obtain ⟨lowers,isWord⟩ := capital_lower low high small
    rw [isBlank_of_isWordChar isWord,isBlank_of_lower (by rwa [lowers])]

theorem clean_toLower (text : List Char) : clean (text.map Char.toLower) = clean text :=
  clean_map isBlank_toLower cleanChar_toLower text

end Phrase

-- Lower-casing a whole text can look at what stands around a character, and can write several
-- characters for one, as Unicode's full mapping does. This much is known of it: of ASCII it changes the
-- capitals only, two other characters have a lower case with ASCII in it, blanks have no case, and the
-- rest stays outside ASCII.
structure Casing where
  lower : (before : List Char) → Char → (after : List Char) → List Char
  ascii : ∀ before c after, c.toNat < 128 → lower before c after = [c.toLower]
  kelvin : ∀ before after, lower before '\u212A' after = ['k']
  dotted : ∀ before after, lower before '\u0130' after = ['i','\u0307']
  blank : ∀ before c after, Text.isBlank c = true → lower before c after = [c]
  other : ∀ before c after, 128 ≤ c.toNat → Text.isBlank c = false → c ≠ '\u212A' → c ≠ '\u0130' →
    lower before c after ≠ [] ∧ ∀ d ∈ lower before c after, 128 ≤ d.toNat ∧ Text.isBlank d = false

namespace Casing
open Phrase

def textFrom (casing : Casing) : List Char → List Char → List Char
  | _,[] => []
  | before,c :: after => casing.lower before c after ++ casing.textFrom (before ++ [c]) after

-- Clean-up in steps, each over the whole text: lower case, hyphens, blanks, and what is kept.
def finish (text : List Char) : List Char :=
  ((replaceAll ['-'] " to ".toList text).map fun c => if Text.isBlank c then ' ' else c).filter isKept

def clean (casing : Casing) (phrase : List Char) : List Char :=
  match casing.textFrom [] (Text.trim phrase) with
  | [] => "never".toList
  | text => finish text

def compile (casing : Casing) (zone : Offset) (phrase : String) : Schedule :=
  compileTokens zone (tokenize (String.ofList (expand (casing.clean phrase.toList))))

theorem replaceAll_single (c : Char) (replacement text : List Char) :
    replaceAll [c] replacement text = text.flatMap fun d => if d = c then replacement else [d] := by
  unfold replaceAll
  induction text with
  | nil => rfl
  | cons d rest ih =>
    rw [List.flatMap_cons,← ih]
    by_cases same : d = c
    · subst same
      simp [replaceFrom]
    · have other : ¬ c = d := fun equal => same equal.symm
      simp [replaceFrom,same,other]

theorem finish_append (left right : List Char) : finish (left ++ right) = finish left ++ finish right := by
  unfold finish
  rw [replaceAll_single,replaceAll_single,replaceAll_single,List.flatMap_append,List.map_append,List.filter_append]

theorem finish_single {c : Char} (same : Phrase.lower c = c) : finish [c] = cleanChar c := by
  unfold finish cleanChar
  rw [replaceAll_single,List.flatMap_singleton,same]
  by_cases hyphen : c = '-'
  · subst hyphen
    decide
  · by_cases blank : Text.isBlank c = true
    · simp [hyphen,blank]
      decide
    · by_cases kept : isKept c = true
      · simp [hyphen,blank,kept]
      · simp [hyphen,blank,kept]

theorem kept_ascii (kept : isKept c = true) : c.toNat < 128 := by
  by_cases space : c = ' '
  · subst space
    decide
  · have isWord : isWordChar c = true := by
      simp only [isKept,Bool.or_eq_true] at kept
      simp only [isWordChar,Bool.or_eq_true]
      simpa [space] using kept
    have := wordChar_toNat isWord
    omega

theorem finish_foreign {text : List Char} (foreign : ∀ d ∈ text, 128 ≤ d.toNat ∧ Text.isBlank d = false) :
    finish text = [] := by
  induction text with
  | nil => rfl
  | cons d rest ih =>
    obtain ⟨outside,solid⟩ := foreign d List.mem_cons_self
    have hyphen : d ≠ '-' := by rintro rfl; exact absurd outside (by decide)
    have dropped : isKept d = false := by
      cases kept : isKept d with
      | false => rfl
      | true => exact absurd (kept_ascii kept) (by omega)
    have none_left : finish [d] = [] := by
      unfold finish
      rw [replaceAll_single]
      simp [hyphen,solid,dropped]
    have split : d :: rest = [d] ++ rest := rfl
    rw [split,finish_append,none_left,ih fun e inside => foreign e (List.mem_cons_of_mem _ inside)]
    rfl

theorem finish_lower (casing : Casing) (before : List Char) (c : Char) (after : List Char) :
    finish (casing.lower before c after) = cleanChar c := by
  by_cases ascii : c.toNat < 128
  · rw [casing.ascii before c after ascii,← cleanChar_toLower]
    apply finish_single
    have small : c.toLower.toNat < 128 ∧ (c.toLower.toNat < 65 ∨ 90 < c.toLower.toNat) := by
      rcases toLower_cases c with ⟨outside,same⟩ | ⟨low,high,small⟩
      · rw [same]
        exact ⟨ascii,outside⟩
      · omega
    have kelvin : c.toLower ≠ '\u212A' := by intro equal; rw [equal] at small; exact absurd small.1 (by decide)
    have dotted : c.toLower ≠ '\u0130' := by intro equal; rw [equal] at small; exact absurd small.1 (by decide)
    exact lower_eq_self kelvin dotted small.2
  · by_cases kelvin : c = '\u212A'
    · rw [kelvin,casing.kelvin]
      decide
    · by_cases dotted : c = '\u0130'
      · rw [dotted,casing.dotted]
        decide
      · have same : Phrase.lower c = c := lower_eq_self kelvin dotted (by omega)
        cases blank : Text.isBlank c with
        | true =>
          rw [casing.blank before c after blank]
          exact finish_single same
        | false =>
          obtain ⟨_,foreign⟩ := casing.other before c after (by omega) blank kelvin dotted
          have alone : finish [c] = [] := finish_foreign (by simpa [blank] using Nat.le_of_not_lt ascii)
          rw [finish_foreign foreign,← finish_single same,alone]

theorem finish_textFrom (casing : Casing) (before text : List Char) :
    finish (casing.textFrom before text) = text.flatMap cleanChar := by
  induction text generalizing before with
  | nil => rfl
  | cons c after ih => rw [textFrom,finish_append,finish_lower,ih,List.flatMap_cons]

theorem lower_nonempty (casing : Casing) (before : List Char) (c : Char) (after : List Char) :
    casing.lower before c after ≠ [] := by
  by_cases ascii : c.toNat < 128
  · simp [casing.ascii before c after ascii]
  · by_cases kelvin : c = '\u212A'
    · simp [kelvin,casing.kelvin]
    · by_cases dotted : c = '\u0130'
      · simp [dotted,casing.dotted]
      · cases blank : Text.isBlank c with
        | true => simp [casing.blank before c after blank]
        | false => exact (casing.other before c after (by omega) blank kelvin dotted).1

theorem clean_eq (casing : Casing) (phrase : List Char) : casing.clean phrase = Phrase.clean phrase := by
  have finished := casing.finish_textFrom [] (Text.trim phrase)
  unfold clean Phrase.clean
  cases spoken : Text.trim phrase with
  | nil => rfl
  | cons c rest =>
    rw [spoken] at finished
    cases lowered : casing.textFrom [] (c :: rest) with
    | nil =>
      rw [textFrom] at lowered
      exact absurd (List.append_eq_nil_iff.mp lowered).1 (casing.lower_nonempty _ _ _)
    | cons d others =>
      rw [lowered] at finished
      exact finished

theorem compile_eq (casing : Casing) (zone : Offset) (phrase : String) :
    casing.compile zone phrase = Recurrence.compile zone phrase := by
  unfold compile
  rw [clean_eq]
  rfl

-- A lower case that depends on the place: a capital sigma behind a letter and not before one is a final sigma.
def lowerSigma (before : List Char) (c : Char) (after : List Char) : List Char :=
  if c = '\u03A3' then
    if before.getLast?.any Char.isAlpha && !after.head?.any Char.isAlpha then ['\u03C2'] else ['\u03C3']
  else if c = '\u0130' then ['i','\u0307']
  else [Phrase.lower c]

section
variable (before after : List Char) {c : Char}

theorem lowerSigma_single (final : c ≠ '\u03A3') (dotted : c ≠ '\u0130') :
    lowerSigma before c after = [Phrase.lower c] := by
  simp [lowerSigma,final,dotted]

theorem lowerSigma_ascii (ascii : c.toNat < 128) : lowerSigma before c after = [c.toLower] := by
  have final : c ≠ '\u03A3' := by rintro rfl; exact absurd ascii (by decide)
  have kelvin : c ≠ '\u212A' := by rintro rfl; exact absurd ascii (by decide)
  have dotted : c ≠ '\u0130' := by rintro rfl; exact absurd ascii (by decide)
  rw [lowerSigma_single before after final dotted]
  simp [Phrase.lower,kelvin,dotted]

theorem lowerSigma_blank (blank : Text.isBlank c = true) : lowerSigma before c after = [c] := by
  have final : c ≠ '\u03A3' := by rintro rfl; exact absurd blank (by decide)
  have kelvin : c ≠ '\u212A' := by rintro rfl; exact absurd blank (by decide)
  have dotted : c ≠ '\u0130' := by rintro rfl; exact absurd blank (by decide)
  have range := isBlank_toNat blank
  rw [lowerSigma_single before after final dotted,lower_eq_self kelvin dotted (by omega)]

theorem lowerSigma_other (outside : 128 ≤ c.toNat) (solid : Text.isBlank c = false) (kelvin : c ≠ '\u212A')
    (dotted : c ≠ '\u0130') :
    lowerSigma before c after ≠ [] ∧ ∀ d ∈ lowerSigma before c after, 128 ≤ d.toNat ∧ Text.isBlank d = false := by
  have foreign (d : Char) (outside : 128 ≤ d.toNat ∧ Text.isBlank d = false) :
      [d] ≠ [] ∧ ∀ e ∈ [d], 128 ≤ e.toNat ∧ Text.isBlank e = false := by simpa using outside
  by_cases final : c = '\u03A3'
  · unfold lowerSigma
    rw [if_pos final]
    split
    · exact foreign _ (by decide)
    · exact foreign _ (by decide)
  · rw [lowerSigma_single before after final dotted,lower_eq_self kelvin dotted (by omega)]
    exact foreign c ⟨outside,solid⟩

end

def sigma : Casing where
  lower := lowerSigma
  ascii before _ after := lowerSigma_ascii before after
  kelvin _ _ := rfl
  dotted _ _ := rfl
  blank before _ after := lowerSigma_blank before after
  other before _ after := lowerSigma_other before after

end Casing

-- Phrases that differ only in the case of ASCII letters mean the same, remainder included, whatever other
-- characters stand between the letters and however those are lower-cased.
theorem case_blind (casing : Casing) (zone : Offset) {phrase other : String}
    (same : phrase.toList.map Char.toLower = other.toList.map Char.toLower) :
    compile zone phrase = compile zone other ∧ casing.compile zone phrase = casing.compile zone other := by
  have cleaned : Phrase.clean phrase.toList = Phrase.clean other.toList := by
    rw [← Phrase.clean_toLower phrase.toList,same,Phrase.clean_toLower]
  have equal : compile zone phrase = compile zone other := by
    unfold compile Phrase.lex Phrase.normalize
    rw [cleaned]
  refine ⟨equal,?_⟩
  rw [casing.compile_eq,casing.compile_eq]
  exact equal

theorem case_blind_sigma :
    "EVERY Hour \u212A\u0130 oS\u03A3".toList.map Char.toLower = "every hOUR \u212A\u0130 Os\u03A3".toList.map Char.toLower ∧
    compile .utc "EVERY Hour \u212A\u0130 oS\u03A3" = compile .utc "every hOUR \u212A\u0130 Os\u03A3" ∧
    Casing.sigma.compile .utc "EVERY Hour \u212A\u0130 oS\u03A3" = Casing.sigma.compile .utc "every hOUR \u212A\u0130 Os\u03A3" := by
  have same : "EVERY Hour \u212A\u0130 oS\u03A3".toList.map Char.toLower =
      "every hOUR \u212A\u0130 Os\u03A3".toList.map Char.toLower := by decide
  exact ⟨same,case_blind .sigma .utc same⟩

end Recurrence
