import Recurrence.Proofs.ClockWords
import Recurrence.Proofs.OffsetText

namespace Recurrence.ClockText
open Text

-- A colon and two digits, or nothing.
inductive Pair : Option Nat → List Char → Prop where
  | absent : Pair none []
  | present (first : a.isDigit = true) (second : b.isDigit = true) : Pair (some (number [a,b])) [':',a,b]

-- The figures of a clock: one or two digits, and seconds only behind minutes.
inductive Face : Nat → Option Nat → Option Nat → List Char → Prop where
  | figures (some_digit : digits ≠ []) (short : digits.length ≤ 2) (all : ∀ c ∈ digits, c.isDigit = true)
      (minutes : Pair m minuteText) (seconds : Pair s secondText) (ordered : m = none → s = none) :
      Face (number digits) m s (digits ++ (minuteText ++ secondText))

def halfText : Option Half → List Char
  | none => []
  | some .am => ['a','m']
  | some .pm => ['p','m']

inductive Ending : Option Offset → List Char → Prop where
  | absent : Ending none []
  | present (read : Offset.read? text = some zone) : Ending (some zone) text

-- A clock time as it is written: figures, half of the day and offset, with blanks before and behind each.
inductive Written : ClockText → List Char → Prop where
  | parts (face : Face h m s figures) (ending : Ending zone last)
      (before : Blanks b₁) (gap : Blanks b₂) (space : Blanks b₃) (behind : Blanks b₄) :
      Written ⟨h,m,s,daytime,zone⟩ (b₁ ++ (figures ++ (b₂ ++ (halfText daytime ++ (b₃ ++ (last ++ b₄))))))

-- Everything but the blanks is written with clock characters.
def OnFace (text : List Char) : Prop := ∀ c ∈ text, isClockChar c = true

theorem OnFace.solid (onFace : OnFace text) : Solid text := fun c inside => clockChar_solid (onFace c inside)

theorem Pair.figures (pair : Pair n text) : ∀ c ∈ text, c.isDigit = true ∨ c = ':' := by
  cases pair with
  | absent => simp
  | present first second => simp [first,second]

theorem Face.figures_only (face : Face h m s text) : ∀ c ∈ text, c.isDigit = true ∨ c = ':' := by
  cases face with
  | figures some_digit short all minutes seconds ordered =>
    intro c inside
    rcases List.mem_append.mp inside with inside | inside
    · exact .inl (all c inside)
    · rcases List.mem_append.mp inside with inside | inside
      · exact minutes.figures c inside
      · exact seconds.figures c inside

theorem Face.onFace (face : Face h m s text) : OnFace text := by
  intro c inside
  rcases face.figures_only c inside with digit | rfl
  · simp [isClockChar,digit]
  · decide

theorem Face.some_figure (face : Face h m s text) : text ≠ [] := by
  cases face with
  | figures some_digit short all minutes seconds ordered => simp [some_digit]

theorem halfText_onFace (half : Option Half) : OnFace (halfText half) := by
  match half with
  | none => simp [halfText,OnFace]
  | some .am => exact List.all_eq_true.mp (by decide)
  | some .pm => exact List.all_eq_true.mp (by decide)

theorem Ending.onFace (ending : Ending zone text) : OnFace text := by
  cases ending with
  | absent => simp [OnFace]
  | present read =>
    obtain ⟨sign,a,b,c,d,rfl,⟨a_digit,b_digit⟩,⟨c_digit,d_digit⟩,_,signed⟩ := Offset.read_iff.mp read
    rcases signed with ⟨rfl,_⟩ | ⟨rfl,_⟩ <;> simp [OnFace,isClockChar,a_digit,b_digit,c_digit,d_digit]

theorem Written.respaced {clock : ClockText} (written : Written clock text) (same : words other = words text) :
    Written clock other := by
  cases written with
  | @parts h m s figures zone last b₁ b₂ b₃ b₄ daytime face ending before gap space behind =>
    obtain ⟨c₁,other,rfl,before',same⟩ := words_part face.onFace.solid before same
    obtain ⟨c₂,other,rfl,gap',same⟩ := words_part (halfText_onFace daytime).solid gap same
    obtain ⟨c₃,other,rfl,space',same⟩ := words_part ending.onFace.solid space same
    rw [words_blank behind] at same
    exact .parts face ending before' gap' space' (blanks_of_words same)

theorem Written.spaced {clock : ClockText} (written : Written clock text) : Written clock (spaced text) :=
  written.respaced (words_spaced text)

theorem colonPair_parts (text : List Char) :
    ∃ front, text = front ++ (colonPair text).2 ∧ Pair (colonPair text).1 front := by
  unfold colonPair
  split
  · split
    · rename_i rest n tail read
      obtain ⟨a,b,rfl,first,second,rfl⟩ := twoDigits_eq_some_iff.mp read
      exact ⟨[':',a,b],rfl,.present first second⟩
    · exact ⟨[],rfl,.absent⟩
  · exact ⟨[],rfl,.absent⟩

theorem seconds_parts (m : Option Nat) (text : List Char) :
    ∃ front, text = front ++ (seconds m text).2 ∧ Pair (seconds m text).1 front ∧ (m = none → (seconds m text).1 = none) := by
  unfold seconds
  cases m with
  | none => exact ⟨[],rfl,.absent,fun _ => rfl⟩
  | some n =>
    obtain ⟨front,split,pair⟩ := colonPair_parts text
    exact ⟨front,split,pair,fun missing => by cases missing⟩

theorem halfOfDay_parts (text : List Char) : text = halfText (halfOfDay text).1 ++ (halfOfDay text).2 := by
  unfold halfOfDay
  split <;> rfl

theorem closing_iff {zone : Option Offset} : closing text = some zone ↔ Ending zone text := by
  constructor
  · intro read
    unfold closing at read
    split at read
    · cases read
      exact .absent
    · obtain ⟨offset,found,rfl⟩ := Option.map_eq_some_iff.mp read
      exact .present found
  · intro ending
    cases ending with
    | absent => rfl
    | present read =>
      have some_sign : text ≠ [] := by
        rintro rfl
        cases read
      obtain ⟨c,rest,rfl⟩ := List.exists_cons_of_ne_nil some_sign
      rw [closing,read]
      · rfl
      · exact List.cons_ne_nil c rest

theorem written_of_read {clock : ClockText} (read : read? text = some clock) : Written clock text := by
  obtain ⟨afterHour,readHour,minute,afterSecond,readSecond,half,closed⟩ := read_parts read
  obtain ⟨digits,hourSplit,some_digit,short,all,hour⟩ := oneOrTwoDigits_parts readHour
  obtain ⟨minuteText,minuteSplit,minutePair⟩ := colonPair_parts afterHour
  obtain ⟨secondText,secondSplit,secondPair,ordered⟩ := seconds_parts clock.minute (colonPair afterHour).2
  rw [readSecond] at secondSplit secondPair ordered
  rw [← minute] at minutePair
  obtain ⟨b₁,b₄,trimmed,before,behind⟩ := trim_parts text
  obtain ⟨b₂,gapSplit,gap⟩ := trimStart_parts afterSecond
  obtain ⟨b₃,spaceSplit,space⟩ := trimStart_parts (halfOfDay (trimStart afterSecond)).2
  have halfSplit := halfOfDay_parts (trimStart afterSecond)
  rw [← half] at halfSplit
  have face : Face clock.hour clock.minute clock.second (digits ++ (minuteText ++ secondText)) := by
    rw [hour]
    exact .figures some_digit short all minutePair secondPair ordered
  have spelled : text = b₁ ++ ((digits ++ (minuteText ++ secondText)) ++ (b₂ ++ (halfText clock.half ++ (b₃ ++
      (trimStart (halfOfDay (trimStart afterSecond)).2 ++ b₄))))) := by
    calc text = b₁ ++ (trim text ++ b₄) := trimmed
      _ = b₁ ++ ((digits ++ (minuteText ++ (secondText ++ afterSecond))) ++ b₄) := by
        rw [← secondSplit,← minuteSplit,hourSplit]
      _ = b₁ ++ ((digits ++ (minuteText ++ (secondText ++ (b₂ ++ (halfText clock.half ++ (b₃ ++
          trimStart (halfOfDay (trimStart afterSecond)).2)))))) ++ b₄) := by
        rw [← spaceSplit,← halfSplit,← gapSplit]
      _ = _ := by simp only [List.append_assoc]
  rw [spelled]
  exact .parts face (closing_iff.mp closed) before gap space behind

-- A text that goes on with no figure.
def Stops (text : List Char) : Prop := ∀ c, text.head? = some c → c.isDigit = false ∧ c ≠ ':'

theorem Stops.behind_blanks (blank : Blanks blanks) (stops : Stops rest) : Stops (blanks ++ rest) := by
  cases blanks with
  | nil => exact stops
  | cons c others =>
    intro d first
    have here : isBlank d = true := by
      rw [← Option.some.inj first]
      exact blank c List.mem_cons_self
    constructor
    · apply Bool.eq_false_iff.mpr
      intro digit
      rw [digit_solid digit] at here
      cases here
    · rintro rfl
      exact absurd here (by decide)

theorem Stops.behind_half (half : Option Half) (stops : Stops rest) : Stops (halfText half ++ rest) := by
  match half with
  | none => exact stops
  | some .am => intro c first; cases first; decide
  | some .pm => intro c first; cases first; decide

theorem oneOrTwoDigits_append (some_digit : digits ≠ []) (short : digits.length ≤ 2)
    (all : ∀ c ∈ digits, c.isDigit = true) (stops : ∀ c, rest.head? = some c → c.isDigit = false) :
    oneOrTwoDigits (digits ++ rest) = some (number digits,rest) := by
  match digits with
  | [a] =>
    have digit := all a List.mem_cons_self
    have single : twoDigits (a :: rest) = none := by
      cases rest with
      | nil => rfl
      | cons c others => simp [twoDigits,stops c rfl]
    simp [oneOrTwoDigits,single,digit]
  | [a,b] =>
    have first := all a (by simp)
    have second := all b (by simp)
    simp [oneOrTwoDigits,twoDigits,first,second]
  | a :: b :: c :: others => simp at short

theorem colonPair_append (pair : Pair n text) (stops : n = none → ∀ c, rest.head? = some c → c ≠ ':') :
    colonPair (text ++ rest) = (n,rest) := by
  cases pair with
  | absent =>
    cases rest with
    | nil => rfl
    | cons c others =>
      have solid := stops rfl c rfl
      rw [List.nil_append]
      unfold colonPair
      split
      · rename_i same
        cases same
        exact absurd rfl solid
      · rfl
  | present first second => simp [colonPair,twoDigits,first,second]

theorem Pair.stops (pair : Pair n text) (stops : ∀ c, rest.head? = some c → c.isDigit = false) :
    ∀ c, (text ++ rest).head? = some c → c.isDigit = false := by
  cases pair with
  | absent => exact stops
  | present first second => intro c colon; cases colon; decide

theorem Pair.absent_text (pair : Pair none text) : text = [] := by
  cases pair
  rfl

theorem seconds_append (pair : Pair s text) (ordered : m = none → s = none) (stops : Stops rest) :
    seconds m (text ++ rest) = (s,rest) := by
  unfold seconds
  cases m with
  | none =>
    have missing := ordered rfl
    subst missing
    rw [pair.absent_text]
    rfl
  | some n => exact colonPair_append pair fun _ c first => (stops c first).2

theorem read_behind (face : Face h m s figures) (stops : Stops rest) (trimmed : trim text = figures ++ rest) :
    read? text = (closing (trimStart (halfOfDay (trimStart rest)).2)).map fun offset =>
      ⟨h,m,s,(halfOfDay (trimStart rest)).1,offset⟩ := by
  cases face with
  | @figures digits m minuteText s secondText some_digit short all minutes seconds ordered =>
    have ends : ∀ c, rest.head? = some c → c.isDigit = false := fun c first => (stops c first).1
    have hour := oneOrTwoDigits_append some_digit short all (minutes.stops (seconds.stops ends))
    have minute : colonPair (minuteText ++ (secondText ++ rest)) = (m,secondText ++ rest) := by
      refine colonPair_append minutes fun missing => ?_
      have none_left := ordered missing
      subst none_left
      rw [seconds.absent_text]
      exact fun c first => (stops c first).2
    have second : (if m.isSome = true then colonPair (secondText ++ rest) else (none,secondText ++ rest)) = (s,rest) :=
      seconds_append seconds ordered stops
    have spelled : trim text = digits ++ (minuteText ++ (secondText ++ rest)) := by
      rw [trimmed,List.append_assoc,List.append_assoc]
    unfold read?
    rw [spelled,hour]
    simp only [Option.bind_eq_bind,Option.bind_some,minute,second]
    cases closing (trimStart (halfOfDay (trimStart rest)).2) <;> rfl

theorem trimStart_trimStart (text : List Char) : trimStart (trimStart text) = trimStart text := by
  cases found : trimStart text with
  | nil => rfl
  | cons c rest =>
    have visible := List.head?_dropWhile_not isBlank text
    unfold trimStart at found
    rw [found] at visible
    exact List.dropWhile_cons_of_neg (by simpa using visible)

theorem half_behind (half : Option Half) (gap : Blanks blanks)
    (other : ∀ c, (trimStart rest).head? = some c → c ≠ 'a' ∧ c ≠ 'p') :
    (halfOfDay (trimStart (blanks ++ (halfText half ++ rest)))).1 = half ∧
      trimStart (halfOfDay (trimStart (blanks ++ (halfText half ++ rest)))).2 = trimStart rest := by
  rw [trimStart_blanks gap]
  match half with
  | some .am =>
    rw [trimStart_solid (halfText_onFace _).solid (by simp [halfText])]
    exact ⟨rfl,rfl⟩
  | some .pm =>
    rw [trimStart_solid (halfText_onFace _).solid (by simp [halfText])]
    exact ⟨rfl,rfl⟩
  | none =>
    have unread : halfOfDay (trimStart rest) = (none,trimStart rest) := by
      unfold halfOfDay
      split
      · rename_i tail found
        rw [found] at other
        exact absurd rfl (other 'a' rfl).1
      · rename_i tail found
        rw [found] at other
        exact absurd rfl (other 'p' rfl).2
      · rfl
    show (halfOfDay (trimStart rest)).1 = none ∧ trimStart (halfOfDay (trimStart rest)).2 = trimStart rest
    rw [unread]
    exact ⟨rfl,trimStart_trimStart rest⟩

theorem read_ending {half : Option Half} (face : Face h m s figures) (gap : Blanks blanks)
    (stops : Stops rest) (other : ∀ c, (trimStart rest).head? = some c → c ≠ 'a' ∧ c ≠ 'p')
    (trimmed : trim text = figures ++ (blanks ++ (halfText half ++ rest))) :
    read? text = (closing (trimStart rest)).map fun offset => ⟨h,m,s,half,offset⟩ := by
  obtain ⟨known,left⟩ := half_behind half gap other
  rw [read_behind face ((stops.behind_half half).behind_blanks gap) trimmed,known,left]

theorem Ending.stops (ending : Ending zone text) : Stops text ∧ ∀ c, text.head? = some c → c ≠ 'a' ∧ c ≠ 'p' := by
  cases ending with
  | absent => simp [Stops]
  | present read =>
    obtain ⟨sign,a,b,c,d,rfl,_,_,_,⟨rfl,_⟩ | ⟨rfl,_⟩⟩ := Offset.read_iff.mp read <;> simp [Stops]

theorem Ending.trimStart (ending : Ending zone text) : trimStart text = text := by
  by_cases empty : text = []
  · rw [empty]
    rfl
  · have solid := trimStart_solid ending.onFace.solid empty []
    rwa [List.append_nil] at solid

theorem trimEnd_parts_behind (daytime : Option Half) (ending : Ending zone last) (gap : Blanks b₂) (space : Blanks b₃)
    (behind : Blanks b₄) : ∃ b₂' b₃', Blanks b₂' ∧ Blanks b₃' ∧
      trimEnd (b₂ ++ (halfText daytime ++ (b₃ ++ (last ++ b₄)))) = b₂' ++ (halfText daytime ++ (b₃' ++ last)) := by
  have none_blank : Blanks [] := by simp [Blanks]
  by_cases some_last : last = []
  · subst some_last
    have rest : Blanks (b₃ ++ ([] ++ b₄)) := space.append behind
    by_cases some_half : halfText daytime = []
    · rw [some_half]
      refine ⟨[],[],none_blank,none_blank,trimEnd_blanks ?_⟩
      exact gap.append rest
    · refine ⟨b₂,[],gap,none_blank,?_⟩
      rw [trimEnd_word (halfText_onFace daytime).solid some_half rest]
      simp
  · refine ⟨b₂,b₃,gap,space,?_⟩
    have cut := trimEnd_word ending.onFace.solid some_last behind (b₂ ++ (halfText daytime ++ b₃))
    simpa using cut

theorem trim_figures (face : Face h m s figures) (before : Blanks blanks) (rest : List Char) :
    trim (blanks ++ (figures ++ rest)) = figures ++ trimEnd rest := by
  have cut := trim_around face.some_figure face.onFace.solid blanks rest
  have front := trimStart_blanks before []
  rw [List.append_nil] at front
  rw [front,List.append_assoc] at cut
  exact cut

theorem read_of_written {clock : ClockText} (written : Written clock text) : read? text = some clock := by
  cases written with
  | @parts h m s figures zone last b₁ b₂ b₃ b₄ daytime face ending before gap space behind =>
    obtain ⟨b₂',b₃',gap',space',trimmed⟩ := trimEnd_parts_behind daytime ending gap space behind
    have front := trim_figures face before (b₂ ++ (halfText daytime ++ (b₃ ++ (last ++ b₄))))
    rw [trimmed] at front
    have closes : trimStart (b₃' ++ last) = last := by rw [trimStart_blanks space',ending.trimStart]
    rw [read_ending face gap' (ending.stops.1.behind_blanks space') (by rw [closes]; exact ending.stops.2) front,closes,
      closing_iff.mpr ending]
    rfl

theorem read_iff {clock : ClockText} : read? text = some clock ↔ Written clock text :=
  ⟨written_of_read,read_of_written⟩

-- No word of the text begins with a figure.
def Unnumbered (text : List Char) : Prop := ∀ word ∈ words text, ∀ c, word.head? = some c → c.isDigit = false

theorem Unnumbered.behind_blanks (blank : Blanks blanks) (unnumbered : Unnumbered text) : Unnumbered (blanks ++ text) := by
  unfold Unnumbered
  rwa [words_blanks blank]

theorem Unnumbered.behind_solid (solid : Solid word) (begins : ∀ c, word.head? = some c → c.isDigit = false)
    (unnumbered : Unnumbered text) : Unnumbered (word ++ text) := by
  cases word with
  | nil => exact unnumbered
  | cons d others =>
    obtain ⟨front,rest,split,_⟩ := words_solid solid (List.cons_ne_nil d others) text
    have later := words_later solid (List.cons_ne_nil d others) text
    unfold Unnumbered
    rw [split] at later ⊢
    intro word member
    rcases List.mem_cons.mp member with rfl | member
    · exact begins
    · exact unnumbered word (later word member)

theorem Written.later_words {clock : ClockText} (written : Written clock text) :
    ∀ word ∈ (words text).tail, ∀ c, word.head? = some c → c.isDigit = false := by
  cases written with
  | @parts h m s figures zone last b₁ b₂ b₃ b₄ daytime face ending before gap space behind =>
    have halves : ∀ c, (halfText daytime).head? = some c → c.isDigit = false := by
      match daytime with
      | none => simp [halfText]
      | some .am => simp [halfText]
      | some .pm => simp [halfText]
    have none_left : Unnumbered b₄ := by
      unfold Unnumbered
      rw [words_blank behind]
      simp
    have ends := none_left.behind_solid ending.onFace.solid fun c first => (ending.stops.1 c first).1
    have unnumbered := ((ends.behind_blanks space).behind_solid (halfText_onFace daytime).solid halves).behind_blanks gap
    rw [words_blanks before]
    exact fun word member => unnumbered word (words_later face.onFace.solid face.some_figure _ word member)

theorem unsigned_word (hours : a.isDigit = true ∧ b.isDigit = true) (minutes : c.isDigit = true ∧ d.isDigit = true)
    (blank : Blanks behind) : words ([a,b,':',c,d] ++ behind) = [[a,b,':',c,d]] ∧ '-' ∉ [a,b,':',c,d] ++ behind := by
  have solid : Solid [a,b,':',c,d] := by
    simpa [Solid] using ⟨digit_solid hours.1,digit_solid hours.2,by decide,digit_solid minutes.1,digit_solid minutes.2⟩
  have apart {e : Char} (digit : e.isDigit = true) : '-' ≠ e := by rintro rfl; exact absurd digit (by decide)
  have visible : '-' ∉ behind := fun inside => absurd (blank _ inside) (by decide)
  constructor
  · rw [words_first solid (List.cons_ne_nil _ _) fun c first => blank c (List.mem_of_head? first),words_blank blank]
  · simp [apart hours.1,apart hours.2,apart minutes.1,apart minutes.2,visible]

theorem Written.hyphen {clock : ClockText} (written : Written clock text) (hyphen : '-' ∈ text) :
    ∃ front back last, text = front ++ '-' :: back ∧ '-' ∉ front ∧ '-' ∉ back ∧ words front ≠ [] ∧ words back = [last] ∧
      (∃ c, last.head? = some c ∧ c.isDigit = true) ∧ ':' ∈ last := by
  cases written with
  | @parts h m s figures zone last b₁ b₂ b₃ b₄ daytime face ending before gap space behind =>
    have no_blank {blanks : List Char} (blank : Blanks blanks) : '-' ∉ blanks :=
      fun inside => absurd (blank _ inside) (by decide)
    have no_figure : '-' ∉ figures := fun inside => absurd (face.figures_only _ inside) (by decide)
    have no_half : '-' ∉ halfText daytime := by
      match daytime with
      | none => decide
      | some .am => decide
      | some .pm => decide
    have signed : '-' ∈ last := by
      simpa [no_blank before,no_blank gap,no_blank space,no_blank behind,no_figure,no_half] using hyphen
    cases ending with
    | absent => cases signed
    | present read =>
      obtain ⟨sign,a,b,c,d,rfl,hours,minutes,_,sign_known⟩ := Offset.read_iff.mp read
      obtain ⟨single,unbroken⟩ := unsigned_word hours minutes behind
      have minus : sign = '-' := by
        rcases List.mem_cons.mp signed with same | inside
        · exact same.symm
        · exact absurd (List.mem_append_left b₄ inside) unbroken
      subst minus
      refine ⟨b₁ ++ (figures ++ (b₂ ++ (halfText daytime ++ b₃))),[a,b,':',c,d] ++ b₄,[a,b,':',c,d],by simp,?_,unbroken,
        ?_,single,⟨a,rfl,hours.1⟩,by simp⟩
      · simp [no_blank before,no_blank gap,no_blank space,no_figure,no_half]
      · obtain ⟨first,rest,split,_⟩ := words_solid face.onFace.solid face.some_figure (b₂ ++ (halfText daytime ++ b₃))
        rw [words_blanks before,split]
        exact List.cons_ne_nil _ _

end Recurrence.ClockText
