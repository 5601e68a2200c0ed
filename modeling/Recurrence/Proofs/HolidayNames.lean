import Recurrence.Proofs.CleanText

namespace Recurrence

namespace Phrase

variable {text : List Char}

-- A name goes on in a longer one, which begins with it and a space.
def Continued (shorter longer : String) : Prop := shorter.toList ++ [' '] <+: longer.toList

instance (shorter longer : String) : Decidable (Continued shorter longer) := inferInstanceAs (Decidable (_ <+: _))

-- With the text behind it the name is the beginning of a longer one.
def Prolonged (name : String) (text : List Char) : Prop :=
  ∃ longer ∈ holidays, Continued name longer.1 ∧ longer.1.toList <+: name.toList ++ ' ' :: text

instance (name : String) (text : List Char) : Decidable (Prolonged name text) :=
  inferInstanceAs (Decidable (∃ longer ∈ holidays, _))

-- What holds of a holiday, whatever text stands behind it: words for frequencies are not found in its name nor
-- across the end of it, and its date, which is clean and begins with a digit, stays what it is.
structure Separate (name date : String) : Prop where
  unfrequent : ∀ entry ∈ frequencies, Shut entry.1.toList (name.toList ++ [' '])
  undigited : ∀ c ∈ name.toList, c.isDigit = false
  kept_name : ∀ c ∈ name.toList, isKept c = true
  final : ∀ entry ∈ holidays, Shut entry.1.toList (date.toList ++ [' '])
  expanded : expand date.toList = date.toList
  numeric : Numeric date.toList
  kept_date : ∀ c ∈ date.toList, isKept c = true
  visible : ∃ c ∈ date.toList, c ≠ ' '

theorem holidays_separate (listed : entry ∈ holidays) : Separate entry.1 entry.2 := by
  have table : ∀ entry ∈ holidays, (∀ other ∈ frequencies, Shut other.1.toList (entry.1.toList ++ [' '])) ∧
      (entry.1.toList.all fun c => !c.isDigit) = true ∧ entry.1.toList.all isKept = true ∧
      (∀ other ∈ holidays, Shut other.1.toList (entry.2.toList ++ [' '])) ∧ expand entry.2.toList = entry.2.toList ∧
      Numeric entry.2.toList ∧ entry.2.toList.all isKept = true ∧ entry.2.toList.any (· != ' ') = true := by decide +kernel
  obtain ⟨unfrequent,undigited,kept_name,final,expanded,numeric,kept_date,visible⟩ := table entry listed
  exact ⟨unfrequent,by simpa using undigited,List.all_eq_true.mp kept_name,final,expanded,numeric,
    List.all_eq_true.mp kept_date,by simpa using visible⟩

-- Of the names that are replaced before, only a longer one begins with a name and the space behind it. No name
-- begins with a longer one, or is found across its end.
theorem holidays_ordered : holidays.Pairwise fun earlier later =>
    Guarded earlier.1.toList (later.1.toList ++ [' ']) ∧
      ((∃ shorter ∈ holidays, Continued shorter.1 later.1) → Shut earlier.1.toList later.1.toList) := by decide +kernel

-- The days and months that names mean which go on in longer ones, and those of the longer ones.
def continuedDays : List String := ["1","14","24","25","31"]
def continuedMonths : List String := ["jan","feb","dec"]

-- What a longer name has behind the shorter one is one word, and both mean the same date or different days.
theorem longer_parts : ∀ shorter ∈ holidays, ∀ longer ∈ holidays, Continued shorter.1 longer.1 →
    let tail := longer.1.toList.drop (shorter.1.toList ++ [' ']).length
    (tail ≠ [] ∧ tail.all isWordChar = true ∧ ∀ entry ∈ holidays, Shut entry.1.toList tail) ∧
      ∃ day ∈ continuedDays, ∃ month ∈ continuedMonths, longer.2 = day ++ " " ++ month ∧
        ∃ other ∈ continuedDays, ∃ next ∈ continuedMonths, shorter.2 = other ++ " " ++ next ∧ (other = day → next = month) := by
  decide +kernel

theorem days_stand : ∀ day ∈ continuedDays, day.toList ≠ [] ∧ day.toList.all isWordChar = true ∧
    Lexicon.resolve day = .word day ∧ ∀ entry ∈ holidays, Shut entry.1.toList (day.toList ++ [' ']) := by decide +kernel

theorem months_stand : ∀ month ∈ continuedMonths, month.toList ≠ [] ∧ month.toList.all isWordChar = true ∧
    Lexicon.resolve month = .word month ∧ (month.toList.all fun c => !c.isDigit) = true ∧
      ∀ entry ∈ Lexicon.synonyms, entry.2 = .word month → month.toList <+: entry.1.toList := by decide +kernel

theorem expandBy_earlier (known : ∀ entry ∈ entries, entry ∈ holidays)
    (guarded : ∀ entry ∈ entries, Guarded entry.1.toList (name.toList ++ [' '])) (apart : ¬ Prolonged name text) :
    expandBy entries (name.toList ++ ' ' :: text) = name.toList ++ ' ' :: expandBy entries text := by
  induction entries generalizing text with
  | nil => rfl
  | cons entry others ih =>
    have listed := known entry List.mem_cons_self
    have step : replaceAll entry.1.toList entry.2.toList (name.toList ++ ' ' :: text) =
        name.toList ++ ' ' :: replaceAll entry.1.toList entry.2.toList text := by
      have closed : name.toList ++ [' '] <+: entry.1.toList → ¬ entry.1.toList <+: name.toList ++ [' '] ++ text :=
        fun continued starts => apart ⟨entry,listed,continued,by simpa using starts⟩
      have passed := (guarded entry List.mem_cons_self).passes entry.2.toList closed
      simpa using passed
    -- A date begins with a digit, so what is replaced behind the name does not prolong it.
    have still : ¬ Prolonged name (replaceAll entry.1.toList entry.2.toList text) := by
      rintro ⟨longer,member,⟨tail,split⟩,starts⟩
      refine apart ⟨longer,member,⟨tail,split⟩,?_⟩
      have undigited := (holidays_separate member).undigited
      rw [← split,List.append_assoc,List.prefix_append_right_inj,List.singleton_append,List.cons_prefix_cons] at starts ⊢
      obtain ⟨rest,rfl,_⟩ := replaceAll_front (holidays_separate listed).numeric
        (fun c inside => undigited c (by rw [← split]; exact List.mem_append_right _ inside)) starts.2
      exact ⟨rfl,List.prefix_append _ _⟩
    rw [expandBy_cons,step,ih (fun entry member => known entry (List.mem_cons_of_mem _ member))
      (fun entry member => guarded entry (List.mem_cons_of_mem _ member)) still]
    rfl

theorem names_listed (listed : entry ∈ holidays) : Name entry.1.toList := names_spaced entry (List.mem_append_right _ listed)

theorem expand_apart (listed : (name,date) ∈ holidays) (apart : ¬ Prolonged name (expandBy frequencies text)) :
    expand (name.toList ++ ' ' :: text) = date.toList ++ ' ' :: expand text := by
  obtain ⟨earlier,later,split⟩ := List.append_of_mem listed
  have ordered := holidays_ordered
  rw [split,List.pairwise_append] at ordered
  have before : ∀ entry ∈ earlier, entry ∈ holidays := fun entry member => by simp [split,member]
  have behind : ∀ entry ∈ later, entry ∈ holidays := fun entry member => by simp [split,member]
  have frequent := expandBy_space (holidays_separate listed).unfrequent text
  have gap (rest : List Char) : replaceAll name.toList date.toList (' ' :: rest) =
      ' ' :: replaceAll name.toList date.toList rest := replaceAll_spaces (names_listed listed) 1 rest
  have passed := expandBy_space fun entry member => (holidays_separate listed).final entry (behind entry member)
  rw [expand_eq_expandBy,expand_eq_expandBy,expandBy_append,expandBy_append,frequent,split,expandBy_append,
    expandBy_append,expandBy_cons,expandBy_cons,
    expandBy_earlier before (fun entry member => (ordered.2.2 entry member _ List.mem_cons_self).1) apart,
    replaceAll_found (names_listed listed).nonempty,gap,passed]

theorem tokenize_date (some_day : day ∈ continuedDays) (some_month : month ∈ continuedMonths) :
    tokenize (day ++ " " ++ month) = [.word day,.word month] := by
  obtain ⟨nonempty_day,solid_day,means_day,_⟩ := days_stand day some_day
  obtain ⟨nonempty_month,solid_month,means_month,_⟩ := months_stand month some_month
  have parts := tokenize_space day.toList month.toList
  rw [String.ofList_toList,String.ofList_toList,tokenize_word nonempty_day solid_day,means_day,
    tokenize_word nonempty_month solid_month,means_month] at parts
  have spelled : String.ofList (day.toList ++ ' ' :: month.toList) = day ++ " " ++ month := by
    rw [← String.toList_inj]
    simp
  rwa [spelled] at parts

theorem expand_longer (listed : (longer,date) ∈ holidays) (continued : ∃ shorter ∈ holidays, Continued shorter.1 longer)
    (text : List Char) : ∃ later front, (∀ entry ∈ later, entry ∈ holidays) ∧
      expandBy holidays (longer.toList ++ text) = expandBy later (date.toList ++ front) ∧
      expandBy later front = expandBy holidays text := by
  obtain ⟨earlier,later,split⟩ := List.append_of_mem listed
  have ordered := holidays_ordered
  rw [split,List.pairwise_append] at ordered
  have shut : ∀ entry ∈ earlier, Shut entry.1.toList longer.toList := fun entry member =>
    (ordered.2.2 entry member _ List.mem_cons_self).2 (split ▸ continued)
  refine ⟨later,replaceAll longer.toList date.toList (expandBy earlier text),fun entry member => by simp [split,member],?_,?_⟩
  · rw [split,expandBy_append,expandBy_cons,expandBy_passes shut,replaceAll_found (names_listed listed).nonempty]
  · rw [split,expandBy_append,expandBy_cons]

theorem month_front (stands : month ∈ continuedMonths) (known : ∀ entry ∈ entries, entry ∈ holidays)
    (spoken : tokenize (String.ofList (expandBy entries (month.toList ++ text))) = .word month :: tokens) :
    expandBy entries (month.toList ++ text) = month.toList ++ expandBy entries text := by
  obtain ⟨some_month,isWord,_,undigited,spelled⟩ := months_stand month stands
  have numeric : ∀ entry ∈ entries, Numeric entry.2.toList := fun entry member =>
    (holidays_separate (known entry member)).numeric
  obtain ⟨c,others,split⟩ := List.exists_cons_of_ne_nil some_month
  have first : isWordChar c = true := List.all_eq_true.mp isWord c (by simp [split])
  obtain ⟨d,rest,expanded,isWord⟩ := expandBy_head numeric first (others ++ text)
  rw [← List.cons_append,← split] at expanded
  obtain ⟨word,behind,cut,tokenized⟩ := tokenize_first isWord rest
  rw [expanded,tokenized] at spoken
  have meant := (List.cons.inj spoken).1
  have starts : month.toList <+: word := by
    rcases Lexicon.resolve_cases (String.ofList word) with same | listed
    · rw [same,Token.word.injEq] at meant
      rw [← meant,String.toList_ofList]
    · simpa using spelled _ listed meant
  have still : month.toList <+: expandBy entries (month.toList ++ text) := by
    rw [expanded,cut]
    exact starts.trans (List.prefix_append _ _)
  obtain ⟨front,same,kept⟩ := expandBy_front numeric (by simpa using undigited) still
  rw [kept,List.append_cancel_left same]

theorem expand_prolonged (listed : (name,date) ∈ holidays) (member : (longer,day ++ " " ++ month) ∈ holidays)
    (continued : name.toList ++ ' ' :: tail = longer.toList) (some_day : day ∈ continuedDays)
    (behind : expandBy frequencies text = tail ++ rest) : ∃ later front, (∀ entry ∈ later, entry ∈ holidays) ∧
      expand (name.toList ++ ' ' :: text) = day.toList ++ ' ' :: expandBy later (month.toList ++ front) ∧
      expandBy later front = expandBy holidays rest := by
  have frequent := expandBy_space (holidays_separate listed).unfrequent text
  obtain ⟨later,front,known,found,same⟩ :=
    expand_longer member ⟨_,listed,by rw [Continued,← continued]; simp⟩ rest
  refine ⟨later,front,known,?_,same⟩
  have spelled : name.toList ++ ' ' :: (tail ++ rest) = longer.toList ++ rest := by simp [← continued]
  have parted : (day ++ " " ++ month).toList ++ front = day.toList ++ ' ' :: (month.toList ++ front) := by simp
  rw [expand_eq_expandBy,expandBy_append,frequent,behind,spelled,found,parted,
    expandBy_space fun entry member => (days_stand day some_day).2.2.2 entry (known entry member)]

theorem lex_prolonged (listed : (name,date) ∈ holidays) (prolonged : Prolonged name (expandBy frequencies text)) :
    tokenize (String.ofList (expand (name.toList ++ ' ' :: text))) ≠
      tokenize date ++ tokenize (String.ofList (expand text)) := by
  obtain ⟨⟨longer,_⟩,member,⟨tail,split⟩,rest,starts⟩ := prolonged
  obtain ⟨⟨some_tail,solid_tail,apart⟩,day,some_day,month,some_month,rfl,other,some_other,next,some_next,rfl,together⟩ :=
    longer_parts _ listed _ member ⟨tail,split⟩
  rw [← split,List.drop_left] at some_tail solid_tail apart
  have continued : name.toList ++ ' ' :: tail = longer.toList := by simpa using split
  have behind : expandBy frequencies text = tail ++ rest := by simpa [← continued] using starts.symm
  obtain ⟨later,front,known,left,same⟩ := expand_prolonged listed member continued some_day behind
  have right : expand text = tail ++ expandBy later front := by
    rw [expand_eq_expandBy,expandBy_append,behind,expandBy_passes apart,same]
  intro equal
  obtain ⟨some_text,solid_day,means_day,_⟩ := days_stand day some_day
  rw [left,right,tokenize_space,String.ofList_toList,tokenize_word some_text solid_day,means_day,
    tokenize_date some_other some_next] at equal
  simp only [List.cons_append,List.nil_append,List.cons.injEq,Token.word.injEq] at equal
  obtain ⟨rfl,others⟩ := equal
  obtain rfl : next = month := together rfl
  -- Both sides have the same words behind the month on the one and the rest of the longer name on the other.
  obtain ⟨some_text,solid_month,_⟩ := months_stand next some_month
  rw [month_front some_month known others,tokenize_eq,tokenize_eq] at others
  have counted := congrArg List.length others
  have even : (wordRuns (next.toList ++ expandBy later front)).length = (wordRuns (tail ++ expandBy later front)).length :=
    Text.runs_length some_text some_tail (fun c inside => by simp [List.all_eq_true.mp solid_month c inside])
      (fun c inside => by simp [List.all_eq_true.mp solid_tail c inside]) _
  rw [List.length_map,List.length_cons,List.length_map,even] at counted
  omega

end Phrase

-- The name of a holiday in front of a text means its date, and the text is read as if it stood alone, unless
-- they are the beginning of a longer name. For this the text is taken with its words for frequencies spelled
-- out, and not word by word: all of these begin like `eve`, and so may any other word.
theorem holiday_apart (text : String) (listed : (name,date) ∈ Phrase.holidays)
    (kept : ∀ c ∈ text.toList, Phrase.isKept c = true) (visible : ∃ c ∈ text.toList, c ≠ ' ') :
    Phrase.lex (name ++ " " ++ text) = Phrase.lex date ++ Phrase.lex text ↔
      ¬ Phrase.Prolonged name (Phrase.expandBy Phrase.frequencies text.toList) := by
  have separate := Phrase.holidays_separate listed
  have spelled : (name ++ " " ++ text).toList = name.toList ++ ' ' :: text.toList := by simp
  have whole : Phrase.lex (name ++ " " ++ text) =
      Phrase.tokenize (String.ofList (Phrase.expand (name.toList ++ ' ' :: text.toList))) := by
    rw [← spelled]
    refine Phrase.lex_kept (fun c inside => ?_) ?_
    · rw [spelled] at inside
      rcases List.mem_append.mp inside with inside | inside
      · exact separate.kept_name c inside
      · rcases List.mem_cons.mp inside with rfl | inside
        · decide
        · exact kept c inside
    · obtain ⟨c,inside,solid⟩ := visible
      exact ⟨c,by simp [inside],solid⟩
  rw [whole,Phrase.lex_kept separate.kept_date separate.visible,separate.expanded,Phrase.lex_kept kept visible]
  constructor
  · intro equal prolonged
    exact Phrase.lex_prolonged listed prolonged (by rw [equal,String.ofList_toList])
  · intro apart
    rw [Phrase.expand_apart listed apart,Phrase.tokenize_space]

-- The words `each day` mean `every day`, but do not begin like `eve`.
theorem christmas_each_day :
    Phrase.lex "christmas each day at noon" = Phrase.lex "25 dec" ++ Phrase.lex "each day at noon" ∧
    Phrase.lex "christmas eve at noon" ≠ Phrase.lex "25 dec" ++ Phrase.lex "eve at noon" := by
  have listed : ("christmas","25 dec") ∈ Phrase.holidays := by decide
  have apart := holiday_apart "each day at noon" listed (List.all_eq_true.mp (by decide)) ⟨'e',by decide,by decide⟩
  have prolonged := holiday_apart "eve at noon" listed (List.all_eq_true.mp (by decide)) ⟨'e',by decide,by decide⟩
  exact ⟨apart.mpr (by decide +kernel),fun equal => prolonged.mp equal (by decide +kernel)⟩

-- No name goes on behind `christmas` with one of these words, but spelled out they begin like the rest of
-- `christmas eve`, and what is left of them is read with the month.
theorem christmas_every_day :
    (∀ word ∈ ["every","evening","daily"], ∀ holiday ∈ Phrase.holidays,
      ¬ ("christmas " ++ word).toList <+: holiday.1.toList) ∧
    Phrase.lex "christmas every day" = [.word "24",.word "decry",.word "day"] ∧
    Phrase.lex "25 dec" ++ Phrase.lex "every day" = [.word "25",.word "dec",.word "every",.word "day"] ∧
    Phrase.lex "christmas every day" ≠ Phrase.lex "25 dec" ++ Phrase.lex "every day" ∧
    Phrase.lex "christmas evening" ≠ Phrase.lex "25 dec" ++ Phrase.lex "evening" ∧
    Phrase.lex "christmas daily" ≠ Phrase.lex "25 dec" ++ Phrase.lex "daily" := by
  decide +kernel

end Recurrence
