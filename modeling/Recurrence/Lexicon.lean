import Recurrence.Token

namespace Recurrence.Lexicon

-- Weekdays from Sunday, months from January, by the names the readers of later clauses know.
def weekdays : List String := ["sun","mon","tue","wed","thu","fri","sat"]
def months : List String :=
  ["jan","feb","mar","apr","may","jun","jul","aug","sep","oct","nov","dec"]

-- Sunday is 0.
def dayIndex (word : String) : Option Nat := weekdays.idxOf? word
-- January is 1.
def monthNumber (word : String) : Option Nat := (months.idxOf? word).map (· + 1)

-- The word that stands between the two ends of a range.
def range : String := "-"

-- Words with a second spelling: plurals, ordinals written out, times of day, full names of
-- weekdays and months, and the words for a range.
def spellings : List (String × String) := [
  ("minutes","minute"), ("hours","hour"), ("days","day"),
  ("weeks","week"), ("months","month"), ("years","year"),
  ("first","1"), ("second","2"), ("third","3"), ("fourth","4"), ("fifth","5"), ("sixth","6"),
  ("seventh","7"), ("eighth","8"), ("ninth","9"), ("tenth","10"), ("eleventh","11"),
  ("twelfth","12"), ("thirteenth","13"),
  ("noon","12:00"), ("midnight","00:00"), ("morning","10:00"), ("afternoon","15:00"),
  ("evening","20:00"),
  ("sunday","sun"), ("monday","mon"), ("tuesday","tue"), ("wednesday","wed"),
  ("thursday","thu"), ("friday","fri"), ("saturday","sat"),
  ("sundays","sun"), ("mondays","mon"), ("tuesdays","tue"), ("wednesdays","wed"),
  ("thursdays","thu"), ("fridays","fri"), ("saturdays","sat"),
  ("january","jan"), ("february","feb"), ("march","mar"), ("april","apr"), ("june","jun"),
  ("july","jul"), ("august","aug"), ("september","sep"), ("october","oct"),
  ("november","nov"), ("december","dec"),
  ("through",range), ("to",range),
  ("each","every")]

-- Abbreviations of time zones and their offsets from UTC. Each abbreviation means one zone,
-- whatever else it may stand for elsewhere.
def zones : List (String × String) := [
  ("acdt","+10:30"), ("acst","+09:30"), ("act","+08:00"), ("acwst","+08:45"), ("adt","-03:00"),
  ("aedt","+11:00"), ("aest","+10:00"), ("aet","+10:00"), ("aft","+04:30"), ("akdt","-08:00"),
  ("akst","-09:00"), ("almt","+06:00"), ("amst","-03:00"), ("amt","+04:00"), ("anat","+12:00"),
  ("aqtt","+05:00"), ("art","-03:00"), ("ast","+03:00"), ("awst","+08:00"), ("azost","+00:00"),
  ("azot","-01:00"), ("azt","+04:00"), ("bnt","+08:00"), ("biot","+06:00"), ("bit","-12:00"),
  ("bot","-04:00"), ("brst","-02:00"), ("brt","-03:00"), ("bst","+01:00"), ("btt","+06:00"),
  ("cat","+02:00"), ("cct","+06:30"), ("cdt","-05:00"), ("cest","+02:00"), ("cet","+01:00"),
  ("chadt","+13:45"), ("chast","+12:45"), ("chot","+08:00"), ("chost","+09:00"), ("chst","+10:00"),
  ("chut","+10:00"), ("cist","-08:00"), ("ckt","-10:00"), ("clst","-03:00"), ("clt","-04:00"),
  ("cost","-04:00"), ("cot","-05:00"), ("cst","+08:00"), ("ct","-06:00"), ("cvt","-01:00"),
  ("cwst","+08:45"), ("cxt","+07:00"), ("davt","+07:00"), ("ddut","+10:00"), ("dft","+01:00"),
  ("easst","-05:00"), ("east","-06:00"), ("eat","+03:00"), ("ect","-04:00"), ("edt","-04:00"),
  ("eest","+03:00"), ("eet","+02:00"), ("egst","+00:00"), ("egt","-01:00"), ("est","-05:00"),
  ("et","-05:00"), ("fet","+03:00"), ("fjt","+12:00"), ("fkst","-03:00"), ("fkt","-04:00"),
  ("fnt","-02:00"), ("galt","-06:00"), ("gamt","-09:00"), ("get","+04:00"), ("gft","-03:00"),
  ("gilt","+12:00"), ("git","-09:00"), ("gmt","+00:00"), ("gst","+04:00"), ("gyt","-04:00"),
  ("hdt","-09:00"), ("haec","+02:00"), ("hst","-10:00"), ("hkt","+08:00"), ("hmt","+05:00"),
  ("hovst","+08:00"), ("hovt","+07:00"), ("ict","+07:00"), ("idlw","-12:00"), ("idt","+03:00"),
  ("iot","+03:00"), ("irdt","+04:30"), ("irkt","+08:00"), ("irst","+03:30"), ("ist","+05:30"),
  ("jst","+09:00"), ("kalt","+02:00"), ("kgt","+06:00"), ("kost","+11:00"), ("krat","+07:00"),
  ("kst","+09:00"), ("lhst","+10:30"), ("lint","+14:00"), ("magt","+12:00"), ("mart","-09:30"),
  ("mawt","+05:00"), ("mdt","-06:00"), ("met","+01:00"), ("mest","+02:00"), ("mht","+12:00"),
  ("mist","+11:00"), ("mit","-09:30"), ("mmt","+06:30"), ("msk","+03:00"), ("mst","+08:00"),
  ("mut","+04:00"), ("mvt","+05:00"), ("nct","+11:00"), ("ndt","-02:30"), ("nft","+11:00"),
  ("novt","+07:00"), ("npt","+05:45"), ("nst","-03:30"), ("nt","-03:30"), ("nut","-11:00"),
  ("nzdt","+13:00"), ("nzst","+12:00"), ("omst","+06:00"), ("orat","+05:00"), ("pdt","-07:00"),
  ("pet","-05:00"), ("pett","+12:00"), ("pgt","+10:00"), ("phot","+13:00"), ("pht","+08:00"),
  ("phst","+08:00"), ("pkt","+05:00"), ("pmdt","-02:00"), ("pmst","-03:00"), ("pont","+11:00"),
  ("pst","-08:00"), ("pwt","+09:00"), ("pyst","-03:00"), ("pyt","-04:00"), ("ret","+04:00"),
  ("rott","-03:00"), ("sakt","+11:00"), ("samt","+04:00"), ("sast","+02:00"), ("sbt","+11:00"),
  ("sct","+04:00"), ("sdt","-10:00"), ("sgt","+08:00"), ("slst","+05:30"), ("sret","+11:00"),
  ("srt","-03:00"), ("sst","-11:00"), ("syot","+03:00"), ("taht","-10:00"), ("tha","+07:00"),
  ("tft","+05:00"), ("tjt","+05:00"), ("tkt","+13:00"), ("tlt","+09:00"), ("tmt","+05:00"),
  ("trt","+03:00"), ("tot","+13:00"), ("tvt","+12:00"), ("ulast","+09:00"), ("ulat","+08:00"),
  ("utc","+00:00"), ("uyst","-02:00"), ("uyt","-03:00"), ("uzt","+05:00"), ("vet","-04:00"),
  ("vlat","+10:00"), ("volt","+03:00"), ("vost","+06:00"), ("vut","+11:00"), ("wakt","+12:00"),
  ("wast","+02:00"), ("wat","+01:00"), ("west","+01:00"), ("wet","+00:00"), ("wib","+07:00"),
  ("wit","+09:00"), ("wita","+08:00"), ("wgst","-02:00"), ("wgt","-03:00"), ("wst","+08:00"),
  ("yakt","+09:00"), ("yekt","+05:00")]

-- `1st` to `59th`, each with the suffix English gives it, mean their number.
def ordinalSuffix (n : Nat) : String :=
  if 11 ≤ n % 100 ∧ n % 100 ≤ 13 then "th"
  else if n % 10 = 1 then "st" else if n % 10 = 2 then "nd" else if n % 10 = 3 then "rd" else "th"
def ordinals : List (String × String) :=
  (List.range' 1 59).map (fun n => (toString n ++ ordinalSuffix n,toString n))

-- Fillers carry nothing, but keep the words around them apart.
def fillers : List String := ["and","the"]
def markers : List (String × Marker) := [("at",.time),("on",.date),("in",.date)]

-- Every word that does not stand for itself. No word occurs twice.
def synonyms : List (String × Token) :=
  (spellings ++ zones ++ ordinals).map (fun entry => (entry.1,.word entry.2)) ++
    fillers.map (fun word => (word,.blank)) ++ markers.map (fun entry => (entry.1,.marker entry.2))

def resolve (word : String) : Token := (synonyms.lookup word).getD (.word word)

theorem resolve_other (absent : synonyms.lookup word = none) : resolve word = .word word := by
  simp [resolve,absent]

end Recurrence.Lexicon
