import Recurrence.Draft

namespace Recurrence.Clause.Markers

-- The first `from` opens a clause: a date once a clock time is marked, otherwise a clock time.
def settleFrom (tokens : List Token) : List Token :=
  tokens.replace (.word "from") (.marker (if tokens.contains (.marker .time) then .date else .time))

-- A phrase that starts without a marker, and has markers of one kind only, starts with a clause
-- of the other kind.
def missing (tokens : List Token) : Option Marker :=
  match tokens with
  | [] => none
  | first :: _ =>
    if first.isMarker then none
    else match tokens.contains (.marker .time),tokens.contains (.marker .date) with
      | true,false => some .date
      | false,true => some .time
      | _,_ => none

def settle (tokens : List Token) : List Token :=
  let settled := settleFrom tokens
  match missing settled with
  | some kind => .marker kind :: settled
  | none => settled

def read (draft : Draft) : Draft := {draft with tokens := settle draft.tokens}

end Recurrence.Clause.Markers
