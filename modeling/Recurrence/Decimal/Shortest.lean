import Recurrence.Text.Digits

namespace Recurrence.Decimal

-- The number `digits · 10^exponent`.
structure Numeral where
  digits : Nat
  exponent : Int
deriving DecidableEq, Repr

-- A finite binary number `significand · 2^exponent`. Its neighbours are one unit of the last place
-- away, except that the one below is half as far when `narrow`.
structure Binary where
  significand : Nat
  exponent : Int
  narrow : Bool
deriving DecidableEq, Repr

-- Multiplication by a power whose exponent may be negative, over a common denominator: the
-- denominator is `base ^ down`, which has to be at least as fine as the power.
def scaled (base n : Nat) (exponent : Int) (down : Nat) : Nat := n * Nat.pow base (exponent + down).toNat

-- The rank of the first decimal digit: zero for numbers from one to ten.
def leadingRank (b : Binary) : Int :=
  let down := b.exponent.natAbs
  let top := scaled 2 b.significand b.exponent down
  let bottom := Nat.pow 2 down
  if bottom ≤ top then (toString (top / bottom)).length - 1 else -(toString (bottom / top)).length

-- The points of the grid `10^rank` that lie next to the number, below and above, and those of them
-- that are nearer to it than to its neighbours; the middle belongs to the number when its
-- significand is even. Of two such points the nearer one is kept, and the upper one when the number is
-- half-way between them.
def onGrid (b : Binary) (rank : Int) : Option Numeral :=
  let down := b.exponent.natAbs + 2
  let fine := rank.natAbs
  let unit := Nat.pow 2 down * scaled 10 1 rank fine
  let place (quarters : Nat) := scaled 2 quarters (b.exponent - 2) down * Nat.pow 10 fine
  let middle := place (4 * b.significand)
  let low := place (4 * b.significand - if b.narrow then 1 else 2)
  let high := place (4 * b.significand + 2)
  let inside (n : Nat) :=
    if b.significand % 2 = 0 then low ≤ n * unit ∧ n * unit ≤ high else low < n * unit ∧ n * unit < high
  let below := middle / unit
  let above := below + 1
  if inside below then
    if inside above ∧ above * unit - middle ≤ middle - below * unit then some ⟨above,rank⟩
    else some ⟨below,rank⟩
  else if inside above then some ⟨above,rank⟩
  else none

-- The fewest digits that read back as the number: the coarsest grid with such a point. It can be one
-- rank above the first digit, as for a number just below a power of ten; seventeen digits are always
-- enough for double precision.
def shortest (b : Binary) : Numeral :=
  let lead := leadingRank b + 1
  ((List.range 18).findSome? (fun (n : Nat) => onGrid b (lead - n))).getD ⟨0,0⟩

-- Without an exponent, however long the text becomes.
def positional (d : Numeral) : String :=
  let digits := (toString d.digits).toList
  if 0 ≤ d.exponent then String.ofList (digits ++ List.replicate d.exponent.toNat '0')
  else
    let places := d.exponent.natAbs
    let full := List.replicate (places + 1 - digits.length) '0' ++ digits
    String.ofList (full.take (full.length - places) ++ '.' :: full.drop (full.length - places))

-- The parts of a double-precision number other than zero, infinity and NaN, without its sign.
def ofBits (bits : UInt64) : Binary :=
  let rank : Nat := bits.toNat / Nat.pow 2 52 % 2048
  let fraction : Nat := bits.toNat % Nat.pow 2 52
  if rank = 0 then ⟨fraction,-1074,false⟩ else ⟨fraction + Nat.pow 2 52,(rank : Int) - 1075,fraction == 0 && decide (1 < rank)⟩

-- A point is written only where there is a fraction, and the sign of zero is kept.
def floatText (f : Float) : String :=
  let bits := f.toBits
  let sign := if bits.toNat / Nat.pow 2 63 = 1 then "-" else ""
  if f.isNaN then "NaN"
  else if f.isInf then sign ++ "inf"
  else if bits.toNat % Nat.pow 2 63 = 0 then sign ++ "0"
  else sign ++ positional (shortest (ofBits bits))

-- The bits of the double-precision number nearest to `digits · 10^exponent`; half-way between two
-- numbers it is the one with the even significand. The digits must not be zero. The significand is
-- added to its rank: where rounding fills it up, the carry is the next rank.
def nearestBits (d : Numeral) : Nat :=
  let top := d.digits * Nat.pow 10 d.exponent.toNat
  let bottom := Nat.pow 10 (-d.exponent).toNat
  let guess : Int := (top.log2 : Int) - bottom.log2
  let leading := if top * Nat.pow 2 (-guess).toNat < bottom * Nat.pow 2 guess.toNat then guess - 1 else guess
  let unit := max (leading - 52) (-1074)
  let whole := top * Nat.pow 2 (-unit).toNat
  let part := bottom * Nat.pow 2 unit.toNat
  let rest := whole % part
  let up := part < 2 * rest ∨ (part = 2 * rest ∧ whole / part % 2 = 1)
  (unit + 1074).toNat * Nat.pow 2 52 + (whole / part + if up then 1 else 0)

-- Infinity when the number is out of range. Exponents far beyond the range are settled before any
-- power is computed.
def toFloat (d : Numeral) : Float :=
  let infinite := 2047 * Nat.pow 2 52
  let size := (toString d.digits).length + d.exponent
  if d.digits = 0 ∨ size < -400 then 0.0
  else if 400 < size then Float.ofBits infinite.toUInt64
  else Float.ofBits (min (nearestBits d) infinite).toUInt64

end Recurrence.Decimal
