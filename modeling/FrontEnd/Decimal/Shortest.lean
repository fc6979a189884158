import FrontEnd.Decimal.Binary64
/-!
# FrontEnd — the fewest digits that read back

`Binary64.shortest` finds the shortest decimal that rounds to a given
double. The reals that round to it form an interval around it; for one,
two, … seventeen digits the decimals just below and just above the
number are tried against that interval, and the first count of digits
with a hit wins. All arithmetic is exact.
-/

namespace FrontEnd

/-- The positive decimal `digits · 10 ^ exponent`. -/
structure Decimal where
  digits : Nat
  exponent : Int
deriving DecidableEq

/-- The number `value / unit` and the interval from `low / unit` to
`high / unit` of the numbers that round to it. -/
structure RoundingInterval where
  low : Nat
  value : Nat
  high : Nat
  unit : Nat
  /-- Whether the ends round to the number too. -/
  closed : Bool

namespace RoundingInterval

/-- The interval of a positive finite number, in quarters of its last
binary place. The ends belong to it when the significand is even. -/
def ofBinary64 (x : Binary64) : RoundingInterval :=
  let m := x.magnitude
  let scale := Nat.pow 2 (m.exponent - 2).toNat
  { low := (4 * m.significand - if x.gapBelowIsHalved then 1 else 2) * scale
    value := 4 * m.significand * scale
    high := (4 * m.significand + 2) * scale
    unit := Nat.pow 2 (2 - m.exponent).toNat
    closed := m.significand % 2 == 0 }

/-- The power of ten of the first significant digit. -/
def leadingPower (i : RoundingInterval) : Int :=
  if i.unit ≤ i.value then
    ((Nat.toDigits 10 (i.value / i.unit)).length : Int) - 1
  else
    -- below one it is `-k` for the least `k` with `unit ≤ value * 10 ^ k`
    -((Nat.toDigits 10 ((i.unit + i.value - 1) / i.value - 1)).length : Int)

/-- Whether `numerator / denominator` rounds to the number. -/
def holds (i : RoundingInterval) (numerator denominator : Nat) : Bool :=
  let x := numerator * i.unit
  if i.closed then
    decide (i.low * denominator ≤ x) && decide (x ≤ i.high * denominator)
  else
    decide (i.low * denominator < x) && decide (x < i.high * denominator)

/-- The decimal with `count` digits that is nearest to the number, if one
with so few rounds to it. A tie goes to the greater one. -/
def decimalWith (i : RoundingInterval) (count : Nat) : Option Decimal :=
  let place := i.leadingPower - ((count : Int) - 1)
  let up := Nat.pow 10 place.toNat
  let down := Nat.pow 10 (-place).toNat
  let scaled := i.value * down
  let step := i.unit * up
  let below := scaled / step
  let above := below + 1
  let belowHolds := i.holds (below * up) down
  let aboveHolds := i.holds (above * up) down
  let belowIsNearer := decide (scaled - below * step < above * step - scaled)
  if belowHolds && (!aboveHolds || belowIsNearer) then some ⟨below, place⟩
  else if aboveHolds then some ⟨above, place⟩
  else none

end RoundingInterval

/-- The digits of a decimal without the zeros it ends in, and the power
of ten of the last of them. -/
def Decimal.significant (d : Decimal) : List Char × Int :=
  let all := Nat.toDigits 10 d.digits
  let kept := (all.reverse.dropWhile (· == '0')).reverse
  (kept, d.exponent + ((all.length : Int) - kept.length))

/-- The shortest decimal that rounds to a positive finite number.
Seventeen digits always do. -/
def Binary64.shortest (x : Binary64) : Decimal :=
  let interval := RoundingInterval.ofBinary64 x
  ((List.range' 1 17).findSome? interval.decimalWith).getD ⟨0, 0⟩

end FrontEnd
