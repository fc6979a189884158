import FrontEnd.Decimal.Shortest
/-!
# FrontEnd — writing a number

A `NumberStyle` fixes how the digits of a number are laid out: which
magnitudes are written out in full and which with an exponent, and how
many digits follow the point at least.
-/

namespace FrontEnd

/-- How numbers are laid out. -/
structure NumberStyle where
  /-- The least power of ten of a first digit that is written out in full. -/
  leastPlain : Int
  /-- The greatest power of ten of a first digit that is written out in full. -/
  greatestPlain : Int
  /-- What a number without value is called. -/
  nan : String
  /-- What a number beyond all others is called. -/
  infinity : String

namespace NumberStyle

/-- Digits whose last one stands at the power `last`, written in full,
with a digit on either side of the point at least. -/
def plain (digits : List Char) (last : Int) : String :=
  let whole := digits.length + last
  if whole ≤ 0 then
    String.ofList ('0' :: '.' :: (List.replicate (-whole).toNat '0' ++ digits))
  else if 0 ≤ last then
    String.ofList (digits ++ List.replicate last.toNat '0' ++ ['.', '0'])
  else
    String.ofList (digits.take whole.toNat ++ '.' :: digits.drop whole.toNat)

/-- Digits whose first one stands at the power `first`, written as one
digit, the others after a point if there are any, and the exponent. -/
def scientific (digits : List Char) (first : Int) : String :=
  let mantissa := match digits with
    | lead :: other :: rest => lead :: '.' :: other :: rest
    | short => short
  String.ofList mantissa ++ "e" ++ Int.repr first

/-- The text of a positive finite number. -/
def positive (style : NumberStyle) (d : Decimal) : String :=
  let (digits, last) := d.significant
  let first := last + ((digits.length : Int) - 1)
  if style.leastPlain ≤ first && first ≤ style.greatestPlain then plain digits last
  else scientific digits first

/-- The text of any number, with the fewest digits that read back. -/
def write (style : NumberStyle) (x : Binary64) : String :=
  if x.isNaN then style.nan
  else
    let sign := if x.isNegative then "-" else ""
    if x.isInfinite then sign ++ style.infinity
    else if x.isZero then sign ++ "0.0"
    else sign ++ style.positive x.shortest

end NumberStyle

end FrontEnd
