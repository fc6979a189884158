/-!
# FrontEnd — double precision numbers

A float literal is the 64 bits of its IEEE 754 encoding, so that two
literals are the same exactly when their bits are. `magnitude` decodes
the finite ones to an integer times a power of two.
-/

namespace FrontEnd

/-- A number in the binary interchange format of 64 bits. -/
structure Binary64 where
  bits : UInt64
deriving DecidableEq

namespace Binary64

/-- The sign bit. -/
def isNegative (x : Binary64) : Bool := decide (Nat.pow 2 63 ≤ x.bits.toNat)

/-- The eleven bits of the exponent. -/
def exponentField (x : Binary64) : Nat := x.bits.toNat / Nat.pow 2 52 % Nat.pow 2 11

/-- The fifty-two bits after the binary point. -/
def fractionField (x : Binary64) : Nat := x.bits.toNat % Nat.pow 2 52

def isNaN (x : Binary64) : Bool := x.exponentField == 2047 && x.fractionField != 0

def isInfinite (x : Binary64) : Bool := x.exponentField == 2047 && x.fractionField == 0

def isZero (x : Binary64) : Bool := x.exponentField == 0 && x.fractionField == 0

end Binary64

/-- The positive number `significand · 2 ^ exponent`. -/
structure Magnitude where
  significand : Nat
  exponent : Int
deriving DecidableEq

/-- The absolute value of a finite number. A zero exponent field marks a
subnormal number, which has no leading one. -/
def Binary64.magnitude (x : Binary64) : Magnitude :=
  if x.exponentField = 0 then ⟨x.fractionField, -1074⟩
  else ⟨Nat.pow 2 52 + x.fractionField, (x.exponentField : Int) - 1075⟩

/-- The number below a power of two is only half as far away as the one
above it, unless both are subnormal or the power is the least normal one. -/
def Binary64.gapBelowIsHalved (x : Binary64) : Bool :=
  x.fractionField == 0 && decide (1 < x.exponentField)

end FrontEnd
