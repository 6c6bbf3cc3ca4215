/-!
# Floating point literals

A numeric literal is kept as the word that encodes it in IEEE 754 binary64.  The library never
computes with literals.  It only widens the operands of a push, which may be single precision or
whole, and both steps are exact.

One function does the widening.  `Double.ofScaled` encodes `m · 2^q` for a whole `m` below `2^53`,
and whole numbers and the finite singles are both of that form.  A word that is not a number is
kept in one form, `Double.nan`, since no answer tells two of them apart.
-/

namespace ScriptRecovery

/-- A binary64 value, by its encoding. -/
structure Double where
  /-- Sign, eleven bits of exponent and fifty-two of fraction. -/
  bits : UInt64
  deriving DecidableEq, Inhabited

/-- A binary32 value, by its encoding. -/
structure Single where
  /-- Sign, eight bits of exponent and twenty-three of fraction. -/
  bits : UInt32
  deriving DecidableEq, Inhabited

namespace Double

/-- The one form of a value that is not a number. -/
def nan : Double := ⟨0x7ff8000000000000⟩

/-- A value from its three fields: the sign, the biased exponent and the fraction. -/
def ofFields (negative : Bool) (exponent fraction : Nat) : Double :=
  ⟨UInt64.ofNat ((if negative then 1 <<< 63 else 0) + exponent <<< 52 + fraction)⟩

/-- The value `m · 2^q` with a sign.  It is exact for `m < 2^53` while `m · 2^q` is zero or has a
normal encoding: the leading bit of `m` is the implicit one and the others are the fraction. -/
def ofScaled (negative : Bool) (m : Nat) (q : Int) : Double :=
  if m = 0 then ofFields negative 0 0
  else
    let top := Nat.log2 m
    ofFields negative (1023 + q + top).toNat (m <<< (52 - top) - 1 <<< 52)

/-- A whole number of 32 bits. -/
def ofInt32 (n : Int32) : Double :=
  ofScaled (n.toInt < 0) n.toInt.natAbs 0

/-- A single precision value widened. -/
def ofSingle (s : Single) : Double :=
  let word : Nat := s.bits.toNat
  let negative : Bool := word >>> 31 = 1
  let exponent : Nat := word >>> 23 % 256
  let fraction : Nat := word % 0x800000
  if exponent = 255 then
    if fraction = 0 then ofFields negative 2047 0 else nan
  else if exponent = 0 then ofScaled negative fraction (-149)
  else ofScaled negative (0x800000 + fraction) ((exponent : Int) - 150)

end Double

end ScriptRecovery
