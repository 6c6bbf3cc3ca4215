import Mathlib.Data.Nat.Log
import Mathlib.Tactic.Ring
import ScriptRecovery.Number

/-!
# Widening is exact

The operand of a push is written as a single precision value or as a whole number, and a script
holds it in double precision.  Here the words are read as the numbers they stand for.  Every finite
double is a whole multiple of `2^-1074` and every finite single one of `2^-149`, so a magnitude is
a natural number and exactness is an equation without fractions.

The one step with an argument in it is `Double.ofScaled_normal`: the leading bit of `m` becomes
the implicit bit and the exponent makes up for the shift.
-/

namespace ScriptRecovery

/-! ## What a word stands for -/

namespace Double

variable (d : Double)

/-- The sign bit is set. -/
def negative : Bool := d.bits.toNat >>> 63 = 1

/-- The biased exponent. -/
def exponent : Nat := d.bits.toNat >>> 52 % 2048

/-- The fraction, without the implicit bit. -/
def fraction : Nat := d.bits.toNat % 2 ^ 52

/-- The absolute value of a finite double, in units of `2^-1074`. -/
def magnitude : Nat :=
  if d.exponent = 0 then d.fraction else (2 ^ 52 + d.fraction) * 2 ^ (d.exponent - 1)

end Double

namespace Single

variable (s : Single)

/-- The sign bit is set. -/
def negative : Bool := s.bits.toNat >>> 31 = 1

/-- The biased exponent. -/
def exponent : Nat := s.bits.toNat >>> 23 % 256

/-- The fraction, without the implicit bit. -/
def fraction : Nat := s.bits.toNat % 0x800000

/-- The absolute value of a finite single, in units of `2^-149`. -/
def magnitude : Nat :=
  if s.exponent = 0 then s.fraction else (2 ^ 23 + s.fraction) * 2 ^ (s.exponent - 1)

theorem exponent_lt : s.exponent < 256 := Nat.mod_lt _ (by decide)

theorem fraction_lt : s.fraction < 2 ^ 23 := Nat.mod_lt _ (by decide)

end Single

/-! ## Encoding -/

namespace Double

variable {b : Bool} {e f m : Nat} {q : Int}

theorem toNat_ofFields (he : e < 2048) (hf : f < 2 ^ 52) :
    (ofFields b e f).bits.toNat = (if b then 2 ^ 63 else 0) + e * 2 ^ 52 + f := by
  simp only [ofFields, Nat.shiftLeft_eq, Nat.one_mul]
  rw [UInt64.toNat_ofNat']
  apply Nat.mod_eq_of_lt
  split <;> omega

theorem negative_ofFields (he : e < 2048) (hf : f < 2 ^ 52) : (ofFields b e f).negative = b := by
  simp only [negative, toNat_ofFields he hf, Nat.shiftRight_eq_div_pow]
  cases b <;> simp <;> omega

theorem exponent_ofFields (he : e < 2048) (hf : f < 2 ^ 52) : (ofFields b e f).exponent = e := by
  simp only [exponent, toNat_ofFields he hf, Nat.shiftRight_eq_div_pow]
  split <;> omega

theorem fraction_ofFields (he : e < 2048) (hf : f < 2 ^ 52) : (ofFields b e f).fraction = f := by
  simp only [fraction, toNat_ofFields he hf]
  split <;> omega

theorem ofScaled_zero : ofScaled b 0 q = ofFields b 0 0 := rfl

/-- A number with a normal encoding: its leading bit is the implicit one. -/
theorem ofScaled_normal (hm : m ≠ 0) (hm' : m < 2 ^ 53)
    (low : 1 ≤ 1023 + q + m.log2) (high : 1023 + q + m.log2 ≤ 2046) :
    (ofScaled b m q).negative = b ∧ (ofScaled b m q).exponent = (1023 + q + m.log2).toNat ∧
      2 ^ 52 + (ofScaled b m q).fraction = m * 2 ^ (52 - m.log2) := by
  have below : 2 ^ m.log2 ≤ m := Nat.log2_self_le hm
  have above : m < 2 ^ (m.log2 + 1) := Nat.lt_log2_self
  have top : m.log2 ≤ 52 := by
    have := (Nat.log2_lt hm).2 hm'
    omega
  -- Shifted, the leading bit stands at place 52.
  have least : 2 ^ 52 ≤ m * 2 ^ (52 - m.log2) := by
    calc 2 ^ 52 = 2 ^ m.log2 * 2 ^ (52 - m.log2) := by rw [← pow_add, Nat.add_sub_cancel' top]
      _ ≤ m * 2 ^ (52 - m.log2) := Nat.mul_le_mul_right _ below
  have greatest : m * 2 ^ (52 - m.log2) < 2 ^ 53 := by
    calc m * 2 ^ (52 - m.log2) < 2 ^ (m.log2 + 1) * 2 ^ (52 - m.log2) :=
          Nat.mul_lt_mul_of_pos_right above (Nat.two_pow_pos _)
      _ = 2 ^ 53 := by rw [← pow_add]; congr 1; omega
  have unfolded : ofScaled b m q =
      ofFields b (1023 + q + m.log2).toNat (m * 2 ^ (52 - m.log2) - 2 ^ 52) := by
    simp only [ofScaled, hm, if_false, Nat.shiftLeft_eq, Nat.one_mul]
  have he : (1023 + q + m.log2).toNat < 2048 := by omega
  have hf : m * 2 ^ (52 - m.log2) - 2 ^ 52 < 2 ^ 52 := by omega
  rw [unfolded, negative_ofFields he hf, exponent_ofFields he hf, fraction_ofFields he hf]
  exact ⟨rfl, rfl, by omega⟩

/-- `Double.ofScaled` encodes `m · 2^q` itself. -/
theorem ofScaled_exact (small : m < 2 ^ 53)
    (normal : m ≠ 0 → 1 ≤ 1023 + q + m.log2 ∧ 1023 + q + m.log2 ≤ 2046) :
    (ofScaled b m q).negative = b ∧ (ofScaled b m q).exponent < 2047 ∧
      (ofScaled b m q).magnitude = m * 2 ^ (1074 + q).toNat := by
  by_cases hm : m = 0
  · rw [hm, ofScaled_zero, magnitude, negative_ofFields (by decide) (by decide),
      exponent_ofFields (by decide) (by decide), fraction_ofFields (by decide) (by decide)]
    simp
  · obtain ⟨low, high⟩ := normal hm
    obtain ⟨sign, he, hf⟩ := ofScaled_normal (b := b) hm small low high
    have top : m.log2 ≤ 52 := by
      have := (Nat.log2_lt hm).2 small
      omega
    refine ⟨sign, by omega, ?_⟩
    have implicit : (ofScaled b m q).exponent ≠ 0 := by omega
    rw [magnitude, if_neg implicit, hf, he, mul_assoc, ← pow_add]
    congr 2
    omega

end Double

/-! ## The two kinds of operand -/

namespace Double

/-- A whole number keeps its sign and its value. -/
theorem ofInt32_exact (n : Int32) :
    (ofInt32 n).negative = decide (n.toInt < 0) ∧ (ofInt32 n).exponent < 2047 ∧
      (ofInt32 n).magnitude = n.toInt.natAbs * 2 ^ 1074 := by
  have small : n.toInt.natAbs < 2 ^ 32 := by
    have := n.toInt_lt
    have := n.le_toInt
    omega
  have unit : (1074 + (0 : Int)).toNat = 1074 := by decide
  rw [← unit]
  refine ofScaled_exact (by omega) fun nonzero => ?_
  have top : n.toInt.natAbs.log2 < 32 := (Nat.log2_lt nonzero).2 small
  omega

example : ofInt32 (-2147483648) = ⟨0xc1e0000000000000⟩ := by decide

/-- The widening by the fields of the single. -/
theorem ofSingle_eq (s : Single) : ofSingle s =
    if s.exponent = 255 then
      if s.fraction = 0 then ofFields s.negative 2047 0 else nan
    else if s.exponent = 0 then ofScaled s.negative s.fraction (-149)
    else ofScaled s.negative (0x800000 + s.fraction) ((s.exponent : Int) - 150) := rfl

/-- A finite single keeps its sign and its value. -/
theorem ofSingle_exact (s : Single) (finite : s.exponent ≠ 255) :
    (ofSingle s).negative = s.negative ∧ (ofSingle s).exponent < 2047 ∧
      (ofSingle s).magnitude = s.magnitude * 2 ^ 925 := by
  have he := s.exponent_lt
  have hf := s.fraction_lt
  rw [ofSingle_eq, if_neg finite, Single.magnitude]
  by_cases zero : s.exponent = 0
  · have unit : (1074 + (-149 : Int)).toNat = 925 := by decide
    rw [if_pos zero, if_pos zero, ← unit]
    refine ofScaled_exact (by omega) fun nonzero => ?_
    have top : s.fraction.log2 < 23 := (Nat.log2_lt nonzero).2 hf
    omega
  · -- The implicit bit of the single is the leading one.
    have top : (0x800000 + s.fraction).log2 = 23 :=
      (Nat.log2_eq_iff (by omega)).2 ⟨by omega, by omega⟩
    have unit : s.exponent - 1 + 925 = (1074 + ((s.exponent : Int) - 150)).toNat := by omega
    rw [if_neg zero, if_neg zero, mul_assoc, ← pow_add, unit]
    exact ofScaled_exact (by omega) fun _ => by omega

-- The least positive single, negative zero and the greatest finite single.
example : ofSingle ⟨0x00000001⟩ = ⟨0x36a0000000000000⟩ := by decide
example : ofSingle ⟨0x80000000⟩ = ⟨0x8000000000000000⟩ := by decide
example : ofSingle ⟨0x7f7fffff⟩ = ⟨0x47efffffe0000000⟩ := by decide

/-- An infinite single stays infinite, with its sign. -/
theorem ofSingle_infinite (s : Single) (full : s.exponent = 255) (blank : s.fraction = 0) :
    (ofSingle s).negative = s.negative ∧ (ofSingle s).exponent = 2047 ∧
      (ofSingle s).fraction = 0 := by
  rw [ofSingle_eq, if_pos full, if_pos blank]
  exact ⟨negative_ofFields (by decide) (by decide), exponent_ofFields (by decide) (by decide),
    fraction_ofFields (by decide) (by decide)⟩

/-- A single that is not a number widens to the one such double. -/
theorem ofSingle_nan (s : Single) (full : s.exponent = 255) (payload : s.fraction ≠ 0) :
    ofSingle s = nan := by
  rw [ofSingle_eq, if_pos full, if_neg payload]

end Double

end ScriptRecovery
