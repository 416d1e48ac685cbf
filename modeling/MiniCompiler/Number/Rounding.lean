/-!
# Rounding

Quotients rounded to whole numbers, with a half going to the even neighbour, and fractions rounded
to 53 significant binary digits, the precision in which times are computed.
-/

namespace MiniCompiler.Number

/-- The whole number nearest to `n / d`; of two equally near ones the even one. -/
def roundDiv (n d : Nat) : Nat :=
  let q := n / d
  let r := n % d
  if 2 * r < d ∨ (2 * r = d ∧ q % 2 = 0) then q else q + 1

/-- A fraction, not negative. -/
structure Fraction where
  num : Nat
  den : Nat := 1
  deriving DecidableEq, Repr

namespace Fraction

def times (f : Fraction) (n : Nat) : Fraction := ⟨f.num * n, f.den⟩

def dividedBy (f : Fraction) (n : Nat) : Fraction := ⟨f.num, f.den * n⟩

/-- The greatest whole number that is not above a fraction. -/
def floor (f : Fraction) : Nat := f.num / f.den

/-- The whole number nearest to a fraction. -/
def round (f : Fraction) : Nat := roundDiv f.num f.den

/-- The number of significant binary digits. -/
def precision : Nat := 53

/-- A fraction in units of `2 ^ e`. -/
def scaled (f : Fraction) (e : Int) : Fraction :=
  if 0 ≤ e then ⟨f.num, f.den <<< e.toNat⟩ else ⟨f.num <<< (-e).toNat, f.den⟩

/-- The value of `m` units of `2 ^ e`. -/
def ofScaled (m : Nat) (e : Int) : Fraction :=
  if 0 ≤ e then ⟨m <<< e.toNat, 1⟩ else ⟨m, 1 <<< (-e).toNat⟩

/-- The exponent of the last significant binary digit of a fraction. -/
def unit (f : Fraction) : Int :=
  let e := (f.num.log2 : Int) - f.den.log2 - (precision - 1 : Nat)
  if (f.scaled e).floor < 1 <<< (precision - 1) then e - 1 else e

/-- A fraction rounded to its significant binary digits. -/
def rounded (f : Fraction) : Fraction :=
  if f.num = 0 then f else ofScaled (f.scaled f.unit).round f.unit

end Fraction

end MiniCompiler.Number
