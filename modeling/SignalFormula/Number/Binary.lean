import SignalFormula.Number.Format
/-!
# Binary — the numbers of a format, and rounding to them

A number is a NaN, an infinity with its sign, or a finite one with its sign and canonical magnitude; a zero has a sign
too.  Two finite numbers are equal exactly if they agree bit for bit.  There is one NaN.

Every operation of the library computes a rational number exactly and then rounds it once, by `round`: to the nearest
magnitude of the format, at a tie to the one with the even significand, and to infinity from half a unit above the
largest magnitude on.
-/
namespace SignalFormula

inductive Binary (F : Format) where
  | nan
  | infinite (negative : Bool)
  | finite (negative : Bool) (sig : Nat) (exp : Int) (canonical : F.Canonical sig exp)
deriving DecidableEq

abbrev Double := Binary Format.double

abbrev Single := Binary Format.single

def scaled (sig : Nat) (exp : Int) : Rat := (sig : Rat) * (2 : Rat) ^ exp

def signed (negative : Bool) (magnitude : Rat) : Rat := if negative then -magnitude else magnitude

/-- The integer nearest to a rational number that is not negative; of two, the even one. -/
def nearestEven (q : Rat) : Nat :=
  let n := q.floor.toNat
  let rest := q - (n : Rat)
  if rest < 1 / 2 then n
  else if 1 / 2 < rest then n + 1
  else if n % 2 = 0 then n else n + 1

/-- The exponent of the greatest power of two that is not above the positive number. -/
def binaryOrder (q : Rat) : Int :=
  let guess : Int := (q.num.toNat.log2 : Int) - (q.den.log2 : Int)
  if q < (2 : Rat) ^ guess then guess - 1 else guess

/-- The exponent of the unit in which the format writes a positive magnitude. -/
def Format.unitExp (F : Format) (q : Rat) : Int :=
  max F.minExp (binaryOrder q - (F.precision : Int) + 1)

namespace Binary

variable {F : Format}

def zero (negative : Bool) : Binary F := .finite negative 0 F.minExp F.canonical_zero

def isFinite : Binary F → Bool
  | .finite .. => true
  | _ => false

/-- **The number nearest to a magnitude**, with the given sign.  The significand can come out as the first one that has
a bit too many; half of it in the next unit is the same magnitude. -/
def round (negative : Bool) (magnitude : Rat) : Binary F :=
  if magnitude ≤ 0 then zero negative
  else
    let exp := F.unitExp magnitude
    let sig := nearestEven (magnitude / (2 : Rat) ^ exp)
    if h : F.Canonical sig exp then .finite negative sig exp h
    else if h : F.Canonical (sig / 2) (exp + 1) then .finite negative (sig / 2) (exp + 1) h
    else .infinite negative

/-- The number nearest to a rational number; zero comes out positive. -/
def ofRat (q : Rat) : Binary F := if q < 0 then round true (-q) else round false q

/-- The number nearest to `coefficient * 10 ^ exponent`, with the given sign.  A magnitude that is outside the format
for its exponent alone, ten counted as more than `2` above and more than `2 ^ 3` below, is settled without computing
the power. -/
def ofDecimal (negative : Bool) (coefficient : Nat) (exponent : Int) : Binary F :=
  if coefficient = 0 then zero negative
  else if F.maxExp + F.precision < exponent then .infinite negative
  else if (coefficient.log2 : Int) + 1 + 3 * exponent < F.minExp then zero negative
  else round negative (coefficient * (10 : Rat) ^ exponent)

end Binary

end SignalFormula
