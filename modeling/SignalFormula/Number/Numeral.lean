import SignalFormula.Number.Binary
import SignalFormula.Text.Basic
/-!
# Numeral — decimal numerals, read and written

The numerals are `[+-]? (D+ (. D*)? | . D+) ([eE] [+-]? D+)?` over the ASCII digits `D`.  A numeral denotes
`coefficient * 10 ^ exponent` with a sign, and is kept as these three.  Reading one into a format rounds once.

Written, a number never has an exponent: the digits stand in place, with as many zeros as it takes.
-/
namespace SignalFormula

/-- A decimal numeral: `coefficient * 10 ^ exponent` with a sign. -/
structure Numeral where
  negative : Bool
  coefficient : Nat
  exponent : Int
deriving DecidableEq, Repr

namespace Numeral

/-- The sign in front of a text, and the rest; a missing sign is plus. -/
def splitSign : Text → Bool × Text
  | '-' :: rest => (true, rest)
  | '+' :: rest => (false, rest)
  | t => (false, t)

def splitDigits (t : Text) : Text × Text := (t.takeWhile Char.isDigit, t.dropWhile Char.isDigit)

def valueOfDigits (digits : Text) : Nat := Nat.ofDigitChars 10 digits 0

/-- The exponent part: nothing, or the mark, a sign if there is one, and digits to the end. -/
def readExponent? : Text → Option Int
  | [] => some 0
  | c :: t =>
    if c = 'e' || c = 'E' then
      let (negative, digits) := splitSign t
      if digits ≠ [] ∧ digits.all Char.isDigit then
        some (if negative then -(valueOfDigits digits : Int) else valueOfDigits digits)
      else none
    else none

/-- The digits after the point, if there is one, and the rest. -/
def splitFraction : Text → Text × Text
  | '.' :: t => splitDigits t
  | t => ([], t)

def read? (t : Text) : Option Numeral :=
  let (negative, t) := splitSign t
  let (whole, t) := splitDigits t
  let (fraction, t) := splitFraction t
  if whole = [] ∧ fraction = [] then none
  else (readExponent? t).map fun e =>
    ⟨negative, valueOfDigits (whole ++ fraction), e - (fraction.length : Int)⟩

def toBinary {F : Format} (n : Numeral) : Binary F := .ofDecimal n.negative n.coefficient n.exponent

def positional (n : Numeral) : Text :=
  let digits := Text.ofNat n.coefficient
  let places := (-n.exponent).toNat
  let magnitude :=
    if places = 0 then Text.ofNat (n.coefficient * Nat.pow 10 n.exponent.toNat)
    else
      let padded := List.replicate (places + 1 - digits.length) '0' ++ digits
      padded.take (padded.length - places) ++ '.' :: padded.drop (padded.length - places)
  if n.negative then '-' :: magnitude else magnitude

end Numeral

end SignalFormula
