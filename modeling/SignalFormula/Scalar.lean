import SignalFormula.Number.Shortest
import SignalFormula.Number.Transcendental
/-!
# Scalar — the values a formula is evaluated in

A formula is compiled and evaluated in one type of values.  What it takes of them is a `Scalar`: the operations of the
formula language, the reading of literals and of values given from outside, and their text.  The two instances are the
numbers of double and of single precision, both from one definition over all formats.
-/
namespace SignalFormula

class Scalar (V : Type) where
  zero : V
  add : V → V → V
  sub : V → V → V
  mul : V → V → V
  div : V → V → V
  pow : V → V → V
  max : V → V → V
  min : V → V → V
  sin : V → V
  cos : V → V
  trunc : V → V
  /-- A noise register as a value: the zero register is zero, the register of ones is one. -/
  ofRegister : UInt16 → V
  /-- The value that a literal of a formula denotes; `none` for a text that is no literal or is out of range. -/
  literal? : Text → Option V
  /-- The value that is given from outside as a text; these may be infinite or no number. -/
  value? : Text → Option V
  toText : V → Text

namespace Binary

variable {F : Format}

/-- The number of a literal: a decimal numeral in the range of the format. -/
def literal? (t : Text) : Option (Binary F) :=
  ((Numeral.read? t).map Numeral.toBinary).filter isFinite

/-- The words for infinity and for no number, in small letters. -/
def word? (t : Text) : Option (Bool → Binary F) :=
  if t = "inf".toList ∨ t = "infinity".toList then some .infinite
  else if t = "nan".toList then some fun _ => .nan
  else none

/-- The number given as a text: a word in letters of any case with a sign if there is one, or a decimal numeral, which
may be out of range. -/
def value? (t : Text) : Option (Binary F) :=
  let (negative, rest) := Numeral.splitSign t
  match word? (rest.map Char.toLower) with
  | some f => some (f negative)
  | none => (Numeral.read? t).map Numeral.toBinary

instance (F : Format) : Scalar (Binary F) where
  zero := zero false
  add := add
  sub := sub
  mul := mul
  div := div
  pow := pow
  max := max
  min := min
  sin := sin
  cos := cos
  trunc := trunc
  ofRegister r := round false ((r.toNat : Rat) / 65535)
  literal? := literal?
  value? := value?
  toText := toText

end Binary

end SignalFormula
