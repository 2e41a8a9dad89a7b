import SignalFormula.Number.Numeral
/-!
# Shortest — a number in the fewest digits that read back

A finite number is written with the fewest significant digits that are read back as the same number; of the candidates
with that many digits the nearest to the number is taken.  Two can be equally near, as both are to `2 ^ -25`, and then
the rule for ties decides: the text of a value takes the greater magnitude.  The candidates on the grid of the
multiples of a power of ten are the two neighbours of the number there: if any point of the grid reads back, one of
these does.  The exact decimal value stands behind the search, so that what is written always reads back.
-/
namespace SignalFormula

/-- Which of two neighbours on a grid is taken where both are equally near. -/
inductive Tie where
  | greater
  | even
deriving DecidableEq, Repr

/-- The lower neighbour is taken at a tie, by its coefficient. -/
def Tie.takesLower : Tie → Nat → Bool
  | .greater, _ => false
  | .even, n => n % 2 = 0

namespace Binary

variable {F : Format}

/-- The exponent of the greatest power of ten that is not above the positive number. -/
def decimalOrder (q : Rat) : Int :=
  let guess : Int := ((Text.ofNat q.num.toNat).length : Int) - ((Text.ofNat q.den).length : Int)
  if q < (10 : Rat) ^ guess then guess - 1 else guess

/-- The numeral `coefficient * 10 ^ exponent` is read as the number. -/
def readsBack (x : Binary F) (n : Numeral) : Bool := decide (n.toBinary = x)

/-- The neighbours of a position on a grid, the nearer one first. -/
def neighbours (tie : Tie) (position : Rat) : List Nat :=
  let lower := position.floor.toNat
  let rest := position - (lower : Rat)
  if rest < 1 / 2 ∨ (rest = 1 / 2 ∧ tie.takesLower lower) then [lower, lower + 1] else [lower + 1, lower]

/-- The neighbour of the magnitude on the grid of `10 ^ exponent` that reads back, the nearer one if both do. -/
def onGrid? (tie : Tie) (x : Binary F) (negative : Bool) (magnitude : Rat) (exponent : Int) : Option Numeral :=
  ((neighbours tie (magnitude / (10 : Rat) ^ exponent)).map fun n => ⟨negative, n, exponent⟩).find? (readsBack x)

/-- The exact value of `sig * 2 ^ exp` as a numeral: a half is five tenths. -/
def exactNumeral (negative : Bool) (sig : Nat) : Int → Numeral
  | .ofNat e => ⟨negative, sig * Nat.pow 2 e, 0⟩
  | .negSucc e => ⟨negative, sig * Nat.pow 5 (e + 1), .negSucc e⟩

/-- The shortest numeral of the finite number `sig * 2 ^ exp`: the coarsest grid with a neighbour that reads back. -/
def shortest (tie : Tie) (negative : Bool) (sig : Nat) (exp : Int) (h : F.Canonical sig exp) : Numeral :=
  if sig = 0 then ⟨negative, 0, 0⟩
  else
    let magnitude := scaled sig exp
    let top := decimalOrder magnitude + 1
    ((List.range (F.precision + 2)).findSome? fun (i : Nat) =>
      onGrid? tie (.finite negative sig exp h) negative magnitude (top - (i : Int))).getD (exactNumeral negative sig exp)

/-- The number as text: the shortest digits in positional writing, or a word. -/
def toText : Binary F → Text
  | .nan => "NaN".toList
  | .infinite negative => if negative then "-inf".toList else "inf".toList
  | .finite negative sig exp h => (shortest .greater negative sig exp h).positional

end Binary

end SignalFormula
