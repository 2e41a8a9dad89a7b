import SignalFormula.Number.Arithmetic
import SignalFormula.Number.Shortest
/-!
# Number — the numbers of JSON

A number written without a point or an exponent is an integer if it fits 64 bits, with or without a sign, and is not a
negative zero.  Every other number is a double: its leading digits, as many as fit 64 bits, scaled by a power of ten.
The scaling rounds by itself, so the last bit can differ from that of the nearest double.
-/
namespace SignalFormula
namespace Json

inductive Number where
  | integer (i : Int)
  | decimal (x : Double)
deriving DecidableEq

namespace Number

/-- The number that the digits make, and how many of them, taken one by one as long as the number fits 64 bits. -/
def absorb : Nat → Text → Nat × Nat
  | n, [] => (n, 0)
  | n, c :: cs =>
    let next := 10 * n + (c.toNat - '0'.toNat)
    if next < UInt64.size then let (m, count) := absorb next cs; (m, count + 1) else (n, 0)

def tenTo (n : Nat) : Double := .ofDecimal false 1 n

/-- `x * 10 ^ e`, one rounding for each power of ten up to 308; `none` if it is out of range.  Three rounds bring every
number of 64 bits to zero. -/
def scale : Nat → Double → Int → Option Double
  | rounds, x, e =>
    if e.natAbs ≤ 308 then
      let y := if 0 ≤ e then x.mul (tenTo e.natAbs) else x.div (tenTo e.natAbs)
      if y.isFinite then some y else none
    else if x = .zero false then some x
    else if 0 ≤ e then none
    else match rounds with
      | 0 => some (.zero false)
      | rounds + 1 => scale rounds (x.div (tenTo 308)) (e + 308)

/-- The decimal number with these digits before and after the point, and this exponent. -/
def decimal? (negative : Bool) (whole fraction : Text) (exponent : Int) : Option Double :=
  let (n, taken) := absorb 0 whole
  let (n, takenAfter) := absorb n fraction
  let exponent := exponent + ((whole.length - taken : Nat) : Int) - (takenAfter : Int)
  (scale 3 (.ofDecimal false n 0) exponent).map fun x => if negative then x.neg else x

def ofWhole (negative : Bool) (digits : Text) : Option Number :=
  let n := Numeral.valueOfDigits digits
  if !negative && n < UInt64.size then some (.integer n)
  else if negative && 0 < n && 2 * n ≤ UInt64.size then some (.integer (-(n : Int)))
  else (decimal? negative digits [] 0).map .decimal

def exponentText (e : Int) : Text := (if e < 0 then '-' else '+') :: Text.ofNat e.natAbs

/-- A decimal numeral with a point or an exponent: positional from `10 ^ -5` up to `10 ^ 16`, and else with one digit in
front of the point. -/
def pointed (n : Numeral) : Text :=
  let digits := Text.ofNat n.coefficient
  let order := n.exponent + (digits.length : Int) - 1
  if n.coefficient = 0 ∨ (-5 ≤ order ∧ order < 16) then
    let t := n.positional
    if '.' ∈ t then t else t ++ ".0".toList
  else
    let mantissa := match digits with
      | [] | [_] => digits
      | d :: ds => d :: '.' :: ds
    (if n.negative then ['-'] else []) ++ mantissa ++ 'e' :: exponentText order

/-- A double as messages show it; of two shortest numerals that are equally near it has the one with an even last
digit. -/
def decimalText : Double → Text
  | .finite negative sig exp h => pointed (Binary.shortest .even negative sig exp h)
  | x => x.toText

end Number

end Json

end SignalFormula
