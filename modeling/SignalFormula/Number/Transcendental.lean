import SignalFormula.Number.Arithmetic
import SignalFormula.Number.Enclosure
/-!
# Transcendental — sine, cosine and power, correctly rounded

The number nearest to the exact real result, and the usual results at infinities, NaNs, zeros and one.  A sine or cosine
of a number other than zero is irrational, so it is never halfway between two numbers.  A power can be: `exactPower?`
finds the powers that are short binary fractions, and these are rounded exactly.
-/
namespace SignalFormula
namespace Binary

variable {F : Format}

def squareRoot (n : Nat) : Nat :=
  if n = 0 then 0
  else
    let r := 2 * squareRoot (n / 4)
    if (r + 1) * (r + 1) ≤ n then r + 1 else r
termination_by n
decreasing_by omega

/-- The odd part of a positive number and its exponent of two, with at most `fuel` halvings. -/
def oddPart : Nat → Nat → Nat × Int
  | 0, n => (n, 0)
  | fuel + 1, n => if n % 2 = 0 then let (s, a) := oddPart fuel (n / 2); (s, a + 1) else (n, 0)

/-- The `2 ^ k`-th root of `s * 2 ^ a` in the same form, if there is one. -/
def root? : Nat → Nat → Int → Option (Nat × Int)
  | 0, s, a => some (s, a)
  | k + 1, s, a =>
    let r := squareRoot s
    if r * r = s ∧ a % 2 = 0 then root? k r (a / 2) else none

/-- `x ^ y` as `s * 2 ^ a` for positive `x`, where it has that form with `s` not much longer than a significand. -/
def exactPower? (precision : Nat) (x y : Rat) : Option (Nat × Int) := do
  let (s, a) := oddPart x.num.natAbs.log2 x.num.natAbs
  let (s, a) ← root? y.den.log2 s (a - (x.den.log2 : Int))
  if s = 1 then some (1, a * y.num)
  else if 0 ≤ y.num ∧ y.num ≤ precision + 2 then some (Nat.pow s y.num.toNat, a * y.num)
  else none

/-- The number nearest to `s * 2 ^ a`; an exponent far outside the format is settled without the power. -/
def ofScaled (negative : Bool) (s : Nat) (a : Int) : Binary F :=
  if F.maxExp + F.precision < a then .infinite negative
  else if a + (s.log2 : Int) + 2 < F.minExp then zero negative
  else round negative (scaled s a)

/-- Bounds of `x ^ y` for positive `x`: the exponential of `y * log x`, less the whole multiples of `log 2` in it.  An
exponent of two far outside the format is brought to its edge, where the result is the same. -/
def powerBounds (F : Format) (x y : Rat) (bits : Nat) : Rat × Rat :=
  let bits := bits + (binaryOrder y.abs).toNat
  let t := (Enclosure.log bits x).timesRat y
  let k := t.ratio (Enclosure.logTwo bits)
  let e := Enclosure.exp bits (t.sub ((Enclosure.logTwo bits).times k))
  let k := Max.max (F.minExp - 4) (Min.min (F.maxExp + F.precision + 4) k)
  e.bounds (k - (bits : Int))

def powerOf (negative : Bool) (x y : Rat) : Binary F :=
  match exactPower? F.precision x y with
  | some (s, a) => ofScaled negative s a
  | none =>
    let z : Binary F := ofBounds (powerBounds F x y)
    if negative then z.neg else z

def one : Binary F := round false 1

def isOddInteger (q : Rat) : Bool := q.den = 1 && q.num % 2 = 1

/-- `x` to the power `y`.  Anything to the power zero is one, and one to any power. -/
def pow (x y : Binary F) : Binary F :=
  match x, y with
  | x, .finite t n f _ => if n = 0 then one else finitePower x (signed t (scaled n f)) t
  | .nan, _ => .nan
  | x, .nan => if x = one then one else .nan
  | .infinite _, .infinite t => if t then zero false else .infinite false
  | .finite _ m e _, .infinite t =>
    let size := scaled m e
    if size = 1 then one
    else if (size < 1) = t then .infinite false
    else zero false
where
  /-- The power for a rational exponent other than zero, `negative` if it is below zero. -/
  finitePower (x : Binary F) (y : Rat) (negative : Bool) : Binary F :=
    match x with
    | .nan => .nan
    | .infinite s => if negative then zero (s && isOddInteger y) else .infinite (s && isOddInteger y)
    | .finite s m e _ =>
      if m = 0 then (if negative then .infinite (s && isOddInteger y) else zero (s && isOddInteger y))
      else if s && y.den ≠ 1 then .nan
      else powerOf (s && isOddInteger y) (scaled m e) y

def sin : Binary F → Binary F
  | .finite s m e h => if m = 0 then .finite s m e h else turned 0 (signed s (scaled m e))
  | _ => .nan
where
  /-- The sine of a number other than zero, `turn` quarter turns further on. -/
  turned (turn : Int) (q : Rat) : Binary F :=
    ofBounds fun bits =>
      let bits := bits + (binaryOrder q.abs).natAbs
      (Enclosure.sinAt bits turn q).bounds (-(bits : Int))

/-- The cosine, which is the sine a quarter turn further on. -/
def cos : Binary F → Binary F
  | .finite s m e _ => if m = 0 then one else sin.turned 1 (signed s (scaled m e))
  | _ => .nan

end Binary

end SignalFormula
