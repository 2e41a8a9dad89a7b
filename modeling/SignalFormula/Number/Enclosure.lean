import SignalFormula.Number.Binary
/-!
# Enclosure — real numbers held between rational bounds

Sine, cosine and power of a number are almost never numbers of the format, nor rational.  They are computed in integers:
at a resolution of `bits`, an enclosure stands for the real numbers `x` with `|x * 2 ^ bits - mid| ≤ err`, and every
operation widens `err` by what it drops.  A number of the format is settled as soon as both ends of an enclosure round
to it; until then the resolution is doubled.
-/
namespace SignalFormula

/-- At a resolution of `bits`: the real numbers `x` with `|x * 2 ^ bits - mid| ≤ err`. -/
structure Enclosure where
  mid : Int
  err : Nat

namespace Enclosure

def unit (bits : Nat) : Nat := Nat.pow 2 bits

def ofRat (bits : Nat) (q : Rat) : Enclosure := ⟨(q * (2 : Rat) ^ bits).floor, 1⟩

def neg (a : Enclosure) : Enclosure := ⟨-a.mid, a.err⟩

def add (a b : Enclosure) : Enclosure := ⟨a.mid + b.mid, a.err + b.err⟩

def sub (a b : Enclosure) : Enclosure := a.add b.neg

def mul (bits : Nat) (a b : Enclosure) : Enclosure :=
  ⟨a.mid * b.mid / unit bits, (a.mid.natAbs * b.err + b.mid.natAbs * a.err + a.err * b.err) / unit bits + 2⟩

def times (a : Enclosure) (n : Int) : Enclosure := ⟨a.mid * n, a.err * n.natAbs⟩

def divide (a : Enclosure) (n : Nat) : Enclosure := ⟨a.mid / n, a.err / n + 2⟩

def timesRat (a : Enclosure) (q : Rat) : Enclosure := (a.times q.num).divide q.den

/-- The integer nearest to the quotient of two enclosures, by their middles. -/
def ratio (a b : Enclosure) : Int := (2 * a.mid + b.mid) / (2 * b.mid)

/-- **A power series.**  The `i`-th summand is the current term over `weight i`; the next term is the product with `x`
over `step i`.  What follows the last summand taken is at most twice the term that would be next, as long as a term is
at most half of the one before it. -/
def series (bits : Nat) (x : Enclosure) (step weight : Nat → Nat) : Nat → Nat → Enclosure → Enclosure
  | 0, _, term => ⟨0, 2 * (term.mid.natAbs + term.err)⟩
  | count + 1, i, term =>
    if term.mid = 0 then ⟨0, 2 * term.err⟩
    else (term.divide (weight i)).add (series bits x step weight count (i + 1) ((term.mul bits x).divide (step i)))

/-- The summands that are enough at a resolution for every series here. -/
def enough (bits : Nat) : Nat := bits / 3 + 8

def one (bits : Nat) : Enclosure := ⟨unit bits, 0⟩

def exp (bits : Nat) (r : Enclosure) : Enclosure :=
  series bits r (fun i => i + 1) (fun _ => 1) (enough bits) 0 (one bits)

def sin (bits : Nat) (r : Enclosure) : Enclosure :=
  series bits (r.mul bits r).neg (fun i => (2 * i + 2) * (2 * i + 3)) (fun _ => 1) (enough bits) 0 r

def cos (bits : Nat) (r : Enclosure) : Enclosure :=
  series bits (r.mul bits r).neg (fun i => (2 * i + 1) * (2 * i + 2)) (fun _ => 1) (enough bits) 0 (one bits)

/-- The inverse hyperbolic tangent of a rational number at most a third from zero. -/
def artanh (bits : Nat) (q : Rat) : Enclosure :=
  let u := ofRat bits q
  series bits (u.mul bits u) (fun _ => 1) (fun i => 2 * i + 1) (enough bits) 0 u

/-- The inverse tangent of one in `n`, for `n` at least two. -/
def arctanOneIn (bits n : Nat) : Enclosure :=
  let u := ofRat bits (1 / (n : Rat))
  series bits (u.mul bits u).neg (fun _ => 1) (fun i => 2 * i + 1) (enough bits) 0 u

/-- Half of pi, which is eight times the inverse tangent of a fifth less twice that of one in 239. -/
def halfPi (bits : Nat) : Enclosure := ((arctanOneIn bits 5).times 8).sub ((arctanOneIn bits 239).times 2)

def logTwo (bits : Nat) : Enclosure := (artanh bits (1 / 3)).times 2

/-- The natural logarithm of a positive number: that of a factor around one, and so many times the logarithm of two. -/
def log (bits : Nat) (q : Rat) : Enclosure :=
  let order := binaryOrder q
  let factor := q / (2 : Rat) ^ order
  let (factor, order) := if 2 < factor * factor then (factor / 2, order + 1) else (factor, order)
  ((artanh bits ((factor - 1) / (factor + 1))).times 2).add ((logTwo bits).times order)

/-- The sine of a number that lies `turn` quarter turns further on. -/
def sinAt (bits : Nat) (turn : Int) (q : Rat) : Enclosure :=
  let x := ofRat bits q
  let quarter := halfPi bits
  let k := x.ratio quarter
  let r := x.sub (quarter.times k)
  match ((k + turn) % 4).toNat with
  | 0 => sin bits r
  | 1 => cos bits r
  | 2 => (sin bits r).neg
  | _ => (cos bits r).neg

def bounds (a : Enclosure) (exp : Int) : Rat × Rat :=
  (((a.mid - a.err : Int) : Rat) * (2 : Rat) ^ exp, ((a.mid + a.err : Int) : Rat) * (2 : Rat) ^ exp)

end Enclosure

namespace Binary

variable {F : Format}

/-- The number to which both bounds round, from the first resolution at which they agree.  Bounds that never agreed
would be settled by the lower one; a value that is not halfway between two numbers gets clear of the halfway points. -/
def settle (bounds : Nat → Rat × Rat) : Nat → Nat → Binary F
  | 0, bits => ofRat (bounds bits).1
  | tries + 1, bits =>
    let (lower, upper) := bounds bits
    let x : Binary F := ofRat lower
    if x = ofRat upper then x else settle bounds tries (2 * bits)

/-- The number to which bounds that get closer and closer round. -/
def ofBounds (bounds : Nat → Rat × Rat) : Binary F := settle bounds 12 (F.precision + 64)

end Binary

end SignalFormula
