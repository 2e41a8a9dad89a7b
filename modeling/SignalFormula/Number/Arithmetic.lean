import SignalFormula.Number.Binary
/-!
# Arithmetic — the operations of a format

Each operation is exact on rational numbers and rounded once.  What rational numbers do not say is said here: infinities,
NaNs, and the signs of zeros.  `max` and `min` take the other operand where one is a NaN.
-/
namespace SignalFormula
namespace Binary

variable {F : Format}

def neg : Binary F → Binary F
  | .nan => .nan
  | .infinite s => .infinite !s
  | .finite s m e h => .finite (!s) m e h

/-- The sum; an exact zero is negative only if both operands are. -/
def add : Binary F → Binary F → Binary F
  | .nan, _ | _, .nan => .nan
  | .infinite s, .infinite t => if s = t then .infinite s else .nan
  | .infinite s, .finite .. => .infinite s
  | .finite .., .infinite t => .infinite t
  | .finite s m e _, .finite t n f _ =>
    let sum := signed s (scaled m e) + signed t (scaled n f)
    if sum = 0 then zero (s && t) else ofRat sum

def sub (x y : Binary F) : Binary F := x.add y.neg

def mul : Binary F → Binary F → Binary F
  | .nan, _ | _, .nan => .nan
  | .infinite s, .infinite t => .infinite (s ^^ t)
  | .infinite s, .finite t n _ _ => if n = 0 then .nan else .infinite (s ^^ t)
  | .finite s m _ _, .infinite t => if m = 0 then .nan else .infinite (s ^^ t)
  | .finite s m e _, .finite t n f _ => round (s ^^ t) (scaled m e * scaled n f)

/-- The quotient; by zero it is an infinity, or a NaN for zero by zero. -/
def div : Binary F → Binary F → Binary F
  | .nan, _ | _, .nan => .nan
  | .infinite _, .infinite _ => .nan
  | .infinite s, .finite t .. => .infinite (s ^^ t)
  | .finite s .., .infinite t => zero (s ^^ t)
  | .finite s m e _, .finite t n f _ =>
    if n = 0 then (if m = 0 then .nan else .infinite (s ^^ t))
    else round (s ^^ t) (scaled m e / scaled n f)

def trunc : Binary F → Binary F
  | .finite s m e _ => round s ((scaled m e).floor : Rat)
  | x => x

/-- The first number is less than the second; nothing is less than a NaN or greater. -/
def less : Binary F → Binary F → Bool
  | .nan, _ | _, .nan => false
  | .infinite s, .infinite t => s && !t
  | .infinite s, .finite .. => s
  | .finite .., .infinite t => !t
  | .finite s m e _, .finite t n f _ => signed s (scaled m e) < signed t (scaled n f)

def max : Binary F → Binary F → Binary F
  | .nan, y => y
  | x, .nan => x
  | x, y => if less x y then y else x

def min : Binary F → Binary F → Binary F
  | .nan, y => y
  | x, .nan => x
  | x, y => if less y x then y else x

end Binary

end SignalFormula
