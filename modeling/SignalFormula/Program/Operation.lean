import SignalFormula.Scalar
/-!
# Operation — what a stack machine does in one step

A binary operation takes the two topmost values, the left operand below the right one, and leaves one; a unary operation
takes one and leaves one; a push takes none.  So every operation takes its arity and leaves one value.
-/
namespace SignalFormula

inductive BinaryOp where
  | add | sub | mul | div | pow | max | min
deriving DecidableEq, Repr

inductive UnaryOp where
  | sin | cos | trunc
deriving DecidableEq, Repr

inductive Operation (V : Type) where
  | binary (f : BinaryOp)
  | unary (f : UnaryOp)
  | rand
  | input (index : Nat)
  | const (value : V)
deriving DecidableEq

def BinaryOp.apply {V : Type} [Scalar V] : BinaryOp → V → V → V
  | .add => Scalar.add
  | .sub => Scalar.sub
  | .mul => Scalar.mul
  | .div => Scalar.div
  | .pow => Scalar.pow
  | .max => Scalar.max
  | .min => Scalar.min

def UnaryOp.apply {V : Type} [Scalar V] : UnaryOp → V → V
  | .sin => Scalar.sin
  | .cos => Scalar.cos
  | .trunc => Scalar.trunc

def BinaryOp.keyword : BinaryOp → Text
  | .add => ['+']
  | .sub => ['-']
  | .mul => ['*']
  | .div => ['/']
  | .pow => ['p', 'o', 'w']
  | .max => ['m', 'a', 'x']
  | .min => ['m', 'i', 'n']

def UnaryOp.keyword : UnaryOp → Text
  | .sin => ['s', 'i', 'n']
  | .cos => ['c', 'o', 's']
  | .trunc => ['t', 'r', 'u', 'n', 'c']

namespace Operation

variable {V : Type}

/-- The operation that a builtin word names; power has a sign and a name. -/
def ofKeyword? : Text → Option (Operation V)
  | ['+'] => some (.binary .add)
  | ['-'] => some (.binary .sub)
  | ['*'] => some (.binary .mul)
  | ['/'] => some (.binary .div)
  | ['^'] => some (.binary .pow)
  | ['p', 'o', 'w'] => some (.binary .pow)
  | ['m', 'a', 'x'] => some (.binary .max)
  | ['m', 'i', 'n'] => some (.binary .min)
  | ['s', 'i', 'n'] => some (.unary .sin)
  | ['c', 'o', 's'] => some (.unary .cos)
  | ['t', 'r', 'u', 'n', 'c'] => some (.unary .trunc)
  | ['r', 'a', 'n', 'd'] => some .rand
  | _ => none

/-- The builtin word of an operation; pushes of inputs and constants have none. -/
def keyword? : Operation V → Option Text
  | .binary f => some f.keyword
  | .unary f => some f.keyword
  | .rand => some ['r', 'a', 'n', 'd']
  | .input _ | .const _ => none

/-- **A builtin word names its operation.** -/
theorem ofKeyword?_keyword : ∀ {op : Operation V} {w : Text}, op.keyword? = some w → ofKeyword? w = some op
  | .binary f, w, h => by cases f <;> cases h <;> rfl
  | .unary f, w, h => by cases f <;> cases h <;> rfl
  | .rand, w, h => by cases h; rfl
  | .input _, _, h => by cases h
  | .const _, _, h => by cases h

/-- The number of values that the operation takes from the stack. -/
def arity : Operation V → Nat
  | .binary _ => 2
  | .unary _ => 1
  | .rand | .input _ | .const _ => 0

def effect (op : Operation V) : Int := 1 - (op.arity : Int)

end Operation

end SignalFormula
