import SignalFormula.Program.Operation
/-!
# Program — a compiled formula

A program is a row of operations and the greatest height of the stack while they run.  It is written out in two ways: as
postfix words that compile to the program again, and as a listing with one numbered operation a line.
-/
namespace SignalFormula

structure Program (V : Type) where
  ops : List (Operation V) := []
  maxDepth : Nat := 0
deriving DecidableEq

instance {V : Type} : Inhabited (Program V) := ⟨{}⟩

namespace Operation

variable {V : Type} [Scalar V]

/-- The postfix word of an operation; an input is written by its name, or by its number if there is no name. -/
def word (names : List Text) : Operation V → Text
  | .binary f => f.keyword
  | .unary f => f.keyword
  | .rand => ['r', 'a', 'n', 'd']
  | .input i => (names[i]?).getD ('#' :: Text.ofNat i)
  | .const v => Scalar.toText v

def listing : Operation V → Text
  | .binary f => f.keyword
  | .unary f => f.keyword
  | .rand => ['r', 'a', 'n', 'd']
  | .input i => "input #".toList ++ Text.ofNat i
  | .const v => "const ".toList ++ Scalar.toText v

end Operation

namespace Program

variable {V : Type} [Scalar V]

def toPostfix (names : List Text) (p : Program V) : Text := Text.unwords (p.ops.map (Operation.word names))

def offset (n : Nat) : Text := List.replicate (4 - (Text.ofNat n).length) '0' ++ Text.ofNat n

def listFrom : Nat → List (Operation V) → Text
  | _, [] => []
  | n, op :: ops => offset n ++ ": ".toList ++ op.listing ++ '\n' :: listFrom (n + 1) ops

/-- The listing: one operation a line, each with its offset in front. -/
def disassemble (p : Program V) : Text := listFrom 0 p.ops

end Program

end SignalFormula
