import SignalFormula.Postfix
import SignalFormula.Program
import SignalFormula.Program.Error
/-!
# Compile — from an expression to a program

The words of an expression in postfix order become operations one by one, while the height of the stack is kept count
of.  A program comes out only if every word is known, no operation finds too few values, one value is left at the end,
and the stack never needs more slots than an evaluation has.

A word is a builtin before it is an input and an input before it is a literal; of inputs with one name the first counts.
-/
namespace SignalFormula

inductive Style where
  | conventional
  | reversed
deriving DecidableEq, Repr

namespace Style

def mark : Text := "rpn:".toList

/-- The notation of an expression, and the expression without the mark. -/
def detect (expression : Text) : Style × Text :=
  match Text.afterLead? mark expression with
  | some body => (.reversed, body)
  | none => (.conventional, expression)

end Style

namespace Program

variable {V : Type} [Scalar V]

def resolve? (inputs : List Text) (word : Text) : Option (Operation V) :=
  match Operation.ofKeyword? word with
  | some op => some op
  | none =>
    match inputs.findIdx? (· = word) with
    | some i => some (.input i)
    | none => (Scalar.literal? word).map .const

/-- The operations of the words, with the height of the stack at the end and the greatest one, from the height and the
greatest height so far.  The first word that fails ends it. -/
def operations (inputs : List Text) : Nat → Nat → List Text → Except CompileFault (List (Operation V) × Nat × Nat)
  | height, peak, [] => .ok ([], height, peak)
  | height, peak, word :: words =>
    match resolve? inputs word with
    | none => .error (.unknownToken word)
    | some op =>
      if height < op.arity then .error (.stackUnderflow word)
      else
        let height := height - op.arity + 1
        match operations inputs height (max peak height) words with
        | .error fault => .error fault
        | .ok (ops, final, peak) => .ok (op :: ops, final, peak)

def assemble (inputs : List Text) (words : List Text) : Except CompileFault (Program V) :=
  match operations inputs 0 0 words with
  | .error fault => .error fault
  | .ok (ops, final, peak) =>
    if final ≠ 1 then .error (.imbalanced final)
    else if stackCapacity < peak then .error (.stackOverflow peak)
    else .ok ⟨ops, peak⟩

def compileReversed (expression : Text) (inputs : List Text) : Except CompileError (Program V) :=
  (assemble inputs (Text.words expression)).mapError fun fault => ⟨fault, expression⟩

def compileConventional (expression : Text) (inputs : List Text) : Except CompileError (Program V) :=
  match Postfix.ofText? expression with
  | none => .error ⟨.unopenedBracket, expression⟩
  | some words => (assemble inputs words).mapError fun fault => ⟨fault, expression⟩

/-- The program of an expression in the notation that its mark, or none, says. -/
def compile (expression : Text) (inputs : List Text) : Except CompileError (Program V) :=
  match Style.detect expression with
  | (.reversed, body) => compileReversed body inputs
  | (.conventional, body) => compileConventional body inputs

end Program

namespace Postfix

def render (expression : Text) : Except CompileError Text :=
  match ofText? expression with
  | none => .error ⟨.unopenedBracket, expression⟩
  | some words => .ok (Text.unwords words)

end Postfix

end SignalFormula
