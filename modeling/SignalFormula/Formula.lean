import SignalFormula.Program.Compile
import SignalFormula.Program.Machine
/-!
# Formula — a program with noise of its own

A formula is compiled once and evaluated many times.  It owns its noise register, so two formulas never affect each
other.  An evaluation moves the register on by its draws; compiling anew leaves the register as it is, and a failure to
compile leaves the program too.
-/
namespace SignalFormula

/-- A formula: its program, if it has one yet, and its noise. -/
structure Formula (V : Type) where
  program : Option (Program V)
  noise : Noise
deriving DecidableEq

namespace Formula

variable {V : Type} [Scalar V]

def ofSeed (seed : UInt16) : Formula V := ⟨none, ⟨seed⟩⟩

/-- A formula without a program and without a seed of its own. -/
def empty : Formula V := ofSeed Noise.defaultSeed

instance : Inhabited (Formula V) := ⟨empty⟩

def recompile (f : Formula V) (expression : Text) (inputs : List Text) : Except CompileError (Formula V) :=
  (Program.compile expression inputs).map fun p => { f with program := some p }

def compile (expression : Text) (inputs : List Text) : Except CompileError (Formula V) :=
  empty.recompile expression inputs

/-- The value of the formula, or the fault that ended the evaluation, and the formula afterwards.  A formula without a
program has the value zero. -/
def evaluate (f : Formula V) (values : List V) : Except Fault V × Formula V :=
  match f.program with
  | none => (.ok Scalar.zero, f)
  | some p => let (result, noise) := p.evaluate values f.noise; (result, { f with noise })

def reseed (f : Formula V) (seed : UInt16) : Formula V := { f with noise := ⟨seed⟩ }

end Formula

end SignalFormula
