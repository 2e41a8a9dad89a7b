import SignalFormula.Noise
import SignalFormula.Program
import SignalFormula.Program.Error
/-!
# Machine — a program at work

The machine has a fixed number of slots and a height: the slots below the height hold the stack.  An operation reads and
writes slots around the height, and what is above it does not count.  A program that was compiled never leaves the
slots; it can ask for an input that is not there, and then the run ends with the noise drawn so far.
-/
namespace SignalFormula

inductive Fault where
  | missingInput (count index : Nat)
  /-- The program takes more values than there are, or leaves more than there are slots. -/
  | stackBounds (height : Nat)
deriving DecidableEq, Repr

def Fault.message : Fault → Text
  | .missingInput count index =>
    "index out of bounds: the len is ".toList ++ Text.ofNat count ++ " but the index is ".toList ++ Text.ofNat index
  | .stackBounds height => "stack out of bounds at height ".toList ++ Text.ofNat height

/-- The slots, how many of them hold the stack, and the noise register. -/
structure Machine (V : Type) where
  slots : Vector V stackCapacity
  height : Nat
  noise : Noise

namespace Machine

variable {V : Type} [Scalar V]

def start (noise : Noise) : Machine V := ⟨Vector.replicate stackCapacity Scalar.zero, 0, noise⟩

def push (m : Machine V) (v : V) : Except Fault (Machine V) :=
  if h : m.height < stackCapacity then .ok { m with slots := m.slots.set m.height v h, height := m.height + 1 }
  else .error (.stackBounds m.height)

def step (values : List V) (m : Machine V) : Operation V → Except Fault (Machine V)
  | .binary f =>
    if h : 2 ≤ m.height ∧ m.height ≤ stackCapacity then
      let v := f.apply (m.slots[m.height - 2]) (m.slots[m.height - 1])
      .ok { m with slots := m.slots.set (m.height - 2) v (by omega), height := m.height - 1 }
    else .error (.stackBounds m.height)
  | .unary f =>
    if h : 1 ≤ m.height ∧ m.height ≤ stackCapacity then
      let v := f.apply (m.slots[m.height - 1])
      .ok { m with slots := m.slots.set (m.height - 1) v (by omega) }
    else .error (.stackBounds m.height)
  | .rand =>
    let (v, noise) : V × Noise := m.noise.draw
    push { m with noise } v
  | .input i =>
    match values[i]? with
    | some v => push m v
    | none => .error (.missingInput values.length i)
  | .const v => push m v

/-- The machine after the operations, or where it stopped and why. -/
def run (values : List V) : Machine V → List (Operation V) → Machine V × Option Fault
  | m, [] => (m, none)
  | m, op :: ops =>
    match m.step values op with
    | .ok m => run values m ops
    | .error fault => (m, some fault)

def top (m : Machine V) : V :=
  if h : 1 ≤ m.height ∧ m.height ≤ stackCapacity then m.slots[m.height - 1] else Scalar.zero

end Machine

namespace Program

variable {V : Type} [Scalar V]

/-- The value of a program, or the fault that ended it, and the noise that is left. -/
def evaluate (p : Program V) (values : List V) (noise : Noise) : Except Fault V × Noise :=
  match Machine.run values (Machine.start noise) p.ops with
  | (m, none) => (.ok m.top, m.noise)
  | (m, some fault) => (.error fault, m.noise)

end Program

end SignalFormula
