import SignalFormula.Formula
/-!
# Session — any number of formulas under a row of actions

Formulas are numbered, and all of them are there from the start, empty.  An action is on one of them and leaves the
others as they are.
-/
namespace SignalFormula

inductive Action (V : Type) where
  /-- An empty formula takes its place, with a seed if one is given. -/
  | new (seed : Option UInt16)
  /-- The formula of an expression takes its place, unless that fails to compile. -/
  | compile (expression : Text) (inputs : List Text)
  /-- The formula gets the program of an expression, unless that fails to compile. -/
  | recompile (expression : Text) (inputs : List Text)
  | evaluate (values : List V)
  | reseed (seed : UInt16)
  | clone (source : Nat)

inductive Answer (V : Type) where
  | done
  | rejected (error : CompileError)
  | value (result : Except Fault V)

def Session (V : Type) : Type := Nat → Formula V

namespace Session

variable {V : Type} [Scalar V]

def start : Session V := fun _ => Formula.empty

def set (s : Session V) (n : Nat) (f : Formula V) : Session V := fun k => if k = n then f else s k

/-- An attempt to put a formula in place: the session stays as it is if it fails. -/
def attempt (s : Session V) (n : Nat) : Except CompileError (Formula V) → Answer V × Session V
  | .ok f => (.done, s.set n f)
  | .error e => (.rejected e, s)

def perform (s : Session V) (n : Nat) : Action V → Answer V × Session V
  | .new seed => (.done, s.set n (Formula.ofSeed (seed.getD Noise.defaultSeed)))
  | .compile expression inputs => s.attempt n (Formula.compile expression inputs)
  | .recompile expression inputs => s.attempt n ((s n).recompile expression inputs)
  | .evaluate values => let (result, f) := (s n).evaluate values; (.value result, s.set n f)
  | .reseed seed => (.done, s.set n ((s n).reseed seed))
  | .clone source => (.done, s.set n (s source))

/-- **An action leaves every other formula as it was.** -/
theorem perform_other (s : Session V) {n k : Nat} (h : k ≠ n) (a : Action V) : (s.perform n a).2 k = s k := by
  cases a <;> simp only [perform, attempt, set, h, ↓reduceIte]
  all_goals split <;> simp [set, h]

def performAll : Session V → List (Nat × Action V) → Session V
  | s, [] => s
  | s, (n, a) :: rest => performAll (s.perform n a).2 rest

end Session

end SignalFormula
