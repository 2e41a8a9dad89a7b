import SignalFormula.Cli.Log
/-!
# Report — a run that writes output and events, and may fail

A report is what a part of a run wrote, the events of it, and its result.  Parts in a row write one after the other; the
first failure ends the row and keeps what was written until then.
-/
namespace SignalFormula
namespace Cli

/-- What a part of a run wrote, what happened, and the result. -/
structure Report (ε α : Type) where
  output : Text
  events : List Event
  result : Except ε α

namespace Report

variable {ε α β : Type}

def ofExcept (r : Except ε α) : Report ε α := ⟨[], [], r⟩

def print (t : Text) : Report ε Unit := ⟨t, [], .ok ()⟩

def log (e : Event) : Report ε Unit := ⟨[], [e], .ok ()⟩

/-- One part after another, which has the result of the first. -/
def andThen (r : Report ε α) (f : α → Report ε β) : Report ε β :=
  match r.result with
  | .error e => ⟨r.output, r.events, .error e⟩
  | .ok a =>
    let s := f a
    ⟨r.output ++ s.output, r.events ++ s.events, s.result⟩

instance : Monad (Report ε) where
  pure a := ofExcept (.ok a)
  bind := andThen

@[simp] theorem pure_eq (a : α) : (pure a : Report ε α) = ⟨[], [], .ok a⟩ := rfl

@[simp] theorem bind_eq (r : Report ε α) (f : α → Report ε β) : r >>= f = r.andThen f := rfl

@[simp] theorem ofExcept_error_andThen (e : ε) (f : α → Report ε β) :
    (ofExcept (.error e)).andThen f = ofExcept (.error e) := rfl

@[simp] theorem ofExcept_ok_andThen (a : α) (f : α → Report ε β) : (ofExcept (.ok a)).andThen f = f a := by
  simp [andThen, ofExcept]

end Report

end Cli

end SignalFormula
