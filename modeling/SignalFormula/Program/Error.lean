import SignalFormula.Text.Basic
/-!
# Error — why an expression is no program

Every fault is found before anything is evaluated.  An error has its cause and the expression it is in, as that was
given.
-/
namespace SignalFormula

def stackCapacity : Nat := 20

inductive CompileFault where
  /-- A word that is no builtin, no input and no literal in range. -/
  | unknownToken (token : Text)
  | stackUnderflow (token : Text)
  | unopenedBracket
  | imbalanced (depth : Nat)
  | stackOverflow (depth : Nat)
deriving DecidableEq, Repr

structure CompileError where
  fault : CompileFault
  expression : Text
deriving DecidableEq, Repr

namespace CompileError

def token? (e : CompileError) : Option Text :=
  match e.fault with
  | .unknownToken t | .stackUnderflow t => some t
  | _ => none

def message (e : CompileError) : Text :=
  match e.fault with
  | .unknownToken t =>
    "unknown/misformatted token <".toList ++ t ++ "> in <".toList ++ e.expression ++ ">".toList
  | .stackUnderflow t => "stack underflow on token <".toList ++ t ++ "> in <".toList ++ e.expression ++ ">".toList
  | .unopenedBracket => "stack underflow during infix parsing of <".toList ++ e.expression ++ ">".toList
  | .imbalanced depth =>
    "stack count ".toList ++ Text.ofNat depth ++ " different to one on <".toList ++ e.expression ++ ">".toList
  | .stackOverflow depth =>
    "expression <".toList ++ e.expression ++ "> needs ".toList ++ Text.ofNat depth ++
      " stack slots, capacity is ".toList ++ Text.ofNat stackCapacity

end CompileError

end SignalFormula
