import SignalFormula.Formula
import SignalFormula.Json.Value
/-!
# Spec — the definition of a formula

A spec holds what it takes to build a formula: the expression, the names of its inputs in order, and a seed for the
noise if it is to have one of its own.
-/
namespace SignalFormula

structure Spec where
  expression : Text
  inputs : List Text := []
  seed : Option UInt16 := none
deriving DecidableEq, Repr

namespace Spec

def build {V : Type} [Scalar V] (s : Spec) : Except CompileError (Formula V) :=
  (Formula.ofSeed (s.seed.getD Noise.defaultSeed)).recompile s.expression s.inputs

/-! ## The fields by name -/

def expressionField : Text := "expression".toList

def inputsField : Text := "inputs".toList

def seedField : Text := "seed".toList

def toJson (s : Spec) : Json :=
  .object <|
    [(expressionField, .string s.expression), (inputsField, .array (s.inputs.map .string))] ++
      match s.seed with
      | some seed => [(seedField, .number (.integer seed.toNat))]
      | none => []

end Spec

end SignalFormula
