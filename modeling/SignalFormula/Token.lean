import SignalFormula.Text.Basic
/-!
# Token — the tokens of a conventional expression

A token is a bracket, a comma, one of the five binary operators, a name (of an input or a function), or an operand: a
literal, or anything else.  The class is read off the token's text, and the text is read off the token again.
-/
namespace SignalFormula

/-- A binary operator between its operands.  All five associate to the left. -/
inductive Operator where
  | plus | minus | times | divide | power
deriving DecidableEq, Repr

namespace Operator

def text : Operator → Text
  | .plus => ['+']
  | .minus => ['-']
  | .times => ['*']
  | .divide => ['/']
  | .power => ['^']

def ofText? : Text → Option Operator
  | ['+'] => some .plus
  | ['-'] => some .minus
  | ['*'] => some .times
  | ['/'] => some .divide
  | ['^'] => some .power
  | _ => none

def rank : Operator → Nat
  | .plus | .minus => 10
  | .times | .divide => 20
  | .power => 30

theorem ofText?_text (o : Operator) : ofText? o.text = some o := by cases o <;> rfl

theorem text_of_ofText? {t : Text} {o : Operator} (h : ofText? t = some o) : o.text = t := by
  unfold ofText? at h
  split at h <;> cases h <;> rfl

end Operator

inductive Token where
  | openParen
  | closeParen
  | comma
  | operator (o : Operator)
  | name (t : Text)
  | operand (t : Text)
deriving DecidableEq, Repr

namespace Token

def startsName : Text → Bool
  | [] => false
  | c :: _ => c.isAlpha || c = '_'

def ofText : Text → Token
  | ['('] => .openParen
  | [')'] => .closeParen
  | [','] => .comma
  | t =>
    match Operator.ofText? t with
    | some o => .operator o
    | none => if startsName t then .name t else .operand t

def text : Token → Text
  | .openParen => ['(']
  | .closeParen => [')']
  | .comma => [',']
  | .operator o => o.text
  | .name t | .operand t => t

/-- **A token keeps its text.** -/
theorem text_ofText (t : Text) : (ofText t).text = t := by
  unfold ofText
  split
  · rfl
  · rfl
  · rfl
  · split
    · rename_i o h
      exact Operator.text_of_ofText? h
    · split <;> rfl

end Token

end SignalFormula
