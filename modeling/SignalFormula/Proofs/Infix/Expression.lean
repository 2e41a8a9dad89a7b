import SignalFormula.Program.Operation
import SignalFormula.Text.Blank
import SignalFormula.Token.Lexeme
/-!
# Expression — conventional expressions as trees, and the tokens that write them

A tree has one list of words in postfix order (`Expression.words`) and many lists of tokens that write it
(`Expression.Writes`).  A writing has a rank, which is how strongly it holds together: that of its operator, or the one
above all operators if it is closed.  An operand stands without brackets only if it holds together more strongly than its
operator, or as strongly and on the left.

What the leaves are is left open.  The leaves of a formula are literals and names (`Atom`).
-/
namespace SignalFormula

/-- The exponent of a literal: the mark, a sign if there is one, and digits. -/
structure Exponent where
  mark : Char
  sign : Text
  digits : Text
  mark_eq : mark = 'e' ∨ mark = 'E'
  sign_eq : sign = [] ∨ sign = ['+'] ∨ sign = ['-']
  digits_ne_nil : digits ≠ []
  isDigit_digits : ∀ c ∈ digits, c.isDigit = true

/-- A literal `-?D+(.D*)?([eE][+-]?D+)?` over the ASCII digits `D`. -/
structure Literal where
  negative : Bool
  whole : Text
  fraction : Option Text
  exponent : Option Exponent
  whole_ne_nil : whole ≠ []
  isDigit_whole : ∀ c ∈ whole, c.isDigit = true
  isDigit_fraction : ∀ f ∈ fraction, ∀ c ∈ f, c.isDigit = true

namespace Literal

/-- The digits in front of the exponent, with the point if there is one. -/
def mantissa (l : Literal) : Text :=
  l.whole ++ match l.fraction with
    | some f => '.' :: f
    | none => []

def magnitude (l : Literal) : Text :=
  l.mantissa ++ match l.exponent with
    | some e => e.mark :: (e.sign ++ e.digits)
    | none => []

def text (l : Literal) : Text := if l.negative then '-' :: l.magnitude else l.magnitude

end Literal

/-- A name as the lexer takes one; it may be a builtin word. -/
structure Name where
  text : Text
  startsName : Token.startsName text = true
  not_isSeparator : ∀ c ∈ text, Token.isSeparator c = false
  not_isBlank : ∀ c ∈ text, Text.isBlank c = false

/-- A leaf of a formula: a literal, or the name of an input, which is no builtin word. -/
inductive Atom where
  | literal (l : Literal)
  | name (n : Name) (not_builtin : ∀ V : Type, Operation.ofKeyword? (V := V) n.text = none)

def Atom.token : Atom → Token
  | .literal l => .operand l.text
  | .name n _ => .name n.text

/-- A conventional expression.  Two arguments go to an operation whose word is a name. -/
inductive Expression (A : Type) where
  | leaf (a : A)
  | rand
  | operator (o : Operator) (left right : Expression A)
  | call (f : UnaryOp) (argument : Expression A)
  | callTwo (f : BinaryOp) (named : Token.startsName f.keyword = true) (first second : Expression A)

namespace Expression

variable {A : Type} (token : A → Token)

def randWord : Text := ['r', 'a', 'n', 'd']

def words : Expression A → List Text
  | .leaf a => [(token a).text]
  | .rand => [randWord]
  | .operator o l r => l.words ++ r.words ++ [o.text]
  | .call f e => e.words ++ [f.keyword]
  | .callTwo f _ l r => l.words ++ r.words ++ [f.keyword]

/-- The rank of a writing that no operator beside it takes apart. -/
def closedRank : Nat := 40

/-- **The tokens write the tree**, and hold together at a rank. -/
inductive Writes : Expression A → Nat → List Token → Prop where
  | leaf (a : A) : Writes (.leaf a) closedRank [token a]
  | rand : Writes .rand closedRank [.name randWord]
  | randCall : Writes .rand closedRank [.name randWord, .openParen, .closeParen]
  | bracket {e : Expression A} {rank : Nat} {ts : List Token} (inner : Writes e rank ts) :
      Writes e closedRank (.openParen :: (ts ++ [.closeParen]))
  | operator {o : Operator} {l r : Expression A} {rankL rankR : Nat} {ls rs : List Token}
      (left : Writes l rankL ls) (right : Writes r rankR rs) (hleft : o.rank ≤ rankL) (hright : o.rank < rankR) :
      Writes (.operator o l r) o.rank (ls ++ .operator o :: rs)
  | call {f : UnaryOp} {e : Expression A} {rank : Nat} {ts : List Token} (inner : Writes e rank ts) :
      Writes (.call f e) closedRank (.name f.keyword :: .openParen :: (ts ++ [.closeParen]))
  | callTwo {f : BinaryOp} {named : Token.startsName f.keyword = true} {l r : Expression A} {rankL rankR : Nat}
      {ls rs : List Token} (left : Writes l rankL ls) (right : Writes r rankR rs) :
      Writes (.callTwo f named l r) closedRank
        (.name f.keyword :: .openParen :: (ls ++ .comma :: (rs ++ [.closeParen])))

end Expression

end SignalFormula
