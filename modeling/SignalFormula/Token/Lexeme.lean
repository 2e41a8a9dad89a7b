import SignalFormula.Text.Blank
import SignalFormula.Text.Pieces
import SignalFormula.Token
/-!
# Lexeme — a conventional expression cut into the texts of its tokens

The text is cut at the eight separators.  That breaks `-1.5e-3` into `-`, `1.5e`, `-` and `3`; two passes put such
numerals together again, by position alone:
- a piece that starts with a digit and ends in the exponent mark takes a sign after it and the digits after that;
- a minus sign where an operand is due takes a piece after it that starts with a digit.

Neither pass drops or adds a character (`flatten_lexemes`).
-/
namespace SignalFormula

namespace Token

def isSeparator (c : Char) : Bool :=
  c = '(' || c = ')' || c = ',' || c = '*' || c = '/' || c = '+' || c = '-' || c = '^'

def startsDigit : Text → Bool := Text.startsWith Char.isDigit

def endsExponent : Text → Bool := Text.endsWith fun c => c = 'e' || c = 'E'

def isSign (t : Text) : Bool := t = ['-'] || t = ['+']

def joinExponents : List Text → List Text
  | w :: s :: v :: rest =>
    if startsDigit w && endsExponent w && isSign s && startsDigit v then (w ++ s ++ v) :: joinExponents rest
    else w :: joinExponents (s :: v :: rest)
  | short => short

def precedesOperand (t : Text) : Bool := t = ['('] || t = [','] || (Operator.ofText? t).isSome

/-- Negative numerals put together; `due` says that an operand is due at the front. -/
def joinSigns : Bool → List Text → List Text
  | due, p :: w :: rest =>
    if due && p = ['-'] && startsDigit w then ('-' :: w) :: joinSigns false rest
    else p :: joinSigns (precedesOperand p) (w :: rest)
  | _, short => short

/-- The texts of the tokens, in order.  Nothing is taken out: white space is to be gone already. -/
def lexemes (t : Text) : List Text := joinSigns true (joinExponents (Text.pieces isSeparator t))

def scan (t : Text) : List Token := (lexemes t).map ofText

theorem flatten_joinExponents (ps : List Text) : (joinExponents ps).flatten = ps.flatten := by
  fun_induction joinExponents ps <;> simp_all

theorem flatten_joinSigns (due : Bool) (ps : List Text) : (joinSigns due ps).flatten = ps.flatten := by
  fun_induction joinSigns due ps <;> simp_all

/-- **The lexemes in order are the text.** -/
theorem flatten_lexemes (t : Text) : (lexemes t).flatten = t := by
  rw [lexemes, flatten_joinSigns, flatten_joinExponents, Text.flatten_pieces]

theorem map_text_scan (t : Text) : (scan t).map text = lexemes t := by
  rw [scan, List.map_map]
  conv => rhs; rw [← List.map_id (lexemes t)]
  exact List.map_congr_left fun s _ => text_ofText s

end Token

end SignalFormula
