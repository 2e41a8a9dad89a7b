import SignalFormula.Token.Lexeme
/-!
# Postfix — a conventional expression as words in postfix order

Operands are words as they come.  Operators, opened brackets and called names wait on a stack, and each becomes a word
when its operands are complete: an operator when one that binds no stronger comes or its bracket closes, a called name
when its bracket closes.  A comma closes its bracket and opens it again.

The only fault is a closing bracket or a comma with no bracket open.  Nothing here counts operands: whether the words
make sense is found when they are assembled.
-/
namespace SignalFormula
namespace Postfix

inductive Pending where
  | bracket
  | operator (o : Operator)
  | call (name : Text)
deriving DecidableEq, Repr

/-- The word it becomes; a bracket that is never closed becomes one too. -/
def Pending.word : Pending → Text
  | .bracket => ['(']
  | .operator o => o.text
  | .call name => name

/-- The words down to the innermost bracket, and what waits below it. -/
def close? : List Pending → Option (List Text × List Pending)
  | [] => none
  | .bracket :: rest => some ([], rest)
  | p :: rest => (close? rest).map fun (ws, below) => (p.word :: ws, below)

/-- The words of the operators on top that bind at least as strongly, and what waits below them. -/
def release (o : Operator) : List Pending → List Text × List Pending
  | .operator top :: rest =>
    if top.rank < o.rank then ([], .operator top :: rest)
    else let (ws, below) := release o rest; (top.text :: ws, below)
  | stack => ([], stack)

/-- The word of a called name on top, and what waits below it. -/
def releaseCall : List Pending → List Text × List Pending
  | .call name :: rest => ([name], rest)
  | stack => ([], stack)

/-- One token read: the words that are complete, and what waits then.  A name is called if a bracket follows. -/
def step? (stack : List Pending) (token : Token) (next : Option Token) : Option (List Text × List Pending) :=
  match token with
  | .openParen => some ([], .bracket :: stack)
  | .closeParen => (close? stack).map fun (ws, below) =>
    let (call, below) := releaseCall below
    (ws ++ call, below)
  | .comma => (close? stack).map fun (ws, below) => (ws, .bracket :: below)
  | .operator o => let (ws, below) := release o stack; some (ws, .operator o :: below)
  | .name t => if next = some .openParen then some ([], .call t :: stack) else some ([t], stack)
  | .operand t => some ([t], stack)

/-- The words of the tokens, with what waits in front of them. -/
def arrange? : List Pending → List Token → Option (List Text)
  | stack, [] => some (stack.map Pending.word)
  | stack, token :: tokens => do
    let (ws, stack) ← step? stack token tokens.head?
    let rest ← arrange? stack tokens
    some (ws ++ rest)

def ofTokens? (tokens : List Token) : Option (List Text) := arrange? [] tokens

def ofText? (expression : Text) : Option (List Text) := ofTokens? (Token.scan (Text.compact expression))

end Postfix

end SignalFormula
