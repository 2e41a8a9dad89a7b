import SignalFormula.Program.Compile
import SignalFormula.Text.Quoted
/-!
# Log — what a run reports beside its output

Every event has a level, and a filter says down to which level events are written.  A line has the level, the message,
and the fields with their values.
-/
namespace SignalFormula
namespace Cli

inductive Level where
  | error | warn | info | debug | trace
deriving DecidableEq, Repr

namespace Level

def depth : Level → Nat
  | .error => 1
  | .warn => 2
  | .info => 3
  | .debug => 4
  | .trace => 5

def text : Level → Text
  | .error => "ERROR".toList
  | .warn => "WARN".toList
  | .info => "INFO".toList
  | .debug => "DEBUG".toList
  | .trace => "TRACE".toList

end Level

structure Filter where
  depth : Nat
deriving DecidableEq, Repr

namespace Filter

def standard : Filter := ⟨Level.info.depth⟩

/-- The filter of a word for a level, in letters of any case, or of its number. -/
def ofLevel? (t : Text) : Option Filter :=
  let word := t.map Char.toLower
  if word = "off".toList ∨ word = ['0'] then some ⟨0⟩
  else if word = "error".toList ∨ word = ['1'] ∨ word = [] then some ⟨1⟩
  else if word = "warn".toList ∨ word = ['2'] then some ⟨2⟩
  else if word = "info".toList ∨ word = ['3'] then some ⟨3⟩
  else if word = "debug".toList ∨ word = ['4'] then some ⟨4⟩
  else if word = "trace".toList ∨ word = ['5'] then some ⟨5⟩
  else none

/-- What stands before a level that is for this program alone. -/
def scope : Text := "sigexpr=".toList

def ofText (t : Text) : Filter :=
  (ofLevel? ((Text.afterLead? scope t).getD t)).getD standard

end Filter

structure Event where
  level : Level
  message : Text
  fields : List (Text × Text)
deriving DecidableEq, Repr

namespace Event

def line (e : Event) : Text :=
  e.level.text ++ ' ' :: e.message ++ e.fields.flatMap fun (name, value) => ' ' :: name ++ '=' :: value

def passes (f : Filter) (e : Event) : Bool := e.level.depth ≤ f.depth

def styleName : Style → Text
  | .conventional => "Infix".toList
  | .reversed => "Postfix".toList

def ofCompile {V : Type} (expression : Text) (result : Except CompileError (Program V)) : Event :=
  let source := [("expr".toList, Text.quoted expression),
    ("syntax".toList, styleName (Style.detect expression).1)]
  match result with
  | .ok p => ⟨.debug, "expression compiled".toList,
      source ++ [("ops".toList, Text.ofNat p.ops.length), ("max_depth".toList, Text.ofNat p.maxDepth)]⟩
  | .error e => ⟨.debug, "expression rejected".toList, source ++ [("error".toList, e.message)]⟩

def ofPostfix (expression words : Text) : Event :=
  ⟨.trace, "translated to postfix".toList,
    [("infix".toList, Text.quoted expression), ("postfix".toList, words)]⟩

def ofSpecFile (path : Text) (size : Nat) : Event :=
  ⟨.debug, "spec file loaded".toList, [("path".toList, path), ("functions".toList, Text.ofNat size)]⟩

def ofEvaluations (count : Nat) (register : UInt16) : Event :=
  ⟨.info, "evaluation finished".toList,
    [("count".toList, Text.ofNat count), ("rng_state".toList, Text.ofNat register.toNat)]⟩

end Event

end Cli

end SignalFormula
