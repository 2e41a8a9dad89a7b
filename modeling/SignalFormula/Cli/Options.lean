import SignalFormula.Number.Numeral
import SignalFormula.Text.Basic
/-!
# Options — what a command line asks for

An option's value is the next argument or is attached to the option, after an equals sign or, for one letter, at once.
An argument that starts with a minus sign is a value only where it is attached, or an expression only behind `--`; a
lone minus sign is an ordinary argument.  An option that is not for inputs is given once at most.
-/
namespace SignalFormula
namespace Cli

structure Options where
  expression : Option Text := none
  inputs : List Text := []
  spec : Option Text := none
  name : Option Text := none
  seed : Option UInt16 := none
  count : Option Nat := none
  showProgram : Bool := false
  showWords : Bool := false
  single : Bool := false

inductive Usage where
  | help
  | wrong
deriving DecidableEq, Repr

inductive Key where
  | input
  | spec
  | name
  | seed
  | count
  | showProgram
  | showWords
  | single
  | help
deriving DecidableEq, Repr

namespace Key

def ofName? (name : Text) : Option Key :=
  if name = "input".toList then some .input
  else if name = "spec".toList then some .spec
  else if name = "name".toList then some .name
  else if name = "seed".toList then some .seed
  else if name = "count".toList then some .count
  else if name = "bytecode".toList then some .showProgram
  else if name = "postfix".toList then some .showWords
  else if name = "f32".toList then some .single
  else if name = "help".toList then some .help
  else none

def ofLetter? : Char → Option Key
  | 'i' => some .input
  | 'n' => some .count
  | 'h' => some .help
  | _ => none

def takesValue : Key → Bool
  | .input | .spec | .name | .seed | .count => true
  | _ => false

end Key

def digits? (t : Text) : Option Nat :=
  if t ≠ [] ∧ t.all Char.isDigit then some (Numeral.valueOfDigits t) else none

/-- A seed: an integer with a sign if it has one, and sixteen bits. -/
def seed? (t : Text) : Option UInt16 :=
  let (negative, t) := Numeral.splitSign t
  match digits? t with
  | some n => if n < 65536 ∧ (negative → n = 0) then some (UInt16.ofNat n) else none
  | none => none

/-- A count: a natural number with a plus sign if it has one, and 64 bits. -/
def count? (t : Text) : Option Nat :=
  let t := match t with
    | '+' :: rest => rest
    | t => t
  match digits? t with
  | some n => if n < UInt64.size then some n else none
  | none => none

namespace Options

def once {α : Type} (given : Option α) (value : Option α) : Except Usage (Option α) :=
  match given, value with
  | none, some v => .ok (some v)
  | _, _ => .error .wrong

def raise (given : Bool) : Except Usage Bool := if given then .error .wrong else .ok true

def setFlag (o : Options) : Key → Except Usage Options
  | .showProgram => (raise o.showProgram).map fun b => { o with showProgram := b }
  | .showWords => (raise o.showWords).map fun b => { o with showWords := b }
  | .single => (raise o.single).map fun b => { o with single := b }
  | .help => .error .help
  | _ => .error .wrong

def setValue (o : Options) (value : Text) : Key → Except Usage Options
  | .input => .ok { o with inputs := o.inputs ++ [value] }
  | .spec => (once o.spec (if value = [] then none else some value)).map fun v => { o with spec := v }
  | .name => (once o.name (some value)).map fun v => { o with name := v }
  | .seed => (once o.seed (seed? value)).map fun v => { o with seed := v }
  | .count => (once o.count (count? value)).map fun v => { o with count := v }
  | _ => .error .wrong

/-- The options with an expression, which can be given once. -/
def setExpression (o : Options) (t : Text) : Except Usage Options :=
  (once o.expression (some t)).map fun v => { o with expression := v }

inductive Argument where
  | plain (t : Text)
  | divider
  | option (key : Key) (attached : Option Text)
  | unknown

def Argument.ofText : Text → Argument
  | ['-'] => .plain ['-']
  | ['-', '-'] => .divider
  | '-' :: '-' :: t =>
    let (name, attached) := match Text.splitAt? '=' t with
      | some (name, value) => (name, some value)
      | none => (t, none)
    match Key.ofName? name with
    | some key => .option key attached
    | none => .unknown
  | '-' :: c :: t =>
    match Key.ofLetter? c with
    | some .help => .option .help none
    | some key =>
      .option key (match t with
        | [] => none
        | '=' :: value => some value
        | value => some value)
    | none => .unknown
  | t => .plain t

/-- The options of a row of arguments, after those already read. -/
def readAll : Options → List Text → Except Usage Options
  | o, [] => .ok o
  | o, arg :: rest =>
    match Argument.ofText arg with
    | .plain t => do
      let o ← o.setExpression t
      readAll o rest
    | .divider => rest.foldlM setExpression o
    | .unknown => .error .wrong
    | .option key attached =>
      if key.takesValue then
        match attached, rest with
        | some value, rest => do
          let o ← o.setValue value key
          readAll o rest
        | none, [] => .error .wrong
        | none, next :: rest =>
          match Argument.ofText next with
          | .plain value => do
            let o ← o.setValue value key
            readAll o rest
          | _ => .error .wrong
      else
        match attached with
        | some _ => .error .wrong
        | none => do
          let o ← o.setFlag key
          readAll o rest

/-- Options that go together: an expression or a spec file but not both, and a name only where there is one of them. -/
def check (o : Options) : Except Usage Options :=
  if o.spec.isSome && o.expression.isSome then .error .wrong
  else if o.name.isSome && o.spec.isNone && o.expression.isNone then .error .wrong
  else .ok o

def ofArguments (args : List Text) : Except Usage Options := do
  let o ← readAll {} args
  o.check

end Options

end Cli

end SignalFormula
