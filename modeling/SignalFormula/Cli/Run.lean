import SignalFormula.Cli.Options
import SignalFormula.Cli.Report
import SignalFormula.Spec.File
import SignalFormula.Text.Blank
/-!
# Run — the command line program

The options say which formula is meant: an expression with the names of the inputs, or one out of a spec file.  The
values are read in the type asked for, the sections asked for are written, and the formula is evaluated so many times,
one value a line.

The program is a function: a file is what its name was answered with, and the outcome is an exit status, the output, and
the lines for the error output.
-/
namespace SignalFormula
namespace Cli

inductive RunError where
  | notAPair (argument : Text)
  | unreadable (path reason : Text)
  /-- A file that is no spec file; the place is where its text ends. -/
  | invalidFile (error : Spec.ReadError) (line column : Nat)
  | notSelected (error : SelectError)
  | otherInputs (given expected : List Text)
  | noExpression
  | tooFewValues (expected given : Nat)
  | invalidValue (value : Text)
  | noPostfix (error : CompileError)
  | notCompiled (error : CompileError)
  | stopped (fault : Fault)
deriving DecidableEq

namespace RunError

def message : RunError → Text
  | .notAPair argument => "Input must be NAME=VALUE, got ".toList ++ argument
  | .unreadable path reason => "failed to read ".toList ++ path ++ ": ".toList ++ reason
  | .invalidFile error line column =>
    "invalid function spec: ".toList ++ error.message ++
      if error = .flawed .ended then
        " at line ".toList ++ Text.ofNat line ++ " column ".toList ++ Text.ofNat column
      else []
  | .notSelected error => error.message
  | .otherInputs given expected =>
    "Inputs ".toList ++ Text.quotedList given ++ " do not match the spec's input list ".toList ++
      Text.quotedList expected
  | .noExpression => "No expression specified".toList
  | .tooFewValues expected given =>
    "Expression takes ".toList ++ Text.ofNat expected ++ " inputs, ".toList ++ Text.ofNat given ++ " given".toList
  | .invalidValue value => "Invalid input value ".toList ++ value
  | .noPostfix error => error.message
  | .notCompiled error => "Compile error: ".toList ++ error.message
  | .stopped fault => fault.message

def status : RunError → Nat
  | .stopped _ => 101
  | _ => 1

end RunError

/-- How a file is answered: its text, or the reason why it cannot be read. -/
abbrev Files := Text → Except Text Text

abbrev Part := Report RunError

/-! ## Which formula is meant -/

/-- The names and the values of the inputs, without white space around them. -/
def splitInputs (arguments : List Text) : Except RunError (List (Text × Text)) :=
  arguments.mapM fun argument =>
    match Text.splitAt? '=' argument with
    | some (name, value) => .ok (Text.trim name, Text.trim value)
    | none => .error (.notAPair argument)

def endOf : Text → Nat × Nat → Nat × Nat
  | [], place => place
  | c :: cs, (line, column) => endOf cs (if c = '\n' then (line + 1, 0) else (line, column + c.utf8Size))

def loadFile (files : Files) (path : Text) : Part SpecFile := do
  let text ← Report.ofExcept ((files path).mapError (.unreadable path))
  let (line, column) := endOf text (1, 0)
  let file ← Report.ofExcept ((SpecFile.ofText text).mapError fun e => .invalidFile e line column)
  Report.log (Event.ofSpecFile path file.size)
  pure file

/-- The spec out of a file; if names of inputs are given, they have to be the spec's. -/
def specOfFile (files : Files) (path : Text) (name : Option Text) (names : List Text) : Part Spec := do
  let file ← loadFile files path
  let spec ← Report.ofExcept ((file.select name).mapError .notSelected)
  Report.ofExcept
    (if names ≠ [] ∧ names ≠ spec.inputs then .error (.otherInputs names spec.inputs) else .ok spec)

/-- The spec that the options mean, and the texts of the values. -/
def resolve (files : Files) (o : Options) : Part (Spec × List Text) := do
  let pairs ← Report.ofExcept (splitInputs o.inputs)
  let names := pairs.map Prod.fst
  let values := pairs.map Prod.snd
  let spec ← match o.spec, o.expression with
    | some path, _ => specOfFile files path o.name names
    | none, some expression => pure { expression, inputs := names }
    | none, none => Report.ofExcept (.error .noExpression)
  let spec := { spec with seed := o.seed.or spec.seed }
  Report.ofExcept
    (if values.length < spec.inputs.length then .error (.tooFewValues spec.inputs.length values.length)
     else .ok (spec, values))

/-! ## What is written -/

variable {V : Type} [Scalar V]

def readValues (texts : List Text) : Except RunError (List V) :=
  texts.mapM fun t =>
    match Scalar.value? t with
    | some v => .ok v
    | none => .error (.invalidValue t)

/-- The section with the words of an expression in postfix order. -/
def wordsSection (expression : Text) : Part Unit := do
  let words ← match Style.detect expression with
    | (.reversed, body) => pure (Text.trim body)
    | (.conventional, body) => do
      let words ← Report.ofExcept ((Postfix.render body).mapError .noPostfix)
      Report.log (Event.ofPostfix body words)
      pure words
  Report.print ("=== Postfix ===\n".toList ++ words ++ ['\n'])

def programSection (p : Program V) : Text :=
  "=== Bytecode ===\nOps: ".toList ++ Text.ofNat p.ops.length ++ "\nMax depth: ".toList ++ Text.ofNat p.maxDepth ++
    "\n\n".toList ++ p.disassemble ++ ['\n']

def buildFormula (s : Spec) : Part (Formula V) := do
  Report.log (Event.ofCompile s.expression (Program.compile s.expression s.inputs : Except CompileError (Program V)))
  Report.ofExcept (s.build.mapError .notCompiled)

/-- So many evaluations, one value a line, and the formula afterwards. -/
def evaluations (values : List V) : Nat → Formula V → Part (Formula V)
  | 0, f => pure f
  | count + 1, f =>
    match f.evaluate values with
    | (.error fault, _) => Report.ofExcept (.error (.stopped fault))
    | (.ok v, f) => do
      Report.print (Scalar.toText v ++ ['\n'])
      evaluations values count f

/-- The run for a spec, in the type of the values, and the noise that is left. -/
def runIn (V : Type) [Scalar V] (o : Options) (s : Spec) (texts : List Text) : Part Noise := do
  let values : List V ← Report.ofExcept (readValues texts)
  if o.showWords then wordsSection s.expression
  let f : Formula V ← buildFormula s
  if o.showProgram then
    match f.program with
    | some p => Report.print (programSection p)
    | none => pure ()
  let count := o.count.getD 1
  let f ← evaluations values count f
  Report.log (Event.ofEvaluations count f.noise.register)
  pure f.noise

/-- The run that the options ask for, and the noise that is left. -/
def run (files : Files) (o : Options) : Part Noise := do
  let (spec, texts) ← resolve files o
  if o.single then runIn Single o spec texts else runIn Double o spec texts

/-! ## The program -/

/-- What the program leaves: an exit status, the output, and the lines of the error output. -/
structure Outcome where
  status : Nat
  output : Text
  errors : List Text
deriving DecidableEq, Repr

/-- What the program prints about itself. -/
def help : Text :=
  "Compile and evaluate signal expressions\n\nUsage: sigexpr [OPTIONS] [EXPRESSION]\n\nArguments:\n".toList ++
  "  [EXPRESSION]  Expression to evaluate; prefix with `rpn:` for postfix\n\nOptions:\n".toList ++
  "  -i, --input <NAME=VALUE>  Input value as NAME=VALUE, in input-list order (repeatable)\n".toList ++
  "      --spec <FILE>         Load the expression from a JSON spec file\n".toList ++
  "      --name <NAME>         Function to pick from a spec file holding several\n".toList ++
  "      --seed <SEED>         Seed for the rand() generator\n".toList ++
  "  -n, --count <COUNT>       Number of evaluations to print [default: 1]\n".toList ++
  "      --bytecode            Show the compiled program\n".toList ++
  "      --postfix             Show the postfix translation of an infix expression\n".toList ++
  "      --f32                 Evaluate in single precision\n".toList ++
  "  -h, --help                Print help\n".toList

/-- What a run leaves: the events that pass the filter, and after them the error if there is one. -/
def Outcome.ofReport (filter : Filter) (r : Report RunError Noise) : Outcome :=
  let lines := (r.events.filter (Event.passes filter)).map Event.line
  match r.result with
  | .ok _ => ⟨0, r.output, lines⟩
  | .error e => ⟨e.status, r.output, lines ++ ["Error: ".toList ++ e.message]⟩

/-- The program: what its arguments, its files and the text that sets the filter lead to.  Of wrong usage only the status
is settled; the one line stands for whatever an option parser says of it. -/
def outcome (args : List Text) (files : Files) (log : Option Text) : Outcome :=
  match Options.ofArguments args with
  | .error .help => ⟨0, help, []⟩
  | .error .wrong => ⟨2, [], ["error: wrong usage, see sigexpr --help".toList]⟩
  | .ok o => Outcome.ofReport ((log.map Filter.ofText).getD Filter.standard) (run files o)

end Cli

end SignalFormula
