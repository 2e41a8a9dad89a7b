import SignalFormula.Json.Draft
import SignalFormula.Spec
import SignalFormula.Text.Quoted
/-!
# Reader — specs read from JSON

A spec is an object with the member `expression` and perhaps `inputs` and `seed`, or an array of the three in that order
of which the last two can be missing.  The reader goes through a draft in the order of its text, and the first thing
that is wrong is the error: a part of the wrong type, an unknown or repeated name, or a flaw of the text.
-/
namespace SignalFormula
namespace Spec

inductive Found where
  | null
  | bool (b : Bool)
  | number (n : Json.Number)
  | string (t : Text)
  | sequence
  | map
deriving DecidableEq

inductive Expected where
  | text
  | sequence
  | map
  | seed
  | spec
deriving DecidableEq, Repr

inductive ReadError where
  | flawed (flaw : Json.Flaw)
  | wrongType (found : Found) (expected : Expected)
  | outOfRange (i : Int)
  | unknownField (name : Text)
  | missingField (name : Text)
  | duplicateField (name : Text)
  | tooShort
  | tooLong (length : Nat)
deriving DecidableEq

def Found.phrase : Found → Text
  | .null => "null".toList
  | .bool b => "boolean `".toList ++ (if b then "true".toList else "false".toList) ++ ['`']
  | .number (.integer i) => "integer `".toList ++ Text.ofInt i ++ ['`']
  | .number (.decimal x) => "floating point `".toList ++ Json.Number.decimalText x ++ ['`']
  | .string t => "string ".toList ++ Text.quoted t
  | .sequence => "sequence".toList
  | .map => "map".toList

def Expected.phrase : Expected → Text
  | .text => "a string".toList
  | .sequence => "a sequence".toList
  | .map => "a map".toList
  | .seed => "u16".toList
  | .spec => "struct FunctionSpec".toList

/-- The message of an error.  A JSON library words what is wrong with a text that is not JSON by the place where it stops:
`malformed text` stands for its message, and the message of a text that ends is the one for an empty text. -/
def ReadError.message : ReadError → Text
  | .flawed .malformed => "malformed text".toList
  | .flawed .ended => "EOF while parsing a value".toList
  | .wrongType found expected => "invalid type: ".toList ++ found.phrase ++ ", expected ".toList ++ expected.phrase
  | .outOfRange i => "invalid value: integer `".toList ++ Text.ofInt i ++ "`, expected u16".toList
  | .unknownField name =>
    "unknown field `".toList ++ name ++ "`, expected one of `expression`, `inputs`, `seed`".toList
  | .missingField name => "missing field `".toList ++ name ++ ['`']
  | .duplicateField name => "duplicate field `".toList ++ name ++ ['`']
  | .tooShort => "invalid length 0, expected struct FunctionSpec with 3 elements".toList
  | .tooLong length => "invalid length ".toList ++ Text.ofNat length ++ ", expected fewer elements in array".toList

open Json (Draft Flaw)

def mismatch (expected : Expected) : Draft → ReadError
  | .null => .wrongType .null expected
  | .bool b => .wrongType (.bool b) expected
  | .number n => .wrongType (.number n) expected
  | .string t => .wrongType (.string t) expected
  | .array .. => .wrongType .sequence expected
  | .object .. => .wrongType .map expected
  | .broken flaw => .flawed flaw

def ifWhole {α : Type} (flaw : Option Flaw) (a : α) : Except ReadError α :=
  match flaw with
  | some f => .error (.flawed f)
  | none => .ok a

def readText : Draft → Except ReadError Text
  | .string t => .ok t
  | d => .error (mismatch .text d)

def readTexts : List Draft → Option Flaw → Except ReadError (List Text)
  | [], flaw => ifWhole flaw []
  | d :: ds, flaw => do
    let t ← readText d
    let ts ← readTexts ds flaw
    .ok (t :: ts)

def readInputs : Draft → Except ReadError (List Text)
  | .array items flaw => readTexts items flaw
  | d => .error (mismatch .sequence d)

def readRegister : Draft → Except ReadError UInt16
  | .number (.integer i) => if 0 ≤ i ∧ i < 65536 then .ok (UInt16.ofNat i.toNat) else .error (.outOfRange i)
  | d => .error (mismatch .seed d)

def readSeed : Draft → Except ReadError (Option UInt16)
  | .null => .ok none
  | d => (readRegister d).map some

/-- A spec from its fields in order; `surplus` is the error for so many items if they are too many. -/
def readItems (surplus : Nat → ReadError) (items : List Draft) (flaw : Option Flaw) : Except ReadError Spec :=
  match items with
  | [] => do
    ifWhole flaw ()
    .error .tooShort
  | [e] => do
    let expression ← readText e
    ifWhole flaw { expression }
  | [e, i] => do
    let expression ← readText e
    let inputs ← readInputs i
    ifWhole flaw { expression, inputs }
  | e :: i :: s :: rest => do
    let expression ← readText e
    let inputs ← readInputs i
    let seed ← readSeed s
    match rest with
    | [] => ifWhole flaw { expression, inputs, seed }
    | _ :: _ => .error (surplus items.length)

structure Fields where
  expression : Option Text := none
  inputs : Option (List Text) := none
  seed : Option (Option UInt16) := none

/-- The spec of the fields; only the expression has to be there. -/
def Fields.finish (f : Fields) : Except ReadError Spec :=
  match f.expression with
  | none => .error (.missingField expressionField)
  | some expression => .ok ⟨expression, f.inputs.getD [], f.seed.getD none⟩

def readMembers : Fields → List (Text × Draft) → Option Flaw → Except ReadError Spec
  | f, [], flaw => do
    ifWhole flaw ()
    f.finish
  | f, (name, d) :: rest, flaw =>
    if name = expressionField then
      if f.expression.isSome then .error (.duplicateField name)
      else do
        let expression ← readText d
        readMembers { f with expression := some expression } rest flaw
    else if name = inputsField then
      if f.inputs.isSome then .error (.duplicateField name)
      else do
        let inputs ← readInputs d
        readMembers { f with inputs := some inputs } rest flaw
    else if name = seedField then
      if f.seed.isSome then .error (.duplicateField name)
      else do
        let seed ← readSeed d
        readMembers { f with seed := some seed } rest flaw
    else .error (.unknownField name)

def read (surplus : Nat → ReadError) : Draft → Except ReadError Spec
  | .array items flaw => readItems surplus items flaw
  | .object members flaw => readMembers {} members flaw
  | d => .error (mismatch .spec d)

/-- The spec that a text is.  Items after the last field are taken for text after the array's end. -/
def ofText (t : Text) : Except ReadError Spec := do
  let (draft, rest) := Draft.read t
  let s ← read (fun _ => .flawed .malformed) draft
  ifWhole (Draft.flawAfter (rest.getD [])) s

def ofJson (j : Json) : Except ReadError Spec := read .tooLong (Draft.ofJson j)

end Spec

end SignalFormula
