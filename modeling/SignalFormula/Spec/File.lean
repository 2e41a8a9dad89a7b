import SignalFormula.Spec.Reader
/-!
# File — one spec, or specs under names

A spec file is JSON.  An object with a string under the name of the expression is one spec; every other object is a set
of specs under names.  The whole text is read to a value first, so of members that share a name the last counts.
-/
namespace SignalFormula

inductive SpecFile where
  | single (s : Spec)
  | set (specs : Catalog Spec)

namespace SpecFile

open Spec (ReadError)

/-- The specs under the names of an object, in the order of its members. -/
def readSpecs : List (Text × Json) → Except ReadError (List (Text × Spec))
  | [] => .ok []
  | (name, j) :: rest => do
    let s ← Spec.ofJson j
    let ss ← readSpecs rest
    .ok ((name, s) :: ss)

def isString : Json → Bool
  | .string _ => true
  | _ => false

def isSingle (members : List (Text × Json)) : Bool := (members.lookup Spec.expressionField).any isString

def ofJson : Json → Except ReadError SpecFile
  | .object members =>
    if isSingle members then (Spec.ofJson (.object members)).map .single
    else (readSpecs members).map fun specs => .set (Catalog.ofList specs)
  | j => .error (Spec.mismatch .map (Json.Draft.ofJson j))

def ofText (t : Text) : Except ReadError SpecFile :=
  match Json.parse t with
  | .error flaw => .error (.flawed flaw)
  | .ok j => ofJson j.normal

def toJson : SpecFile → Json
  | .single s => s.toJson
  | .set specs => .object (specs.entries.map fun (name, s) => (name, s.toJson))

def size : SpecFile → Nat
  | .single _ => 1
  | .set specs => specs.size

end SpecFile

inductive SelectError where
  | unknownName (name : Text)
  /-- No name is given, and the set does not have exactly one spec. -/
  | ambiguous (count : Nat)
deriving DecidableEq, Repr

def SelectError.message : SelectError → Text
  | .unknownName name => "no function named ".toList ++ name
  | .ambiguous count => "spec set defines ".toList ++ Text.ofNat count ++ " functions, select one by name".toList

namespace SpecFile

/-- The spec under a name.  A single spec has any name; without a name a set has to have just one spec. -/
def select (file : SpecFile) (name : Option Text) : Except SelectError Spec :=
  match file, name with
  | .single s, _ => .ok s
  | .set specs, some name =>
    match specs.find? name with
    | some s => .ok s
    | none => .error (.unknownName name)
  | .set specs, none =>
    match specs.entries with
    | [(_, s)] => .ok s
    | _ => .error (.ambiguous specs.size)

/-- The formulas of specs under names; the first spec that does not compile ends it. -/
def buildEntries {V : Type} [Scalar V] : List (Text × Spec) → Except CompileError (List (Text × Formula V))
  | [] => .ok []
  | (name, s) :: rest => do
    let f ← s.build
    let fs ← buildEntries rest
    .ok ((name, f) :: fs)

/-- The formulas of all specs under their names; that of a single spec stands under the empty name. -/
def buildAll {V : Type} [Scalar V] : SpecFile → Except CompileError (Catalog (Formula V))
  | .single s => s.build.map fun f => Catalog.empty.insert [] f
  | .set specs => (buildEntries specs.entries).map Catalog.ofList

end SpecFile

end SignalFormula
