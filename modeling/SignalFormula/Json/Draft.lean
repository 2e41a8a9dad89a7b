import SignalFormula.Json.Lexical
/-!
# Draft — a JSON text as far as it can be read

A draft is what was read of a text up to the end of its value or up to its first flaw.  A reader that wants a certain
shape walks a draft in the order of the text and stops at the first thing that is wrong, be it the shape or a flaw; so a
wrong shape in front of a flaw is what it reports.  A draft without a flaw is a value.
-/
namespace SignalFormula
namespace Json

/-- A value as far as it was read.  The list of an array or object that breaks off ends where it does, with the flaw or
with a part that has it. -/
inductive Draft where
  | null
  | bool (b : Bool)
  | number (n : Number)
  | string (t : Text)
  | array (items : List Draft) (flaw : Option Flaw)
  | object (members : List (Text × Draft)) (flaw : Option Flaw)
  | broken (flaw : Flaw)

/-- The number of arrays and objects inside each other that are read. -/
def nesting : Nat := 127

namespace Draft

mutual
/-- The value at the front of a text, and the rest if the value is whole.  `fuel` bounds the steps, `depth` the arrays
and objects that may still be opened. -/
def value : Nat → Nat → Text → Draft × Option Text
  | 0, _, _ => (.broken .ended, none)
  | fuel + 1, depth, t =>
    match skipGap t with
    | [] => (.broken .ended, none)
    | 'n' :: rest => word .null (readExactly "ull".toList rest)
    | 't' :: rest => word (.bool true) (readExactly "rue".toList rest)
    | 'f' :: rest => word (.bool false) (readExactly "alse".toList rest)
    | '"' :: rest =>
      match readString rest with
      | .ok (s, rest) => (.string s, some rest)
      | .error f => (.broken f, none)
    | '[' :: rest =>
      match depth with
      | 0 => (.broken .malformed, none)
      | depth + 1 => let (items, flaw, rest) := items fuel depth true rest; (.array items flaw, rest)
    | '\x7b' :: rest =>
      match depth with
      | 0 => (.broken .malformed, none)
      | depth + 1 => let (members, flaw, rest) := members fuel depth true rest; (.object members flaw, rest)
    | c :: rest =>
      if c = '-' || c.isDigit then
        match readNumber (c :: rest) with
        | .ok (n, rest) => (.number n, some rest)
        | .error f => (.broken f, none)
      else (.broken .malformed, none)

def word (d : Draft) : Except Flaw Text → Draft × Option Text
  | .ok rest => (d, some rest)
  | .error f => (.broken f, none)

/-- The items of an array up to its bracket, `first` if none was read yet. -/
def items : Nat → Nat → Bool → Text → List Draft × Option Flaw × Option Text
  | 0, _, _, _ => ([], some .ended, none)
  | fuel + 1, depth, first, t =>
    match skipGap t with
    | [] => ([], some .ended, none)
    | c :: rest =>
      if c = ']' then ([], none, some rest)
      else if first then item fuel depth (c :: rest)
      else if c = ',' then
        match skipGap rest with
        | ']' :: _ => ([], some .malformed, none)
        | rest => item fuel depth rest
      else ([], some .malformed, none)

def item : Nat → Nat → Text → List Draft × Option Flaw × Option Text
  | 0, _, _ => ([], some .ended, none)
  | fuel + 1, depth, t =>
    match value fuel depth t with
    | (d, none) => ([d], none, none)
    | (d, some rest) => let (ds, flaw, rest) := items fuel depth false rest; (d :: ds, flaw, rest)

/-- The members of an object up to its brace, `first` if none was read yet. -/
def members : Nat → Nat → Bool → Text → List (Text × Draft) × Option Flaw × Option Text
  | 0, _, _, _ => ([], some .ended, none)
  | fuel + 1, depth, first, t =>
    match skipGap t with
    | [] => ([], some .ended, none)
    | c :: rest =>
      if c = '\x7d' then ([], none, some rest)
      else if first then member fuel depth (c :: rest)
      else if c = ',' then
        match skipGap rest with
        | [] => ([], some .ended, none)
        | rest => member fuel depth rest
      else ([], some .malformed, none)

def member : Nat → Nat → Text → List (Text × Draft) × Option Flaw × Option Text
  | 0, _, _ => ([], some .ended, none)
  | fuel + 1, depth, t =>
    match t with
    | '"' :: rest =>
      match readString rest with
      | .error f => ([], some f, none)
      | .ok (name, rest) =>
        match skipGap rest with
        | ':' :: rest =>
          match value fuel depth rest with
          | (d, none) => ([(name, d)], none, none)
          | (d, some rest) => let (ds, flaw, rest) := members fuel depth false rest; ((name, d) :: ds, flaw, rest)
        | rest => ([(name, .broken (flawAt rest))], none, none)
    | _ => ([], some .malformed, none)
end

/-- The value of a text as far as it can be read, and the rest if the value is whole.  Of three steps in a row at least
one takes a character. -/
def read (t : Text) : Draft × Option Text := value (3 * t.length + 3) nesting t

/-- The flaw of what follows a value: there may only be white space. -/
def flawAfter (rest : Text) : Option Flaw := if skipGap rest = [] then none else some .malformed

mutual
def complete : Draft → Except Flaw Json
  | .null => .ok .null
  | .bool b => .ok (.bool b)
  | .number n => .ok (.number n)
  | .string t => .ok (.string t)
  | .array items flaw => (completeItems items flaw).map .array
  | .object members flaw => (completeMembers members flaw).map .object
  | .broken f => .error f

def completeItems : List Draft → Option Flaw → Except Flaw (List Json)
  | [], none => .ok []
  | [], some f => .error f
  | d :: ds, flaw => do
    let j ← complete d
    let js ← completeItems ds flaw
    .ok (j :: js)

def completeMembers : List (Text × Draft) → Option Flaw → Except Flaw (List (Text × Json))
  | [], none => .ok []
  | [], some f => .error f
  | (name, d) :: ds, flaw => do
    let j ← complete d
    let js ← completeMembers ds flaw
    .ok ((name, j) :: js)
end

mutual
def ofJson : Json → Draft
  | .null => .null
  | .bool b => .bool b
  | .number n => .number n
  | .string t => .string t
  | .array items => .array (ofItems items) none
  | .object members => .object (ofMembers members) none

def ofItems : List Json → List Draft
  | [] => []
  | j :: rest => ofJson j :: ofItems rest

def ofMembers : List (Text × Json) → List (Text × Draft)
  | [] => []
  | (name, j) :: rest => (name, ofJson j) :: ofMembers rest
end

end Draft

def parse (t : Text) : Except Flaw Json := do
  let (draft, rest) := Draft.read t
  let j ← draft.complete
  match Draft.flawAfter (rest.getD []) with
  | some f => .error f
  | none => .ok j

end Json

end SignalFormula
