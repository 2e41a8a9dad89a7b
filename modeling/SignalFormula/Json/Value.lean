import SignalFormula.Json.Number
import SignalFormula.Text.Catalog
/-!
# Value — JSON values and their compact text

A value keeps the members of an object as a list, in the order in which they were written and with all that share a name.
Its normal form has the names of each object in order, and of members that share a name the last.  The compact text of a
value has no white space outside its strings.
-/
namespace SignalFormula

inductive Json where
  | null
  | bool (b : Bool)
  | number (n : Json.Number)
  | string (t : Text)
  | array (items : List Json)
  | object (members : List (Text × Json))

namespace Json

mutual
/-- The value with the members of every object in the order of their names, the last of each name. -/
def normal : Json → Json
  | .array items => .array (normalItems items)
  | .object members => .object (Catalog.ofList (normalMembers members)).entries
  | j => j

def normalItems : List Json → List Json
  | [] => []
  | j :: rest => normal j :: normalItems rest

def normalMembers : List (Text × Json) → List (Text × Json)
  | [] => []
  | (name, j) :: rest => (name, normal j) :: normalMembers rest
end

def hexDigit (n : Nat) : Char := n.digitChar

def escape (c : Char) : Text :=
  if c = '"' then ['\\', '"']
  else if c = '\\' then ['\\', '\\']
  else if c = '\x08' then ['\\', 'b']
  else if c = '\t' then ['\\', 't']
  else if c = '\n' then ['\\', 'n']
  else if c = '\x0c' then ['\\', 'f']
  else if c = '\r' then ['\\', 'r']
  else if c.toNat < 0x20 then ['\\', 'u', '0', '0', hexDigit (c.toNat / 16), hexDigit (c.toNat % 16)]
  else [c]

def quote (t : Text) : Text := '"' :: (t.flatMap escape ++ ['"'])

def Number.text : Number → Text
  | .integer i => Text.ofInt i
  | .decimal x => decimalText x

mutual
def render : Json → Text
  | .null => "null".toList
  | .bool b => if b then "true".toList else "false".toList
  | .number n => n.text
  | .string t => quote t
  | .array items => '[' :: (renderItems items ++ [']'])
  | .object members => '\x7b' :: (renderMembers members ++ ['\x7d'])

def renderItems : List Json → Text
  | [] => []
  | [j] => render j
  | j :: k :: rest => render j ++ ',' :: renderItems (k :: rest)

def renderMembers : List (Text × Json) → Text
  | [] => []
  | [(name, j)] => quote name ++ ':' :: render j
  | (name, j) :: m :: rest => quote name ++ ':' :: render j ++ ',' :: renderMembers (m :: rest)
end

end Json

end SignalFormula
