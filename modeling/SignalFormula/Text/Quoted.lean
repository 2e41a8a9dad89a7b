import SignalFormula.Text.Hidden
/-!
# Quoted — text in quotes, as messages show it

The quote and the backslash stand behind a backslash, the usual control characters have their letters, and hidden
characters are spelled by number.  So a quoted text is one line, and its last quote is the only bare one inside.
-/
namespace SignalFormula
namespace Text

def quotedChar (c : Char) : Text :=
  if c = '"' then ['\\', '"']
  else if c = '\\' then ['\\', '\\']
  else if c = '\t' then ['\\', 't']
  else if c = '\r' then ['\\', 'r']
  else if c = '\n' then ['\\', 'n']
  else if c = '\x00' then ['\\', '0']
  else if isHidden c then ['\\', 'u', '\x7b'] ++ Nat.toDigits 16 c.toNat ++ ['\x7d']
  else [c]

def quoted (t : Text) : Text := '"' :: (t.flatMap quotedChar ++ ['"'])

/-- The texts in quotes, in brackets with commas between them. -/
def quotedList (ts : List Text) : Text := '[' :: (joinWith [',', ' '] (ts.map quoted) ++ [']'])

end Text

end SignalFormula
