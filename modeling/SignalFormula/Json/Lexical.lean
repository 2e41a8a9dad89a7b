import SignalFormula.Json.Value
/-!
# Lexical — the smallest parts of a JSON text

Each reader takes a text and gives what it read and the rest, or says what is wrong: the text is malformed, or it ends
too early.
-/
namespace SignalFormula
namespace Json

inductive Flaw where
  /-- It goes on as no JSON text does, or has a number out of range. -/
  | malformed
  | ended
deriving DecidableEq, Repr

def isGap (c : Char) : Bool := c = ' ' || c = '\n' || c = '\t' || c = '\r'

def skipGap (t : Text) : Text := t.dropWhile isGap

/-- The flaw of a text that goes on in a wrong way, if it goes on. -/
def flawAt : Text → Flaw
  | [] => .ended
  | _ :: _ => .malformed

/-- The rest of a text that has to start with these characters. -/
def readExactly : Text → Text → Except Flaw Text
  | [], t => .ok t
  | _ :: _, [] => .error .ended
  | w :: ws, c :: cs => if w = c then readExactly ws cs else .error .malformed

/-! ## Strings -/

def hexValue? (c : Char) : Option Nat :=
  if '0' ≤ c ∧ c ≤ '9' then some (c.toNat - '0'.toNat)
  else if 'a' ≤ c ∧ c ≤ 'f' then some (c.toNat - 'a'.toNat + 10)
  else if 'A' ≤ c ∧ c ≤ 'F' then some (c.toNat - 'A'.toNat + 10)
  else none

def hexValues? (a b c d : Char) : Option Nat := do
  let a ← hexValue? a
  let b ← hexValue? b
  let c ← hexValue? c
  let d ← hexValue? d
  some (((a * 16 + b) * 16 + c) * 16 + d)

def byteLength : Text → Nat
  | [] => 0
  | c :: cs => c.utf8Size + byteLength cs

/-- Four hexadecimal digits.  A text with fewer than four bytes left has ended. -/
def readHex : Text → Except Flaw (Nat × Text)
  | a :: b :: c :: d :: rest =>
    match hexValues? a b c d with
    | some n => .ok (n, rest)
    | none => .error .malformed
  | short => .error (if byteLength short < 4 then .ended else .malformed)

/-- The character of an escape by number, and of two that together make one character. -/
def readNumbered (t : Text) : Except Flaw (Char × Text) :=
  match readHex t with
  | .error f => .error f
  | .ok (n, rest) =>
    if 0xDC00 ≤ n ∧ n ≤ 0xDFFF then .error .malformed
    else if 0xD800 ≤ n ∧ n ≤ 0xDBFF then
      match rest with
      | '\\' :: 'u' :: rest =>
        match readHex rest with
        | .error f => .error f
        | .ok (m, rest) =>
          if 0xDC00 ≤ m ∧ m ≤ 0xDFFF then .ok (Char.ofNat (0x10000 + (n - 0xD800) * 0x400 + (m - 0xDC00)), rest)
          else .error .malformed
      | '\\' :: rest => .error (flawAt rest)
      | rest => .error (flawAt rest)
    else .ok (Char.ofNat n, rest)

def readEscape : Text → Except Flaw (Char × Text)
  | '"' :: rest => .ok ('"', rest)
  | '\\' :: rest => .ok ('\\', rest)
  | '/' :: rest => .ok ('/', rest)
  | 'b' :: rest => .ok ('\x08', rest)
  | 'f' :: rest => .ok ('\x0c', rest)
  | 'n' :: rest => .ok ('\n', rest)
  | 'r' :: rest => .ok ('\r', rest)
  | 't' :: rest => .ok ('\t', rest)
  | 'u' :: rest => readNumbered rest
  | rest => .error (flawAt rest)

theorem length_readHex {t rest : Text} {n : Nat} (h : readHex t = .ok (n, rest)) : rest.length < t.length := by
  unfold readHex at h
  split at h
  · split at h <;> cases h
    simp only [List.length_cons]; omega
  · cases h

theorem length_readNumbered {t rest : Text} {c : Char} (h : readNumbered t = .ok (c, rest)) :
    rest.length < t.length := by
  unfold readNumbered at h
  split at h
  · cases h
  · rename_i n mid hn
    have h₁ := length_readHex hn
    split at h
    · cases h
    · split at h
      · split at h
        · split at h
          · cases h
          · rename_i m next hm
            have h₂ := length_readHex hm
            split at h
            · simp only [Except.ok.injEq, Prod.mk.injEq] at h
              obtain ⟨-, rfl⟩ := h
              simp only [List.length_cons] at h₁; omega
            · cases h
        · cases h
        · cases h
      · simp only [Except.ok.injEq, Prod.mk.injEq] at h
        obtain ⟨-, rfl⟩ := h
        exact h₁

theorem length_readEscape {t rest : Text} {c : Char} (h : readEscape t = .ok (c, rest)) : rest.length < t.length := by
  unfold readEscape at h
  split at h
  case h_9 => have := length_readNumbered h; simp only [List.length_cons]; omega
  case h_10 => cases h
  all_goals
    simp only [Except.ok.injEq, Prod.mk.injEq] at h
    obtain ⟨-, rfl⟩ := h
    simp

def readString (t : Text) : Except Flaw (Text × Text) :=
  match t with
  | [] => .error .ended
  | '"' :: rest => .ok ([], rest)
  | '\\' :: rest =>
    match _h : readEscape rest with
    | .error f => .error f
    | .ok (c, rest) => (readString rest).map fun (s, rest) => (c :: s, rest)
  | c :: rest =>
    if c.toNat < 0x20 then .error .malformed
    else (readString rest).map fun (s, rest) => (c :: s, rest)
termination_by t.length
decreasing_by
  · have := length_readEscape _h; simp only [List.length_cons]; omega
  · simp

/-! ## Numbers -/

/-- The digits after a point, if there is one; it takes at least one. -/
def readFraction : Text → Except Flaw (Text × Text)
  | '.' :: t =>
    let (digits, rest) := Numeral.splitDigits t
    if digits = [] then .error (flawAt rest) else .ok (digits, rest)
  | t => .ok ([], t)

/-- The exponent, if there is one; it takes at least one digit. -/
def readPower (t : Text) : Except Flaw (Option Int × Text) :=
  match t with
  | [] => .ok (none, t)
  | c :: rest =>
    if c = 'e' || c = 'E' then
      let (negative, rest) := Numeral.splitSign rest
      let (digits, rest) := Numeral.splitDigits rest
      if digits = [] then .error (flawAt rest)
      else
        let n : Int := Numeral.valueOfDigits digits
        .ok (some (if negative then -n else n), rest)
    else .ok (none, t)

/-- A number.  Its whole part is a zero or starts with another digit. -/
def readNumber (t : Text) : Except Flaw (Number × Text) := do
  let (negative, t) := match t with
    | '-' :: rest => (true, rest)
    | t => (false, t)
  let (whole, t) := Numeral.splitDigits t
  match whole with
  | [] => .error (flawAt t)
  | '0' :: _ :: _ => .error .malformed
  | _ =>
    let (fraction, t) ← readFraction t
    let (power, t) ← readPower t
    let number :=
      if fraction = [] ∧ power = none then Number.ofWhole negative whole
      else (Number.decimal? negative whole fraction (power.getD 0)).map .decimal
    match number with
    | some n => .ok (n, t)
    | none => .error .malformed

end Json

end SignalFormula
