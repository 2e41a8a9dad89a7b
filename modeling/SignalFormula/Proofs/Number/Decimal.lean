import SignalFormula.Proofs.Infix.Expression
import SignalFormula.Proofs.Number.Positional
import SignalFormula.Proofs.Number.Range
/-!
# Decimal — the grammar of numerals, and the literals of a format

A decimal is a text by its parts, and has an exact value by its digits.  The numerals are read from these texts and from
no others (`Numeral.read?_eq_some_iff`), whatever is missing on one side of the point and however long the exponent is.  So
the literals of a format are the decimals below its limit, and the number of a literal is the one nearest to its value
(`Binary.literal?_exact`).
-/
namespace SignalFormula

/-- A sign, or none. -/
def Numeral.IsSign (sign : Text) : Prop := sign = [] ∨ sign = ['+'] ∨ sign = ['-']

open Numeral (IsSign valueOfDigits)

theorem Numeral.valueOfDigits_append (left right : Text) :
    valueOfDigits (left ++ right) = 10 ^ right.length * valueOfDigits left + valueOfDigits right := by
  rw [valueOfDigits, Nat.ofDigitChars_append, Nat.ofDigitChars_eq_ofDigitChars_zero]
  rfl

namespace Exponent

def text (e : Exponent) : Text := e.mark :: (e.sign ++ e.digits)

def value (e : Exponent) : Int := if e.sign = ['-'] then -(valueOfDigits e.digits : Int) else valueOfDigits e.digits

end Exponent

/-- A decimal `[+-]?(D+(.D*)?|.D+)([eE][+-]?D+)?` over the ASCII digits `D`. -/
structure Decimal where
  sign : Text
  whole : Text
  fraction : Option Text
  exponent : Option Exponent
  isSign_sign : IsSign sign
  isDigit_whole : ∀ c ∈ whole, c.isDigit = true
  isDigit_fraction : ∀ f ∈ fraction, ∀ c ∈ f, c.isDigit = true
  has_digit : whole ≠ [] ∨ ∃ f ∈ fraction, f ≠ []

namespace Decimal

/-- The point and the digits behind it. -/
def pointed : Option Text → Text
  | some f => '.' :: f
  | none => []

def tail : Option Exponent → Text
  | some e => e.text
  | none => []

def text (d : Decimal) : Text := d.sign ++ (d.whole ++ (pointed d.fraction ++ tail d.exponent))

def negative (d : Decimal) : Bool := d.sign = ['-']

/-- The digits behind the point. -/
def places (d : Decimal) : Text := d.fraction.getD []

def power (d : Decimal) : Int := d.exponent.elim 0 Exponent.value

/-- **The value without its sign.** -/
def magnitude (d : Decimal) : Rat :=
  (valueOfDigits d.whole + valueOfDigits d.places / 10 ^ d.places.length) * 10 ^ d.power

def numeral (d : Decimal) : Numeral :=
  ⟨d.negative, valueOfDigits (d.whole ++ d.places), d.power - d.places.length⟩

theorem numeral_value (d : Decimal) : (d.numeral.coefficient : Rat) * 10 ^ d.numeral.exponent = d.magnitude := by
  have hpower : (10 : Rat) ^ (d.power - d.places.length) = 10 ^ d.power / 10 ^ d.places.length := by
    rw [zpow_sub₀ (by norm_num), zpow_natCast]
  rw [magnitude]
  simp only [numeral, Numeral.valueOfDigits_append, hpower, Nat.cast_add, Nat.cast_mul, Nat.cast_pow, Nat.cast_ofNat]
  field_simp

theorem magnitude_nonneg (d : Decimal) : 0 ≤ d.magnitude := by
  rw [magnitude]
  positivity

theorem toBinary_numeral {F : Format} (d : Decimal) :
    (d.numeral.toBinary : Binary F) = .round d.negative d.magnitude := by
  rw [Numeral.toBinary, Binary.ofDecimal_eq_round, numeral_value]
  rfl

end Decimal

/-! ## Reading -/

namespace Numeral

theorem exists_splitSign_eq (t : Text) : ∃ sign : Text, IsSign sign ∧
    t = sign ++ (splitSign t).2 ∧ (splitSign t).1 = decide (sign = ['-']) := by
  unfold splitSign
  split
  · exact ⟨['-'], .inr (.inr rfl), rfl, rfl⟩
  · exact ⟨['+'], .inr (.inl rfl), rfl, rfl⟩
  · exact ⟨[], .inl rfl, rfl, rfl⟩

theorem splitSign_append {sign rest : Text} (hsign : IsSign sign)
    (hrest : ∀ c ∈ rest.head?, c ≠ '+' ∧ c ≠ '-') : splitSign (sign ++ rest) = (decide (sign = ['-']), rest) := by
  rcases hsign with rfl | rfl | rfl
  · rw [List.nil_append]
    unfold splitSign
    split
    · exact absurd rfl (hrest _ rfl).2
    · exact absurd rfl (hrest _ rfl).1
    · rfl
  · rfl
  · rfl

theorem ne_sign_of_isDigit {c : Char} (h : c.isDigit = true) : c ≠ '+' ∧ c ≠ '-' := by
  constructor <;> rintro rfl <;> cases h

theorem splitSign_digits {sign digits : Text} (hsign : IsSign sign)
    (hdigits : ∀ c ∈ digits, c.isDigit = true) : splitSign (sign ++ digits) = (decide (sign = ['-']), digits) :=
  splitSign_append hsign fun c hc => ne_sign_of_isDigit (hdigits c (List.mem_of_mem_head? hc))

/-- **The exponent part is read from its texts and no others.** -/
theorem readExponent?_eq_some_iff {t : Text} {k : Int} :
    readExponent? t = some k ↔ ∃ e : Option Exponent, Decimal.tail e = t ∧ e.elim 0 Exponent.value = k := by
  constructor
  · intro h
    unfold readExponent? at h
    split at h
    · exact ⟨none, rfl, Option.some.inj h⟩
    · rename_i c t
      obtain ⟨sign, hsign, ht, hnegative⟩ := exists_splitSign_eq t
      generalize splitSign t = split at h ht hnegative
      obtain ⟨negative, digits⟩ := split
      simp only at h ht hnegative
      subst ht hnegative
      by_cases hmark : c = 'e' ∨ c = 'E'
      · by_cases hdigits : digits ≠ [] ∧ digits.all Char.isDigit = true
        · refine ⟨some ⟨c, sign, digits, hmark, hsign, hdigits.1, List.all_eq_true.1 hdigits.2⟩, rfl, ?_⟩
          rw [if_pos (by simpa using hmark), if_pos hdigits] at h
          simpa [Exponent.value] using h
        · rw [if_neg hdigits, ite_self] at h
          cases h
      · rw [if_neg (by simpa using hmark)] at h
        cases h
  · rintro ⟨e | e, rfl, rfl⟩
    · rfl
    · have hmark : (decide (e.mark = 'e') || decide (e.mark = 'E')) = true := by
        rcases e.mark_eq with h | h <;> simp [h]
      have hdigits : e.digits ≠ [] ∧ e.digits.all Char.isDigit = true :=
        ⟨e.digits_ne_nil, List.all_eq_true.2 e.isDigit_digits⟩
      simp only [Decimal.tail, Exponent.text, readExponent?, hmark, if_true, splitSign_digits e.sign_eq e.isDigit_digits,
        if_pos hdigits]
      simp [Exponent.value]

theorem exists_splitDigits_eq (t : Text) : ∃ digits : Text,
    (∀ c ∈ digits, c.isDigit = true) ∧ t = digits ++ (splitDigits t).2 ∧ (splitDigits t).1 = digits :=
  ⟨_, List.all_eq_true.1 List.all_takeWhile, List.takeWhile_append_dropWhile.symm, rfl⟩

/-- The digits behind a point, if there is one, and the rest are the text. -/
theorem exists_splitFraction_eq (t : Text) : ∃ fraction : Option Text,
    (∀ f ∈ fraction, ∀ c ∈ f, c.isDigit = true) ∧ t = Decimal.pointed fraction ++ (splitFraction t).2 ∧
      (splitFraction t).1 = fraction.getD [] := by
  unfold splitFraction
  split
  · rename_i t
    obtain ⟨digits, hdigits, ht, hsplit⟩ := exists_splitDigits_eq t
    refine ⟨some digits, by rintro f ⟨⟩; exact hdigits, ?_, hsplit⟩
    rw [Decimal.pointed, List.cons_append, ← ht]
  · exact ⟨none, by simp, rfl, rfl⟩

theorem splitFraction_append {fraction : Option Text} {rest : Text}
    (hfraction : ∀ f ∈ fraction, ∀ c ∈ f, c.isDigit = true) (hrest : ∀ c ∈ rest.head?, c.isDigit = false ∧ c ≠ '.') :
    splitFraction (Decimal.pointed fraction ++ rest) = (fraction.getD [], rest) := by
  cases fraction with
  | some f => exact splitDigits_append (hfraction f rfl) fun c hc => (hrest c hc).1
  | none =>
    show splitFraction rest = ([], rest)
    unfold splitFraction
    split
    · exact absurd rfl (hrest _ rfl).2
    · rfl

end Numeral

namespace Decimal

open Numeral

theorem head_tail {e : Option Exponent} {c : Char} (h : c ∈ (tail e).head?) : c = 'e' ∨ c = 'E' := by
  cases e with
  | none => cases h
  | some e =>
    obtain rfl : e.mark = c := Option.some.inj h
    exact e.mark_eq

theorem head_pointed_append {fraction : Option Text} {e : Option Exponent} {c : Char}
    (h : c ∈ (pointed fraction ++ tail e).head?) : c = '.' ∨ c = 'e' ∨ c = 'E' := by
  cases fraction with
  | none => exact .inr (head_tail h)
  | some f => exact .inl (Option.some.inj h).symm

/-- A decimal starts with a digit or a point, behind its sign. -/
theorem head_whole_append (d : Decimal) {c : Char} (h : c ∈ (d.whole ++ (pointed d.fraction ++ tail d.exponent)).head?) :
    c.isDigit = true ∨ c = '.' := by
  rw [List.head?_append, Option.mem_def, Option.or_eq_some_iff] at h
  rcases h with h | ⟨hnone, h⟩
  · exact .inl (d.isDigit_whole c (List.mem_of_mem_head? h))
  · obtain ⟨f, hf, -⟩ := d.has_digit.resolve_left (not_not_intro (List.head?_eq_none_iff.1 hnone))
    rw [Option.mem_def.1 hf] at h
    exact .inr (Option.some.inj h).symm

theorem ne_sign_of_head (d : Decimal) :
    ∀ c ∈ (d.whole ++ (pointed d.fraction ++ tail d.exponent)).head?, c ≠ '+' ∧ c ≠ '-' := by
  intro c hc
  rcases d.head_whole_append hc with h | rfl
  · exact ne_sign_of_isDigit h
  · decide

/-- **The text of a decimal is read as its value.** -/
theorem read?_text (d : Decimal) : read? d.text = some d.numeral := by
  have hsign : splitSign d.text = (d.negative, d.whole ++ (pointed d.fraction ++ tail d.exponent)) :=
    splitSign_append d.isSign_sign d.ne_sign_of_head
  have hwhole : splitDigits (d.whole ++ (pointed d.fraction ++ tail d.exponent)) =
      (d.whole, pointed d.fraction ++ tail d.exponent) := splitDigits_append d.isDigit_whole fun c hc => by
    rcases head_pointed_append hc with rfl | rfl | rfl <;> rfl
  have hfraction : splitFraction (pointed d.fraction ++ tail d.exponent) = (d.places, tail d.exponent) :=
    splitFraction_append d.isDigit_fraction fun c hc => by
      rcases head_tail hc with rfl | rfl <;> exact ⟨rfl, by decide⟩
  have hpower : readExponent? (tail d.exponent) = some d.power := readExponent?_eq_some_iff.2 ⟨_, rfl, rfl⟩
  have hdigit : ¬ (d.whole = [] ∧ d.places = []) := by
    rintro ⟨hw, hp⟩
    obtain ⟨f, hf, hne⟩ := d.has_digit.resolve_left (not_not_intro hw)
    rw [places, Option.mem_def.1 hf] at hp
    exact hne hp
  simp only [read?, hsign, hwhole, hfraction, hpower, if_neg hdigit]
  rfl

end Decimal

/-- **Numerals are read from decimals and from no other texts**, with their exact values. -/
theorem Numeral.read?_eq_some_iff {t : Text} {n : Numeral} :
    Numeral.read? t = some n ↔ ∃ d : Decimal, d.text = t ∧ d.numeral = n := by
  constructor
  · intro h
    obtain ⟨sign, hsign, ht, hnegative⟩ := exists_splitSign_eq t
    obtain ⟨whole, hwhole, hbehind, hsplit⟩ := exists_splitDigits_eq (splitSign t).2
    obtain ⟨fraction, hfraction, hpointed, hplaces⟩ := exists_splitFraction_eq (splitDigits (splitSign t).2).2
    simp only [read?, hnegative, hsplit, hplaces] at h
    split_ifs at h with hdigit
    obtain ⟨k, hk, rfl⟩ := Option.map_eq_some_iff.1 h
    obtain ⟨e, he, rfl⟩ := readExponent?_eq_some_iff.1 hk
    have hhas : whole ≠ [] ∨ ∃ f ∈ fraction, f ≠ [] := by
      rcases not_and_or.1 hdigit with hw | hf
      · exact .inl hw
      · cases fraction with
        | none => exact absurd rfl hf
        | some f => exact .inr ⟨f, rfl, hf⟩
    refine ⟨⟨sign, whole, fraction, e, hsign, hwhole, hfraction, hhas⟩, ?_, rfl⟩
    rw [Decimal.text, he, ← hpointed, ← hbehind, ← ht]
  · rintro ⟨d, rfl, rfl⟩
    exact d.read?_text

end SignalFormula
