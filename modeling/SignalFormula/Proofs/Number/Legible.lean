import SignalFormula.Proofs.Number.Positional
import SignalFormula.Proofs.Number.Rounding
import SignalFormula.Scalar
/-!
# Legible — the numbers of a format are read back from their text

A finite number is written with digits that are read as the number (`Binary.toBinary_shortest`): the exact decimal value
is, and whatever the search takes instead has been read.  Positional writing keeps the value of those digits, so the text
is a literal of the number (`Binary.literal?_toText`), in any format.
-/
namespace SignalFormula

/-- A type of values that are written legibly: the value of a literal has a decimal for its text, and that is a literal of
the value again. -/
class LegibleScalar (V : Type) [Scalar V] : Prop where
  isDecimal_toText {t : Text} {v : V} : Scalar.literal? t = some v → (Scalar.toText v).IsDecimal
  literal?_toText {t : Text} {v : V} : Scalar.literal? t = some v → Scalar.literal? (Scalar.toText v) = some v

namespace Numeral

variable {F : Format}

theorem toBinary_inPlace (n : Numeral) : (n.inPlace.toBinary : Binary F) = n.toBinary := by
  rw [toBinary, toBinary, Binary.ofDecimal_eq_round, Binary.ofDecimal_eq_round, inPlace]
  have hvalue : ((n.coefficient * Nat.pow 10 n.exponent.toNat : Nat) : Rat) * 10 ^ (-((-n.exponent).toNat : Int)) =
      n.coefficient * 10 ^ n.exponent := by
    have hten : (10 : Rat) ^ n.exponent = 10 ^ (n.exponent.toNat : Int) * 10 ^ (-((-n.exponent).toNat : Int)) := by
      rw [← zpow_add₀ (by norm_num)]
      congr 1
      omega
    rw [hten, Nat.cast_mul, mul_assoc, zpow_natCast]
    norm_cast
  rw [hvalue]

end Numeral

namespace Binary

variable {F : Format}

theorem exactNumeral_value (negative : Bool) (sig : Nat) (exp : Int) :
    ((exactNumeral negative sig exp).coefficient : Rat) * 10 ^ (exactNumeral negative sig exp).exponent =
      scaled sig exp := by
  cases exp with
  | ofNat e =>
    simp only [exactNumeral, scaled, Int.ofNat_eq_natCast, zpow_natCast, zpow_zero, mul_one]
    norm_cast
  | negSucc e =>
    have hfive : ((Nat.pow 5 (e + 1) : Nat) : Rat) = 5 ^ (e + 1) := by norm_cast
    have hten : (10 : Rat) ^ (e + 1) = 5 ^ (e + 1) * 2 ^ (e + 1) := by rw [← mul_pow]; norm_num
    simp only [exactNumeral, scaled, Nat.cast_mul, hfive, zpow_negSucc, hten]
    field_simp

theorem toBinary_exactNumeral (negative : Bool) {sig : Nat} {exp : Int} (hc : F.Canonical sig exp) (h : sig ≠ 0) :
    (exactNumeral negative sig exp).toBinary = finite negative sig exp hc := by
  have hsign : (exactNumeral negative sig exp).negative = negative := by cases exp <;> rfl
  rw [Numeral.toBinary, ofDecimal_eq_round, exactNumeral_value, hsign, round_scaled negative hc h]

/-- **The shortest digits of a number are read as the number.** -/
theorem toBinary_shortest (tie : Tie) (negative : Bool) (sig : Nat) (exp : Int) (hc : F.Canonical sig exp) :
    (shortest tie negative sig exp hc).toBinary = finite negative sig exp hc := by
  unfold shortest
  by_cases hzero : sig = 0
  · -- the unit of a zero is the least one, since no significand fills less
    have hexp : exp = F.minExp := by
      rcases hc.fills with hfull | hleast
      · have hpos : 0 < F.sigFull := Nat.two_pow_pos _
        omega
      · exact hleast
    subst hzero hexp
    rw [if_pos rfl]
    rfl
  · rw [if_neg hzero]
    simp only
    cases hfound : (List.range (F.precision + 2)).findSome? fun (i : Nat) =>
        onGrid? tie (.finite negative sig exp hc) negative (scaled sig exp) (decimalOrder (scaled sig exp) + 1 - i) with
    | none => exact toBinary_exactNumeral negative hc hzero
    | some n =>
      obtain ⟨i, -, hgrid⟩ := List.exists_of_findSome?_eq_some hfound
      have hread : readsBack (.finite negative sig exp hc) n = true := List.find?_some hgrid
      exact of_decide_eq_true hread

/-- **The text of a finite number is a literal of the number.** -/
theorem literal?_toText {x : Binary F} (h : x.isFinite = true) : literal? x.toText = some x := by
  cases x with
  | nan => cases h
  | infinite negative => cases h
  | finite negative sig exp hc =>
    rw [toText, literal?, Numeral.read?_positional]
    simp [Numeral.toBinary_inPlace, toBinary_shortest, isFinite]

theorem isFinite_of_literal? {t : Text} {x : Binary F} (h : literal? t = some x) : x.isFinite = true :=
  (Option.filter_eq_some_iff.1 h).2

instance (F : Format) : LegibleScalar (Binary F) where
  isDecimal_toText {t x} h := by
    cases x with
    | nan => cases isFinite_of_literal? h
    | infinite negative => cases isFinite_of_literal? h
    | finite negative sig exp hc => exact Numeral.isDecimal_positional _
  literal?_toText h := literal?_toText (isFinite_of_literal? h)

end Binary

end SignalFormula
