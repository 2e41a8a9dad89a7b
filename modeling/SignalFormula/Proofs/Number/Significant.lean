import SignalFormula.Proofs.Number.Decimal
import SignalFormula.Proofs.Number.Fewest
import Mathlib.Data.List.DropRight
/-!
# Significant — the digits of a decimal that count

The significant digits of a decimal go from the first one to the last one that is not zero.  There are as many of them as
its value has without the zeros at its end, wherever the point stands (`Numeral.length_significant_le_iff`).  So a numeral
with few digits and a decimal with few significant digits are the same, and a finite number is written as a decimal with the
fewest significant digits that are read as the number (`Binary.exists_isShortest`).
-/
namespace SignalFormula

namespace Text

/-- The digits from the first one to the last one that are not zero. -/
def significant (digits : Text) : Text := (digits.dropWhile (· = '0')).rdropWhile (· = '0')

theorem exists_eq_significant (digits : Text) : ∃ lead trail : Nat,
    digits = List.replicate lead '0' ++ (significant digits ++ List.replicate trail '0') := by
  obtain ⟨lead, hlead⟩ : ∃ lead, digits.takeWhile (· = '0') = List.replicate lead '0' :=
    ⟨_, List.eq_replicate_of_mem fun c hc => by simpa using List.mem_takeWhile_imp hc⟩
  obtain ⟨trail, htrail⟩ : ∃ trail, (digits.dropWhile (· = '0')).rtakeWhile (· = '0') = List.replicate trail '0' :=
    ⟨_, List.eq_replicate_of_mem fun c hc => by simpa using List.mem_rtakeWhile_imp hc⟩
  refine ⟨lead, trail, ?_⟩
  rw [← hlead, ← htrail, significant, List.rdropWhile_append_rtakeWhile, List.takeWhile_append_dropWhile]

theorem head_significant {digits rest : Text} {c : Char} (h : significant digits = c :: rest) : c ≠ '0' := by
  obtain ⟨behind, hbehind⟩ : significant digits <+: digits.dropWhile (· = '0') := List.rdropWhile_prefix ..
  have hhead := List.head?_dropWhile_not (fun d => decide (d = '0')) digits
  rw [← hbehind, h] at hhead
  simpa using hhead

theorem getLast_significant {digits front : Text} {c : Char} (h : significant digits = front ++ [c]) : c ≠ '0' := by
  have hself : (significant digits).rdropWhile (· = '0') = significant digits := List.rdropWhile_idempotent ..
  rintro rfl
  rw [h, List.rdropWhile_concat_pos _ _ _ rfl] at hself
  have hle := (List.rdropWhile_prefix (fun d => decide (d = '0')) front).length_le
  rw [hself, List.length_append, List.length_singleton] at hle
  omega

end Text

namespace Numeral

theorem valueOfDigits_append_replicate (digits : Text) (zeros : Nat) :
    valueOfDigits (digits ++ List.replicate zeros '0') = valueOfDigits digits * 10 ^ zeros := by
  rw [valueOfDigits, Nat.ofDigitChars_append, Nat.ofDigitChars_replicate_zero, Nat.mul_comm]
  rfl

theorem valueOfDigits_singleton (c : Char) : valueOfDigits [c] = c.toNat - '0'.toNat := by
  simp [valueOfDigits, Nat.ofDigitChars_cons]

theorem digit_le {c : Char} (h : c.isDigit = true) : c.toNat - '0'.toNat ≤ 9 := by
  have hc := (Char.isDigit_iff_toNat.1 h).2
  have hnine : '9'.toNat = '0'.toNat + 9 := rfl
  omega

theorem digit_pos {c : Char} (h : c.isDigit = true) (hne : c ≠ '0') : 0 < c.toNat - '0'.toNat := by
  have hc := (Char.isDigit_iff_toNat.1 h).1
  have hzero : c.toNat ≠ '0'.toNat := fun heq => hne (Char.toNat_inj.1 heq)
  omega

theorem valueOfDigits_lt : ∀ {digits : Text}, (∀ c ∈ digits, c.isDigit = true) →
    valueOfDigits digits < 10 ^ digits.length
  | [], _ => Nat.one_pos
  | c :: digits, h => by
    have hlt : valueOfDigits digits < 10 ^ digits.length := valueOfDigits_lt fun d hd => h d (List.mem_cons_of_mem c hd)
    have hmul := Nat.mul_le_mul_left (10 ^ digits.length) (digit_le (h c List.mem_cons_self))
    show valueOfDigits ([c] ++ digits) < 10 ^ (digits.length + 1)
    rw [valueOfDigits_append, valueOfDigits_singleton, Nat.pow_succ]
    omega

/-- Digits that start with another one than zero have a value of their length. -/
theorem ten_pow_le_valueOfDigits {c : Char} {digits : Text} (hc : c.isDigit = true) (hne : c ≠ '0') :
    10 ^ digits.length ≤ valueOfDigits (c :: digits) := by
  have hmul := Nat.mul_le_mul_left (10 ^ digits.length) (digit_pos hc hne)
  show 10 ^ digits.length ≤ valueOfDigits ([c] ++ digits)
  rw [valueOfDigits_append, valueOfDigits_singleton]
  omega

/-- Digits that end with another one than zero have a value that is no multiple of ten. -/
theorem not_ten_dvd_valueOfDigits {c : Char} {digits : Text} (hc : c.isDigit = true) (hne : c ≠ '0') :
    ¬ 10 ∣ valueOfDigits (digits ++ [c]) := by
  have hle := digit_le hc
  have hpos := digit_pos hc hne
  rw [valueOfDigits_append, valueOfDigits_singleton, List.length_singleton]
  omega

theorem le_of_mul_ten_pow_eq {m n i j : Nat} (h : m * 10 ^ i = n * 10 ^ j) (hm : ¬ 10 ∣ m) : m ≤ n := by
  have hten : ∀ k, 0 < 10 ^ k := fun k => Nat.pow_pos (by decide)
  rcases Nat.lt_or_ge i j with hlt | hge
  · obtain ⟨k, rfl⟩ := Nat.exists_eq_add_of_lt hlt
    refine absurd ⟨n * 10 ^ k, Nat.eq_of_mul_eq_mul_right (hten i) ?_⟩ hm
    rw [h]
    ring
  · obtain ⟨k, rfl⟩ := Nat.exists_eq_add_of_le hge
    have heq : m * 10 ^ k = n := Nat.eq_of_mul_eq_mul_right (hten j) (by rw [← h]; ring)
    exact heq ▸ Nat.le_mul_of_pos_right m (hten k)

/-- **The significant digits are as many as the value has**, whatever zeros stand in front of them and behind them. -/
theorem length_significant_le_iff {digits : Text} (h : ∀ c ∈ digits, c.isDigit = true) {k : Nat} :
    (Text.significant digits).length ≤ k ↔ ∃ n zeros, n < 10 ^ k ∧ valueOfDigits digits = n * 10 ^ zeros := by
  obtain ⟨lead, trail, hsplit⟩ := Text.exists_eq_significant digits
  have hdigits : ∀ c ∈ Text.significant digits, c.isDigit = true := fun c hc => h c (by rw [hsplit]; simp [hc])
  have hvalue : valueOfDigits digits = valueOfDigits (Text.significant digits) * 10 ^ trail := by
    rw [← valueOfDigits_append_replicate, ← valueOfDigits_replicate_append lead (_ ++ _), ← hsplit]
  constructor
  · intro hk
    exact ⟨_, trail, (valueOfDigits_lt hdigits).trans_le (Nat.pow_le_pow_right (by decide) hk), hvalue⟩
  · rintro ⟨n, zeros, hn, hzeros⟩
    cases hfirst : Text.significant digits with
    | nil => exact Nat.zero_le k
    | cons c rest =>
      have hne : Text.significant digits ≠ [] := by rw [hfirst]; exact List.cons_ne_nil c rest
      obtain ⟨front, last, hlast⟩ := (List.eq_nil_or_concat (Text.significant digits)).resolve_left hne
      rw [List.concat_eq_append] at hlast
      have hlow : 10 ^ rest.length ≤ valueOfDigits (Text.significant digits) := by
        rw [hfirst]
        exact ten_pow_le_valueOfDigits (hdigits c (by rw [hfirst]; simp)) (Text.head_significant hfirst)
      have hten : ¬ 10 ∣ valueOfDigits (Text.significant digits) := by
        rw [hlast]
        exact not_ten_dvd_valueOfDigits (hdigits last (by rw [hlast]; simp)) (Text.getLast_significant hlast)
      have hle : valueOfDigits (Text.significant digits) ≤ n := le_of_mul_ten_pow_eq (hvalue.symm.trans hzeros) hten
      exact (Nat.pow_lt_pow_iff_right (by decide)).1 ((hlow.trans hle).trans_lt hn)

/-- **Positional writing is a decimal without an exponent**, and its digits have the value of the coefficient up to zeros. -/
theorem exists_decimal_eq (n : Numeral) : ∃ d : Decimal, d.text = n.positional ∧
    d.sign = (if n.negative then ['-'] else []) ∧ d.exponent = none ∧
      valueOfDigits (d.whole ++ d.places) = n.coefficient * 10 ^ n.exponent.toNat := by
  obtain ⟨whole, fraction, htext, hne, hwhole, hfraction, hvalue, -⟩ := positional_eq_plain n
  have hsign : IsSign (if n.negative then ['-'] else []) := by
    cases n.negative with
    | false => exact .inl rfl
    | true => exact .inr (.inr rfl)
  by_cases hpoint : fraction = []
  · refine ⟨⟨_, whole, none, none, hsign, hwhole, by simp, .inl hne⟩, ?_, rfl, rfl, ?_⟩
    · simp [htext, plain, hpoint, Decimal.text, Decimal.pointed, Decimal.tail]
    · subst hpoint
      exact hvalue
  · refine ⟨⟨_, whole, some fraction, none, hsign, hwhole, by simpa using hfraction, .inl hne⟩, ?_, rfl, rfl, hvalue⟩
    simp [htext, plain, hpoint, Decimal.text, Decimal.pointed, Decimal.tail]

end Numeral

namespace Decimal

variable {F : Format} {x : Binary F}

/-- The digits of a decimal, the zeros at both ends left out. -/
def significant (d : Decimal) : Text := Text.significant (d.whole ++ d.places)

/-- **The decimal has the fewest significant digits** of all that are literals of the number. -/
def IsShortest (d : Decimal) (x : Binary F) : Prop :=
  ∀ e : Decimal, Binary.literal? e.text = some x → d.significant.length ≤ e.significant.length

theorem isDigit_whole_append (d : Decimal) : ∀ c ∈ d.whole ++ d.places, c.isDigit = true := by
  intro c hc
  rcases List.mem_append.1 hc with hc | hc
  · exact d.isDigit_whole c hc
  · rw [places] at hc
    cases hf : d.fraction with
    | none => rw [hf] at hc; cases hc
    | some f => rw [hf] at hc; exact d.isDigit_fraction f hf c hc

theorem toBinary_numeral_of_literal? {d : Decimal} (h : Binary.literal? d.text = some x) : d.numeral.toBinary = x := by
  obtain ⟨n, hread, hx, -⟩ := Binary.literal?_eq_some_iff.1 h
  rw [d.read?_text] at hread
  exact Option.some.inj hread ▸ hx

end Decimal

namespace Binary

variable {F : Format} {x : Binary F}

/-- **A finite number is written as a shortest decimal**, with a sign if it is a minus, and without an exponent. -/
theorem exists_isShortest (h : x.isFinite = true) : ∃ d : Decimal, d.text = x.toText ∧ d.sign ≠ ['+'] ∧
    d.exponent = none ∧ d.IsShortest x := by
  cases x with
  | nan => cases h
  | infinite negative => cases h
  | finite negative sig exp hc =>
    obtain ⟨d, htext, hsign, hexponent, hvalue⟩ := (shortest .greater negative sig exp hc).exists_decimal_eq
    refine ⟨d, htext, ?_, hexponent, fun e he => ?_⟩
    · rw [hsign]
      split <;> decide
    · obtain ⟨n, zeros, hn, hzeros⟩ := (Numeral.length_significant_le_iff e.isDigit_whole_append).1 (Nat.le_refl _)
      have hread := Decimal.toBinary_numeral_of_literal? he
      rw [Decimal.numeral, hzeros, toBinary_mul_ten_pow] at hread
      exact (Numeral.length_significant_le_iff d.isDigit_whole_append).2
        ⟨_, _, coefficient_shortest_lt .greater hread hn, hvalue⟩

end Binary

end SignalFormula
