import SignalFormula.Number.Numeral
/-!
# Positional — a numeral in positional writing, read back

Positional writing is a sign, digits, and behind a point the digits of the places (`positional_eq_plain`).  So it is a
decimal, and it is read as the numeral with the zeros of a positive exponent among its digits (`read?_positional`).
-/
namespace SignalFormula

namespace Text

/-- Digits with at most one point, after a minus sign if there is one. -/
def IsDecimal (t : Text) : Prop :=
  ∃ sign digits : Text, t = sign ++ digits ∧ (sign = [] ∨ sign = ['-']) ∧ digits ≠ [] ∧
    (∀ c ∈ digits, c.isDigit = true ∨ c = '.') ∧ digits.count '.' ≤ 1

theorem isDigit_of_mem_ofNat {n : Nat} {c : Char} (h : c ∈ ofNat n) : c.isDigit = true :=
  Nat.isDigit_of_mem_toDigits (by decide) (by decide) h

theorem count_point_digits {digits : Text} (h : ∀ c ∈ digits, c.isDigit = true) : digits.count '.' = 0 :=
  List.count_eq_zero.2 fun hmem => by cases h _ hmem

end Text

namespace Numeral

theorem splitDigits_append {digits rest : Text} (hdigits : ∀ c ∈ digits, c.isDigit = true)
    (hrest : ∀ c ∈ rest.head?, c.isDigit = false) : splitDigits (digits ++ rest) = (digits, rest) := by
  have hstop : rest.takeWhile Char.isDigit = [] ∧ rest.dropWhile Char.isDigit = rest := by
    cases rest with
    | nil => exact ⟨rfl, rfl⟩
    | cons c rest => simp [hrest c rfl]
  rw [splitDigits, List.takeWhile_append_of_pos hdigits, List.dropWhile_append_of_pos hdigits, hstop.1, hstop.2,
    List.append_nil]

theorem splitDigits_eq_self {digits : Text} (h : ∀ c ∈ digits, c.isDigit = true) :
    splitDigits digits = (digits, []) := by
  have happend : splitDigits (digits ++ []) = (digits, []) := splitDigits_append h (by simp)
  rwa [List.append_nil] at happend

theorem splitSign_of_isDigit {c : Char} (h : c.isDigit = true) (t : Text) : splitSign (c :: t) = (false, c :: t) := by
  unfold splitSign
  split
  · rename_i heq; cases heq; cases h
  · rename_i heq; cases heq; cases h
  · rfl

/-- A sign if it is a minus, digits, and more digits behind a point if there are any. -/
def plain (negative : Bool) (whole fraction : Text) : Text :=
  (if negative then ['-'] else []) ++ (whole ++ if fraction = [] then [] else '.' :: fraction)

variable {negative : Bool} {whole fraction : Text}

theorem isDecimal_plain (hne : whole ≠ []) (hwhole : ∀ c ∈ whole, c.isDigit = true)
    (hfraction : ∀ c ∈ fraction, c.isDigit = true) : (plain negative whole fraction).IsDecimal := by
  refine ⟨_, _, rfl, by cases negative <;> simp, List.append_ne_nil_of_left_ne_nil hne _, fun c hc => ?_, ?_⟩
  · rcases List.mem_append.1 hc with hc | hc
    · exact .inl (hwhole c hc)
    · split at hc
      · cases hc
      · rcases List.mem_cons.1 hc with rfl | hc
        · exact .inr rfl
        · exact .inl (hfraction c hc)
  · rw [List.count_append, Text.count_point_digits hwhole]
    split
    · simp
    · have hpoints := Text.count_point_digits hfraction
      rw [List.count_cons_self]
      omega

/-- **Plain digits are read in place.** -/
theorem read?_plain (hne : whole ≠ []) (hwhole : ∀ c ∈ whole, c.isDigit = true)
    (hfraction : ∀ c ∈ fraction, c.isDigit = true) :
    read? (plain negative whole fraction) =
      some ⟨negative, valueOfDigits (whole ++ fraction), -(fraction.length : Int)⟩ := by
  obtain ⟨c, digits, rfl⟩ := List.exists_cons_of_ne_nil hne
  have hsign : ∀ rest, splitSign ((if negative then ['-'] else []) ++ (c :: digits ++ rest)) =
      (negative, c :: digits ++ rest) := fun rest => by
    cases negative with
    | true => rfl
    | false => exact splitSign_of_isDigit (hwhole c List.mem_cons_self) _
  unfold read? plain
  rw [hsign]
  by_cases hpoint : fraction = []
  · subst hpoint
    simp [splitDigits_eq_self hwhole, splitFraction, readExponent?]
  · have hsplit : splitDigits (c :: digits ++ '.' :: fraction) = (c :: digits, '.' :: fraction) :=
      splitDigits_append hwhole (by simp)
    have hrest : splitFraction ('.' :: fraction) = (fraction, []) := splitDigits_eq_self hfraction
    simp only [hpoint, if_false, hsplit, hrest]
    simp [readExponent?]

/-- The numeral with its trailing zeros written out, so that its exponent is not positive. -/
def inPlace (n : Numeral) : Numeral :=
  ⟨n.negative, n.coefficient * Nat.pow 10 n.exponent.toNat, -((-n.exponent).toNat : Int)⟩

theorem valueOfDigits_ofNat (n : Nat) : valueOfDigits (Text.ofNat n) = n := Nat.ofDigitChars_ten_toDigits

theorem valueOfDigits_replicate_append (zeros : Nat) (digits : Text) :
    valueOfDigits (List.replicate zeros '0' ++ digits) = valueOfDigits digits := by
  rw [valueOfDigits, Nat.ofDigitChars_append, Nat.ofDigitChars_replicate_zero, Nat.mul_zero]
  rfl

/-- **Positional writing is plain**: the digits of the numeral in place, with as many behind the point as its exponent is
below zero. -/
theorem positional_eq_plain (n : Numeral) : ∃ whole fraction : Text,
    n.positional = plain n.negative whole fraction ∧ whole ≠ [] ∧ (∀ c ∈ whole, c.isDigit = true) ∧
      (∀ c ∈ fraction, c.isDigit = true) ∧ valueOfDigits (whole ++ fraction) = n.inPlace.coefficient ∧
      -(fraction.length : Int) = n.inPlace.exponent := by
  by_cases hplaces : (-n.exponent).toNat = 0
  · refine ⟨Text.ofNat n.inPlace.coefficient, [], ?_, Nat.toDigits_ne_nil, fun c => Text.isDigit_of_mem_ofNat,
      by simp, ?_, by simp [inPlace, hplaces]⟩
    · simp only [positional, hplaces, if_true, plain, inPlace, List.append_nil]
      cases n.negative <;> rfl
    · rw [List.append_nil, valueOfDigits_ofNat]
  · -- one digit at least stands before the point
    obtain ⟨places, hp⟩ : ∃ places, (-n.exponent).toNat = places := ⟨_, rfl⟩
    obtain ⟨padded, hpadded⟩ : ∃ padded : Text,
      padded = List.replicate (places + 1 - (Text.ofNat n.coefficient).length) '0' ++ Text.ofNat n.coefficient :=
      ⟨_, rfl⟩
    have hlength : places < padded.length := by
      rw [hpadded, List.length_append, List.length_replicate]
      omega
    have hdigits : ∀ c ∈ padded, c.isDigit = true := fun c hc => by
      rw [hpadded] at hc
      rcases List.mem_append.1 hc with hc | hc
      · rw [List.eq_of_mem_replicate hc]; rfl
      · exact Text.isDigit_of_mem_ofNat hc
    have hfraction : (padded.drop (padded.length - places)).length = places := by
      rw [List.length_drop]
      omega
    refine ⟨padded.take (padded.length - places), padded.drop (padded.length - places), ?_, ?_,
      fun c hc => hdigits c (List.mem_of_mem_take hc), fun c hc => hdigits c (List.mem_of_mem_drop hc), ?_, ?_⟩
    · have hpoint : padded.drop (padded.length - places) ≠ [] := fun h => by
        rw [h, List.length_nil] at hfraction
        omega
      simp only [positional, hp, if_neg (hp ▸ hplaces), plain, if_neg hpoint, ← hpadded]
      cases n.negative <;> rfl
    · refine List.ne_nil_of_length_pos ?_
      rw [List.length_take]
      omega
    · have hzero : n.exponent.toNat = 0 := by omega
      rw [List.take_append_drop, hpadded, valueOfDigits_replicate_append, valueOfDigits_ofNat, inPlace, hzero]
      simp
    · rw [hfraction, inPlace, hp]

/-- **Positional writing is read back**, with the zeros of a positive exponent among the digits. -/
theorem read?_positional (n : Numeral) : read? n.positional = some n.inPlace := by
  obtain ⟨whole, fraction, htext, hne, hwhole, hfraction, hvalue, hexp⟩ := positional_eq_plain n
  rw [htext, read?_plain hne hwhole hfraction, hvalue, hexp]
  rfl

theorem isDecimal_positional (n : Numeral) : n.positional.IsDecimal := by
  obtain ⟨whole, fraction, htext, hne, hwhole, hfraction, -⟩ := positional_eq_plain n
  rw [htext]
  exact isDecimal_plain hne hwhole hfraction

end Numeral

end SignalFormula
