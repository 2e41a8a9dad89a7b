import SignalFormula.Proofs.Number.Decimal
import SignalFormula.Text.Pieces
/-!
# Literals — which texts are literals of a format, and of which number

A literal is a decimal below the limit of the format, and its number is the one nearest to the value of the decimal
(`Binary.literal?_exact`).  Reading a text as a value from outside and leaving out what is not finite gives the same
literals (`Binary.literal?_eq_filter_value?`): the words for infinity and for no number, which sifting the characters
first keeps away, are left out then.
-/
namespace SignalFormula

open Numeral (IsSign)

namespace Decimal

/-! ## Characters, points and signs -/

def isCharacter (c : Char) : Bool := c.isDigit || c = '.' || c = 'e' || c = 'E' || c = '-' || c = '+'

/-- The characters that a decimal starts with. -/
def isFirst (c : Char) : Bool := c.isDigit || c = '.' || c = '-' || c = '+'

theorem mem_sign {sign : Text} (hsign : IsSign sign) {c : Char} (h : c ∈ sign) :
    c = '+' ∨ c = '-' := by
  rcases hsign with rfl | rfl | rfl
  · cases h
  · exact .inl (List.mem_singleton.1 h)
  · exact .inr (List.mem_singleton.1 h)

theorem isCharacter_of_isDigit {c : Char} (h : c.isDigit = true) : isCharacter c = true := by simp [isCharacter, h]

theorem isCharacter_of_mem_sign {sign : Text} (hsign : IsSign sign) {c : Char}
    (h : c ∈ sign) : isCharacter c = true := by
  rcases mem_sign hsign h with rfl | rfl <;> decide

theorem isCharacter_of_mem_text (d : Decimal) {c : Char} (h : c ∈ d.text) : isCharacter c = true := by
  simp only [text, List.mem_append] at h
  rcases h with h | h | h | h
  · exact isCharacter_of_mem_sign d.isSign_sign h
  · exact isCharacter_of_isDigit (d.isDigit_whole c h)
  · cases hf : d.fraction with
    | none => rw [hf] at h; cases h
    | some f =>
      rw [hf, pointed, List.mem_cons] at h
      rcases h with rfl | h
      · decide
      · exact isCharacter_of_isDigit (d.isDigit_fraction f hf c h)
  · cases he : d.exponent with
    | none => rw [he] at h; cases h
    | some e =>
      rw [he, tail, Exponent.text, List.mem_cons, List.mem_append] at h
      rcases h with rfl | h | h
      · rcases e.mark_eq with h | h <;> rw [h] <;> decide
      · exact isCharacter_of_mem_sign e.sign_eq h
      · exact isCharacter_of_isDigit (e.isDigit_digits c h)

theorem isFirst_of_head (d : Decimal) {c : Char} (h : c ∈ d.text.head?) : isFirst c = true := by
  rw [text, List.head?_append, Option.mem_def, Option.or_eq_some_iff] at h
  rcases h with h | ⟨-, h⟩
  · rcases mem_sign d.isSign_sign (List.mem_of_mem_head? h) with rfl | rfl <;> decide
  · rcases d.head_whole_append h with h | rfl
    · simp [isFirst, h]
    · decide

theorem text_ne_nil (d : Decimal) : d.text ≠ [] := by
  intro h
  simp only [text, List.append_eq_nil_iff] at h
  obtain ⟨-, hwhole, hpointed, -⟩ := h
  obtain ⟨f, hf, -⟩ := d.has_digit.resolve_left (not_not_intro hwhole)
  rw [Option.mem_def.1 hf] at hpointed
  cases hpointed

theorem startsWith_text (d : Decimal) : Text.startsWith isFirst d.text = true := by
  obtain ⟨c, cs, hd⟩ := List.exists_cons_of_ne_nil d.text_ne_nil
  rw [hd]
  exact d.isFirst_of_head (by rw [hd]; rfl)

/-- **A decimal has one point at most.** -/
theorem count_point_text (d : Decimal) : d.text.count '.' ≤ 1 := by
  have hsign : ∀ {sign : Text}, IsSign sign → sign.count '.' = 0 := fun h => by
    rcases h with rfl | rfl | rfl <;> rfl
  have hpointed : (pointed d.fraction).count '.' ≤ 1 := by
    cases hf : d.fraction with
    | none => exact Nat.zero_le 1
    | some f => rw [pointed, List.count_cons_self, Text.count_point_digits (d.isDigit_fraction f hf)]
  have htail : (tail d.exponent).count '.' = 0 := by
    cases d.exponent with
    | none => rfl
    | some e =>
      have hmark : e.mark ≠ '.' := by rcases e.mark_eq with h | h <;> rw [h] <;> decide
      rw [tail, Exponent.text, List.count_cons_of_ne hmark, List.count_append, hsign e.sign_eq,
        Text.count_point_digits e.isDigit_digits]
  rw [text, List.count_append, List.count_append, List.count_append, hsign d.isSign_sign,
    Text.count_point_digits d.isDigit_whole, htail]
  omega

/-- A sign has the mark of an exponent in front of it. -/
def SignAfterMark (b c : Char) : Prop := c = '+' ∨ c = '-' → b = 'e' ∨ b = 'E'

theorem isChain_of_forall {t : Text} (h : ∀ c ∈ t, c ≠ '+' ∧ c ≠ '-') : t.IsChain SignAfterMark :=
  (List.pairwise_of_forall_mem_list fun _ _ c hc hsign =>
    absurd hsign (not_or.2 (h c hc))).isChain

theorem isChain_sign_append {sign rest : Text} (hsign : IsSign sign)
    (hrest : rest.IsChain SignAfterMark) (hhead : ∀ c ∈ rest.head?, c ≠ '+' ∧ c ≠ '-') :
    (sign ++ rest).IsChain SignAfterMark := by
  refine List.isChain_append.2 ⟨?_, hrest, fun b _ c hc hs => absurd hs (not_or.2 (hhead c hc))⟩
  rcases hsign with rfl | rfl | rfl <;> simp

theorem isChain_tail (e : Option Exponent) : (tail e).IsChain SignAfterMark := by
  cases e with
  | none => exact List.isChain_nil
  | some e =>
    have hdigits : ∀ c ∈ e.digits, c ≠ '+' ∧ c ≠ '-' := fun c hc => Numeral.ne_sign_of_isDigit (e.isDigit_digits c hc)
    refine List.isChain_cons.2 ⟨fun c _ _ => e.mark_eq, ?_⟩
    exact isChain_sign_append e.sign_eq (isChain_of_forall hdigits) fun c hc => hdigits c (List.mem_of_mem_head? hc)

/-- **A sign stands in front of a decimal or behind the mark of its exponent**, and nowhere else. -/
theorem isChain_text (d : Decimal) : d.text.IsChain SignAfterMark := by
  have hpointed : ∀ c ∈ pointed d.fraction, c ≠ '+' ∧ c ≠ '-' := fun c hc => by
    cases hf : d.fraction with
    | none => rw [hf] at hc; cases hc
    | some f =>
      rw [hf, pointed, List.mem_cons] at hc
      rcases hc with rfl | hc
      · decide
      · exact Numeral.ne_sign_of_isDigit (d.isDigit_fraction f hf c hc)
  have hhead : ∀ c ∈ (pointed d.fraction ++ tail d.exponent).head?, c ≠ '+' ∧ c ≠ '-' := fun c hc => by
    rcases head_pointed_append hc with rfl | rfl | rfl <;> decide
  have htail : ∀ c ∈ (tail d.exponent).head?, c ≠ '+' ∧ c ≠ '-' := fun c hc => by
    rcases head_tail hc with rfl | rfl <;> decide
  have hwhole : ∀ c ∈ d.whole, c ≠ '+' ∧ c ≠ '-' := fun c hc => Numeral.ne_sign_of_isDigit (d.isDigit_whole c hc)
  refine isChain_sign_append d.isSign_sign (List.isChain_append.2 ⟨isChain_of_forall hwhole, ?_, ?_⟩) d.ne_sign_of_head
  · refine List.isChain_append.2 ⟨isChain_of_forall hpointed, isChain_tail d.exponent, fun _ _ c hc hs => ?_⟩
    exact absurd hs (not_or.2 (htail c hc))
  · exact fun _ _ c hc hs => absurd hs (not_or.2 (hhead c hc))

end Decimal

namespace Binary

variable {F : Format} {t : Text}

/-! ## Words -/

theorem isFinite_of_word? {word : Text} {f : Bool → Binary F} (h : word? word = some f) (negative : Bool) :
    (f negative).isFinite = false := by
  unfold word? at h
  split_ifs at h <;> cases h <;> rfl

theorem exists_word? {word : Text} (h : word = "inf".toList ∨ word = "infinity".toList ∨ word = "nan".toList) :
    ∃ f : Bool → Binary F, word? word = some f := by
  rcases h with rfl | rfl | rfl
  · exact ⟨_, rfl⟩
  · exact ⟨_, rfl⟩
  · exact ⟨_, rfl⟩

/-- **The words are read as values from outside**, in letters of any case and with any sign, and these are not finite. -/
theorem exists_value?_word {sign word : Text} (hsign : IsSign sign)
    (hword : word.map Char.toLower = "inf".toList ∨ word.map Char.toLower = "infinity".toList ∨
      word.map Char.toLower = "nan".toList) :
    ∃ x : Binary F, value? (sign ++ word) = some x ∧ x.isFinite = false := by
  obtain ⟨f, hf⟩ := exists_word? (F := F) hword
  have hhead : ∀ c ∈ word.head?, c ≠ '+' ∧ c ≠ '-' := fun c hc => by
    cases word with
    | nil => cases hc
    | cons d cs =>
      obtain rfl : d = c := Option.some.inj hc
      constructor <;> rintro rfl <;> simp at hword
  refine ⟨f (decide (sign = ['-'])), ?_, isFinite_of_word? hf _⟩
  rw [value?, Numeral.splitSign_append hsign hhead]
  simp only [hf]

/-- **A literal is a value from outside that is finite.** -/
theorem literal?_eq_filter_value? (t : Text) : (literal? t : Option (Binary F)) = (value? t).filter isFinite := by
  cases hread : Numeral.read? t with
  | some n => rw [literal?, value?_of_read? hread, hread, Option.map_some]
  | none =>
    rw [literal?, value?, hread]
    cases hword : (word? ((Numeral.splitSign t).2.map Char.toLower) : Option (Bool → Binary F)) with
    | none => simp only [hword]
    | some f =>
      simp only [hword]
      exact (Option.filter_eq_none_iff.2 fun x hx => by
        cases hx
        rw [isFinite_of_word? hword]
        decide).symm

/-- **A literal is a decimal below the limit, and its number is the nearest one.** -/
theorem literal?_iff_decimal {x : Binary F} : literal? t = some x ↔
    ∃ d : Decimal, d.text = t ∧ d.magnitude < F.limit ∧ Nearest d.negative d.magnitude x := by
  rw [literal?_eq_some_iff]
  constructor
  · rintro ⟨n, hread, hx, hfinite⟩
    obtain ⟨d, hd, rfl⟩ := Numeral.read?_eq_some_iff.1 hread
    rw [d.toBinary_numeral] at hx
    rw [← hx] at hfinite ⊢
    exact ⟨d, hd, (isFinite_round_iff d.negative).1 hfinite, nearest_round d.magnitude_nonneg hfinite⟩
  · rintro ⟨d, hd, hlimit, hnearest⟩
    have hfinite : (round d.negative d.magnitude : Binary F).isFinite = true := (isFinite_round_iff d.negative).2 hlimit
    refine ⟨d.numeral, Numeral.read?_eq_some_iff.2 ⟨d, hd, rfl⟩, ?_, hnearest.isFinite⟩
    rw [d.toBinary_numeral]
    exact (hnearest.eq_round d.magnitude_nonneg hfinite).symm

/-- **The literals of a format are the decimals below its limit**, each of the number nearest to its value, and so never
infinite and never no number.  They are what is left of the values from outside when the characters are sifted and the
values that are not finite are left out.  No literal has another character than those of a decimal, a second point, or a
sign that stands neither in front nor behind the mark of an exponent; and the words for infinity and for no number are
none, in letters of any case and with any sign, although they are values from outside. -/
theorem literal?_exact (F : Format) :
    (∀ {t : Text} {x : Binary F}, literal? t = some x ↔
      ∃ d : Decimal, d.text = t ∧ d.magnitude < F.limit ∧ Nearest d.negative d.magnitude x) ∧
    (∀ t : Text, (literal? t : Option (Binary F)) =
      if Text.startsWith Decimal.isFirst t && t.all Decimal.isCharacter then (value? t).filter isFinite else none) ∧
    (∀ {t : Text} {x : Binary F}, literal? t = some x → x.isFinite = true ∧
      (∀ c ∈ t, Decimal.isCharacter c = true) ∧ t.count '.' ≤ 1 ∧ t.IsChain Decimal.SignAfterMark) ∧
    ∀ {sign word : Text}, IsSign sign →
      (word.map Char.toLower = "inf".toList ∨ word.map Char.toLower = "infinity".toList ∨
        word.map Char.toLower = "nan".toList) →
      (literal? (sign ++ word) : Option (Binary F)) = none ∧
        ∃ x : Binary F, value? (sign ++ word) = some x ∧ x.isFinite = false := by
  refine ⟨literal?_iff_decimal, fun t => ?_, fun {t x} h => ?_, fun {sign word} hsign hword => ?_⟩
  · rw [← literal?_eq_filter_value?]
    split_ifs with hsifted
    · rfl
    · rw [Option.eq_none_iff_forall_ne_some]
      rintro x h
      obtain ⟨d, rfl, -⟩ := literal?_iff_decimal.1 h
      refine hsifted ?_
      rw [d.startsWith_text, List.all_eq_true.2 fun c => d.isCharacter_of_mem_text]
      rfl
  · obtain ⟨d, rfl, -, hnearest⟩ := literal?_iff_decimal.1 h
    exact ⟨hnearest.isFinite, fun c => d.isCharacter_of_mem_text, d.count_point_text, d.isChain_text⟩
  · obtain ⟨x, hx, hout⟩ := exists_value?_word (F := F) hsign hword
    refine ⟨?_, x, hx, hout⟩
    rw [literal?_eq_filter_value?, hx, Option.filter_some, if_neg (by rw [hout]; decide)]

/-- In single precision, a decimal above the largest number that is rounded down to it, and the next one of its length,
which is out of range. -/
theorem literal?_exact_largest :
    let t : Text := ".34028235677973366e+39".toList
    let x : Single := .finite false 16777215 104 (by decide)
    literal? t = some x ∧
      (∃ d : Decimal, d.text = t ∧ d.magnitude < Format.single.limit ∧ Nearest d.negative d.magnitude x) ∧
      t.count '.' ≤ 1 ∧ (value? "-.34028235677973367e+39".toList : Option Single) = some (.infinite true) ∧
      (literal? "-.34028235677973367e+39".toList : Option Single) = none ∧
      (literal? (['-'] ++ "InFiNiTy".toList) : Option Single) = none := by
  intro t x
  have hliteral : literal? t = some x := by decide +kernel
  have hout : (value? "-.34028235677973367e+39".toList : Option Single) = some (.infinite true) := by decide +kernel
  obtain ⟨hdecimal, hsifted, hshape, hwords⟩ := literal?_exact Format.single
  refine ⟨hliteral, hdecimal.1 hliteral, (hshape hliteral).2.2.1, hout, ?_, (hwords (.inr (.inr rfl)) (by decide)).1⟩
  rw [hsifted, hout]
  rfl

end Binary
end SignalFormula
