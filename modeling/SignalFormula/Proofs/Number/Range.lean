import SignalFormula.Proofs.Number.Nearest
import SignalFormula.Scalar
/-!
# Range — which magnitudes a format has room for

A magnitude rounds to a finite number exactly if it is less than half a unit above the largest one
(`Binary.isFinite_round_iff`); from that limit on it rounds to an infinity.  So a format that goes further than another by
a power of two has room for every literal of the other one (`Binary.exists_literal?_widen`), and a literal that is not one
of the other one is infinite there (`Binary.exists_value?_eq_infinite`).
-/
namespace SignalFormula

namespace Format

variable {F G : Format} {q : Rat}

/-- Half a unit above the largest magnitude of the format. -/
def limit (F : Format) : Rat := (F.sigBound - 1 / 2) * 2 ^ F.maxExp

theorem limit_lt (F : Format) : F.limit < 2 ^ (F.maxExp + F.precision) := by
  rw [← F.scaled_sigBound]
  exact mul_lt_mul_of_pos_right (by linarith) (zpow_two_pos _)

theorem le_limit (F : Format) : 2 ^ (F.maxExp + F.precision - 1) ≤ F.limit := by
  have hdouble : (F.sigBound : Rat) = 2 * F.sigFull := by exact_mod_cast F.sigBound_eq
  have hone : (1 : Rat) ≤ F.sigFull := by exact_mod_cast Nat.two_pow_pos (F.precision - 1)
  rw [← F.scaled_sigFull]
  exact mul_le_mul_of_nonneg_right (by linarith) (zpow_two_pos _).le

theorem limit_pos (F : Format) : 0 < F.limit := (zpow_two_pos _).trans_le F.le_limit

theorem lt_limit_of_unitExp_lt (hq : 0 < q) (h : F.unitExp q < F.maxExp) : q < F.limit := by
  refine (F.lt_scaled_sigBound hq).trans_le (le_trans ?_ F.le_limit)
  rw [scaled_sigBound]
  exact zpow_two_le_iff.2 (by omega)

theorem limit_lt_of_lt_unitExp (hq : 0 < q) (h : F.maxExp < F.unitExp q) : F.limit < q := by
  have hmin := F.minExp_nonpos
  have hmax := F.maxExp_nonneg
  refine F.limit_lt.trans_le (le_trans ?_ (F.scaled_sigFull_le hq (by omega)))
  rw [scaled_sigFull]
  exact zpow_two_le_iff.2 (by omega)

/-- **In the greatest unit a significand is rounded up to a bit too many from the limit on.** -/
theorem sigOf_lt_iff (hq : 0 < q) (h : F.unitExp q = F.maxExp) : F.sigOf q < F.sigBound ↔ q < F.limit := by
  have hunit := zpow_two_pos F.maxExp
  rw [sigOf, h, nearestEven_lt_iff (div_pos hq hunit).le F.even_sigBound, limit, div_lt_iff₀ hunit]

/-- The second format goes further than the first one, by a power of two at least. -/
def Narrower (F G : Format) : Prop := F.maxExp + F.precision < G.maxExp + G.precision

theorem Narrower.limit_lt_limit (h : F.Narrower G) : F.limit < G.limit := by
  refine F.limit_lt.trans_le (le_trans (zpow_two_le_iff.2 ?_) G.le_limit)
  unfold Narrower at h
  omega

end Format

namespace Binary

variable {F : Format} {q : Rat}

/-- **A magnitude is in range exactly below the limit.** -/
theorem isFinite_round_iff (negative : Bool) : (round negative q : Binary F).isFinite = true ↔ q < F.limit := by
  rcases le_or_gt q 0 with hq | hq
  · rw [round_of_nonpos negative hq]
    exact iff_of_true rfl (hq.trans_lt F.limit_pos)
  · rcases round_cases (F := F) negative hq with ⟨hc, heq⟩ | ⟨-, hc, heq⟩ | ⟨heq, hout⟩
    · rw [heq]
      refine iff_of_true rfl ?_
      rcases Int.lt_or_eq_of_le hc.le_maxExp with hlt | hgreatest
      · exact F.lt_limit_of_unitExp_lt hq hlt
      · exact (F.sigOf_lt_iff hq hgreatest).1 hc.sig_lt
    · rw [heq]
      exact iff_of_true rfl (F.lt_limit_of_unitExp_lt hq hc.le_maxExp)
    · rw [heq]
      refine iff_of_false Bool.false_ne_true ?_
      rcases hout with hlarge | ⟨hgreatest, hbound⟩
      · exact not_lt.2 (F.limit_lt_of_lt_unitExp hq hlarge).le
      · exact mt (F.sigOf_lt_iff hq hgreatest).2 (Nat.not_lt.2 hbound.ge)

/-- **The magnitudes that round to a finite number are a stretch.** -/
theorem round_between {negative : Bool} {x : Binary F} {a b c : Rat} (hx : x.isFinite = true) (ha : 0 ≤ a) (hab : a ≤ b)
    (hbc : b ≤ c) (hlow : round negative a = x) (hhigh : round negative c = x) : round negative b = x := by
  have hnear : ∀ {q : Rat}, 0 ≤ q → round negative q = x → Nearest negative q x := fun {q} hq h => by
    rw [← h] at hx ⊢
    exact nearest_round hq hx
  have hlimit : c < F.limit := (isFinite_round_iff negative).1 (by rw [hhigh]; exact hx)
  have hbetween : Nearest negative b x := (hnear ha hlow).between (hnear (ha.trans (hab.trans hbc)) hhigh) hab hbc
  exact (hbetween.eq_round (ha.trans hab) ((isFinite_round_iff negative).2 (hbc.trans_lt hlimit))).symm

theorem round_eq_infinite {negative : Bool} (h : (round negative q : Binary F).isFinite = false) :
    (round negative q : Binary F) = .infinite negative := by
  unfold round at h ⊢
  simp only at h ⊢
  split_ifs at h ⊢
  · cases h
  · cases h
  · cases h
  · rfl

end Binary

namespace Numeral

variable {F G : Format} {n : Numeral}

/-- **A numeral in the range of a format is in the range of every format that goes further.** -/
theorem isFinite_toBinary_widen (h : F.Narrower G) (hn : (n.toBinary : Binary F).isFinite = true) :
    (n.toBinary : Binary G).isFinite = true := by
  rw [toBinary, Binary.ofDecimal_eq_round, Binary.isFinite_round_iff] at hn ⊢
  exact hn.trans h.limit_lt_limit

theorem toBinary_eq_infinite (h : (n.toBinary : Binary F).isFinite = false) :
    (n.toBinary : Binary F) = .infinite n.negative := by
  rw [toBinary, Binary.ofDecimal_eq_round] at h ⊢
  exact Binary.round_eq_infinite h

theorem toLower_of_isDigit {c : Char} (h : c.isDigit = true) : c.toLower = c := by
  refine dif_neg fun hupper => ?_
  have hnine : c.val ≤ '9'.val := by
    simp only [Char.isDigit, Bool.and_eq_true, decide_eq_true_eq] at h
    exact h.2
  exact absurd (UInt32.le_trans hupper.1 hnine) (by decide)

/-- A numeral starts with a digit or a point, behind its sign. -/
theorem exists_cons_of_read? {t : Text} (h : read? t = some n) :
    ∃ c cs, (splitSign t).2 = c :: cs ∧ (c.isDigit = true ∨ c = '.') := by
  unfold read? at h
  cases hu : (splitSign t).2 with
  | nil => simp [hu, splitDigits, splitFraction] at h
  | cons c cs =>
    refine ⟨c, cs, rfl, ?_⟩
    by_contra hnone
    rw [not_or, Bool.not_eq_true] at hnone
    obtain ⟨hdigit, hpoint⟩ := hnone
    have hwhole : splitDigits (c :: cs) = ([], c :: cs) := by simp [splitDigits, hdigit]
    have hfraction : splitFraction (c :: cs) = ([], c :: cs) := by
      unfold splitFraction
      split
      · rename_i heq; cases heq; exact absurd rfl hpoint
      · rfl
    simp [hu, hwhole, hfraction] at h

end Numeral

namespace Binary

variable {F G : Format} {t : Text}

theorem word?_eq_none {c : Char} {cs : Text} (h : c.isDigit = true ∨ c = '.') :
    (word? ((c :: cs).map Char.toLower) : Option (Bool → Binary F)) = none := by
  have hlower : c.toLower = c := by
    rcases h with h | rfl
    · exact Numeral.toLower_of_isDigit h
    · rfl
  have hi : c ≠ 'i' := by rintro rfl; exact absurd h (by decide)
  have hn : c ≠ 'n' := by rintro rfl; exact absurd h (by decide)
  simp [word?, hlower, hi, hn]

/-- A numeral is given from outside as what it is read as, in range or not. -/
theorem value?_of_read? {n : Numeral} (h : Numeral.read? t = some n) : (value? t : Option (Binary F)) = some n.toBinary := by
  obtain ⟨c, cs, hrest, hc⟩ := Numeral.exists_cons_of_read? h
  unfold value?
  simp only [hrest]
  rw [word?_eq_none hc, h]
  rfl

theorem literal?_eq_some_iff {x : Binary F} : literal? t = some x ↔
    ∃ n, Numeral.read? t = some n ∧ n.toBinary = x ∧ x.isFinite = true := by
  rw [literal?, Option.filter_eq_some_iff, Option.map_eq_some_iff]
  constructor
  · rintro ⟨⟨n, hread, hx⟩, hfinite⟩
    exact ⟨n, hread, hx, hfinite⟩
  · rintro ⟨n, hread, hx, hfinite⟩
    exact ⟨⟨n, hread, hx⟩, hfinite⟩

/-- **A literal of a format is one of every format that goes further.** -/
theorem exists_literal?_widen (h : F.Narrower G) {x : Binary F} (hx : literal? t = some x) :
    ∃ y : Binary G, literal? t = some y := by
  obtain ⟨n, hread, rfl, hfinite⟩ := literal?_eq_some_iff.1 hx
  exact ⟨_, literal?_eq_some_iff.2 ⟨n, hread, rfl, Numeral.isFinite_toBinary_widen h hfinite⟩⟩

/-- **A literal of one format that is none of another** is infinite in that one. -/
theorem exists_value?_eq_infinite {y : Binary G} (hy : literal? t = some y) (h : (literal? t : Option (Binary F)) = none) :
    ∃ negative, (value? t : Option (Binary F)) = some (.infinite negative) := by
  obtain ⟨n, hread, -, -⟩ := literal?_eq_some_iff.1 hy
  have hout : (n.toBinary : Binary F).isFinite = false := by
    by_contra hfinite
    rw [Bool.not_eq_false] at hfinite
    have hx := literal?_eq_some_iff.2 ⟨n, hread, rfl, hfinite⟩
    rw [h] at hx
    cases hx
  exact ⟨n.negative, by rw [value?_of_read? hread, Numeral.toBinary_eq_infinite hout]⟩

end Binary
end SignalFormula
