import SignalFormula.Number.Binary
import Mathlib.Algebra.Order.Field.Power
import Mathlib.Data.Rat.Floor
import Mathlib.Tactic.FieldSimp
import Mathlib.Tactic.Linarith
import Mathlib.Tactic.Positivity
/-!
# Rounding — a magnitude of the format rounds to itself

`binaryOrder` is the exponent of the power of two at or below a positive rational number (`binaryOrder_eq_iff`).  So the
unit of a canonical magnitude is its own exponent (`Format.unitExp_scaled`), and rounding gives back the number
(`Binary.round_scaled`), as it does from less than half a unit above (`Binary.round_of_lt_half_unit_above`).
-/
namespace SignalFormula

theorem le_nearestEven {q : Rat} {n : Nat} (h : (n : Rat) ≤ q) : n ≤ nearestEven q := by
  have hfloor : (n : Int) ≤ q.floor := Int.le_floor.2 (by exact_mod_cast h)
  have hle : n ≤ q.floor.toNat := by omega
  unfold nearestEven
  simp only
  split_ifs <;> omega

theorem nearestEven_le {q : Rat} {n : Nat} (h : q ≤ n) : nearestEven q ≤ n := by
  have hfloor : q.floor ≤ (n : Int) := by exact_mod_cast (Int.floor_le q).trans h
  have hle : q.floor.toNat ≤ n := by omega
  rcases Nat.eq_or_lt_of_le hle with heq | hlt
  · have hrest : q - (q.floor.toNat : Rat) < 1 / 2 := by rw [heq]; linarith
    unfold nearestEven
    simp only [if_pos hrest]
    exact hle
  · unfold nearestEven
    simp only
    split_ifs <;> omega

theorem nearestEven_of_lt_half_above {q : Rat} {n : Nat} (hlow : (n : Rat) ≤ q) (hhigh : q < n + 1 / 2) :
    nearestEven q = n := by
  have hfloor : q.floor = (n : Int) := by
    show ⌊q⌋ = (n : Int)
    exact Int.floor_eq_iff.2 ⟨by exact_mod_cast hlow, by push_cast; linarith⟩
  have hrest : q - n < 1 / 2 := by linarith
  unfold nearestEven
  simp only [hfloor, Int.toNat_natCast, if_pos hrest]

theorem zpow_two_pos (e : Int) : (0 : Rat) < 2 ^ e := by positivity

theorem zpow_two_le_iff {a b : Int} : (2 : Rat) ^ a ≤ 2 ^ b ↔ a ≤ b := zpow_le_zpow_iff_right₀ (by norm_num)

theorem zpow_two_lt_iff {a b : Int} : (2 : Rat) ^ a < 2 ^ b ↔ a < b := zpow_lt_zpow_iff_right₀ (by norm_num)

theorem zpow_two_add (a b : Int) : (2 : Rat) ^ (a + b) = 2 ^ a * 2 ^ b := zpow_add₀ (by norm_num) a b

theorem zpow_two_log2_le {n : Nat} (h : n ≠ 0) : (2 : Rat) ^ (n.log2 : Int) ≤ n := by
  rw [zpow_natCast]
  exact_mod_cast Nat.log2_self_le h

theorem lt_zpow_two_log2 (n : Nat) : (n : Rat) < 2 ^ ((n.log2 : Int) + 1) := by
  have h : n < 2 ^ (n.log2 + 1) := Nat.lt_log2_self
  exact_mod_cast h

theorem two_zpow_le_ten_zpow {e : Int} (h : 0 ≤ e) : (2 : Rat) ^ e ≤ 10 ^ e :=
  zpow_le_zpow_left₀ h (by norm_num) (by norm_num)

theorem ten_zpow_le_two_zpow {e : Int} (h : e ≤ 0) : (10 : Rat) ^ e ≤ 2 ^ (3 * e) := by
  obtain ⟨k, rfl⟩ : ∃ k : Nat, e = -(k : Int) := ⟨(-e).toNat, by omega⟩
  rw [zpow_mul, zpow_neg, zpow_neg, zpow_natCast, zpow_natCast]
  exact inv_anti₀ (by positivity) (pow_le_pow_left₀ (by positivity) (by norm_num) k)

/-- **A quotient is at most one power off the quotient of the leading powers**: the power at or below a positive number, from
the powers at or below its numerator and its denominator. -/
theorem order_bounds {b q : Rat} (hb : 0 < b) (hq : 0 < q) {i j guess order : Int}
    (hnum : b ^ i ≤ q.num.toNat ∧ (q.num.toNat : Rat) < b ^ (i + 1))
    (hden : b ^ j ≤ q.den ∧ (q.den : Rat) < b ^ (j + 1)) (hguess : guess = i - j)
    (horder : order = if q < b ^ guess then guess - 1 else guess) : b ^ order ≤ q ∧ q < b ^ (order + 1) := by
  subst hguess horder
  have hdenPos : (0 : Rat) < q.den := by exact_mod_cast q.den_pos
  have hcast : ((q.num.toNat : Nat) : Rat) = q * q.den := by
    have h : ((q.num.toNat : Int) : Rat) = (q.num : Rat) := by rw [Int.toNat_of_nonneg (Rat.num_pos.2 hq).le]
    rw [Rat.mul_den_eq_num, ← h, Int.cast_natCast]
  rw [hcast] at hnum
  have hlow : b ^ (i - j - 1) < q := by
    refine lt_of_mul_lt_mul_right ?_ hdenPos.le
    calc b ^ (i - j - 1) * q.den < b ^ (i - j - 1) * b ^ (j + 1) := mul_lt_mul_of_pos_left hden.2 (zpow_pos hb _)
      _ = b ^ i := by rw [← zpow_add₀ hb.ne']; congr 1; ring
      _ ≤ q * q.den := hnum.1
  have hhigh : q < b ^ (i - j + 1) := by
    refine lt_of_mul_lt_mul_right ?_ hdenPos.le
    calc q * q.den < b ^ (i + 1) := hnum.2
      _ = b ^ (i - j + 1) * b ^ j := by rw [← zpow_add₀ hb.ne']; congr 1; ring
      _ ≤ b ^ (i - j + 1) * q.den := mul_le_mul_of_nonneg_left hden.1 (zpow_pos hb _).le
  split_ifs with h
  · rw [sub_add_cancel]
    exact ⟨hlow.le, h⟩
  · exact ⟨not_lt.1 h, hhigh⟩

theorem num_toNat_ne_zero {q : Rat} (hq : 0 < q) : q.num.toNat ≠ 0 := by
  have hnum := Rat.num_pos.2 hq
  omega

/-- **The power of two at or below a positive number.** -/
theorem binaryOrder_spec {q : Rat} (hq : 0 < q) :
    (2 : Rat) ^ binaryOrder q ≤ q ∧ q < (2 : Rat) ^ (binaryOrder q + 1) :=
  order_bounds (by norm_num) hq ⟨zpow_two_log2_le (num_toNat_ne_zero hq), lt_zpow_two_log2 _⟩
    ⟨zpow_two_log2_le q.den_nz, lt_zpow_two_log2 _⟩ rfl rfl

theorem binaryOrder_eq_iff {q : Rat} (hq : 0 < q) {k : Int} :
    binaryOrder q = k ↔ (2 : Rat) ^ k ≤ q ∧ q < (2 : Rat) ^ (k + 1) := by
  constructor
  · rintro rfl
    exact binaryOrder_spec hq
  · rintro ⟨hlow, hhigh⟩
    obtain ⟨hlow', hhigh'⟩ := binaryOrder_spec hq
    have h₁ : binaryOrder q < k + 1 := zpow_two_lt_iff.1 (lt_of_le_of_lt hlow' hhigh)
    have h₂ : k < binaryOrder q + 1 := zpow_two_lt_iff.1 (lt_of_le_of_lt hlow hhigh')
    omega

theorem scaled_pos {sig : Nat} (h : sig ≠ 0) (exp : Int) : 0 < scaled sig exp := by
  have : (0 : Rat) < sig := by exact_mod_cast Nat.pos_of_ne_zero h
  exact mul_pos this (zpow_two_pos exp)

theorem binaryOrder_scaled {sig : Nat} (h : sig ≠ 0) (exp : Int) :
    binaryOrder (scaled sig exp) = (sig.log2 : Int) + exp := by
  rw [binaryOrder_eq_iff (scaled_pos h exp), scaled]
  constructor
  · rw [zpow_two_add]
    exact mul_le_mul_of_nonneg_right (zpow_two_log2_le h) (zpow_two_pos exp).le
  · rw [show (sig.log2 : Int) + exp + 1 = (sig.log2 + 1) + exp by ring, zpow_two_add]
    exact mul_lt_mul_of_pos_right (lt_zpow_two_log2 sig) (zpow_two_pos exp)

/-- **The unit of a canonical magnitude is its own exponent.** -/
theorem Format.unitExp_scaled {F : Format} {sig : Nat} {exp : Int} (hc : F.Canonical sig exp) (h : sig ≠ 0) :
    F.unitExp (scaled sig exp) = exp := by
  have htwo := F.two_le_precision
  have hlt : sig.log2 < F.precision := (Nat.log2_lt h).2 hc.sig_lt
  have hmin := hc.minExp_le
  rw [Format.unitExp, binaryOrder_scaled h]
  rcases hc.fills with hfull | hleast
  · have hfull' : F.precision - 1 ≤ sig.log2 := (Nat.le_log2 h).2 hfull
    omega
  · omega

namespace Binary

variable {F : Format}

/-- **Less than half a unit above a canonical magnitude**, a magnitude rounds to that one. -/
theorem round_of_lt_half_unit_above (negative : Bool) {sig : Nat} {exp : Int} (hc : F.Canonical sig exp) (h : sig ≠ 0)
    {q : Rat} (hlow : scaled sig exp ≤ q) (hhigh : q < scaled sig exp + 2 ^ exp / 2) :
    round negative q = .finite negative sig exp hc := by
  have hunit := zpow_two_pos exp
  have hq : 0 < q := (scaled_pos h exp).trans_le hlow
  have hquot : q / (2 : Rat) ^ exp < sig + 1 / 2 := by
    rw [div_lt_iff₀ hunit, add_mul, one_div_mul_eq_div]
    exact hhigh
  have horder : binaryOrder q = (sig.log2 : Int) + exp := by
    have hspec := binaryOrder_spec (scaled_pos h exp)
    rw [binaryOrder_scaled h] at hspec
    refine (binaryOrder_eq_iff hq).2 ⟨hspec.1.trans hlow, ?_⟩
    have hnext : ((sig + 1 : Nat) : Rat) ≤ 2 ^ ((sig.log2 : Int) + 1) := by
      have hlt : sig + 1 ≤ 2 ^ (sig.log2 + 1) := Nat.lt_log2_self
      exact_mod_cast hlt
    rw [show (sig.log2 : Int) + exp + 1 = (sig.log2 + 1) + exp by ring, zpow_two_add, ← div_lt_iff₀ hunit]
    push_cast at hnext
    linarith
  have hexp : F.unitExp q = exp := by
    rw [Format.unitExp, horder, ← binaryOrder_scaled h]
    exact Format.unitExp_scaled hc h
  have hsig : nearestEven (q / (2 : Rat) ^ exp) = sig :=
    nearestEven_of_lt_half_above ((le_div_iff₀ hunit).2 hlow) hquot
  rw [round, if_neg (not_le.2 hq)]
  simp only [hexp, hsig, dif_pos hc]

/-- **A canonical magnitude rounds to itself.** -/
theorem round_scaled (negative : Bool) {sig : Nat} {exp : Int} (hc : F.Canonical sig exp) (h : sig ≠ 0) :
    round negative (scaled sig exp) = .finite negative sig exp hc :=
  round_of_lt_half_unit_above negative hc h le_rfl (lt_add_of_pos_right _ (half_pos (zpow_two_pos exp)))

/-- **From a power of two above the format on, a magnitude is out of range.** -/
theorem round_of_two_pow_le (negative : Bool) {q : Rat} (h : (2 : Rat) ^ (F.maxExp + F.precision) ≤ q) :
    round negative q = (.infinite negative : Binary F) := by
  have hq : 0 < q := lt_of_lt_of_le (zpow_two_pos _) h
  have horder : F.maxExp + F.precision < binaryOrder q + 1 :=
    zpow_two_lt_iff.1 (lt_of_le_of_lt h (binaryOrder_spec hq).2)
  have hexp : F.maxExp < F.unitExp q := by
    rw [Format.unitExp]
    omega
  have hlarge : ∀ sig, ¬ F.Canonical sig (F.unitExp q) := fun sig hc => absurd hc.le_maxExp (by omega)
  have hlarger : ∀ sig, ¬ F.Canonical sig (F.unitExp q + 1) := fun sig hc => absurd hc.le_maxExp (by omega)
  rw [round, if_neg (not_le.2 hq)]
  simp only [dif_neg (hlarge _), dif_neg (hlarger _)]

/-- **Less than half of the least unit is zero.** -/
theorem round_of_lt_half_unit (negative : Bool) {q : Rat} (hq : 0 < q) (h : q < (2 : Rat) ^ (F.minExp - 1)) :
    round negative q = (zero negative : Binary F) := by
  have horder : binaryOrder q < F.minExp - 1 := zpow_two_lt_iff.1 (lt_of_le_of_lt (binaryOrder_spec hq).1 h)
  have htwo := F.two_le_precision
  have hexp : F.unitExp q = F.minExp := by
    rw [Format.unitExp]
    omega
  have hhalf : q / (2 : Rat) ^ F.minExp < 1 / 2 := by
    rw [div_lt_iff₀ (zpow_two_pos _), show (1 / 2 : Rat) = 2 ^ (-1 : Int) by norm_num, ← zpow_two_add,
      show -1 + F.minExp = F.minExp - 1 by ring]
    exact h
  have hsig : nearestEven (q / (2 : Rat) ^ F.minExp) = 0 := by
    refine nearestEven_of_lt_half_above ?_ ?_
    · rw [Nat.cast_zero]
      exact (div_pos hq (zpow_two_pos _)).le
    · rwa [Nat.cast_zero, zero_add]
  rw [round, if_neg (not_le.2 hq)]
  simp only [hexp, hsig, dif_pos F.canonical_zero]
  rfl

/-- **A decimal is rounded as the rational number that it is**, whatever its exponent: settling an exponent that is far
outside the format changes nothing. -/
theorem ofDecimal_eq_round (negative : Bool) (coefficient : Nat) (exponent : Int) :
    (ofDecimal negative coefficient exponent : Binary F) = round negative (coefficient * (10 : Rat) ^ exponent) := by
  rw [ofDecimal]
  by_cases hzero : coefficient = 0
  · rw [if_pos hzero, hzero, round, if_pos (by simp)]
  · have hone : (1 : Rat) ≤ coefficient := by exact_mod_cast Nat.pos_of_ne_zero hzero
    have hten : (0 : Rat) < 10 ^ exponent := by positivity
    have hpos : (0 : Rat) < coefficient * 10 ^ exponent := by positivity
    rw [if_neg hzero]
    by_cases hlarge : F.maxExp + F.precision < exponent
    · have hmax := F.maxExp_nonneg
      rw [if_pos hlarge, round_of_two_pow_le]
      calc (2 : Rat) ^ (F.maxExp + F.precision) ≤ 2 ^ exponent := zpow_two_le_iff.2 hlarge.le
        _ ≤ 10 ^ exponent := two_zpow_le_ten_zpow (by omega)
        _ ≤ coefficient * 10 ^ exponent := le_mul_of_one_le_left hten.le hone
    · rw [if_neg hlarge]
      by_cases hsmall : (coefficient.log2 : Int) + 1 + 3 * exponent < F.minExp
      · have hmin := F.minExp_nonpos
        rw [if_pos hsmall, round_of_lt_half_unit negative hpos]
        calc (coefficient : Rat) * 10 ^ exponent < 2 ^ ((coefficient.log2 : Int) + 1) * 10 ^ exponent :=
              mul_lt_mul_of_pos_right (lt_zpow_two_log2 coefficient) hten
          _ ≤ 2 ^ ((coefficient.log2 : Int) + 1) * 2 ^ (3 * exponent) :=
              mul_le_mul_of_nonneg_left (ten_zpow_le_two_zpow (by omega)) (zpow_two_pos _).le
          _ = 2 ^ ((coefficient.log2 : Int) + 1 + 3 * exponent) := (zpow_two_add _ _).symm
          _ ≤ 2 ^ (F.minExp - 1) := zpow_two_le_iff.2 (by omega)
      · rw [if_neg hsmall]

end Binary

end SignalFormula
