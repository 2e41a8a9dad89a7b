import SignalFormula.Proofs.Number.Rounding
/-!
# Nearest — the number that a magnitude rounds to

The unit of a magnitude is so small that the multiples of it are all the numbers of the format that can be nearest: a
number with a smaller unit lies below a full significand, and the magnitude does not.  Of the multiples the nearest is
taken, and of two the even one (`Binary.nearest_round`).  No other number is the nearest one then
(`Binary.Nearest.eq_round`), since of two multiples beside each other one is odd.
-/
namespace SignalFormula

/-! ## The nearest integer -/

theorem floor_toNat_bounds {q : Rat} (hq : 0 ≤ q) :
    ((q.floor.toNat : Nat) : Rat) ≤ q ∧ q < (q.floor.toNat : Nat) + 1 := by
  have hcast : ((q.floor.toNat : Nat) : Rat) = (q.floor : Rat) := by
    have hfloor : ((q.floor.toNat : Nat) : Int) = q.floor := Int.toNat_of_nonneg (Int.floor_nonneg.2 hq)
    exact_mod_cast congrArg (Int.cast : Int → Rat) hfloor
  exact ⟨hcast ▸ Int.floor_le q, hcast ▸ Int.lt_floor_add_one q⟩

/-- **Rounding to an integer goes half of one at most**, and that far only to an even one. -/
theorem abs_sub_nearestEven {q : Rat} (hq : 0 ≤ q) :
    |q - nearestEven q| ≤ 1 / 2 ∧ (|q - nearestEven q| = 1 / 2 → Even (nearestEven q)) := by
  obtain ⟨hlow, hhigh⟩ := floor_toNat_bounds hq
  unfold nearestEven
  simp only
  generalize q.floor.toNat = n at hlow hhigh ⊢
  split_ifs with hbelow habove heven
  · rw [abs_of_nonneg (by linarith)]
    exact ⟨hbelow.le, fun h => absurd h hbelow.ne⟩
  · have hless : |q - ((n + 1 : Nat) : Rat)| < 1 / 2 := by
      rw [Nat.cast_add, Nat.cast_one, abs_of_neg (by linarith)]
      linarith
    exact ⟨hless.le, fun h => absurd h hless.ne⟩
  · rw [abs_of_nonneg (by linarith)]
    exact ⟨not_lt.1 habove, fun _ => Nat.even_iff.2 heven⟩
  · refine ⟨?_, fun _ => Nat.even_iff.2 (by omega)⟩
    rw [Nat.cast_add, Nat.cast_one, abs_of_neg (by linarith)]
    linarith

theorem add_one_le_abs_sub {k m n : Nat} (h : k < (m - n : Int).natAbs) : (k : Rat) + 1 ≤ |(m : Rat) - n| := by
  have hcast : |(m : Rat) - n| = ((m - n : Int).natAbs : Rat) := by
    rw [Nat.cast_natAbs, Int.cast_abs, Int.cast_sub, Int.cast_natCast, Int.cast_natCast]
  rw [hcast]
  exact_mod_cast h

/-- **Every other integer is farther**, or it is odd and just as far. -/
theorem abs_sub_nearestEven_lt {q : Rat} (hq : 0 ≤ q) {n : Nat} (h : n ≠ nearestEven q) :
    |q - nearestEven q| < |q - n| ∨ |q - nearestEven q| = |q - n| ∧ Even (nearestEven q) ∧ ¬ Even n := by
  obtain ⟨hhalf, heven⟩ := abs_sub_nearestEven hq
  generalize nearestEven q = m at h hhalf heven ⊢
  have hapart : |(m : Rat) - n| ≤ |q - m| + |q - n| := by
    rw [abs_sub_comm q m]
    exact abs_sub_le (m : Rat) q n
  have hnear : ((0 : Nat) : Rat) + 1 ≤ |(m : Rat) - n| := add_one_le_abs_sub (by omega)
  rw [Nat.cast_zero, zero_add] at hnear
  rcases lt_or_eq_of_le (show |q - (m : Rat)| ≤ |q - n| by linarith) with hlt | heq
  · exact .inl hlt
  · have htie : |q - (m : Rat)| = 1 / 2 := by linarith
    refine .inr ⟨heq, heven htie, fun hn => ?_⟩
    -- an even one is two away, so it would be farther
    obtain ⟨i, hi⟩ := heven htie
    obtain ⟨j, hj⟩ := hn
    have hfar : ((1 : Nat) : Rat) + 1 ≤ |(m : Rat) - n| := add_one_le_abs_sub (by omega)
    rw [Nat.cast_one] at hfar
    linarith

/-- Rounding stays below an even integer as long as its half is out of reach. -/
theorem nearestEven_lt_iff {q : Rat} (hq : 0 ≤ q) {n : Nat} (hn : Even n) : nearestEven q < n ↔ q < n - 1 / 2 := by
  obtain ⟨hhalf, heven⟩ := abs_sub_nearestEven hq
  generalize nearestEven q = m at hhalf heven ⊢
  obtain ⟨hbelow, habove⟩ := abs_le.1 hhalf
  constructor
  · intro h
    have hle : (m : Rat) + 1 ≤ n := by exact_mod_cast h
    by_contra hfar
    rw [not_lt] at hfar
    have htie : q - (m : Rat) = 1 / 2 := by linarith
    have hodd : m + 1 = n := by
      have : (m : Rat) + 1 = n := by linarith
      exact_mod_cast this
    obtain ⟨i, hi⟩ := heven (by rw [htie]; norm_num)
    obtain ⟨j, hj⟩ := hn
    omega
  · intro h
    have hlt : (m : Rat) < n := by linarith
    exact_mod_cast hlt

/-! ## The unit of a magnitude -/

theorem scaled_zero (exp : Int) : scaled 0 exp = 0 := by rw [scaled, Nat.cast_zero, zero_mul]

namespace Format

variable {F : Format} {q : Rat}

theorem even_sigBound (F : Format) : Even F.sigBound :=
  (Nat.even_pow.2 ⟨even_two, by have := F.two_le_precision; omega⟩ : Even (2 ^ F.precision))

theorem even_sigFull (F : Format) : Even F.sigFull :=
  (Nat.even_pow.2 ⟨even_two, by have := F.two_le_precision; omega⟩ : Even (2 ^ (F.precision - 1)))

theorem sigBound_eq (F : Format) : F.sigBound = 2 * F.sigFull := by
  have hsucc : 2 ^ (F.precision - 1 + 1) = 2 * 2 ^ (F.precision - 1) := Nat.pow_succ'
  rwa [Nat.sub_add_cancel (Nat.le_of_succ_le F.two_le_precision)] at hsucc

theorem canonical_sigFull {exp : Int} (hmin : F.minExp ≤ exp) (hmax : exp ≤ F.maxExp) : F.Canonical F.sigFull exp := by
  have hpos : 0 < F.sigFull := Nat.two_pow_pos _
  have hdouble := F.sigBound_eq
  exact ⟨by omega, hmin, hmax, .inl (Nat.le_refl _)⟩

theorem scaled_sigBound (F : Format) (exp : Int) : scaled F.sigBound exp = 2 ^ (exp + F.precision) := by
  have hcast : (F.sigBound : Rat) = 2 ^ (F.precision : Int) := by
    rw [zpow_natCast]
    exact Nat.cast_pow 2 F.precision
  rw [scaled, hcast, ← zpow_two_add, add_comm]

theorem scaled_sigFull (F : Format) (exp : Int) : scaled F.sigFull exp = 2 ^ (exp + F.precision - 1) := by
  have hcast : (F.sigFull : Rat) = 2 ^ ((F.precision : Int) - 1) := by
    have h := F.two_le_precision
    rw [← Int.natCast_pred_of_pos (by omega), zpow_natCast]
    exact Nat.cast_pow 2 (F.precision - 1)
  rw [scaled, hcast, ← zpow_two_add]
  congr 1
  ring

/-- The significand that a magnitude is rounded to in its unit; it can have a bit too many. -/
def sigOf (F : Format) (q : Rat) : Nat := nearestEven (q / (2 : Rat) ^ F.unitExp q)

theorem minExp_le_unitExp (F : Format) (q : Rat) : F.minExp ≤ F.unitExp q := le_max_left _ _

theorem lt_scaled_sigBound (hq : 0 < q) : q < scaled F.sigBound (F.unitExp q) := by
  rw [scaled_sigBound]
  exact (binaryOrder_spec hq).2.trans_le (zpow_two_le_iff.2 (by rw [unitExp]; omega))

/-- **A unit above the least one is filled.** -/
theorem scaled_sigFull_le (hq : 0 < q) (h : F.unitExp q ≠ F.minExp) : scaled F.sigFull (F.unitExp q) ≤ q := by
  rw [scaled_sigFull]
  refine (zpow_two_le_iff.2 ?_).trans (binaryOrder_spec hq).1
  rw [unitExp] at h ⊢
  omega

theorem div_unit_le_iff {a : Rat} {exp : Int} {n : Nat} : a / (2 : Rat) ^ exp ≤ n ↔ a ≤ scaled n exp :=
  div_le_iff₀ (zpow_two_pos exp)

theorem le_div_unit_iff {a : Rat} {exp : Int} {n : Nat} : (n : Rat) ≤ a / (2 : Rat) ^ exp ↔ scaled n exp ≤ a :=
  le_div_iff₀ (zpow_two_pos exp)

theorem sigOf_le (hq : 0 < q) : F.sigOf q ≤ F.sigBound :=
  nearestEven_le (div_unit_le_iff.2 (lt_scaled_sigBound hq).le)

theorem sigFull_le_sigOf (hq : 0 < q) : F.sigFull ≤ F.sigOf q ∨ F.unitExp q = F.minExp := by
  by_cases h : F.unitExp q = F.minExp
  · exact .inr h
  · exact .inl (le_nearestEven (le_div_unit_iff.2 (scaled_sigFull_le hq h)))

theorem abs_sub_scaled (q : Rat) (sig : Nat) (exp : Int) :
    |q - scaled sig exp| = |q / (2 : Rat) ^ exp - sig| * 2 ^ exp := by
  have hpos := zpow_two_pos exp
  have hsplit : q - scaled sig exp = (q / (2 : Rat) ^ exp - sig) * 2 ^ exp := by
    rw [sub_mul, div_mul_cancel₀ q hpos.ne']
    rfl
  rw [hsplit, abs_mul, abs_of_pos hpos]

/-- **The rounded significand in its unit is nearest**: every other number of the format is farther, or it is as far and
has an odd significand where this one is even. -/
theorem abs_sub_scaled_sigOf (hq : 0 < q) {sig : Nat} {exp : Int} (hc : F.Canonical sig exp) :
    scaled sig exp = scaled (F.sigOf q) (F.unitExp q) ∨
      |q - scaled (F.sigOf q) (F.unitExp q)| < |q - scaled sig exp| ∨
      |q - scaled (F.sigOf q) (F.unitExp q)| = |q - scaled sig exp| ∧ Even (F.sigOf q) ∧ ¬ Even sig := by
  have hunit := zpow_two_pos (F.unitExp q)
  have hquot : 0 ≤ q / (2 : Rat) ^ F.unitExp q := (div_pos hq hunit).le
  have hother : ∀ {n : Nat}, n ≠ F.sigOf q →
      |q - scaled (F.sigOf q) (F.unitExp q)| < |q - scaled n (F.unitExp q)| ∨
        |q - scaled (F.sigOf q) (F.unitExp q)| = |q - scaled n (F.unitExp q)| ∧ Even (F.sigOf q) ∧ ¬ Even n :=
    fun {n} hn => by
      rw [abs_sub_scaled, abs_sub_scaled q n, mul_lt_mul_iff_left₀ hunit, mul_left_inj' hunit.ne']
      exact abs_sub_nearestEven_lt hquot hn
  by_cases hexp : F.unitExp q ≤ exp
  · -- the other one is a multiple of the unit, and an odd one only in the unit itself
    obtain ⟨k, rfl⟩ := Int.le.dest hexp
    have hmultiple : scaled sig (F.unitExp q + k) = scaled (sig * 2 ^ k) (F.unitExp q) := by
      rw [scaled, scaled, zpow_two_add, zpow_natCast, Nat.cast_mul, Nat.cast_pow, Nat.cast_ofNat]
      ring
    rw [hmultiple]
    by_cases heq : sig * 2 ^ k = F.sigOf q
    · exact .inl (by rw [heq])
    · refine .inr ((hother heq).imp_right fun h => ⟨h.1, h.2.1, fun hsig => ?_⟩)
      exact h.2.2 (hsig.mul_right _)
  · -- the other one has a smaller unit, and lies below a full significand, which is not nearer than the rounded one
    have hleast := hc.minExp_le
    have hfull : scaled F.sigFull (F.unitExp q) ≤ q := scaled_sigFull_le hq (by omega)
    have hbelow : scaled sig exp < scaled F.sigFull (F.unitExp q) := by
      have hlt : (sig : Rat) < F.sigBound := by exact_mod_cast hc.sig_lt
      calc scaled sig exp < scaled F.sigBound exp := mul_lt_mul_of_pos_right hlt (zpow_two_pos exp)
        _ = 2 ^ (exp + F.precision) := F.scaled_sigBound exp
        _ ≤ 2 ^ (F.unitExp q + F.precision - 1) := zpow_two_le_iff.2 (by omega)
        _ = scaled F.sigFull (F.unitExp q) := (F.scaled_sigFull _).symm
    have hnear : |q - scaled (F.sigOf q) (F.unitExp q)| ≤ |q - scaled F.sigFull (F.unitExp q)| := by
      by_cases heq : F.sigFull = F.sigOf q
      · rw [heq]
      · rcases hother heq with hlt | ⟨htie, -⟩
        · exact hlt.le
        · exact htie.le
    refine .inr (.inl (hnear.trans_lt ?_))
    rw [abs_of_nonneg (by linarith), abs_of_pos (by linarith)]
    linarith

end Format

/-! ## The nearest number -/

/-- What is as near to the less of two numbers, all that is less is. -/
theorem abs_sub_le_of_le {a b v w : Rat} (hvw : v ≤ w) (hab : a ≤ b) (h : |b - v| ≤ |b - w|) : |a - v| ≤ |a - w| := by
  have hshift := mul_le_mul_of_nonneg_right hab (sub_nonneg.2 hvw)
  rw [← sq_le_sq] at h ⊢
  linarith

/-- What is as near to the greater of two numbers, all that is greater is. -/
theorem abs_sub_le_of_ge {a b v w : Rat} (hvw : v ≤ w) (hab : a ≤ b) (h : |a - w| ≤ |a - v|) : |b - w| ≤ |b - v| := by
  have hshift := mul_le_mul_of_nonneg_right hab (sub_nonneg.2 hvw)
  rw [← sq_le_sq] at h ⊢
  linarith

namespace Binary

variable {F : Format} {negative : Bool} {q : Rat}

/-- **The number is the one nearest to a magnitude**, with the given sign: none of the format is nearer, and if another one
is as near then its significand is even. -/
def Nearest (negative : Bool) (q : Rat) : Binary F → Prop
  | .finite n sig exp _ => n = negative ∧ ∀ {sig' : Nat} {exp' : Int}, F.Canonical sig' exp' →
    |q - scaled sig exp| ≤ |q - scaled sig' exp'| ∧
      (|q - scaled sig exp| = |q - scaled sig' exp'| → scaled sig' exp' = scaled sig exp ∨ Even sig)
  | _ => False

theorem Nearest.isFinite {x : Binary F} (h : Nearest negative q x) : x.isFinite = true := by
  cases x with
  | nan => cases h
  | infinite n => cases h
  | finite n sig exp hc => rfl

/-- **The magnitudes that a number is nearest to are a stretch.** -/
theorem Nearest.between {x : Binary F} {a b c : Rat} (ha : Nearest negative a x) (hc : Nearest negative c x) (hab : a ≤ b)
    (hbc : b ≤ c) : Nearest negative b x := by
  cases x with
  | nan => cases ha
  | infinite n => cases ha
  | finite n sig exp hx =>
    obtain ⟨hn, hlow⟩ := ha
    obtain ⟨-, hhigh⟩ := hc
    refine ⟨hn, fun {sig' exp'} hx' => ?_⟩
    obtain ⟨hle, htie⟩ := hlow hx'
    obtain ⟨hle', htie'⟩ := hhigh hx'
    -- the upper end decides against a greater number, and the lower end against a less one
    rcases le_total (scaled sig exp) (scaled sig' exp') with hvw | hwv
    · exact ⟨abs_sub_le_of_le hvw hbc hle', fun h => htie' (hle'.antisymm (abs_sub_le_of_ge hvw hbc h.ge))⟩
    · exact ⟨abs_sub_le_of_ge hwv hab hle, fun h => htie (hle.antisymm (abs_sub_le_of_le hwv hab h.ge))⟩

/-- Two numbers with one sign and one magnitude are the same. -/
theorem finite_eq_of_scaled_eq {sig sig' : Nat} {exp exp' : Int} (hc : F.Canonical sig exp)
    (hc' : F.Canonical sig' exp') (h : scaled sig exp = scaled sig' exp') :
    finite negative sig exp hc = finite negative sig' exp' hc' := by
  have hzero : ∀ {sig : Nat} {exp : Int} (hc : F.Canonical sig exp), scaled sig exp = 0 →
      finite negative sig exp hc = zero negative := fun {sig exp} hc h => by
    have hsig : sig = 0 := by
      by_contra hne
      exact (scaled_pos hne exp).ne' h
    subst hsig
    obtain rfl : exp = F.minExp := hc.fills.resolve_left (not_le.2 (Nat.two_pow_pos _))
    rfl
  by_cases hsig : scaled sig exp = 0
  · rw [hzero hc hsig, hzero hc' (h ▸ hsig)]
  · have hne : ∀ {sig : Nat} {exp : Int}, scaled sig exp ≠ 0 → sig ≠ 0 := fun h hz => h (by rw [hz, scaled_zero])
    rw [← round_scaled negative hc (hne hsig), ← round_scaled negative hc' (hne (h ▸ hsig)), h]

theorem round_of_nonpos (negative : Bool) (hq : q ≤ 0) : (round negative q : Binary F) = zero negative := if_pos hq

/-- **A positive magnitude is rounded in its unit**, or the significand has a bit too many and half of it is taken in the
next unit, which leaves the magnitude; and it is out of range if that unit is. -/
theorem round_cases (negative : Bool) (hq : 0 < q) :
    (∃ hc : F.Canonical (F.sigOf q) (F.unitExp q), round negative q = finite negative _ _ hc) ∨
      (F.sigOf q = F.sigBound ∧ ∃ hc : F.Canonical F.sigFull (F.unitExp q + 1), round negative q = finite negative _ _ hc) ∨
      ((round negative q : Binary F) = .infinite negative ∧
        (F.maxExp < F.unitExp q ∨ F.unitExp q = F.maxExp ∧ F.sigOf q = F.sigBound)) := by
  have hround : (round negative q : Binary F) =
      if h : F.Canonical (F.sigOf q) (F.unitExp q) then .finite negative _ _ h
      else if h : F.Canonical (F.sigOf q / 2) (F.unitExp q + 1) then .finite negative _ _ h
      else .infinite negative := if_neg (not_le.2 hq)
  have hmin := F.minExp_le_unitExp q
  have hdouble := F.sigBound_eq
  have hcanonical : F.sigOf q < F.sigBound → F.unitExp q ≤ F.maxExp → F.Canonical (F.sigOf q) (F.unitExp q) :=
    fun hlt hle => ⟨hlt, hmin, hle, F.sigFull_le_sigOf hq⟩
  rw [hround]
  split_ifs with hsig hhalf
  · exact .inl ⟨hsig, rfl⟩
  · have hbound : F.sigOf q = F.sigBound := by
      refine (Nat.eq_or_lt_of_le (F.sigOf_le hq)).resolve_right fun hlt => hsig (hcanonical hlt ?_)
      exact (Int.le_add_one (Int.le_refl _)).trans hhalf.le_maxExp
    have hfull : F.sigOf q / 2 = F.sigFull := by omega
    exact .inr (.inl ⟨hbound, hfull ▸ hhalf, by simp only [hfull]⟩)
  · refine .inr (.inr ⟨rfl, ?_⟩)
    by_contra hnone
    rw [not_or, not_and] at hnone
    have hbound : F.sigOf q = F.sigBound :=
      (Nat.eq_or_lt_of_le (F.sigOf_le hq)).resolve_right fun hlt => hsig (hcanonical hlt (by omega))
    have hroom : F.unitExp q + 1 ≤ F.maxExp := by
      have := mt hnone.2 (not_not_intro hbound)
      omega
    have hfull : F.sigOf q / 2 = F.sigFull := by omega
    exact hhalf (hfull ▸ F.canonical_sigFull (by omega) hroom)

/-- **Rounding within the range gives the nearest number, and its magnitude is that of the rounded significand in its
unit**, even if that one is. -/
theorem exists_round_eq (hq : 0 < q) (h : (round negative q : Binary F).isFinite = true) :
    ∃ sig exp, ∃ hc : F.Canonical sig exp, round negative q = finite negative sig exp hc ∧
      scaled sig exp = scaled (F.sigOf q) (F.unitExp q) ∧ (Even (F.sigOf q) → Even sig) := by
  rcases round_cases negative hq with ⟨hc, heq⟩ | ⟨hbound, hc, heq⟩ | ⟨heq, -⟩
  · exact ⟨_, _, hc, heq, rfl, id⟩
  · refine ⟨_, _, hc, heq, ?_, fun _ => F.even_sigFull⟩
    rw [hbound, F.scaled_sigFull, F.scaled_sigBound]
    congr 1
    ring
  · rw [heq] at h
    cases h

theorem nearest_zero (negative : Bool) : Nearest negative 0 (zero negative : Binary F) := by
  refine ⟨rfl, fun {sig' exp'} _ => ⟨?_, fun _ => .inr ⟨0, rfl⟩⟩⟩
  rw [scaled_zero, sub_zero, abs_zero]
  exact abs_nonneg _

/-- **Rounding within the range gives the nearest number.** -/
theorem nearest_round (hq : 0 ≤ q) (h : (round negative q : Binary F).isFinite = true) :
    Nearest negative q (round negative q : Binary F) := by
  rcases hq.eq_or_lt with rfl | hpos
  · rw [round_of_nonpos negative le_rfl]
    exact nearest_zero negative
  · obtain ⟨sig, exp, hc, heq, hvalue, heven⟩ := exists_round_eq hpos h
    rw [heq]
    refine ⟨rfl, fun {sig' exp'} hc' => ?_⟩
    rw [hvalue]
    rcases F.abs_sub_scaled_sigOf hpos hc' with hsame | hlt | ⟨htie, hsig, -⟩
    · exact ⟨by rw [hsame], fun _ => .inl hsame⟩
    · exact ⟨hlt.le, fun h => absurd h hlt.ne⟩
    · exact ⟨htie.le, fun _ => .inr (heven hsig)⟩

/-- **There is one nearest number.** -/
theorem Nearest.eq_round {x : Binary F} (hx : Nearest negative q x) (hq : 0 ≤ q)
    (h : (round negative q : Binary F).isFinite = true) : x = round negative q := by
  cases x with
  | nan => cases hx
  | infinite n => cases hx
  | finite n sig exp hc =>
    obtain ⟨rfl, hnearest⟩ := hx
    rcases hq.eq_or_lt with rfl | hpos
    · obtain ⟨hle, -⟩ := hnearest F.canonical_zero
      rw [round_of_nonpos n le_rfl]
      refine finite_eq_of_scaled_eq hc F.canonical_zero ?_
      rw [scaled_zero, sub_zero, abs_zero, zero_sub, abs_neg, abs_nonpos_iff] at hle
      rw [hle, scaled_zero]
    · obtain ⟨sig', exp', hc', heq, hvalue, -⟩ := exists_round_eq hpos h
      rw [heq]
      refine finite_eq_of_scaled_eq hc hc' ?_
      obtain ⟨hle, htie⟩ := hnearest hc'
      rw [hvalue] at hle htie ⊢
      rcases F.abs_sub_scaled_sigOf hpos hc with hsame | hlt | ⟨heq', -, hodd⟩
      · exact hsame
      · exact absurd hle (not_le.2 hlt)
      · exact ((htie heq'.symm).resolve_right hodd).symm

end Binary
end SignalFormula
