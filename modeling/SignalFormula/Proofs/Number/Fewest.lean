import SignalFormula.Proofs.Number.Legible
import SignalFormula.Proofs.Number.Range
/-!
# Fewest — no numeral with fewer digits is read as a number

The shortest digits of a number are searched on finer and finer grids of multiples of a power of ten.  On a grid it is
enough to look at the two neighbours of the number, since the magnitudes that are read as the number are a stretch around
it (`Binary.ReadsAt.isSome_onGrid?`); and before the search ends a grid is finer than half a unit, so it has such a point
(`Binary.readsAt_of_lt_half_unit`).  So the numeral that is found is on the coarsest grid that has one, and has at most one
digit for each grid passed.  A numeral with fewer digits would lie on a coarser grid, or be so small that the power of ten
below the number is read as the number too (`Binary.coefficient_shortest_lt`).
-/
namespace SignalFormula

namespace Text

theorem length_ofNat_pos (n : Nat) : 0 < (ofNat n).length := Nat.length_toDigits_pos

theorem length_ofNat_le_iff {n k : Nat} (h : 0 < k) : (ofNat n).length ≤ k ↔ n < 10 ^ k :=
  Nat.length_toDigits_le_iff (by decide) h

theorem lt_ten_pow_length (n : Nat) : n < 10 ^ (ofNat n).length :=
  (length_ofNat_le_iff (length_ofNat_pos n)).1 (Nat.le_refl _)

theorem ten_pow_length_le {n : Nat} (h : n ≠ 0) : 10 ^ ((ofNat n).length - 1) ≤ n := by
  by_contra hlt
  rcases Nat.eq_zero_or_pos ((ofNat n).length - 1) with hone | hpos
  · rw [hone] at hlt
    omega
  · have hle := (length_ofNat_le_iff hpos).2 (not_le.1 hlt)
    omega

end Text

namespace Binary

variable {F : Format} {tie : Tie} {negative : Bool} {sig : Nat} {exp : Int}

/-- **The power of ten at or below a positive number.** -/
theorem decimalOrder_spec {q : Rat} (hq : 0 < q) :
    (10 : Rat) ^ decimalOrder q ≤ q ∧ q < (10 : Rat) ^ (decimalOrder q + 1) := by
  have hlength : ∀ {n : Nat}, n ≠ 0 → (10 : Rat) ^ (((Text.ofNat n).length : Int) - 1) ≤ n ∧
      (n : Rat) < 10 ^ (((Text.ofNat n).length : Int) - 1 + 1) := fun {n} hn => by
    have hle := Text.ten_pow_length_le hn
    have hlt := Text.lt_ten_pow_length n
    rw [sub_add_cancel, ← Int.natCast_pred_of_pos (Text.length_ofNat_pos n), zpow_natCast, zpow_natCast]
    exact ⟨by exact_mod_cast hle, by exact_mod_cast hlt⟩
  exact order_bounds (by norm_num) hq (hlength (num_toNat_ne_zero hq)) (hlength q.den_nz) (by ring) rfl

/-! ## Grids -/

theorem toBinary_mk (negative : Bool) (n : Nat) (e : Int) :
    ((⟨negative, n, e⟩ : Numeral).toBinary : Binary F) = round negative (n * 10 ^ e) :=
  ofDecimal_eq_round ..

theorem toBinary_mul_ten_pow (negative : Bool) (n k : Nat) (e : Int) :
    ((⟨negative, n * 10 ^ k, e⟩ : Numeral).toBinary : Binary F) = (⟨negative, n, e + k⟩ : Numeral).toBinary := by
  rw [toBinary_mk, toBinary_mk, zpow_add₀ (by norm_num), zpow_natCast, Nat.cast_mul, Nat.cast_pow, Nat.cast_ofNat]
  congr 1
  ring

/-- Some point of the grid of `10 ^ e` is read as the number. -/
def ReadsAt (x : Binary F) (negative : Bool) (e : Int) : Prop := ∃ n : Nat, (⟨negative, n, e⟩ : Numeral).toBinary = x

/-- A point of a grid is one of every finer grid. -/
theorem ReadsAt.finer {x : Binary F} {e e' : Int} (h : ReadsAt x negative e) (he : e' ≤ e) : ReadsAt x negative e' := by
  obtain ⟨n, hn⟩ := h
  obtain ⟨k, rfl⟩ := Int.le.dest he
  exact ⟨n * 10 ^ k, (toBinary_mul_ten_pow negative n k e').trans hn⟩

theorem mem_neighbours {position : Rat} {n : Nat} :
    n ∈ neighbours tie position ↔ n = position.floor.toNat ∨ n = position.floor.toNat + 1 := by
  unfold neighbours
  simp only
  split_ifs
  · simp
  · simp [or_comm]

theorem of_onGrid?_eq_some {x : Binary F} {q : Rat} {e : Int} {m : Numeral} (h : onGrid? tie x negative q e = some m) :
    ∃ n ≤ (q / (10 : Rat) ^ e).floor.toNat + 1, m = ⟨negative, n, e⟩ := by
  obtain ⟨n, hn, rfl⟩ := List.mem_map.1 (List.mem_of_find?_eq_some h)
  refine ⟨n, ?_, rfl⟩
  rcases mem_neighbours.1 hn with rfl | rfl <;> omega

theorem isSome_onGrid?_of_neighbour {x : Binary F} {q : Rat} {e : Int} {n : Nat}
    (hn : n = (q / (10 : Rat) ^ e).floor.toNat ∨ n = (q / (10 : Rat) ^ e).floor.toNat + 1)
    (h : (⟨negative, n, e⟩ : Numeral).toBinary = x) : (onGrid? tie x negative q e).isSome :=
  List.find?_isSome.2 ⟨_, List.mem_map_of_mem (mem_neighbours.2 hn), decide_eq_true h⟩

/-- **A point of a grid reads back only if a neighbour of the number does.** -/
theorem ReadsAt.isSome_onGrid? {hc : F.Canonical sig exp} (hsig : sig ≠ 0) {e : Int}
    (h : ReadsAt (finite negative sig exp hc) negative e) :
    (onGrid? tie (finite negative sig exp hc) negative (scaled sig exp) e).isSome := by
  obtain ⟨n, hread⟩ := h
  have hten : (0 : Rat) < 10 ^ e := by positivity
  have hq := scaled_pos hsig exp
  have hself := round_scaled negative hc hsig
  obtain ⟨hlow, hhigh⟩ := floor_toNat_bounds (div_pos hq hten).le
  rw [toBinary_mk] at hread
  rw [le_div_iff₀ hten] at hlow
  rw [div_lt_iff₀ hten, ← Nat.cast_add_one] at hhigh
  -- the neighbour on the side of the point lies between the number and the point
  rcases Nat.lt_or_ge (scaled sig exp / (10 : Rat) ^ e).floor.toNat n with hn | hn
  · have hle : (((scaled sig exp / (10 : Rat) ^ e).floor.toNat + 1 : Nat) : Rat) * 10 ^ e ≤ n * 10 ^ e :=
      mul_le_mul_of_nonneg_right (Nat.cast_le.2 hn) hten.le
    refine isSome_onGrid?_of_neighbour (.inr rfl) ?_
    rw [toBinary_mk]
    exact round_between rfl hq.le hhigh.le hle hself hread
  · have hle : (n : Rat) * 10 ^ e ≤ (scaled sig exp / (10 : Rat) ^ e).floor.toNat * 10 ^ e :=
      mul_le_mul_of_nonneg_right (Nat.cast_le.2 hn) hten.le
    refine isSome_onGrid?_of_neighbour (.inl rfl) ?_
    rw [toBinary_mk]
    exact round_between rfl (by positivity) hle hlow hread hself

/-- **A grid finer than half a unit has a point that reads back**: the next one above the number. -/
theorem readsAt_of_lt_half_unit {hc : F.Canonical sig exp} (hsig : sig ≠ 0) {e : Int}
    (he : (10 : Rat) ^ e < 2 ^ exp / 2) : ReadsAt (finite negative sig exp hc) negative e := by
  have hten : (0 : Rat) < 10 ^ e := by positivity
  obtain ⟨hlow, hhigh⟩ := floor_toNat_bounds (div_pos (scaled_pos hsig exp) hten).le
  rw [le_div_iff₀ hten] at hlow
  rw [div_lt_iff₀ hten] at hhigh
  refine ⟨(scaled sig exp / (10 : Rat) ^ e).floor.toNat + 1, ?_⟩
  rw [toBinary_mk, Nat.cast_add_one]
  refine round_of_lt_half_unit_above negative hc hsig hhigh.le ?_
  linarith

/-! ## The search -/

/-- The exponent of the `i`-th grid of the search for a magnitude, the coarsest one first. -/
def gridExp (q : Rat) (i : Nat) : Int := decimalOrder q + 1 - i

/-- The last grid of the search is finer than half a unit. -/
theorem ten_zpow_gridExp_lt (hc : F.Canonical sig exp) (hsig : sig ≠ 0) :
    (10 : Rat) ^ gridExp (scaled sig exp) (F.precision + 1) < 2 ^ exp / 2 := by
  have hlt : scaled sig exp < 2 ^ exp * 2 ^ F.precision := by
    have hsigLt : (sig : Rat) < F.sigBound := by exact_mod_cast hc.sig_lt
    calc scaled sig exp < scaled F.sigBound exp := mul_lt_mul_of_pos_right hsigLt (zpow_two_pos exp)
      _ = 2 ^ exp * 2 ^ F.precision := by rw [F.scaled_sigBound, zpow_two_add, zpow_natCast]
  have hpower : (2 : Rat) ^ F.precision * 2 ≤ 10 ^ F.precision := by
    have htwo := F.two_le_precision
    obtain ⟨p, hp⟩ : ∃ p, F.precision = p + 1 := ⟨F.precision - 1, by omega⟩
    have hle : (2 : Rat) ^ p ≤ 10 ^ p := pow_le_pow_left₀ (by norm_num) (by norm_num) p
    have hpos : (0 : Rat) < 2 ^ p := by positivity
    rw [hp, pow_succ, pow_succ]
    linarith
  have horder := (decimalOrder_spec (scaled_pos hsig exp)).1
  have hexp : gridExp (scaled sig exp) (F.precision + 1) = decimalOrder (scaled sig exp) - F.precision := by
    rw [gridExp, Nat.cast_add_one, add_sub_add_right_eq_sub]
  rw [hexp, zpow_sub₀ (by norm_num), zpow_natCast, div_lt_div_iff₀ (by positivity) (by norm_num)]
  calc (10 : Rat) ^ decimalOrder (scaled sig exp) * 2 < 2 ^ exp * 2 ^ F.precision * 2 := by linarith
    _ = 2 ^ exp * (2 ^ F.precision * 2) := mul_assoc ..
    _ ≤ 2 ^ exp * 10 ^ F.precision := mul_le_mul_of_nonneg_left hpower (zpow_two_pos exp).le

theorem exists_of_findSome?_range {α : Type} {f : Nat → Option α} {a : α} : ∀ {n : Nat},
    (List.range n).findSome? f = some a → ∃ i < n, f i = some a ∧ ∀ j < i, f j = none
  | 0, h => by cases h
  | n + 1, h => by
    rw [List.range_succ, List.findSome?_append, Option.or_eq_some_iff] at h
    rcases h with h | ⟨hnone, h⟩
    · obtain ⟨i, hi, hfound⟩ := exists_of_findSome?_range h
      exact ⟨i, Nat.lt_succ_of_lt hi, hfound⟩
    · refine ⟨n, Nat.lt_succ_self n, by simpa using h, fun j hj => ?_⟩
      exact List.findSome?_eq_none_iff.1 hnone j (List.mem_range.2 hj)

/-- **The shortest numeral is on the coarsest grid with a point that reads back**, and next to the number there. -/
theorem exists_shortest_eq (tie : Tie) (negative : Bool) (hc : F.Canonical sig exp) (hsig : sig ≠ 0) : ∃ i n : Nat,
    shortest tie negative sig exp hc = ⟨negative, n, gridExp (scaled sig exp) i⟩ ∧
      n ≤ (scaled sig exp / (10 : Rat) ^ gridExp (scaled sig exp) i).floor.toNat + 1 ∧
      ∀ j < i, ¬ ReadsAt (finite negative sig exp hc) negative (gridExp (scaled sig exp) j) := by
  obtain ⟨m, hm⟩ : ∃ m, ((List.range (F.precision + 2)).findSome? fun i =>
      onGrid? tie (finite negative sig exp hc) negative (scaled sig exp) (gridExp (scaled sig exp) i)) = some m := by
    have hlast : ReadsAt (finite negative sig exp hc) negative (gridExp (scaled sig exp) (F.precision + 1)) :=
      readsAt_of_lt_half_unit hsig (ten_zpow_gridExp_lt hc hsig)
    exact Option.isSome_iff_exists.1 (List.findSome?_isSome_iff.2
      ⟨F.precision + 1, List.mem_range.2 (Nat.lt_succ_self _), hlast.isSome_onGrid? hsig⟩)
  obtain ⟨i, -, hi, hearlier⟩ := exists_of_findSome?_range hm
  obtain ⟨n, hn, rfl⟩ := of_onGrid?_eq_some hi
  refine ⟨i, n, ?_, hn, fun j hj hread => ?_⟩
  · rw [shortest, if_neg hsig]
    exact congrArg (Option.getD · _) hm
  · have hsome : (onGrid? tie (finite negative sig exp hc) negative (scaled sig exp) _).isSome := hread.isSome_onGrid? hsig
    rw [hearlier j hj] at hsome
    cases hsome

/-! ## Digits -/

/-- The point that is found has at most one digit on the first two grids, and one digit more on each finer one. -/
theorem lt_ten_pow_of_first {hc : F.Canonical sig exp} (hsig : sig ≠ 0) {i n : Nat}
    (hn : n ≤ (scaled sig exp / (10 : Rat) ^ gridExp (scaled sig exp) i).floor.toNat + 1)
    (hread : (⟨negative, n, gridExp (scaled sig exp) i⟩ : Numeral).toBinary = finite negative sig exp hc)
    (hfirst : ∀ j < i, ¬ ReadsAt (finite negative sig exp hc) negative (gridExp (scaled sig exp) j)) :
    n < 10 ^ Max.max 1 i := by
  have hq := scaled_pos hsig exp
  have hten : (0 : Rat) < 10 ^ gridExp (scaled sig exp) i := by positivity
  have hbelow : (scaled sig exp / (10 : Rat) ^ gridExp (scaled sig exp) i).floor.toNat < 10 ^ i := by
    have hlt : scaled sig exp / (10 : Rat) ^ gridExp (scaled sig exp) i < 10 ^ i := by
      rw [div_lt_iff₀ hten, ← zpow_natCast, ← zpow_add₀ (by norm_num), gridExp, add_sub_cancel]
      exact (decimalOrder_spec hq).2
    exact_mod_cast (floor_toNat_bounds (div_pos hq hten).le).1.trans_lt hlt
  rcases Nat.eq_zero_or_pos i with rfl | hi
  · have hone : 10 ^ 0 = 1 := rfl
    have hmax : 10 ^ Max.max 1 0 = 10 := rfl
    omega
  · -- the power of ten with a digit more is a point of the first grid already
    have hne : n ≠ 10 ^ i := by
      rintro rfl
      refine hfirst 0 hi ⟨1, ?_⟩
      rw [← hread, ← one_mul (10 ^ i), toBinary_mul_ten_pow, gridExp, gridExp, sub_add_cancel, Nat.cast_zero, sub_zero]
    rw [Nat.max_eq_right hi]
    omega

/-- A numeral that is read as a number other than zero has a digit for each grid that is passed before one reads back. -/
theorem le_of_first {hc : F.Canonical sig exp} (hsig : sig ≠ 0) {i n k : Nat} {e : Int}
    (hread : (⟨negative, n, e⟩ : Numeral).toBinary = finite negative sig exp hc) (hn : n < 10 ^ k) (hk : 1 ≤ k)
    (hfirst : ∀ j < i, ¬ ReadsAt (finite negative sig exp hc) negative (gridExp (scaled sig exp) j)) : i ≤ k := by
  by_contra hfar
  rw [not_le] at hfar
  rcases Int.lt_or_le e (gridExp (scaled sig exp) (i - 1)) with hfine | hcoarse
  · -- few digits on a fine grid stay below the power of ten below the number, so that one is read as the number too
    have hsmall : (n : Rat) * 10 ^ e ≤ 10 ^ gridExp (scaled sig exp) 1 := by
      have hdigits : (n : Rat) ≤ 10 ^ k := by exact_mod_cast hn.le
      calc (n : Rat) * 10 ^ e ≤ 10 ^ k * 10 ^ e := mul_le_mul_of_nonneg_right hdigits (by positivity)
        _ = 10 ^ (k + e) := by rw [zpow_add₀ (by norm_num), zpow_natCast]
        _ ≤ 10 ^ gridExp (scaled sig exp) 1 := by
            rw [gridExp] at hfine ⊢
            exact zpow_le_zpow_right₀ (by norm_num) (by omega)
    refine hfirst 1 (by omega) ⟨1, ?_⟩
    rw [toBinary_mk] at hread ⊢
    rw [Nat.cast_one, one_mul]
    refine round_between rfl (by positivity) hsmall ?_ hread (round_scaled negative hc hsig)
    rw [gridExp, Nat.cast_one, add_sub_cancel_right]
    exact (decimalOrder_spec (scaled_pos hsig exp)).1
  · exact hfirst (i - 1) (by omega) (ReadsAt.finer ⟨n, hread⟩ hcoarse)

/-- A numeral that is read as a number has the sign of the number. -/
theorem negative_of_toBinary {m : Numeral} {hc : F.Canonical sig exp} (h : m.toBinary = finite negative sig exp hc) :
    m.negative = negative := by
  have hfinite : (m.toBinary : Binary F).isFinite = true := by rw [h]; rfl
  rw [Numeral.toBinary, ofDecimal_eq_round] at h hfinite
  have hnear : Nearest m.negative (m.coefficient * 10 ^ m.exponent) (round m.negative _ : Binary F) :=
    nearest_round (by positivity) hfinite
  rw [h] at hnear
  exact hnear.1.symm

/-- **No numeral with fewer digits is read as the number.** -/
theorem coefficient_shortest_lt (tie : Tie) {hc : F.Canonical sig exp} {m : Numeral} {k : Nat}
    (h : m.toBinary = finite negative sig exp hc) (hk : m.coefficient < 10 ^ k) :
    (shortest tie negative sig exp hc).coefficient < 10 ^ k := by
  obtain ⟨sign, n, e⟩ := m
  obtain rfl : negative = sign := (negative_of_toBinary h).symm
  by_cases hsig : sig = 0
  · rw [shortest, if_pos hsig]
    exact Nat.pow_pos (by decide)
  · have hone : 1 ≤ k := by
      by_contra hzero
      obtain rfl : k = 0 := by omega
      obtain rfl : n = 0 := Nat.lt_one_iff.1 hk
      exact hsig (Binary.finite.inj (h : zero negative = _)).2.1.symm
    obtain ⟨i, found, hshortest, hfound, hfirst⟩ := exists_shortest_eq tie negative hc hsig
    have hread := toBinary_shortest tie negative sig exp hc
    rw [hshortest] at hread ⊢
    calc found < 10 ^ Max.max 1 i := lt_ten_pow_of_first hsig hfound hread hfirst
      _ ≤ 10 ^ k := Nat.pow_le_pow_right (by decide) (Nat.max_le.2 ⟨hone, le_of_first hsig h hk hone hfirst⟩)

end Binary

end SignalFormula
