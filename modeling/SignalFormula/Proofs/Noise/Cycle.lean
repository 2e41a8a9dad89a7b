import Mathlib.Data.Nat.Bitwise
import Mathlib.Data.Nat.ModEq
import Mathlib.Dynamics.PeriodicPts.Lemmas
import Mathlib.Order.Interval.Finset.Nat
import Mathlib.Tactic.NormNum.Prime
import SignalFormula.Noise
/-!
# Cycle — the registers but zero are one cycle of the noise

A step is linear in the bits of the register, and 16 steps of the top bit are the 16 single bits.  So where a number of
steps takes the top bit decides where it takes every register (`steps_eq_product`), and a power of the step is computed by
squaring (`power_eq`).  By that the top bit comes back after 65535 steps and after none of the proper divisors of that
(`minimalPeriod_top`).  There are no more registers but zero than these 65535.
-/
namespace SignalFormula

namespace Noise

/-! ## Linearity -/

def sum (a b : Noise) : Noise := ⟨a.register ^^^ b.register⟩

theorem ext_toNat {a b : Noise} (h : a.register.toNat = b.register.toNat) : a = b :=
  congrArg Noise.mk (UInt16.toNat_inj.1 h)

theorem toNat_step (n : Noise) : n.step.register.toNat =
    if n.register.toNat % 2 = 0 then n.register.toNat / 2 else n.register.toNat / 2 ^^^ taps.toNat := by
  have hodd : n.register &&& 1 = 0 ↔ n.register.toNat % 2 = 0 := by
    have hone : (1 : UInt16).toNat = 1 := rfl
    rw [← UInt16.toNat_inj, UInt16.toNat_and, hone, Nat.and_one_is_mod, UInt16.toNat_zero]
  have hshift : (n.register >>> 1).toNat = n.register.toNat / 2 := UInt16.toNat_shiftRight _ _
  simp only [step, hodd]
  split_ifs
  · exact hshift
  · rw [UInt16.toNat_xor, hshift]

/-- **A step is linear.** -/
theorem step_sum (a b : Noise) : (a.sum b).step = a.step.sum b.step := by
  apply ext_toNat
  have hparity := Nat.xor_mod_two_eq (m := a.register.toNat) (n := b.register.toNat)
  simp only [sum, UInt16.toNat_xor, toNat_step, Nat.xor_div_two]
  split_ifs
  · rfl
  · omega
  · omega
  · rw [Nat.xor_assoc, Nat.xor_left_comm taps.toNat, Nat.xor_self, Nat.xor_zero]
  · omega
  · rw [Nat.xor_assoc]
  · rw [Nat.xor_assoc, Nat.xor_comm (b.register.toNat / 2), ← Nat.xor_assoc]
  · omega

theorem step_zero : step ⟨0⟩ = ⟨0⟩ := by decide

theorem step_steps (k : Nat) (n : Noise) : (steps k n).step = steps (k + 1) n := (steps_add k 1 n).symm

theorem steps_zero : ∀ k, steps k ⟨0⟩ = ⟨0⟩
  | 0 => rfl
  | k + 1 => by rw [steps, step_zero, steps_zero k]

/-! ## Products -/

/-- The register whose steps are, one after another, the single bits from the top. -/
def top : Noise := ⟨0x8000⟩

/-- The sum of steps of `w`, one for each bit that is set among the low `k` of `n`: none for bit `k - 1`, one more for
each bit below it. -/
def product (n w : Noise) : Nat → Noise
  | 0 => ⟨0⟩
  | k + 1 => if n.register.toNat.testBit k then (product n w k).step.sum w else (product n w k).step

theorem step_product (n w : Noise) : ∀ k, (product n w k).step = product n w.step k
  | 0 => step_zero
  | k + 1 => by
    rw [product, product]
    split_ifs
    · rw [step_sum, step_product n w k]
    · rw [step_product n w k]

theorem steps_product (n : Noise) (k : Nat) : ∀ (e : Nat) (w : Noise), steps e (product n w k) = product n (steps e w) k
  | 0, _ => rfl
  | e + 1, w => by rw [steps, steps, step_product, steps_product n k e]

theorem testBit_sum_top (n : Noise) (j : Nat) :
    (n.sum top).register.toNat.testBit j = (n.register.toNat.testBit j ^^ decide (15 = j)) := by
  have htop : top.register.toNat = 2 ^ 15 := rfl
  rw [sum, UInt16.toNat_xor, Nat.testBit_xor, htop, Nat.testBit_two_pow]

theorem testBit_step {n : Noise} (heven : n.register.toNat.testBit 0 = false) (j : Nat) :
    n.step.register.toNat.testBit j = n.register.toNat.testBit (j + 1) := by
  rw [Nat.testBit_zero, decide_eq_false_iff_not] at heven
  rw [toNat_step, if_pos (by omega), Nat.testBit_succ]

theorem testBit_product_succ (n : Noise) (k j : Nat) : (product n top (k + 1)).register.toNat.testBit j =
    ((product n top k).step.register.toNat.testBit j ^^ (n.register.toNat.testBit k && decide (15 = j))) := by
  rw [product]
  split_ifs with hbit
  · rw [testBit_sum_top, hbit, Bool.true_and]
  · rw [Bool.eq_false_of_not_eq_true hbit, Bool.false_and, Bool.xor_false]

/-- With the top bit for `w`, the low `k` bits are moved up to the top. -/
theorem testBit_product_top (n : Noise) : ∀ {k : Nat}, k ≤ 16 → ∀ j, (product n top k).register.toNat.testBit j =
    (decide (16 ≤ j + k ∧ j < 16) && n.register.toNat.testBit (j + k - 16))
  | 0, _, j => by
    have hnone : ¬ (16 ≤ j + 0 ∧ j < 16) := by omega
    rw [product, decide_eq_false hnone]
    exact Nat.zero_testBit j
  | k + 1, hk, j => by
    have ih := testBit_product_top n (Nat.le_of_succ_le hk)
    have heven : (product n top k).register.toNat.testBit 0 = false := by
      have hnone : ¬ (16 ≤ 0 + k ∧ 0 < 16) := by omega
      rw [ih, decide_eq_false hnone, Bool.false_and]
    have hstep : (product n top k).step.register.toNat.testBit j =
        (decide (16 ≤ j + (k + 1) ∧ j + 1 < 16) && n.register.toNat.testBit (j + (k + 1) - 16)) := by
      have hindex : j + 1 + k = j + (k + 1) := by omega
      rw [testBit_step heven, ih, hindex]
    rw [testBit_product_succ, hstep]
    by_cases hj : 15 = j
    · -- bit `k` is the new top bit
      subst hj
      have hindex : 15 + (k + 1) - 16 = k := by omega
      have hin : 16 ≤ 15 + (k + 1) ∧ 15 < 16 := by omega
      simp [hindex, hin]
    · have hbound : j + 1 < 16 ↔ j < 16 := by omega
      simp only [hbound, decide_eq_false hj, Bool.and_false, Bool.xor_false]

theorem product_top (n : Noise) : product n top 16 = n := by
  apply ext_toNat
  apply Nat.eq_of_testBit_eq
  intro j
  rw [testBit_product_top n (Nat.le_refl 16), Nat.add_sub_cancel]
  rcases Nat.lt_or_ge j 16 with hj | hj
  · rw [decide_eq_true ⟨Nat.le_add_left 16 j, hj⟩, Bool.true_and]
  · have hlow : n.register.toNat < 2 ^ j :=
      Nat.lt_of_lt_of_le n.register.toNat_lt (Nat.pow_le_pow_right (by decide) hj)
    rw [decide_eq_false fun h => Nat.not_lt_of_le hj h.2, Bool.false_and, Nat.testBit_lt_two_pow hlow]

/-- **Where steps take the top bit decides where they take every register.** -/
theorem steps_eq_product (e : Nat) (n : Noise) : steps e n = product n (steps e top) 16 := by
  rw [← steps_product, product_top]

/-- As many steps of the top bit as the low `k` bits of `e` say. -/
def power : Nat → Nat → Noise
  | 0, _ => top
  | k + 1, e =>
    let half := power k (e / 2)
    if e % 2 = 1 then (product half half 16).step else product half half 16

theorem power_eq : ∀ {k e : Nat}, e < 2 ^ k → power k e = steps e top
  | 0, e, h => by
    obtain rfl : e = 0 := by simpa using h
    rfl
  | k + 1, e, h => by
    have hsquare : product (power k (e / 2)) (power k (e / 2)) 16 = steps (e / 2 + e / 2) top := by
      rw [power_eq (by omega), ← steps_eq_product, steps_add]
    simp only [power, hsquare]
    split_ifs
    · have hodd : e / 2 + e / 2 + 1 = e := by omega
      rw [step_steps, hodd]
    · have heven : e / 2 + e / 2 = e := by omega
      rw [heven]

/-! ## The cycle -/

open Function

theorem iterate_step : ∀ (k : Nat) (n : Noise), step^[k] n = steps k n
  | 0, _ => rfl
  | k + 1, n => by rw [iterate_succ_apply, steps, iterate_step k]

/-- A period is the least one if no quotient of it by a prime is a period. -/
theorem minimalPeriod_eq_of_primes {α : Type} {f : α → α} {x : α} {n : Nat} (h : IsPeriodicPt f n x)
    (hprimes : ∀ p, p.Prime → p ∣ n → ¬ IsPeriodicPt f (n / p) x) : minimalPeriod f x = n := by
  obtain ⟨c, hc⟩ := h.minimalPeriod_dvd
  by_contra hne
  have hone : c ≠ 1 := fun h => hne (by rw [hc, h, Nat.mul_one])
  obtain ⟨p, hp, d, rfl⟩ := Nat.exists_prime_and_dvd hone
  have hquotient : n = p * (minimalPeriod f x * d) := by rw [hc, Nat.mul_left_comm]
  refine hprimes p hp ⟨_, hquotient⟩ ?_
  rw [isPeriodicPt_iff_minimalPeriod_dvd, Nat.div_eq_of_eq_mul_right hp.pos hquotient]
  exact Nat.dvd_mul_right _ d

theorem prime_dvd_65535 {p : Nat} (hp : p.Prime) (h : p ∣ 65535) : p = 3 ∨ p = 5 ∨ p = 17 ∨ p = 257 := by
  have hfactors : 65535 = 3 * 5 * 17 * 257 := rfl
  rw [hfactors, hp.dvd_mul, hp.dvd_mul, hp.dvd_mul] at h
  rcases h with ((h | h) | h) | h
  · exact .inl ((Nat.prime_dvd_prime_iff_eq hp Nat.prime_three).1 h)
  · exact .inr (.inl ((Nat.prime_dvd_prime_iff_eq hp Nat.prime_five).1 h))
  · exact .inr (.inr (.inl ((Nat.prime_dvd_prime_iff_eq hp (by norm_num)).1 h)))
  · exact .inr (.inr (.inr ((Nat.prime_dvd_prime_iff_eq hp (by norm_num)).1 h)))

/-- **The top bit comes back after 65535 steps**, and not before. -/
theorem minimalPeriod_top : minimalPeriod step top = 65535 := by
  have hreturn : ∀ {e : Nat}, e < 2 ^ 16 → (IsPeriodicPt step e top ↔ power 16 e = top) := fun he => by
    rw [power_eq he, ← iterate_step]
    rfl
  refine minimalPeriod_eq_of_primes ((hreturn (by decide)).2 (by decide +kernel)) fun p hp hdvd => ?_
  have hlt : 65535 / p < 2 ^ 16 := Nat.lt_of_le_of_lt (Nat.div_le_self _ _) (by decide)
  rw [hreturn hlt]
  rcases prime_dvd_65535 hp hdvd with rfl | rfl | rfl | rfl
  all_goals decide +kernel

theorem step_ne_zero {n : Noise} (hn : n ≠ ⟨0⟩) : n.step ≠ ⟨0⟩ := by
  intro hzero
  have hstep : n.step.register.toNat = 0 := by rw [hzero]; rfl
  have hlt := n.register.toNat_lt
  rw [toNat_step] at hstep
  split_ifs at hstep
  · exact hn (ext_toNat (by simp only [UInt16.toNat_zero]; omega))
  · -- the bit that is shifted in is clear in half a register
    have htaps : n.register.toNat / 2 = 46080 := Nat.xor_eq_zero_iff.1 hstep
    omega

theorem steps_ne_zero : ∀ {n : Noise}, n ≠ ⟨0⟩ → ∀ k, steps k n ≠ ⟨0⟩
  | _, hn, 0 => hn
  | _, hn, k + 1 => steps_ne_zero (step_ne_zero hn) k

theorem toNat_mem_Ioo {n : Noise} (hn : n ≠ ⟨0⟩) : n.register.toNat ∈ Finset.Ioo 0 65536 :=
  Finset.mem_Ioo.2 ⟨Nat.pos_of_ne_zero fun h => hn (ext_toNat h), n.register.toNat_lt⟩

/-- **Every register but zero is on the cycle of the top bit**, as there are no more of them than it has registers. -/
theorem exists_steps_top {n : Noise} (hn : n ≠ ⟨0⟩) : ∃ i, steps i top = n := by
  have hmaps : Set.MapsTo (fun i => (steps i top).register.toNat) (Finset.range 65535) (Finset.Ioo 0 65536) :=
    fun i _ => toNat_mem_Ioo (steps_ne_zero (by decide) i)
  have hinj : Set.InjOn (fun i => (steps i top).register.toNat) (Finset.range 65535) := fun i hi j hj h => by
    have heq : step^[i] top = step^[j] top := by
      rw [iterate_step, iterate_step]
      exact ext_toNat h
    rw [Finset.mem_coe, Finset.mem_range, ← minimalPeriod_top] at hi hj
    exact (iterate_eq_iterate_iff_of_lt_minimalPeriod hi hj).1 heq
  have hcard : (Finset.Ioo 0 65536).card ≤ (Finset.range 65535).card := by
    rw [Nat.card_Ioo, Finset.card_range]
  obtain ⟨i, -, hi⟩ := Finset.surjOn_of_injOn_of_card_le _ hmaps hinj hcard (toNat_mem_Ioo hn)
  exact ⟨i, ext_toNat hi⟩

/-- **Every register but zero comes back after 65535 steps**, and not before. -/
theorem minimalPeriod_step {n : Noise} (hn : n ≠ ⟨0⟩) : minimalPeriod step n = 65535 := by
  obtain ⟨i, rfl⟩ := exists_steps_top hn
  have hmem : top ∈ periodicPts step := minimalPeriod_pos_iff_mem_periodicPts.1 (by rw [minimalPeriod_top]; decide)
  rw [← iterate_step, minimalPeriod_apply_iterate hmem, minimalPeriod_top]

theorem steps_eq_steps_iff {n : Noise} (hn : n ≠ ⟨0⟩) (i j : Nat) : steps i n = steps j n ↔ i ≡ j [MOD 65535] := by
  have hperiod := minimalPeriod_step hn
  have hlt : ∀ i, i % 65535 < minimalPeriod step n := fun i => by
    rw [hperiod]
    exact Nat.mod_lt _ (by decide)
  rw [← iterate_step, ← iterate_step, ← iterate_mod_minimalPeriod_eq (n := i),
    ← iterate_mod_minimalPeriod_eq (n := j), hperiod, iterate_eq_iterate_iff_of_lt_minimalPeriod (hlt i) (hlt j)]
  rfl

end Noise

end SignalFormula
