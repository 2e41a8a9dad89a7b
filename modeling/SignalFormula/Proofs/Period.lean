import SignalFormula.Formula
import SignalFormula.Proofs.Noise.Cycle
import SignalFormula.Proofs.Outcome
/-!
# Period — the noise of a formula that is evaluated again and again

An evaluation that finds its inputs moves the noise on by the draws of the program, so after `n` evaluations of a program
with `k` draws it is `n * k` steps on (`Formula.after_eq`).  Any noise but zero is on a cycle of 65535 steps; hence it comes
back after `65535 / gcd k 65535` evaluations.  From zero it never moves, and the program is one without draws
(`Entry.noise_period`).
-/
namespace SignalFormula

variable {V : Type} [Scalar V]

/-- The operation with the value of the zero register in place of a draw. -/
def Operation.silenced : Operation V → Operation V
  | .rand => .const (Scalar.ofRegister 0)
  | op => op

def Program.silenced (p : Program V) : Program V := { p with ops := p.ops.map Operation.silenced }

/-- The formula after as many evaluations, each on the values given for it. -/
def Formula.after (f : Formula V) (given : Nat → List V) : Nat → Formula V
  | 0 => f
  | n + 1 => ((f.after given n).evaluate (given n)).2

/-- The zero register has the value zero in every format. -/
theorem Binary.ofRegister_zero (F : Format) : (Scalar.ofRegister 0 : Binary F) = Scalar.zero := by
  have hzero : ((0 : UInt16).toNat : Rat) / 65535 ≤ 0 := by decide +kernel
  exact if_pos hzero

namespace Machine

variable {values : List V}

theorem step_silenced {m : Machine V} (hm : m.noise = ⟨0⟩) (op : Operation V) :
    m.step values op.silenced = m.step values op := by
  cases op with
  | rand =>
    obtain ⟨slots, height, noise⟩ := m
    obtain rfl : noise = ⟨0⟩ := hm
    rw [Operation.silenced, step, step, Noise.draw, Noise.step_zero]
  | _ => rfl

/-- **From zero noise a run draws zero** whenever it draws. -/
theorem run_silenced : ∀ {ops : List (Operation V)} {m : Machine V}, m.noise = ⟨0⟩ →
    run values m (ops.map Operation.silenced) = run values m ops
  | [], _, _ => rfl
  | op :: ops, m, hm => by
    rw [List.map_cons, run, run, step_silenced hm]
    split
    · rename_i m' hstep
      refine run_silenced ?_
      rw [noise_step hstep, hm, Noise.step_zero, ite_self]
    · rfl

end Machine

theorem Program.evaluate_silenced (p : Program V) (values : List V) :
    p.silenced.evaluate values ⟨0⟩ = p.evaluate values ⟨0⟩ := by
  have hrun : Machine.run values (.start ⟨0⟩) (p.ops.map Operation.silenced) = Machine.run values (.start ⟨0⟩) p.ops :=
    Machine.run_silenced rfl
  rw [evaluate, evaluate, silenced, hrun]

namespace Entry

variable {inputs : List Text} {entry : Entry} {expression : Text} {p : Program V}

/-- **The noise of a formula after as many evaluations**, each of which finds its inputs. -/
theorem after_eq (h : entry.compile expression inputs = .ok p) (noise : Noise) {given : Nat → List V}
    (hgiven : ∀ n i, .input i ∈ p.ops → i < (given n).length) :
    ∀ n, Formula.after ⟨some p, noise⟩ given n = ⟨some p, noise.steps (n * p.ops.countP Operation.isRand)⟩
  | 0 => by rw [Nat.zero_mul]; rfl
  | n + 1 => by
    have hsnd := evaluate_snd h (given n) (noise.steps (n * p.ops.countP Operation.isRand))
    rw [Program.draws_of_covered (hgiven n), ← Noise.steps_add, ← Nat.succ_mul] at hsnd
    rw [Formula.after, after_eq h noise hgiven n, Formula.evaluate]
    exact congrArg (Formula.mk (some p)) hsnd

/-- **The period of the noise of a formula.**  With a seed other than zero, the noise after `m` evaluations is the noise
after `n` if and only if 65535 divides the draws from one to the other, so it repeats with the period
`65535 / gcd k 65535` for `k` draws in an evaluation, and it is never zero.  With the seed zero it stays zero, and every
evaluation ends as it does with zero in place of each draw. -/
theorem noise_period (h : entry.compile expression inputs = .ok p) (seed : UInt16) {given : Nat → List V}
    (hgiven : ∀ n i, .input i ∈ p.ops → i < (given n).length) :
    let k := p.ops.countP Operation.isRand
    let f := Formula.after ⟨some p, ⟨seed⟩⟩ given
    let state := fun n => (f n).noise.register
    (seed ≠ 0 →
      (∀ m n : Nat, state m = state n ↔ (65535 : Int) ∣ ((m : Int) - n) * k) ∧
      (∀ n d : Nat, state (n + d) = state n ↔ 65535 / k.gcd 65535 ∣ d) ∧
      ∀ n, state n ≠ 0) ∧
    (seed = 0 →
      (∀ n, state n = 0) ∧
      (∀ n values, ((f n).evaluate values).1 = (p.silenced.evaluate values ⟨0⟩).1) ∧
      ∀ F : Format, (Scalar.ofRegister 0 : Binary F) = Scalar.zero) := by
  intro k f state
  have hf : ∀ n, f n = ⟨some p, Noise.steps (n * k) ⟨seed⟩⟩ := after_eq h ⟨seed⟩ hgiven
  have hstate : ∀ n, state n = (Noise.steps (n * k) ⟨seed⟩).register := fun n => by simp only [state, hf]
  constructor
  · intro hseed
    have hnoise : (⟨seed⟩ : Noise) ≠ ⟨0⟩ := fun heq => hseed (congrArg Noise.register heq)
    have hiff : ∀ m n, state m = state n ↔ m * k ≡ n * k [MOD 65535] := fun m n => by
      rw [hstate, hstate, ← Noise.steps_eq_steps_iff hnoise, ← Noise.mk.injEq]
    refine ⟨fun m n => ?_, fun n d => ?_, fun n hn => ?_⟩
    · rw [hiff, Nat.ModEq.comm, Nat.modEq_iff_dvd, Nat.cast_mul, Nat.cast_mul, ← Int.sub_mul]
      rfl
    · have hpos : 0 < k.gcd 65535 := Nat.gcd_pos_of_pos_right k (by decide)
      calc state (n + d) = state n
          ↔ n * k + d * k ≡ n * k + 0 [MOD 65535] := by rw [hiff, Nat.add_mul, Nat.add_zero]
        _ ↔ d * k ≡ 0 [MOD 65535] := Nat.ModEq.add_iff_left rfl
        _ ↔ 65535 ∣ k.gcd 65535 * d := by
          rw [Nat.modEq_zero_iff_dvd, ← Nat.dvd_mul_gcd_iff_dvd_mul, Nat.gcd_comm, Nat.mul_comm]
        _ ↔ 65535 / k.gcd 65535 ∣ d := (Nat.div_dvd_iff_dvd_mul (Nat.gcd_dvd_right k _) hpos).symm
    · rw [hstate] at hn
      exact Noise.steps_ne_zero hnoise (n * k) (congrArg Noise.mk hn)
  · rintro rfl
    have hzero : ∀ n, f n = ⟨some p, ⟨0⟩⟩ := fun n => by rw [hf, Noise.steps_zero]
    refine ⟨fun n => ?_, fun n values => ?_, Binary.ofRegister_zero⟩
    · rw [hstate, Noise.steps_zero]
    · rw [hzero, Formula.evaluate, Program.evaluate_silenced]

/-- With three draws the noise comes back after a third of the cycle, and not before. -/
theorem noise_period_three_draws :
    let inputs : List Text := ["x".toList]
    let p : Program Double := ⟨[.rand, .input 0, .rand, .binary .mul, .binary .add, .rand, .binary .sub], 3⟩
    let given : Nat → List Double := fun _ => [.ofRat 1]
    conventional.compile "rand + x * rand - rand".toList inputs = .ok p ∧
      (∀ n d, (Formula.after ⟨some p, ⟨1⟩⟩ given (n + d)).noise.register =
        (Formula.after ⟨some p, ⟨1⟩⟩ given n).noise.register ↔ 21845 ∣ d) ∧
      ∀ n, (Formula.after ⟨some p, ⟨0⟩⟩ given n).noise.register = 0 := by
  intro inputs p given
  have hcompile : conventional.compile "rand + x * rand - rand".toList inputs = .ok p := by decide +kernel
  have hgiven : ∀ n i, .input i ∈ p.ops → i < (given n).length := fun n i hi => by
    have hread : i = 0 := by simpa [p] using hi
    exact Nat.lt_one_iff.2 hread
  have hthird : 65535 / (p.ops.countP Operation.isRand).gcd 65535 = 21845 := by decide
  obtain ⟨-, hperiod, -⟩ := (noise_period hcompile 1 hgiven).1 (by decide)
  obtain ⟨hzero, -⟩ := (noise_period hcompile 0 hgiven).2 rfl
  rw [hthird] at hperiod
  exact ⟨hcompile, hperiod, hzero⟩

end Entry

end SignalFormula
