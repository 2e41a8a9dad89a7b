import SignalFormula.Proofs.StackSafety
/-!
# Draws — how far an evaluation moves the noise

Values may be too few for a program.  Then the evaluation ends at the first operation whose input is not there, and what
was drawn before it stays drawn.  A compiled program has no other reason to end early, so the noise is moved on by one step
for each `rand` among the operations that are executed (`Entry.evaluate_snd`).
-/
namespace SignalFormula

namespace Operation

variable {V : Type}

def isRand : Operation V → Bool
  | .rand => true
  | _ => false

/-- The input that the operation reads, if it reads one, is there. -/
def isServed (values : List V) : Operation V → Bool
  | .input i => i < values.length
  | _ => true

end Operation

namespace Program

variable {V : Type}

/-- The operations that an evaluation executes: all, or those in front of the first input that is not there. -/
def executed (p : Program V) (values : List V) : List (Operation V) := p.ops.takeWhile (Operation.isServed values)

def draws (p : Program V) (values : List V) : Nat := (p.executed values).countP Operation.isRand

end Program

namespace Machine

open OpTree (grow peak)

variable {V : Type} {values : List V}

theorem noise_push {m m' : Machine V} {v : V} (h : m.push v = .ok m') : m'.noise = m.noise := by
  unfold push at h
  split at h <;> cases h
  rfl

variable [Scalar V]

/-- **A step draws once if it is a `rand`**, and else not at all. -/
theorem noise_step {m m' : Machine V} {op : Operation V} (h : m.step values op = .ok m') :
    m'.noise = if op.isRand then m.noise.step else m.noise := by
  cases op with
  | binary f =>
    rw [step] at h
    split at h <;> cases h
    rfl
  | unary f =>
    rw [step] at h
    split at h <;> cases h
    rfl
  | rand => exact noise_push h
  | input i =>
    rw [step] at h
    split at h
    · exact noise_push h
    · cases h
  | const v => exact noise_push h

theorem step_missing {i : Nat} (hi : values.length ≤ i) (m : Machine V) :
    m.step values (.input i) = .error (.missingInput values.length i) := by
  rw [step, List.getElem?_eq_none hi]

theorem exists_fault_of_not_served {op : Operation V} (h : op.isServed values = false) (m : Machine V) :
    ∃ fault, m.step values op = .error fault := by
  cases op with
  | input i =>
    have hi : values.length ≤ i := by simpa [Operation.isServed] using h
    exact ⟨_, step_missing hi m⟩
  | _ => cases h

/-- **Along a row that grows a forest the noise is moved on by the draws that are executed**, for any values. -/
theorem noise_run_grow : ∀ {ops : List (Operation V)} {forest grown : List (OpTree V)} {m : Machine V},
    grow forest ops = some grown → m.height = forest.length → peak grown ≤ stackCapacity →
      (run values m ops).1.noise = m.noise.steps ((ops.takeWhile (Operation.isServed values)).countP Operation.isRand)
  | [], _, _, _, _, _, _ => rfl
  | op :: ops, forest, grown, m, h, hheight, hcap => by
    cases hserved : op.isServed values with
    | false =>
      obtain ⟨fault, hfault⟩ := exists_fault_of_not_served hserved m
      rw [run, hfault, List.takeWhile_cons_of_neg (by simp [hserved])]
      rfl
    | true =>
      rw [grow] at h
      split at h
      · cases h
      · rename_i forest' hg
        obtain ⟨harity, hlen, hpeak⟩ := OpTree.graft_eq_some hg
        have hmono := OpTree.peak_le_of_grow h
        have hle := OpTree.length_le_peak forest
        have hready : m.Ready values op := ready_of_height (by omega) (by omega) (by omega) fun i hi => by
          simpa [hi, Operation.isServed] using hserved
        obtain ⟨m', hstep, hheight'⟩ := step_of_ready hready
        rw [run_cons hstep, noise_run_grow h (by omega) hcap, noise_step hstep,
          List.takeWhile_cons_of_pos hserved, List.countP_cons]
        cases op.isRand <;> rfl

end Machine

namespace Entry

variable {V : Type} [Scalar V] {inputs : List Text}

/-- **An evaluation of a compiled program moves the noise on by the draws that it executes**, whether it comes to an end
or not. -/
theorem evaluate_snd {entry : Entry} {expression : Text} {p : Program V} (h : entry.compile expression inputs = .ok p)
    (values : List V) (noise : Noise) : (p.evaluate values noise).2 = noise.steps (p.draws values) := by
  obtain ⟨t, rfl, hneed⟩ := exists_tree h
  have hgrow : OpTree.grow [] t.postorder = some [t] := OpTree.grow_eq_singleton_iff.2 rfl
  have hpeak : OpTree.peak [t] ≤ stackCapacity := by simpa [OpTree.peak] using hneed
  have hnoise : (Machine.run values (.start noise) t.postorder).1.noise = noise.steps _ :=
    Machine.noise_run_grow hgrow rfl hpeak
  rw [Program.evaluate, Program.draws, Program.executed]
  split
  · rename_i m hrun
    rw [hrun] at hnoise
    exact hnoise
  · rename_i m fault hrun
    rw [hrun] at hnoise
    exact hnoise

end Entry

end SignalFormula
