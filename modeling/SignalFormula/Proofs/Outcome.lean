import Mathlib.Data.List.TakeWhile
import SignalFormula.Proofs.Binding
import SignalFormula.Proofs.Draws
/-!
# Outcome — how an evaluation ends

A compiled program is evaluated to its end unless it reads an input that is not there.  Then the first such read ends the
evaluation and names the input, and what was drawn in front of it stays drawn.  An evaluation that comes to its end draws
once for each `rand` of the program, and values that the program does not read make no difference to it
(`Entry.evaluate_outcome`).
-/
namespace SignalFormula

variable {V : Type}

namespace Operation

variable {values : List V} {ops : List (Operation V)}

theorem isServed_of_forall (h : ∀ i, .input i ∈ ops → i < values.length) : ∀ op ∈ ops, op.isServed values = true := by
  intro op hop
  cases op with
  | input i => simpa [isServed] using h i hop
  | _ => rfl

/-- Of the inputs that are not there, one is read first. -/
theorem exists_first_missing {ops : List (Operation V)} (h : ∃ i, .input i ∈ ops ∧ values.length ≤ i) :
    ∃ pre i post, ops = pre ++ .input i :: post ∧ values.length ≤ i ∧ ∀ j, .input j ∈ pre → j < values.length := by
  induction ops with
  | nil => obtain ⟨i, hi, -⟩ := h; cases hi
  | cons op ops ih =>
    by_cases hop : ∃ i, op = .input i ∧ values.length ≤ i
    · obtain ⟨i, rfl, hi⟩ := hop
      exact ⟨[], i, ops, rfl, hi, fun j hj => by cases hj⟩
    · obtain ⟨i, hmem, hi⟩ := h
      have hrest : .input i ∈ ops := (List.mem_cons.1 hmem).resolve_left fun heq => hop ⟨i, heq.symm, hi⟩
      obtain ⟨pre, k, post, rfl, hk, hpre⟩ := ih ⟨i, hrest, hi⟩
      refine ⟨op :: pre, k, post, rfl, hk, fun j hj => ?_⟩
      rcases List.mem_cons.1 hj with heq | hj
      · exact Nat.lt_of_not_le fun hle => hop ⟨j, heq.symm, hle⟩
      · exact hpre j hj

end Operation

variable [Scalar V]

namespace Machine

open OpTree (grow peak)

variable {values : List V}

theorem run_append : ∀ {pre : List (Operation V)} {m m' : Machine V}, run values m pre = (m', none) →
    ∀ post, run values m (pre ++ post) = run values m' post
  | [], _, _, h, _ => by cases h; rfl
  | op :: pre, m, m', h, post => by
    rw [run] at h
    rw [List.cons_append, run]
    cases hstep : m.step values op with
    | ok mid =>
      rw [hstep] at h
      exact run_append h post
    | error fault =>
      rw [hstep] at h
      cases h

/-- **Along a row that grows a forest, the first input that is not there ends the run**, which names it. -/
theorem run_grow_missing {pre post : List (Operation V)} {forest grown : List (OpTree V)} {m : Machine V} {i : Nat}
    (h : grow forest (pre ++ .input i :: post) = some grown) (hheight : m.height = forest.length)
    (hcap : peak grown ≤ stackCapacity) (hi : values.length ≤ i) (hpre : ∀ j, .input j ∈ pre → j < values.length) :
    (run values m (pre ++ .input i :: post)).2 = some (.missingInput values.length i) := by
  rw [OpTree.grow_append] at h
  obtain ⟨mid, hmid, hrest⟩ := Option.bind_eq_some_iff.1 h
  have hle := OpTree.peak_le_of_grow hrest
  obtain ⟨m', hrun, -⟩ := run_grow hmid hheight (Nat.le_trans hle hcap) hpre
  rw [run_append hrun, run, step_missing hi]

/-- **A run depends on the values that it reads**, and on no others. -/
theorem run_eq_of_agree {values' : List V} {ops : List (Operation V)} (hcover : ∀ i, .input i ∈ ops → i < values.length)
    (h : ∀ i, .input i ∈ ops → values'[i]? = values[i]?) (m : Machine V) : run values' m ops = run values m ops := by
  refine run_eq_of_corresponds (List.forall₂_same.2 fun op hop => ?_) m
  by_cases hinput : ∃ i, op = .input i
  · obtain ⟨i, rfl⟩ := hinput
    have hlt := hcover i hop
    have hv : values[i]? = some values[i] := List.getElem?_eq_getElem hlt
    exact .input ((h i hop).trans hv) hv
  · exact .same fun i hi => hinput ⟨i, hi⟩

end Machine

namespace Program

variable {p : Program V} {values : List V}

omit [Scalar V] in
theorem draws_of_missing {pre post : List (Operation V)} {i : Nat} (h : p.ops = pre ++ .input i :: post)
    (hi : values.length ≤ i) (hpre : ∀ j, .input j ∈ pre → j < values.length) :
    p.draws values = pre.countP Operation.isRand := by
  have hserved := Operation.isServed_of_forall hpre
  have hmissing : ¬ (Operation.input i : Operation V).isServed values = true := by simpa [Operation.isServed] using hi
  rw [draws, executed, h, List.takeWhile_append_of_pos hserved, List.takeWhile_cons_of_neg hmissing, List.append_nil]

omit [Scalar V] in
theorem draws_of_covered (h : ∀ i, .input i ∈ p.ops → i < values.length) :
    p.draws values = p.ops.countP Operation.isRand := by
  rw [draws, executed, List.takeWhile_eq_self_iff.2 (Operation.isServed_of_forall h)]

theorem evaluate_eq_of_agree {values' : List V} (hcover : ∀ i, .input i ∈ p.ops → i < values.length)
    (h : ∀ i, .input i ∈ p.ops → values'[i]? = values[i]?) (noise : Noise) :
    p.evaluate values' noise = p.evaluate values noise := by
  rw [evaluate, evaluate, Machine.run_eq_of_agree hcover h]

end Program

namespace Entry

variable {inputs : List Text} {entry : Entry} {expression : Text} {p : Program V}

/-- An evaluation whose first input that is not there is known. -/
theorem evaluate_missing (h : entry.compile expression inputs = .ok p) {values : List V}
    {pre post : List (Operation V)} {i : Nat} (hops : p.ops = pre ++ .input i :: post) (hi : values.length ≤ i)
    (hpre : ∀ j, .input j ∈ pre → j < values.length) (noise : Noise) :
    p.evaluate values noise =
      (.error (.missingInput values.length i), noise.steps (pre.countP Operation.isRand)) := by
  have hsnd := evaluate_snd h values noise
  rw [Program.draws_of_missing hops hi hpre] at hsnd
  refine Prod.ext ?_ hsnd
  obtain ⟨t, rfl, hneed⟩ := exists_tree h
  have hgrow : OpTree.grow [] t.postorder = some [t] := OpTree.grow_eq_singleton_iff.2 rfl
  have hpeak : OpTree.peak [t] ≤ stackCapacity := by simpa [OpTree.peak] using hneed
  simp only at hops
  rw [hops] at hgrow
  have hfault := Machine.run_grow_missing (m := .start noise) hgrow rfl hpeak hi hpre
  rw [Program.evaluate, hops]
  split
  · rename_i m hrun
    rw [hrun] at hfault
    cases hfault
  · rename_i m fault hrun
    rw [hrun] at hfault
    cases hfault
    rfl

/-- An evaluation that finds all its inputs. -/
theorem evaluate_covered (h : entry.compile expression inputs = .ok p) {values : List V}
    (hcover : ∀ i, .input i ∈ p.ops → i < values.length) (noise : Noise) :
    ∃ v, p.evaluate values noise = (.ok v, noise.steps (p.ops.countP Operation.isRand)) := by
  have hsnd := evaluate_snd h values noise
  rw [Program.draws_of_covered hcover] at hsnd
  obtain ⟨t, rfl, hneed⟩ := exists_tree h
  have hgiven : ∀ i, .input i ∈ t.postorder → values[i]? = some (Program.givenBy values i) :=
    fun i hi => Program.getElem?_eq_givenBy (hcover i hi)
  have hvalue := Program.evaluate_eq_value (p := ⟨t.postorder, t.need⟩) rfl hneed hgiven noise
  rw [hvalue] at hsnd ⊢
  exact ⟨_, Prod.ext rfl hsnd⟩

/-- **How an evaluation of a compiled program ends.**  It faults exactly if the program reads an input that is not there;
the fault is the first such read, with one step of the noise for each draw in front of it.  Else there is one step for
each draw of the program, and neither a value that it does not read nor values more at the end make a difference. -/
theorem evaluate_outcome (h : entry.compile expression inputs = .ok p) (values : List V) (noise : Noise) :
    ((∃ fault, (p.evaluate values noise).1 = .error fault) ↔ ∃ i, .input i ∈ p.ops ∧ values.length ≤ i) ∧
    (∀ fault, (p.evaluate values noise).1 = .error fault → ∃ pre i post, p.ops = pre ++ .input i :: post ∧
      values.length ≤ i ∧ (∀ j, .input j ∈ pre → j < values.length) ∧ fault = .missingInput values.length i ∧
      (p.evaluate values noise).2 = noise.steps (pre.countP Operation.isRand)) ∧
    ((∀ fault, (p.evaluate values noise).1 ≠ .error fault) →
      (p.evaluate values noise).2 = noise.steps (p.ops.countP Operation.isRand) ∧
      (∀ i v, .input i ∉ p.ops → p.evaluate (values.set i v) noise = p.evaluate values noise) ∧
      ∀ more, p.evaluate (values ++ more) noise = p.evaluate values noise) := by
  have hcovered : (¬ ∃ i, .input i ∈ p.ops ∧ values.length ≤ i) → ∀ i, .input i ∈ p.ops → i < values.length :=
    fun hnone i hi => Nat.lt_of_not_le fun hle => hnone ⟨i, hi, hle⟩
  have hfaults : (∃ fault, (p.evaluate values noise).1 = .error fault) ↔
      ∃ i, .input i ∈ p.ops ∧ values.length ≤ i := by
    constructor
    · rintro ⟨fault, hfault⟩
      by_contra hnone
      obtain ⟨v, hv⟩ := evaluate_covered h (hcovered hnone) noise
      rw [hv] at hfault
      cases hfault
    · intro hmissing
      obtain ⟨pre, i, post, hops, hi, hpre⟩ := Operation.exists_first_missing hmissing
      exact ⟨_, by rw [evaluate_missing h hops hi hpre]⟩
  refine ⟨hfaults, fun fault hfault => ?_, fun hnever => ?_⟩
  · obtain ⟨pre, i, post, hops, hi, hpre⟩ := Operation.exists_first_missing (hfaults.1 ⟨fault, hfault⟩)
    rw [evaluate_missing h hops hi hpre] at hfault ⊢
    cases hfault
    exact ⟨pre, i, post, hops, hi, hpre, rfl, rfl⟩
  · have hcover := hcovered fun hmissing => (hfaults.2 hmissing).elim hnever
    obtain ⟨v, hv⟩ := evaluate_covered h hcover noise
    refine ⟨by rw [hv], fun i v hi => ?_, fun more => ?_⟩
    · refine Program.evaluate_eq_of_agree hcover (fun j hj => ?_) noise
      have hne : i ≠ j := fun hij => hi (hij ▸ hj)
      rw [List.getElem?_set_ne hne]
    · refine Program.evaluate_eq_of_agree hcover (fun j hj => ?_) noise
      rw [List.getElem?_append_left (hcover j hj)]

/-- Of two inputs the second one is missing; with both of them there are two draws, and a third value is of no use. -/
theorem evaluate_outcome_second_input :
    let inputs : List Text := ["x".toList, "y".toList]
    let p : Program Double := ⟨[.rand, .input 0, .binary .mul, .input 1, .rand, .binary .div, .binary .add], 3⟩
    let one : Double := .ofRat 1
    conventional.compile "rand * x + y / rand".toList inputs = .ok p ∧
      (p.evaluate [one] ⟨1⟩).1 = .error (.missingInput 1 1) ∧
      (p.evaluate [one, one] ⟨1⟩).2 = ⟨0x5A00⟩ ∧
      p.evaluate [one, one, .nan] ⟨1⟩ = p.evaluate [one, one] ⟨1⟩ := by
  intro inputs p one
  have hcompile : conventional.compile "rand * x + y / rand".toList inputs = .ok p := by decide +kernel
  obtain ⟨hiff, hfirst, -⟩ := evaluate_outcome hcompile [one] ⟨1⟩
  obtain ⟨hiff', -, hend⟩ := evaluate_outcome hcompile [one, one] ⟨1⟩
  have hnever : ∀ fault, (p.evaluate [one, one] ⟨1⟩).1 ≠ .error fault := fun fault hfault => by
    obtain ⟨i, hi, hle⟩ := hiff'.1 ⟨fault, hfault⟩
    have hread : i = 0 ∨ i = 1 := by simpa [p] using hi
    have htwo : 2 ≤ i := hle
    omega
  obtain ⟨hnoise, -, hmore⟩ := hend hnever
  refine ⟨hcompile, ?_, hnoise, hmore [.nan]⟩
  obtain ⟨fault, hfault⟩ := hiff.2 ⟨1, by decide, by decide⟩
  obtain ⟨pre, i, post, hops, hi, -, rfl, -⟩ := hfirst fault hfault
  have hmem : .input i ∈ p.ops := by rw [hops]; exact List.mem_append_right _ List.mem_cons_self
  have hread : i = 0 ∨ i = 1 := by simpa [p] using hmem
  have hone : 1 ≤ i := hi
  obtain rfl : i = 1 := by omega
  exact hfault

end Entry

end SignalFormula
