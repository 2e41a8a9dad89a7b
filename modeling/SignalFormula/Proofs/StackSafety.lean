import SignalFormula.Proofs.Assembly
import SignalFormula.Proofs.Execution
/-!
# StackSafety — a compiled program never leaves the slots

The compiler keeps count of heights and nothing else.  That is enough: along a row that grows a forest, the height of the
machine is the number of trees (`run_grow`), so every operation finds its operands and its room (`Machine.Ready`), and
the greatest height is the depth that the program records (`stack_safety`).
-/
namespace SignalFormula

namespace OpTree

variable {V : Type}

theorem grow_append : ∀ (forest : List (OpTree V)) (pre post : List (Operation V)),
    grow forest (pre ++ post) = (grow forest pre).bind fun mid => grow mid post
  | _, [], _ => rfl
  | forest, op :: pre, post => by
    rw [List.cons_append, grow, grow]
    cases graft forest op with
    | none => rfl
    | some forest' => exact grow_append forest' pre post

theorem graft_eq_some {forest forest' : List (OpTree V)} {op : Operation V} (h : graft forest op = some forest') :
    op.arity ≤ forest.length ∧ forest'.length = forest.length - op.arity + 1 ∧
      peak forest' = max (peak forest) forest'.length := by
  have harity : op.arity ≤ forest.length := Nat.le_of_not_lt fun hlt => by
    rw [graft_of_lt_arity hlt] at h
    cases h
  obtain ⟨f, hf, hlen, hpeak⟩ := graft_of_arity_le harity
  obtain rfl : f = forest' := by rw [hf] at h; exact Option.some.inj h
  exact ⟨harity, hlen, hpeak⟩

theorem peak_le_of_grow : ∀ {forest grown : List (OpTree V)} {ops : List (Operation V)}, grow forest ops = some grown →
    peak forest ≤ peak grown
  | _, _, [], h => by cases h; exact Nat.le_refl _
  | forest, grown, op :: ops, h => by
    rw [grow] at h
    split at h
    · cases h
    · rename_i forest' hg
      have hpeak := (graft_eq_some hg).2.2
      have := peak_le_of_grow h
      omega

theorem length_le_peak : ∀ forest : List (OpTree V), forest.length ≤ peak forest
  | [] => Nat.le_refl 0
  | t :: rest => by
    have := one_le_need t
    simp only [peak, List.length_cons]
    omega

/-- **The peak of a forest is reached**: it is the number of trees after some of the operations. -/
theorem exists_prefix_peak : ∀ {forest grown : List (OpTree V)} {ops : List (Operation V)},
    grow forest ops = some grown → peak grown = peak forest ∨
      ∃ pre mid, pre <+: ops ∧ grow forest pre = some mid ∧ mid.length = peak grown
  | _, _, [], h => by cases h; exact .inl rfl
  | forest, grown, op :: ops, h => by
    rw [grow] at h
    split at h
    · cases h
    · rename_i forest' hg
      have hpeak := (graft_eq_some hg).2.2
      rcases exists_prefix_peak h with heq | ⟨pre, mid, hpre, hgrow, hlen⟩
      · by_cases hle : forest'.length ≤ peak forest
        · left
          omega
        · refine .inr ⟨[op], forest', ?_, (grow_cons hg []).trans rfl, by omega⟩
          exact (List.prefix_cons_inj op).2 List.nil_prefix
      · exact .inr ⟨op :: pre, mid, (List.prefix_cons_inj op).2 hpre, (grow_cons hg pre).trans hgrow, hlen⟩

end OpTree

namespace Machine

open OpTree (grow graft peak)

variable {V : Type}

/-- The machine has the operands of the operation, room for its value, and the input that it reads. -/
def Ready (values : List V) (m : Machine V) : Operation V → Prop
  | .binary _ => 2 ≤ m.height ∧ m.height ≤ stackCapacity
  | .unary _ => 1 ≤ m.height ∧ m.height ≤ stackCapacity
  | .rand | .const _ => m.height + 1 ≤ stackCapacity
  | .input i => m.height + 1 ≤ stackCapacity ∧ i < values.length

theorem ready_of_height {values : List V} {m : Machine V} {op : Operation V} (harity : op.arity ≤ m.height)
    (hheight : m.height ≤ stackCapacity) (hroom : m.height - op.arity + 1 ≤ stackCapacity)
    (hinput : ∀ i, op = .input i → i < values.length) : m.Ready values op := by
  cases op with
  | binary f => exact ⟨harity, hheight⟩
  | unary f => exact ⟨harity, hheight⟩
  | rand => exact hroom
  | input i => exact ⟨hroom, hinput i rfl⟩
  | const v => exact hroom

variable [Scalar V]

/-- **A machine that is ready makes the step**, and its height changes by the effect of the operation. -/
theorem step_of_ready {values : List V} {m : Machine V} {op : Operation V} (h : m.Ready values op) :
    ∃ m', m.step values op = .ok m' ∧ m'.height = m.height - op.arity + 1 := by
  cases op with
  | binary f =>
    have hone : m.height - 1 = m.height - 2 + 1 := by have := h.1; omega
    exact ⟨_, dif_pos h, hone⟩
  | unary f =>
    have hone : m.height = m.height - 1 + 1 := by have := h.1; omega
    exact ⟨_, dif_pos h, hone⟩
  | rand => exact ⟨_, dif_pos h, rfl⟩
  | input i =>
    obtain ⟨hroom, hi⟩ := h
    obtain ⟨m', hpush, hheight, -, -⟩ := push_eq hroom values[i]
    refine ⟨m', ?_, hheight⟩
    rw [step, List.getElem?_eq_getElem hi]
    exact hpush
  | const v => exact ⟨_, dif_pos h, rfl⟩

/-- **Along a row that grows a forest the machine makes every step**, and its height is the number of trees. -/
theorem run_grow {values : List V} : ∀ {ops : List (Operation V)} {forest grown : List (OpTree V)} {m : Machine V},
    grow forest ops = some grown → m.height = forest.length → peak grown ≤ stackCapacity →
      (∀ i, .input i ∈ ops → i < values.length) → ∃ m', run values m ops = (m', none) ∧ m'.height = grown.length
  | [], _, _, m, h, hheight, _, _ => by cases h; exact ⟨m, rfl, hheight⟩
  | op :: ops, forest, grown, m, h, hheight, hcap, hinput => by
    rw [grow] at h
    split at h
    · cases h
    · rename_i forest' hg
      obtain ⟨harity, hlen, hpeak⟩ := OpTree.graft_eq_some hg
      have hmono := OpTree.peak_le_of_grow h
      have hle := OpTree.length_le_peak forest
      have hready : m.Ready values op :=
        ready_of_height (by omega) (by omega) (by omega) (fun i hi => hinput i (by simp [hi]))
      obtain ⟨m₁, hstep, hheight₁⟩ := step_of_ready hready
      obtain ⟨m₂, hrun, hheight₂⟩ := run_grow (m := m₁) h (by omega) hcap
        (fun i hi => hinput i (List.mem_cons_of_mem _ hi))
      exact ⟨m₂, (run_cons hstep ops).trans hrun, hheight₂⟩

/-! ## Along the postorder of a tree -/

section postorder

variable {values : List V} {t : OpTree V} (hneed : t.need ≤ stackCapacity)
  (hinput : ∀ i, .input i ∈ t.postorder → i < values.length) (slots : Vector V stackCapacity) (noise : Noise)

include hneed hinput

/-- After a part of the postorder the height is the number of trees that the part has grown. -/
theorem run_part {pre post : List (Operation V)} (h : t.postorder = pre ++ post) :
    ∃ mid m, grow [] pre = some mid ∧ grow mid post = some [t] ∧ peak mid ≤ t.need ∧
      run values ⟨slots, 0, noise⟩ pre = (m, none) ∧ m.height = mid.length := by
  have hgrow : grow [] t.postorder = some [t] := OpTree.grow_eq_singleton_iff.2 rfl
  rw [h, OpTree.grow_append] at hgrow
  obtain ⟨mid, hmid, hrest⟩ := Option.bind_eq_some_iff.1 hgrow
  have hle : peak mid ≤ t.need := by simpa [peak] using OpTree.peak_le_of_grow hrest
  obtain ⟨m, hrun, hheight⟩ := run_grow (m := ⟨slots, 0, noise⟩) hmid rfl (by omega)
    (fun i hi => hinput i (by rw [h]; exact List.mem_append_left _ hi))
  exact ⟨mid, m, hmid, hrest, hle, hrun, hheight⟩

/-- **Before each operation of the postorder the machine is ready for it.** -/
theorem ready_of_postorder {pre post : List (Operation V)} {op : Operation V} (h : t.postorder = pre ++ op :: post) :
    ∃ m, run values ⟨slots, 0, noise⟩ pre = (m, none) ∧ m.Ready values op := by
  obtain ⟨mid, m, -, hrest, -, hrun, hheight⟩ := run_part hneed hinput slots noise h
  refine ⟨m, hrun, ?_⟩
  rw [grow] at hrest
  split at hrest
  · cases hrest
  · rename_i grafted hgraft
    obtain ⟨harity, hlen, hpeak⟩ := OpTree.graft_eq_some hgraft
    have hle : peak grafted ≤ t.need := by simpa [peak] using OpTree.peak_le_of_grow hrest
    have hmid := OpTree.length_le_peak mid
    refine ready_of_height (by omega) (by omega) (by omega) (fun i hi => hinput i ?_)
    rw [h, hi]
    exact List.mem_append_right _ List.mem_cons_self

theorem height_le_need {pre : List (Operation V)} (h : pre <+: t.postorder) :
    (run values ⟨slots, 0, noise⟩ pre).1.height ≤ t.need := by
  obtain ⟨post, hsplit⟩ := h
  obtain ⟨mid, m, -, -, hle, hrun, hheight⟩ := run_part hneed hinput slots noise hsplit.symm
  have hlen := OpTree.length_le_peak mid
  rw [hrun]
  show m.height ≤ t.need
  omega

/-- **The tree's need is reached on the way.** -/
theorem exists_height_eq_need : ∃ pre, pre <+: t.postorder ∧ (run values ⟨slots, 0, noise⟩ pre).1.height = t.need := by
  have hpeak : peak [t] = t.need := by simp [peak]
  rcases OpTree.exists_prefix_peak (OpTree.grow_eq_singleton_iff.2 (rfl : t.postorder = _)) with
    hzero | ⟨pre, mid, ⟨post, hsplit⟩, hmid, hlen⟩
  · have hone := OpTree.one_le_need t
    have : peak ([] : List (OpTree V)) = 0 := rfl
    omega
  · obtain ⟨mid', m, hmid', -, -, hrun, hheight⟩ := run_part hneed hinput slots noise hsplit.symm
    obtain rfl : mid = mid' := Option.some.inj (hmid.symm.trans hmid')
    refine ⟨pre, ⟨post, hsplit⟩, ?_⟩
    rw [hrun]
    show m.height = t.need
    omega

end postorder

end Machine

namespace Entry

variable {V : Type} [Scalar V] {inputs : List Text}

/-- **A compiled program never leaves the slots.**  For values that cover the inputs, from any slots: before each operation
the machine is ready for it; the run ends with a single value, the one that the program evaluates to; no height on the
way is above the program's depth, and one is that depth. -/
theorem stack_safety {entry : Entry} {expression : Text} {p : Program V}
    (h : entry.compile expression inputs = .ok p) {values : List V} (hvalues : inputs.length ≤ values.length)
    (slots : Vector V stackCapacity) (noise : Noise) :
    (∀ pre op post, p.ops = pre ++ op :: post →
      ∃ m, Machine.run values ⟨slots, 0, noise⟩ pre = (m, none) ∧ m.Ready values op) ∧
    (∃ m, Machine.run values ⟨slots, 0, noise⟩ p.ops = (m, none) ∧ m.height = 1 ∧
      p.evaluate values noise = (.ok m.top, m.noise)) ∧
    (∀ pre, pre <+: p.ops → (Machine.run values ⟨slots, 0, noise⟩ pre).1.height ≤ p.maxDepth) ∧
    ∃ pre, pre <+: p.ops ∧ (Machine.run values ⟨slots, 0, noise⟩ pre).1.height = p.maxDepth := by
  obtain ⟨t, rfl, hneed⟩ := exists_tree h
  have hinput : ∀ i, .input i ∈ t.postorder → i < values.length := fun i hi =>
    Nat.lt_of_lt_of_le (input_lt h hi) hvalues
  refine ⟨fun _ _ _ => Machine.ready_of_postorder hneed hinput slots noise, ?_,
    fun _ => Machine.height_le_need hneed hinput slots noise, Machine.exists_height_eq_need hneed hinput slots noise⟩
  have hgiven : ∀ i, .input i ∈ t.postorder → values[i]? = some (Program.givenBy values i) :=
    fun i hi => Program.getElem?_eq_givenBy (hinput i hi)
  obtain ⟨m, hrun, hone, hnoise, htop⟩ := Machine.run_tree slots noise hneed hgiven
  refine ⟨m, hrun, hone, ?_⟩
  rw [htop, hnoise]
  exact Program.evaluate_eq_value rfl hneed hgiven noise

/-- From slots that hold no number, an expression that needs four of them. -/
theorem stack_safety_nested_differences :
    let inputs : List Text := ["x".toList]
    let values : List Double := [.ofRat (1 / 2)]
    let p : Program Double := ⟨[.input 0, .rand, .input 0, .const (.ofRat 2), .binary .max, .const (.ofRat 2),
      .binary .pow, .binary .sub, .binary .sub], 4⟩
    let start : Machine Double := ⟨Vector.replicate stackCapacity .nan, 0, ⟨1⟩⟩
    conventional.compile "x - (rand() - max(x, 2) ^ 2)".toList inputs = .ok p ∧ inputs.length ≤ values.length ∧
      (∃ m, Machine.run values start p.ops = (m, none) ∧ m.height = 1 ∧
        p.evaluate values ⟨1⟩ = (.ok m.top, m.noise)) ∧
      ∃ pre, pre <+: p.ops ∧ (Machine.run values start pre).1.height = 4 := by
  intro inputs values p start
  let t : OpTree Double := .binary .sub (.input 0) (.binary .sub .rand
    (.binary .pow (.binary .max (.input 0) (.const (.ofRat 2))) (.const (.ofRat 2))))
  have hwords : Postfix.ofText? "x - (rand() - max(x, 2) ^ 2)".toList =
      some ["x".toList, "rand".toList, "x".toList, "2".toList, "max".toList, "2".toList, ['^'], ['-'], ['-']] := by
    decide +kernel
  have hcompile : conventional.compile "x - (rand() - max(x, 2) ^ 2)".toList inputs = .ok p :=
    Program.compileConventional_eq_ok_iff.2
      ⟨_, hwords, Program.assemble_eq_ok_iff.2 ⟨t, by decide +kernel, by decide, rfl⟩⟩
  have hvalues : inputs.length ≤ values.length := by decide
  obtain ⟨-, hend, -, hdepth⟩ := stack_safety hcompile hvalues start.slots ⟨1⟩
  exact ⟨hcompile, hvalues, hend, hdepth⟩

end Entry

end SignalFormula
