import SignalFormula.Proofs.OperatorTree
/-!
# Execution — the machine computes the value of a tree

The slots of a machine below its height are a list with the top first (`Machine.stack`), and each step is the stack
operation it stands for, as long as there are operands and room.  So the postorder of a tree puts the tree's value on
whatever stack it finds (`run_postorder`), from any slots, if the stack has room for the tree's need.
-/
namespace SignalFormula
namespace Machine

variable {V : Type}

/-- The values of the machine, the topmost first. -/
def stack (m : Machine V) : List V := (m.slots.toList.take m.height).reverse

theorem length_stack {m : Machine V} (h : m.height ≤ stackCapacity) : m.stack.length = m.height := by
  simp [stack, h]

theorem slot_eq {m : Machine V} (h : m.height ≤ stackCapacity) {i : Nat} (hi : i < m.height) :
    m.stack[m.height - 1 - i]? = some m.slots[i] := by
  have hlen : m.stack.length = m.height := length_stack h
  rw [List.getElem?_eq_getElem (by omega)]
  simp only [stack, List.getElem_reverse, List.getElem_take, List.length_take, Vector.length_toList,
    Nat.min_eq_left h, Vector.getElem_toList]
  congr 2
  omega

theorem eq_slot {m : Machine V} (h : m.height ≤ stackCapacity) {i : Nat} (hi : i < m.height) {v : V}
    (hv : m.stack[m.height - 1 - i]? = some v) : v = m.slots[i] :=
  Option.some.inj (hv.symm.trans (slot_eq h hi))

theorem stack_set {m : Machine V} (h : m.height ≤ stackCapacity) {i : Nat} (hi : i < stackCapacity) (him : i ≤ m.height)
    (v : V) : stack ⟨m.slots.set i v hi, i + 1, m.noise⟩ = v :: m.stack.drop (m.height - i) := by
  have hi' : i < (m.slots.toList.set i v).length := by simpa using hi
  have hset : (m.slots.toList.set i v).take (i + 1) = m.slots.toList.take i ++ [v] := by
    rw [List.take_succ_eq_append_getElem hi', List.take_set_of_le (Nat.le_refl i), List.getElem_set_self]
  have hdrop : m.stack.drop (m.height - i) = (m.slots.toList.take i).reverse := by
    have hlen : (m.slots.toList.take m.height).length = m.height := by simp [h]
    rw [stack, List.drop_reverse, hlen, List.take_take]
    congr 2
    omega
  rw [stack, Vector.toList_set, hset, List.reverse_append, hdrop]
  rfl

theorem push_eq {m : Machine V} (h : m.height < stackCapacity) (v : V) :
    ∃ m', m.push v = .ok m' ∧ m'.height = m.height + 1 ∧ m'.noise = m.noise ∧ m'.stack = v :: m.stack := by
  refine ⟨_, dif_pos h, rfl, rfl, ?_⟩
  rw [stack_set (Nat.le_of_lt h) h (Nat.le_refl _), Nat.sub_self, List.drop_zero]

variable [Scalar V]

theorem top_eq {m : Machine V} (h : m.height ≤ stackCapacity) {v : V} {rest : List V} (hs : m.stack = v :: rest) :
    m.top = v := by
  have hlen : rest.length + 1 = m.height := by rw [← length_stack h, hs, List.length_cons]
  have hv : v = m.slots[m.height - 1] := eq_slot h (by omega) (by rw [hs, Nat.sub_self]; rfl)
  rw [top, dif_pos ⟨by omega, h⟩]
  exact hv.symm

theorem step_unary {m : Machine V} (h : m.height ≤ stackCapacity) (values : List V) (f : UnaryOp) {a : V} {rest : List V}
    (hs : m.stack = a :: rest) : ∃ m', m.step values (.unary f) = .ok m' ∧ m'.height = m.height ∧ m'.noise = m.noise ∧
      m'.stack = f.apply a :: rest := by
  have hlen : rest.length + 1 = m.height := by rw [← length_stack h, hs, List.length_cons]
  have ha : a = m.slots[m.height - 1] := eq_slot h (by omega) (by rw [hs, Nat.sub_self]; rfl)
  have hstack := stack_set h (i := m.height - 1) (by omega) (by omega) (f.apply a)
  have hone : m.height - 1 + 1 = m.height := by omega
  rw [hs, show m.height - (m.height - 1) = 1 by omega, List.drop_one, List.tail_cons, hone, ha] at hstack
  exact ⟨_, dif_pos ⟨by omega, h⟩, rfl, rfl, by rw [ha]; exact hstack⟩

theorem step_binary {m : Machine V} (h : m.height ≤ stackCapacity) (values : List V) (f : BinaryOp) {a b : V}
    {rest : List V} (hs : m.stack = b :: a :: rest) : ∃ m', m.step values (.binary f) = .ok m' ∧
      m'.height = m.height - 1 ∧ m'.noise = m.noise ∧ m'.stack = f.apply a b :: rest := by
  have hlen : rest.length + 2 = m.height := by rw [← length_stack h, hs, List.length_cons, List.length_cons]
  have hb : b = m.slots[m.height - 1] := eq_slot h (by omega) (by rw [hs, Nat.sub_self]; rfl)
  have ha : a = m.slots[m.height - 2] :=
    eq_slot h (by omega) (by rw [hs, show m.height - 1 - (m.height - 2) = 1 by omega]; rfl)
  have hstack := stack_set h (i := m.height - 2) (by omega) (by omega) (f.apply a b)
  have hone : m.height - 2 + 1 = m.height - 1 := by omega
  rw [hs, show m.height - (m.height - 2) = 2 by omega, hone] at hstack
  refine ⟨_, dif_pos ⟨by omega, h⟩, rfl, rfl, ?_⟩
  rw [ha, hb] at hstack
  rw [ha, hb]
  exact hstack

/-! ## Runs -/

theorem run_cons {values : List V} {m m' : Machine V} {op : Operation V} (h : m.step values op = .ok m')
    (ops : List (Operation V)) : run values m (op :: ops) = run values m' ops := by
  rw [run, h]

/-- **The postorder of a tree puts the tree's value on the stack**, wherever the machine stands and whatever its slots
hold, if there is room for the tree's need. -/
theorem run_postorder {values : List V} {given : Nat → V} : ∀ (t : OpTree V) (m : Machine V) (ops : List (Operation V)),
    m.height + t.need ≤ stackCapacity → (∀ i, .input i ∈ t.postorder → values[i]? = some (given i)) →
      ∃ m', run values m (t.postorder ++ ops) = run values m' ops ∧ m'.height = m.height + 1 ∧
        m'.noise = (t.value given m.noise).2 ∧ m'.stack = (t.value given m.noise).1 :: m.stack
  | .rand, m, ops, hroom, _ => by
    obtain ⟨m', hpush, hheight, hnoise, hstack⟩ :=
      push_eq (m := { m with noise := m.noise.step }) hroom (Scalar.ofRegister m.noise.step.register)
    have hstep : m.step values .rand = .ok m' := hpush
    exact ⟨m', run_cons hstep ops, hheight, hnoise, hstack⟩
  | .input i, m, ops, hroom, hgiven => by
    obtain ⟨m', hpush, hheight, hnoise, hstack⟩ := push_eq hroom (given i)
    have hstep : m.step values (.input i) = .ok m' := by
      rw [step, hgiven i (by simp [OpTree.postorder])]
      exact hpush
    exact ⟨m', run_cons hstep ops, hheight, hnoise, hstack⟩
  | .const v, m, ops, hroom, _ => by
    obtain ⟨m', hpush, hheight, hnoise, hstack⟩ := push_eq hroom v
    have hstep : m.step values (.const v) = .ok m' := hpush
    exact ⟨m', run_cons hstep ops, hheight, hnoise, hstack⟩
  | .unary f t, m, ops, hroom, hgiven => by
    have hneed := OpTree.one_le_need t
    simp only [OpTree.need] at hroom
    obtain ⟨m₁, hrun₁, hheight₁, hnoise₁, hstack₁⟩ := run_postorder t m ([.unary f] ++ ops) hroom
      (fun i hi => hgiven i (by simp [OpTree.postorder, hi]))
    obtain ⟨m₂, hstep, hheight₂, hnoise₂, hstack₂⟩ := step_unary (by omega) values f hstack₁
    rw [OpTree.value_unary]
    refine ⟨m₂, ?_, hheight₂.trans hheight₁, hnoise₂.trans hnoise₁, hstack₂⟩
    rw [OpTree.postorder, List.append_assoc, hrun₁]
    exact run_cons hstep ops
  | .binary f l r, m, ops, hroom, hgiven => by
    have hneed := OpTree.one_le_need r
    simp only [OpTree.need] at hroom
    obtain ⟨m₁, hrun₁, hheight₁, hnoise₁, hstack₁⟩ := run_postorder l m (r.postorder ++ ([.binary f] ++ ops)) (by omega)
      (fun i hi => hgiven i (by simp [OpTree.postorder, hi]))
    obtain ⟨m₂, hrun₂, hheight₂, hnoise₂, hstack₂⟩ := run_postorder r m₁ ([.binary f] ++ ops) (by omega)
      (fun i hi => hgiven i (by simp [OpTree.postorder, hi]))
    rw [hstack₁, hnoise₁] at hstack₂
    rw [hnoise₁] at hnoise₂
    obtain ⟨m₃, hstep, hheight₃, hnoise₃, hstack₃⟩ := step_binary (by omega) values f hstack₂
    rw [OpTree.value_binary]
    refine ⟨m₃, ?_, by omega, hnoise₃.trans hnoise₂, hstack₃⟩
    rw [OpTree.postorder, List.append_assoc, List.append_assoc, hrun₁, hrun₂]
    exact run_cons hstep ops

/-- **From any slots, the postorder of a tree that fits leaves the tree's value alone on the stack.** -/
theorem run_tree {values : List V} {given : Nat → V} {t : OpTree V} (slots : Vector V stackCapacity) (noise : Noise)
    (hneed : t.need ≤ stackCapacity) (hgiven : ∀ i, .input i ∈ t.postorder → values[i]? = some (given i)) :
    ∃ m, run values ⟨slots, 0, noise⟩ t.postorder = (m, none) ∧ m.height = 1 ∧ m.noise = (t.value given noise).2 ∧
      m.top = (t.value given noise).1 := by
  obtain ⟨m, hrun, hheight, hnoise, hstack⟩ :=
    run_postorder t ⟨slots, 0, noise⟩ [] (by rw [Nat.zero_add]; exact hneed) hgiven
  rw [List.append_nil] at hrun
  have hone : m.height = 1 := hheight
  exact ⟨m, hrun, hone, hnoise, top_eq (by rw [hone]; decide) hstack⟩

end Machine

namespace Program

variable {V : Type} [Scalar V]

def givenBy (values : List V) (i : Nat) : V := values.getD i Scalar.zero

theorem getElem?_eq_givenBy {values : List V} {i : Nat} (h : i < values.length) :
    values[i]? = some (givenBy values i) := by
  rw [givenBy, List.getD_eq_getElem?_getD, List.getElem?_eq_getElem h]
  rfl

/-- **A program that is the postorder of a tree evaluates to the tree's value.** -/
theorem evaluate_eq_value {p : Program V} {values : List V} {given : Nat → V} {t : OpTree V}
    (hp : p.ops = t.postorder) (hneed : t.need ≤ stackCapacity)
    (hgiven : ∀ i, .input i ∈ p.ops → values[i]? = some (given i)) (noise : Noise) :
    p.evaluate values noise = (.ok (t.value given noise).1, (t.value given noise).2) := by
  rw [hp] at hgiven
  obtain ⟨m, hrun, -, hnoise, htop⟩ := Machine.run_tree (Vector.replicate stackCapacity Scalar.zero) noise hneed hgiven
  have hrun' : Machine.run values (Machine.start noise) p.ops = (m, none) := by rw [hp]; exact hrun
  rw [evaluate, hrun', ← htop, ← hnoise]

end Program

end SignalFormula
