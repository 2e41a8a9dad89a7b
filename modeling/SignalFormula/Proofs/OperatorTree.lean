import SignalFormula.Program.Machine
/-!
# OperatorTree — a formula as a tree of operations

The row of operations of a formula is the postorder of a tree, and a row is the postorder of one tree at most
(`postorder_injective`).  What decides whether a row is one is its reading from the left (`grow`): a forest is kept, the
tree of the topmost value first, a push plants a tree, and an operation puts the topmost ones under it.

A tree has a value without any stack (`value`): the left operand is evaluated before the right one, each `rand` draws
once, and each operator is named by what it does to values.  That is also what the machine does at it (`value_unary`,
`value_binary`).  The slots that a tree takes on a stack are its `need`.
-/
namespace SignalFormula

inductive OpTree (V : Type) where
  | rand
  | input (index : Nat)
  | const (value : V)
  | unary (f : UnaryOp) (operand : OpTree V)
  | binary (f : BinaryOp) (left right : OpTree V)
deriving DecidableEq

namespace OpTree

variable {V : Type}

/-- The operations of a tree, each one after its operands, the left operand first. -/
def postorder : OpTree V → List (Operation V)
  | .rand => [.rand]
  | .input i => [.input i]
  | .const v => [.const v]
  | .unary f t => t.postorder ++ [.unary f]
  | .binary f l r => l.postorder ++ r.postorder ++ [.binary f]

/-- The slots that an evaluation takes: the value of a left operand waits while the right one is evaluated. -/
def need : OpTree V → Nat
  | .rand | .input _ | .const _ => 1
  | .unary _ t => t.need
  | .binary _ l r => max l.need (1 + r.need)

def draws : OpTree V → Nat
  | .rand => 1
  | .input _ | .const _ => 0
  | .unary _ t => t.draws
  | .binary _ l r => l.draws + r.draws

/-- **The value of a tree** for the inputs that are given, and the noise that is left.  Each operator is the operation on
values that it stands for, of the left operand's value and the right operand's. -/
def value [Scalar V] (given : Nat → V) : OpTree V → Noise → V × Noise
  | .rand, noise => (Scalar.ofRegister noise.step.register, noise.step)
  | .input i, noise => (given i, noise)
  | .const v, noise => (v, noise)
  | .unary f t, noise =>
    let (a, noise) := t.value given noise
    match f with
    | .sin => (Scalar.sin a, noise)
    | .cos => (Scalar.cos a, noise)
    | .trunc => (Scalar.trunc a, noise)
  | .binary f l r, noise =>
    let (a, noise) := l.value given noise
    let (b, noise) := r.value given noise
    match f with
    | .add => (Scalar.add a b, noise)
    | .sub => (Scalar.sub a b, noise)
    | .mul => (Scalar.mul a b, noise)
    | .div => (Scalar.div a b, noise)
    | .pow => (Scalar.pow a b, noise)
    | .max => (Scalar.max a b, noise)
    | .min => (Scalar.min a b, noise)

theorem one_le_need : ∀ t : OpTree V, 1 ≤ t.need
  | .rand | .input _ | .const _ => Nat.le_refl 1
  | .unary _ t => one_le_need t
  | .binary _ l _ => Nat.le_trans (one_le_need l) (Nat.le_max_left ..)

section value

variable [Scalar V] (given : Nat → V)

/-- The machine does at a unary operation what the operation means in a tree. -/
theorem value_unary (f : UnaryOp) (t : OpTree V) (noise : Noise) :
    (unary f t).value given noise = (f.apply (t.value given noise).1, (t.value given noise).2) := by
  cases f <;> rfl

/-- The machine does at a binary operation what the operation means in a tree, to the left operand and the right one. -/
theorem value_binary (f : BinaryOp) (l r : OpTree V) (noise : Noise) :
    (binary f l r).value given noise =
      (f.apply (l.value given noise).1 (r.value given (l.value given noise).2).1,
        (r.value given (l.value given noise).2).2) := by
  cases f <;> rfl

/-- **The noise that is left is so many steps on as there are draws in the tree.** -/
theorem value_snd : ∀ (t : OpTree V) (noise : Noise), (t.value given noise).2 = noise.steps t.draws
  | .rand, _ | .input _, _ | .const _, _ => rfl
  | .unary f t, noise => by rw [value_unary, value_snd t, draws]
  | .binary f l r, noise => by rw [value_binary, value_snd r, value_snd l, draws, Noise.steps_add]

end value

/-! ## Reading a row from the left -/

/-- The forest after one operation; there is none if the operation finds too few trees. -/
def graft (forest : List (OpTree V)) : Operation V → Option (List (OpTree V))
  | .binary f =>
    match forest with
    | r :: l :: rest => some (.binary f l r :: rest)
    | _ => none
  | .unary f =>
    match forest with
    | t :: rest => some (.unary f t :: rest)
    | [] => none
  | .rand => some (.rand :: forest)
  | .input i => some (.input i :: forest)
  | .const v => some (.const v :: forest)

def grow : List (OpTree V) → List (Operation V) → Option (List (OpTree V))
  | forest, [] => some forest
  | forest, op :: ops =>
    match graft forest op with
    | none => none
    | some forest => grow forest ops

theorem grow_cons {forest forest' : List (OpTree V)} {op : Operation V} (h : graft forest op = some forest')
    (ops : List (Operation V)) : grow forest (op :: ops) = grow forest' ops := by
  rw [grow, h]

/-- **The postorder of a tree plants that tree.** -/
theorem grow_postorder : ∀ (t : OpTree V) (forest : List (OpTree V)) (ops : List (Operation V)),
    grow forest (t.postorder ++ ops) = grow (t :: forest) ops
  | .rand, _, _ | .input _, _, _ | .const _, _, _ => rfl
  | .unary f t, forest, ops => by
    rw [postorder, List.append_assoc, grow_postorder t]
    rfl
  | .binary f l r, forest, ops => by
    rw [postorder, List.append_assoc, List.append_assoc, grow_postorder l, grow_postorder r]
    rfl

/-- The row that a forest was read from, the lowest tree first. -/
def row (forest : List (OpTree V)) : List (Operation V) := forest.reverse.flatMap postorder

theorem row_cons (t : OpTree V) (forest : List (OpTree V)) : row (t :: forest) = row forest ++ t.postorder := by
  simp [row]

theorem row_graft {forest forest' : List (OpTree V)} {op : Operation V} (h : graft forest op = some forest') :
    row forest' = row forest ++ [op] := by
  cases op with
  | binary f =>
    match forest, h with
    | r :: l :: rest, h =>
      cases h
      simp only [row_cons, postorder, List.append_assoc]
  | unary f =>
    match forest, h with
    | t :: rest, h =>
      cases h
      simp only [row_cons, postorder, List.append_assoc]
  | rand => cases h; exact row_cons _ _
  | input i => cases h; exact row_cons _ _
  | const v => cases h; exact row_cons _ _

/-- **Reading a row loses nothing.** -/
theorem row_grow : ∀ {forest forest' : List (OpTree V)} (ops : List (Operation V)), grow forest ops = some forest' →
    row forest' = row forest ++ ops
  | _, _, [], h => by cases h; rw [List.append_nil]
  | forest, forest', op :: ops, h => by
    rw [grow] at h
    split at h
    · cases h
    · rename_i mid hm
      rw [row_grow ops h, row_graft hm, List.append_assoc, List.singleton_append]

/-- **A row leaves the single tree `t` exactly if it is the postorder of `t`.** -/
theorem grow_eq_singleton_iff {ops : List (Operation V)} {t : OpTree V} :
    grow [] ops = some [t] ↔ ops = t.postorder := by
  constructor
  · intro h
    simpa [row] using (row_grow ops h).symm
  · rintro rfl
    simpa [grow] using grow_postorder t [] []

/-- **A row is the postorder of one tree at most.** -/
theorem postorder_injective {t u : OpTree V} (h : t.postorder = u.postorder) : t = u := by
  have ht : grow [] t.postorder = some [t] := grow_eq_singleton_iff.2 rfl
  have hu : grow [] t.postorder = some [u] := grow_eq_singleton_iff.2 h
  simpa [ht] using hu

theorem eq_of_map_some_postorder {t u : OpTree V} (h : t.postorder.map some = u.postorder.map some) : t = u :=
  postorder_injective ((List.map_inj_right fun _ _ => Option.some.inj).1 h)

/-! ## The height of the stack -/

/-- The greatest height of the stack while a forest is evaluated: each tree on top of the values of those below it. -/
def peak : List (OpTree V) → Nat
  | [] => 0
  | t :: rest => max (peak rest) (rest.length + t.need)

/-- **An operation that finds its operands grafts**, and the heights are those of the stack. -/
theorem graft_of_arity_le {forest : List (OpTree V)} {op : Operation V} (h : op.arity ≤ forest.length) :
    ∃ forest', graft forest op = some forest' ∧ forest'.length = forest.length - op.arity + 1 ∧
      peak forest' = max (peak forest) forest'.length := by
  cases op with
  | binary f =>
    match forest, h with
    | r :: l :: rest, _ =>
      have := one_le_need l
      refine ⟨_, rfl, rfl, ?_⟩
      simp only [peak, need, List.length_cons]
      omega
  | unary f =>
    match forest, h with
    | t :: rest, _ =>
      have := one_le_need t
      refine ⟨_, rfl, rfl, ?_⟩
      simp only [peak, need, List.length_cons]
      omega
  | rand => exact ⟨_, rfl, rfl, rfl⟩
  | input i => exact ⟨_, rfl, rfl, rfl⟩
  | const v => exact ⟨_, rfl, rfl, rfl⟩

theorem graft_of_lt_arity {forest : List (OpTree V)} {op : Operation V} (h : forest.length < op.arity) :
    graft forest op = none := by
  cases op with
  | binary f =>
    match forest, h with
    | [], _ => rfl
    | [_], _ => rfl
  | unary f =>
    match forest, h with
    | [], _ => rfl
  | rand => cases h
  | input i => cases h
  | const v => cases h

end OpTree

end SignalFormula
