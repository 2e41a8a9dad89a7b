import SignalFormula.Proofs.Assembly
import SignalFormula.Proofs.Infix.Loose
/-!
# Tally — what surplus and missing operands add up to

Each word takes operands and leaves one, so a row of words leaves as many operands as its `tally` says.  A tree leaves
one (`tally_of_postorder`).  A loose row leaves one too, and its surplus besides, less what is missing
(`Loose.tally_eq`).  So where the words of a loose row are those of a tree, what is missing makes up for the surplus.
-/
namespace SignalFormula

open Program (resolve? Stands)

variable {V : Type}

namespace Operation

variable {w : Text} {op : Operation V}

/-- What a builtin word may be. -/
theorem cases_of_ofKeyword? (h : ofKeyword? w = some op) :
    (op = .rand ∧ w = Expression.randWord) ∨ (∃ f, op = .unary f ∧ w = f.keyword) ∨
      ∃ f, op = .binary f ∧ (w = f.keyword ∨ w = ['^']) := by
  rcases eq_of_ofKeyword? h with hword | ⟨rfl, rfl⟩
  · cases op with
    | rand => exact .inl ⟨rfl, (Option.some.inj hword).symm⟩
    | unary f => exact .inr (.inl ⟨f, rfl, (Option.some.inj hword).symm⟩)
    | binary f => exact .inr (.inr ⟨f, rfl, .inl (Option.some.inj hword).symm⟩)
    | input i => cases hword
    | const v => cases hword
  · exact .inr (.inr ⟨.pow, rfl, .inr rfl⟩)

theorem taken_of_ofKeyword? (h : ofKeyword? w = some op) : taken w = op.arity := by
  rcases cases_of_ofKeyword? h with ⟨rfl, rfl⟩ | ⟨f, rfl, rfl⟩ | ⟨f, rfl, rfl | rfl⟩
  · rfl
  · cases f <;> rfl
  · cases f <;> rfl
  · rfl

/-- Whether a word is a builtin does not depend on the type of values. -/
theorem taken_eq_zero (h : ofKeyword? (V := V) w = none) : taken w = 0 := by
  unfold taken
  cases hop : ofKeyword? (V := Unit) w with
  | none => rfl
  | some op =>
    rcases cases_of_ofKeyword? hop with ⟨-, rfl⟩ | ⟨f, -, rfl⟩ | ⟨f, -, rfl | rfl⟩
    · cases h
    · cases f <;> cases h
    · cases f <;> cases h
    · cases h

theorem taken_of_stands [Scalar V] {inputs : List Text} (h : Stands inputs w op) : taken w = op.arity := by
  cases h with
  | builtin h => exact taken_of_ofKeyword? h
  | input h => exact taken_eq_zero h
  | literal h => exact taken_eq_zero h

end Operation

namespace Expression

open Operation (taken)

/-- The operands that words leave, if they find all that they take. -/
def tally : List Text → Int
  | [] => 0
  | w :: words => 1 - (taken w : Int) + tally words

theorem tally_singleton (w : Text) : tally [w] = 1 - (taken w : Int) := Int.add_zero _

theorem tally_append : ∀ ws vs : List Text, tally (ws ++ vs) = tally ws + tally vs
  | [], vs => (Int.zero_add _).symm
  | w :: ws, vs => by rw [List.cons_append, tally, tally, tally_append ws, Int.add_assoc]

section trees

variable [Scalar V] {inputs : List Text}

theorem tally_of_operation {words : List Text} {op : Operation V} (h : words.map (resolve? inputs) = [some op]) :
    tally words = 1 - (op.arity : Int) := by
  obtain ⟨w, rfl, hw⟩ := List.map_eq_singleton_iff.1 h
  rw [tally_singleton, Operation.taken_of_stands (Program.resolve?_eq_some_iff.1 hw)]

/-- **The words of a tree leave one operand.** -/
theorem tally_of_postorder : ∀ {t : OpTree V} {words : List Text},
    words.map (resolve? inputs) = t.postorder.map some → tally words = 1
  | .rand, _, h | .input _, _, h | .const _, _, h => tally_of_operation h
  | .unary f t, _, h => by
    rw [OpTree.postorder, List.map_append] at h
    obtain ⟨ws, last, rfl, hws, hlast⟩ := List.map_eq_append_iff.1 h
    rw [tally_append, tally_of_postorder hws, tally_of_operation hlast]
    rfl
  | .binary f l r, _, h => by
    rw [OpTree.postorder, List.map_append, List.map_append] at h
    obtain ⟨both, last, rfl, hboth, hlast⟩ := List.map_eq_append_iff.1 h
    obtain ⟨vs, ws, rfl, hvs, hws⟩ := List.map_eq_append_iff.1 hboth
    rw [tally_append, tally_append, tally_of_postorder hvs, tally_of_postorder hws, tally_of_operation hlast]
    rfl

end trees

/-- The operands that a part is to leave. -/
def Part.operands : Part → Nat
  | .row _ | .operand => 1
  | .place k => k
  | .arguments n => n

/-- **A part leaves the operands that it is to leave, those in surplus besides, and less those that are missing.** -/
theorem Loose.tally_eq {part : Part} {ts : List Token} {ws : List Text} {s m : Nat} (h : Loose part ts ws s m) :
    tally ws = part.operands + s - m := by
  have hrand : taken randWord = 0 := rfl
  have hoperator : ∀ o : Operator, taken o.text = 2 := fun o => by cases o <;> rfl
  induction h with
  | operand w | name w => simp [tally_singleton, Part.operands]
  | bracket inner ih =>
    have hone := inner.one_le_arguments
    rw [ih]
    simp only [Part.operands]
    omega
  | randCall => rw [tally_singleton, hrand]; rfl
  | call w _ inner ih =>
    have hone := inner.one_le_arguments
    rw [tally_append, tally_singleton, ih]
    simp only [Part.operands]
    omega
  | vacant => rfl
  | beside _ _ _ ihBefore ihLast =>
    rw [tally_append, ihBefore, ihLast]
    simp only [Part.operands]
    omega
  | place _ ih =>
    rw [ih]
    simp only [Part.operands]
    omega
  | operator _ _ _ _ ihL ihR =>
    rw [tally_append, tally_append, tally_singleton, ihL, ihR, hoperator]
    simp only [Part.operands]
    omega
  | argument _ ih => exact ih
  | comma _ _ ihBefore ihLast =>
    rw [tally_append, ihBefore, ihLast]
    simp only [Part.operands]
    omega

end Expression

end SignalFormula
