import SignalFormula.Program.Compile
import SignalFormula.Proofs.OperatorTree
/-!
# Assembly — which rows of words become a program

Words are assembled by counting heights alone.  That count is the number of trees in the forest that the words grow, and
the greatest height is the forest's `peak` (`operations_eq_ok_iff`).  So the rows that become a program are the
postorders of the trees that fit the stack (`assemble_eq_ok_iff`), and the program's depth is the tree's need.

There are three ways into the compiler; a program from any of them is assembled from words (`Entry.exists_words`).
-/
namespace SignalFormula

namespace Operation

variable {V : Type} {word : Text} {op : Operation V}

/-- **A builtin word is the word of its operation**, or the sign of a power. -/
theorem eq_of_ofKeyword? (h : ofKeyword? word = some op) :
    op.keyword? = some word ∨ word = ['^'] ∧ op = .binary .pow := by
  unfold ofKeyword? at h
  split at h <;> cases h
  case h_5 => exact .inr ⟨rfl, rfl⟩
  all_goals exact .inl rfl

/-- What holds of the word of every operation and of the sign of a power holds of every builtin word. -/
theorem forall_builtin {P : Text → Prop} (hbinary : ∀ f : BinaryOp, P f.keyword) (hunary : ∀ f : UnaryOp, P f.keyword)
    (hrand : P ['r', 'a', 'n', 'd']) (hpower : P ['^']) (h : ofKeyword? word = some op) : P word := by
  rcases eq_of_ofKeyword? h with hk | ⟨rfl, -⟩
  · cases op with
    | binary f => cases hk; exact hbinary f
    | unary f => cases hk; exact hunary f
    | rand => cases hk; exact hrand
    | input i => cases hk
    | const v => cases hk
  · exact hpower

end Operation

namespace Program

open OpTree (grow graft peak)

variable {V : Type} [Scalar V] {inputs : List Text}

/-- **Words are counted exactly as their forest grows**: the height is the number of its trees, the greatest height its
peak. -/
theorem operations_eq_ok_iff : ∀ {words : List Text} {forest : List (OpTree V)} {ops : List (Operation V)}
    {final top : Nat}, operations inputs forest.length (peak forest) words = .ok (ops, final, top) ↔
      words.map (resolve? inputs) = ops.map some ∧
        ∃ grown, grow forest ops = some grown ∧ final = grown.length ∧ top = peak grown
  | [], forest, ops, final, top => by
    constructor
    · intro h
      cases h
      exact ⟨rfl, forest, rfl, rfl, rfl⟩
    · rintro ⟨hops, grown, hg, rfl, rfl⟩
      obtain rfl : ops = [] := by simpa using hops.symm
      cases hg
      rfl
  | word :: words, forest, ops, final, top => by
    rw [operations]
    cases hr : resolve? (V := V) inputs word with
    | none => cases ops <;> simp [hr]
    | some op =>
      by_cases ha : forest.length < op.arity
      · have hg : graft forest op = none := OpTree.graft_of_lt_arity ha
        simp only [if_pos ha]
        constructor
        · intro h; cases h
        · rintro ⟨hops, grown, h, -⟩
          cases ops with
          | nil => cases hops
          | cons op' ops =>
            simp only [List.map_cons, hr, List.cons.injEq, Option.some.injEq] at hops
            rw [grow, ← hops.1, hg] at h
            cases h
      · obtain ⟨forest', hg, hlen, hpeak⟩ := OpTree.graft_of_arity_le (Nat.le_of_not_lt ha)
        simp only [if_neg ha]
        rw [← hlen, ← hpeak]
        constructor
        · intro h
          split at h
          · cases h
          · rename_i rest height highest hrest
            cases h
            obtain ⟨hops, grown, hgrow, rfl, rfl⟩ := operations_eq_ok_iff.1 hrest
            exact ⟨by simp [hr, hops], grown, (OpTree.grow_cons hg rest).trans hgrow, rfl, rfl⟩
        · rintro ⟨hops, grown, hgrow, rfl, rfl⟩
          cases ops with
          | nil => cases hops
          | cons op' rest =>
            simp only [List.map_cons, hr, List.cons.injEq, Option.some.injEq] at hops
            obtain ⟨rfl, hops⟩ := hops
            rw [OpTree.grow_cons hg] at hgrow
            rw [operations_eq_ok_iff.2 ⟨hops, grown, hgrow, rfl, rfl⟩]

theorem operations_start_eq_ok_iff {words : List Text} {ops : List (Operation V)} {final top : Nat} :
    operations inputs 0 0 words = .ok (ops, final, top) ↔ words.map (resolve? inputs) = ops.map some ∧
      ∃ grown, grow [] ops = some grown ∧ final = grown.length ∧ top = peak grown :=
  @operations_eq_ok_iff V _ inputs words [] _ _ _

/-- Words that stand for the postorder of a tree are assembled, if it fits the stack. -/
theorem assemble_of_postorder {words : List Text} {t : OpTree V}
    (h : words.map (resolve? inputs) = t.postorder.map some) : assemble inputs words =
      if stackCapacity < t.need then .error (.stackOverflow t.need) else .ok ⟨t.postorder, t.need⟩ := by
  have hpeak : t.need = peak [t] := by simp [peak]
  have hrun := operations_start_eq_ok_iff.2 ⟨h, [t], OpTree.grow_eq_singleton_iff.2 rfl, rfl, hpeak⟩
  rw [assemble, hrun]
  rfl

/-- **The rows of words that become a program are the postorders of the trees that fit the stack.** -/
theorem assemble_eq_ok_iff {words : List Text} {p : Program V} : assemble inputs words = .ok p ↔
    ∃ t : OpTree V, words.map (resolve? inputs) = t.postorder.map some ∧ t.need ≤ stackCapacity ∧
      p = ⟨t.postorder, t.need⟩ := by
  constructor
  · intro h
    unfold assemble at h
    split at h
    · cases h
    · rename_i ops final top hrun
      obtain ⟨hops, grown, hgrow, rfl, rfl⟩ := operations_start_eq_ok_iff.1 hrun
      split at h
      · cases h
      · rename_i hone
        obtain ⟨t, rfl⟩ := List.length_eq_one_iff.1 (Decidable.not_not.1 hone)
        obtain rfl := OpTree.grow_eq_singleton_iff.1 hgrow
        split at h
        · cases h
        · rename_i hcap
          cases h
          have hpeak : peak [t] = t.need := by simp [peak]
          rw [hpeak] at hcap ⊢
          exact ⟨t, hops, Nat.le_of_not_lt hcap, rfl⟩
  · rintro ⟨t, hops, hneed, rfl⟩
    rw [assemble_of_postorder hops, if_neg (Nat.not_lt.2 hneed)]

/-! ## What a word stands for -/

/-- A word stands for an operation: as a builtin word, else as the name of the first input that has it, else as a
literal. -/
inductive Stands (inputs : List Text) : Text → Operation V → Prop where
  | builtin {word : Text} {op : Operation V} (h : Operation.ofKeyword? word = some op) : Stands inputs word op
  | input {word : Text} {i : Nat} (hbuiltin : Operation.ofKeyword? (V := V) word = none)
      (hname : inputs[i]? = some word) (hfirst : ∀ j < i, inputs[j]? ≠ some word) : Stands inputs word (.input i)
  | literal {word : Text} {v : V} (hbuiltin : Operation.ofKeyword? (V := V) word = none) (hname : word ∉ inputs)
      (h : Scalar.literal? word = some v) : Stands inputs word (.const v)

omit [Scalar V] in
theorem findIdx?_eq_some_iff {word : Text} {i : Nat} : inputs.findIdx? (· = word) = some i ↔
    inputs[i]? = some word ∧ ∀ j < i, inputs[j]? ≠ some word := by
  rw [List.findIdx?_eq_some_iff_getElem]
  constructor
  · rintro ⟨hlt, hname, hfirst⟩
    refine ⟨List.getElem?_eq_some_iff.2 ⟨hlt, of_decide_eq_true hname⟩, fun j hj hword => ?_⟩
    obtain ⟨hlt', hword⟩ := List.getElem?_eq_some_iff.1 hword
    exact hfirst j hj (decide_eq_true hword)
  · rintro ⟨hname, hfirst⟩
    obtain ⟨hlt, hname⟩ := List.getElem?_eq_some_iff.1 hname
    refine ⟨hlt, decide_eq_true hname, fun j hj hword => hfirst j hj ?_⟩
    exact List.getElem?_eq_some_iff.2 ⟨by omega, of_decide_eq_true hword⟩

/-- **A word is resolved to what it stands for.** -/
theorem resolve?_eq_some_iff {word : Text} {op : Operation V} :
    resolve? inputs word = some op ↔ Stands inputs word op := by
  unfold resolve?
  cases hbuiltin : Operation.ofKeyword? (V := V) word with
  | some b =>
    constructor
    · intro h; cases h; exact .builtin hbuiltin
    · intro h
      cases h with
      | builtin h => rw [hbuiltin] at h; exact h
      | input h => rw [hbuiltin] at h; cases h
      | literal h => rw [hbuiltin] at h; cases h
  | none =>
    cases hindex : inputs.findIdx? (· = word) with
    | some i =>
      obtain ⟨hname, hfirst⟩ := findIdx?_eq_some_iff.1 hindex
      constructor
      · intro h; cases h; exact .input hbuiltin hname hfirst
      · intro h
        cases h with
        | builtin h => rw [hbuiltin] at h; cases h
        | input _ hname' hfirst' => rw [findIdx?_eq_some_iff.2 ⟨hname', hfirst'⟩] at hindex; cases hindex; rfl
        | literal _ hword => exact absurd (List.mem_of_getElem? hname) hword
    | none =>
      have hword : word ∉ inputs := fun hmem => by simpa using List.findIdx?_eq_none_iff.1 hindex word hmem
      constructor
      · intro h
        obtain ⟨v, hv, rfl⟩ := Option.map_eq_some_iff.1 h
        exact .literal hbuiltin hword hv
      · intro h
        cases h with
        | builtin h => rw [hbuiltin] at h; cases h
        | input _ hname => exact absurd (List.mem_of_getElem? hname) hword
        | literal _ _ hv => exact Option.map_eq_some_iff.2 ⟨_, hv, rfl⟩

theorem getElem?_of_resolve? {word : Text} {i : Nat} (h : resolve? (V := V) inputs word = some (.input i)) :
    inputs[i]? = some word := by
  cases resolve?_eq_some_iff.1 h with
  | builtin h => rcases Operation.eq_of_ofKeyword? h with h | ⟨-, h⟩ <;> cases h
  | input _ hname => exact hname

theorem literal?_of_resolve? {word : Text} {v : V} (h : resolve? inputs word = some (.const v)) :
    Scalar.literal? word = some v := by
  cases resolve?_eq_some_iff.1 h with
  | builtin h => rcases Operation.eq_of_ofKeyword? h with h | ⟨-, h⟩ <;> cases h
  | literal _ _ hv => exact hv

/-- **Each word of a row that becomes a program** stands for an operation. -/
theorem exists_stands_of_assemble {words : List Text} {p : Program V} (h : assemble inputs words = .ok p) {w : Text}
    (hw : w ∈ words) : ∃ op : Operation V, Stands inputs w op := by
  obtain ⟨t, hmap, -⟩ := assemble_eq_ok_iff.1 h
  have hmem : resolve? inputs w ∈ t.postorder.map some := by rw [← hmap]; exact List.mem_map_of_mem hw
  obtain ⟨op, -, hop⟩ := List.mem_map.1 hmem
  exact ⟨op, resolve?_eq_some_iff.1 hop.symm⟩

omit [Scalar V] in
/-- A bracket that is never closed stands for nothing, unless an input has it for a name. -/
theorem not_stands_openParen {F : Format} (h : ['('] ∉ inputs) (op : Operation (Binary F)) : ¬ Stands inputs ['('] op := by
  intro hstands
  cases hstands with
  | builtin h => cases h
  | input _ hname => exact h (List.mem_of_getElem? hname)
  | literal _ _ hv => cases hv

/-! ## From words to programs -/

theorem mapError_eq_ok_iff {α ε ε' : Type} {f : ε → ε'} {r : Except ε α} {a : α} :
    r.mapError f = .ok a ↔ r = .ok a := by
  cases r with
  | error fault => constructor <;> intro h <;> cases h
  | ok b => constructor <;> intro h <;> cases h <;> rfl

theorem compileReversed_eq_ok_iff {expression : Text} {p : Program V} :
    compileReversed expression inputs = .ok p ↔ assemble inputs (Text.words expression) = .ok p :=
  mapError_eq_ok_iff

theorem compileConventional_eq_ok_iff {expression : Text} {p : Program V} :
    compileConventional expression inputs = .ok p ↔
      ∃ words, Postfix.ofText? expression = some words ∧ assemble inputs words = .ok p := by
  unfold compileConventional
  cases Postfix.ofText? expression with
  | none => simp
  | some words => simp [mapError_eq_ok_iff]

end Program

/-! ## The ways into the compiler -/

/-- How an expression is taken: in the notation that its mark says, or in a notation that is settled. -/
inductive Entry where
  | marked
  | conventional
  | reversed
deriving DecidableEq, Repr

namespace Entry

open Program (resolve?)

variable {V : Type} [Scalar V] {inputs : List Text}

/-- The program of an expression that is taken in this way. -/
def compile : Entry → Text → List Text → Except CompileError (Program V)
  | .marked => Program.compile
  | .conventional => Program.compileConventional
  | .reversed => Program.compileReversed

/-- The words that an expression is assembled from: those it is made of, or its postfix order. -/
inductive Words : Text → List Text → Prop where
  | reversed (expression : Text) : Words expression (Text.words expression)
  | conventional {expression : Text} {words : List Text} (h : Postfix.ofText? expression = some words) :
      Words expression words

/-- **A program is assembled from words**, by whichever way it is compiled. -/
theorem exists_words {entry : Entry} {expression : Text} {p : Program V}
    (h : entry.compile expression inputs = .ok p) :
    ∃ body words, Words body words ∧ Program.assemble inputs words = .ok p := by
  have hreversed : ∀ {body}, Program.compileReversed body inputs = .ok p →
      ∃ words, Words body words ∧ Program.assemble inputs words = .ok p := fun h =>
    ⟨_, .reversed _, Program.compileReversed_eq_ok_iff.1 h⟩
  have hconventional : ∀ {body}, Program.compileConventional body inputs = .ok p →
      ∃ words, Words body words ∧ Program.assemble inputs words = .ok p := fun h => by
    obtain ⟨words, hwords, hassemble⟩ := Program.compileConventional_eq_ok_iff.1 h
    exact ⟨words, .conventional hwords, hassemble⟩
  cases entry with
  | conventional => exact ⟨_, hconventional h⟩
  | reversed => exact ⟨_, hreversed h⟩
  | marked =>
    simp only [compile, Program.compile] at h
    split at h
    · exact ⟨_, hreversed h⟩
    · exact ⟨_, hconventional h⟩

theorem exists_tree {entry : Entry} {expression : Text} {p : Program V} (h : entry.compile expression inputs = .ok p) :
    ∃ t : OpTree V, p = ⟨t.postorder, t.need⟩ ∧ t.need ≤ stackCapacity := by
  obtain ⟨body, words, -, hw⟩ := exists_words h
  obtain ⟨t, -, hneed, hp⟩ := Program.assemble_eq_ok_iff.1 hw
  exact ⟨t, hp, hneed⟩

theorem exists_resolve? {entry : Entry} {expression : Text} {p : Program V} {op : Operation V}
    (h : entry.compile expression inputs = .ok p) (hop : op ∈ p.ops) : ∃ word, resolve? inputs word = some op := by
  obtain ⟨body, words, -, hw⟩ := exists_words h
  obtain ⟨t, hmap, -, rfl⟩ := Program.assemble_eq_ok_iff.1 hw
  have hmem : some op ∈ words.map (resolve? inputs) := by rw [hmap]; exact List.mem_map_of_mem hop
  obtain ⟨word, -, hword⟩ := List.mem_map.1 hmem
  exact ⟨word, hword⟩

/-- **The inputs of a compiled program are there.** -/
theorem input_lt {entry : Entry} {expression : Text} {p : Program V} {i : Nat}
    (h : entry.compile expression inputs = .ok p) (hi : Operation.input i ∈ p.ops) : i < inputs.length := by
  obtain ⟨word, hword⟩ := exists_resolve? h hi
  exact (List.getElem?_eq_some_iff.1 (Program.getElem?_of_resolve? hword)).1

end Entry

end SignalFormula
