import SignalFormula.Proofs.Infix.Arrange
import SignalFormula.Proofs.Infix.Scan
import SignalFormula.Proofs.Words
/-!
# Translation — every writing of a tree becomes the tree's postfix order, and compiles to the tree

Brackets that are not needed, white space and the two ways of writing a draw make no difference: a text that writes a tree
becomes the words of the tree, and what compiling it gives is what assembling those words gives, but for the expression
that an error quotes.  So it compiles exactly if its leaves stand for inputs and constants and the tree of operations
that it then denotes fits the stack, and the program is the postorder of that tree (`compile_writing`).
-/
namespace SignalFormula

theorem Atom.token_eq : ∀ a : Atom, ∃ t, a.token = .name t ∨ a.token = .operand t
  | .literal l => ⟨l.text, .inr rfl⟩
  | .name n _ => ⟨n.text, .inl rfl⟩

/-- The operation of an operator. -/
def Operator.operation : Operator → BinaryOp
  | .plus => .add
  | .minus => .sub
  | .times => .mul
  | .divide => .div
  | .power => .pow

variable {V : Type}

theorem Literal.ofKeyword?_text (l : Literal) : Operation.ofKeyword? (V := V) l.text = none := by
  cases hop : Operation.ofKeyword? (V := V) l.text with
  | none => rfl
  | some op =>
    have hshape : Token.startsDigit l.text = false ∧ (l.text = ['-'] ∨ l.text.head? ≠ some '-') := by
      refine Operation.forall_builtin (P := fun t => Token.startsDigit t = false ∧ (t = ['-'] ∨ t.head? ≠ some '-'))
        (fun f => ?_) (fun f => ?_) (by decide) (by decide) hop
      · cases f <;> decide
      · cases f <;> decide
    obtain ⟨c, w, hw, hc⟩ := l.exists_magnitude_eq
    rw [Literal.text, hw] at hshape
    cases hneg : l.negative with
    | false =>
      have hdigit : Token.startsDigit (c :: w) = false := by simpa [hneg] using hshape.1
      exact absurd (hc.symm.trans hdigit) (by decide)
    | true => simp [hneg] at hshape

namespace Expression

open Program (resolve? Stands)

variable {e : Expression Atom} {rank : Nat} {tokens : List Token} [Scalar V] {inputs : List Text}

/-- **The tree of operations that an expression denotes** for some inputs. -/
inductive Denotes (inputs : List Text) : Expression Atom → OpTree V → Prop where
  | input {a : Atom} {i : Nat} (h : Stands (V := V) inputs a.token.text (.input i)) : Denotes inputs (.leaf a) (.input i)
  | const {a : Atom} {v : V} (h : Stands inputs a.token.text (.const v)) : Denotes inputs (.leaf a) (.const v)
  | rand : Denotes inputs .rand .rand
  | operator {o : Operator} {el er : Expression Atom} {l r : OpTree V} (hl : Denotes inputs el l)
      (hr : Denotes inputs er r) : Denotes inputs (.operator o el er) (.binary o.operation l r)
  | call {f : UnaryOp} {e : Expression Atom} {t : OpTree V} (h : Denotes inputs e t) :
      Denotes inputs (.call f e) (.unary f t)
  | callTwo {f : BinaryOp} {named : Token.startsName f.keyword = true} {el er : Expression Atom} {l r : OpTree V}
      (hl : Denotes inputs el l) (hr : Denotes inputs er r) : Denotes inputs (.callTwo f named el er) (.binary f l r)

theorem resolve?_of_keyword? {op : Operation V} {word : Text} (h : op.keyword? = some word) :
    resolve? inputs word = some op :=
  Program.resolve?_eq_some_iff.2 (.builtin (Operation.ofKeyword?_keyword h))

theorem resolve?_operator (o : Operator) : resolve? (V := V) inputs o.text = some (.binary o.operation) :=
  Program.resolve?_eq_some_iff.2 (.builtin (by cases o <;> rfl))

/-- The words of an expression stand for the operations of the tree that it denotes. -/
theorem Denotes.map_resolve? {t : OpTree V} (h : Denotes inputs e t) :
    (e.words Atom.token).map (resolve? inputs) = t.postorder.map some := by
  induction h with
  | input h => simp [words, OpTree.postorder, Program.resolve?_eq_some_iff.2 h]
  | const h => simp [words, OpTree.postorder, Program.resolve?_eq_some_iff.2 h]
  | rand => rfl
  | @operator o _ _ _ _ _ _ ihl ihr =>
    have ho : resolve? (V := V) inputs o.text = some (.binary o.operation) := resolve?_operator o
    simp [words, OpTree.postorder, ihl, ihr, ho]
  | @call f _ _ _ ih =>
    have hf : resolve? (V := V) inputs f.keyword = some (.unary f) := resolve?_of_keyword? rfl
    simp [words, OpTree.postorder, ih, hf]
  | @callTwo f _ _ _ _ _ _ _ ihl ihr =>
    have hf : resolve? (V := V) inputs f.keyword = some (.binary f) := resolve?_of_keyword? rfl
    simp [words, OpTree.postorder, ihl, ihr, hf]

/-- A leaf stands for an input or a constant, if it stands for anything. -/
theorem exists_denotes_leaf (a : Atom) {op : Operation V} (h : resolve? inputs a.token.text = some op) :
    ∃ t : OpTree V, Denotes inputs (.leaf a) t := by
  have hbuiltin : Operation.ofKeyword? (V := V) a.token.text = none := by
    cases a with
    | literal l => exact l.ofKeyword?_text
    | name n hn => exact hn V
  have hstands := Program.resolve?_eq_some_iff.1 h
  cases hstands with
  | builtin h => rw [hbuiltin] at h; cases h
  | input _ hname hfirst => exact ⟨_, .input (.input hbuiltin hname hfirst)⟩
  | literal _ hname hv => exact ⟨_, .const (.literal hbuiltin hname hv)⟩

/-- **An expression denotes a tree if each of its words stands for something.** -/
theorem exists_denotes : ∀ {e : Expression Atom},
    (∀ w ∈ e.words Atom.token, ∃ op : Operation V, resolve? inputs w = some op) → ∃ t : OpTree V, Denotes inputs e t
  | .leaf a, h => by
    obtain ⟨op, hop⟩ := h a.token.text (by simp [words])
    exact exists_denotes_leaf a hop
  | .rand, _ => ⟨_, .rand⟩
  | .operator o el er, h => by
    obtain ⟨l, hl⟩ := exists_denotes (e := el) fun w hw => h w (by simp [words, hw])
    obtain ⟨r, hr⟩ := exists_denotes (e := er) fun w hw => h w (by simp [words, hw])
    exact ⟨_, .operator hl hr⟩
  | .call f e, h => by
    obtain ⟨t, ht⟩ := exists_denotes (e := e) fun w hw => h w (by simp [words, hw])
    exact ⟨_, .call ht⟩
  | .callTwo f named el er, h => by
    obtain ⟨l, hl⟩ := exists_denotes (e := el) fun w hw => h w (by simp [words, hw])
    obtain ⟨r, hr⟩ := exists_denotes (e := er) fun w hw => h w (by simp [words, hw])
    exact ⟨_, .callTwo hl hr⟩

/-- **The words of an expression become a program exactly if it denotes a tree that fits the stack.** -/
theorem assemble_words_eq_ok_iff {p : Program V} : Program.assemble inputs (e.words Atom.token) = .ok p ↔
    ∃ t : OpTree V, Denotes inputs e t ∧ t.need ≤ stackCapacity ∧ p = ⟨t.postorder, t.need⟩ := by
  rw [Program.assemble_eq_ok_iff]
  constructor
  · rintro ⟨t, hmap, hneed, rfl⟩
    obtain ⟨u, hu⟩ : ∃ u : OpTree V, Denotes inputs e u := exists_denotes fun w hw => by
      have hmem : resolve? inputs w ∈ t.postorder.map some := by rw [← hmap]; exact List.mem_map_of_mem hw
      obtain ⟨op, -, hop⟩ := List.mem_map.1 hmem
      exact ⟨op, hop.symm⟩
    have hpost : u.postorder.map some = t.postorder.map some := hu.map_resolve?.symm.trans hmap
    obtain rfl : u = t := OpTree.eq_of_map_some_postorder hpost
    exact ⟨u, hu, hneed, rfl⟩
  · rintro ⟨t, ht, hneed, rfl⟩
    exact ⟨t, ht.map_resolve?, hneed, rfl⟩

theorem Writes.ofText? (h : Writes Atom.token e rank tokens) {text : Text}
    (htext : Text.compact text = Token.written tokens) : Postfix.ofText? text = some (e.words Atom.token) := by
  rw [Postfix.ofText?, htext, h.scan]
  exact h.ofTokens? Atom.token_eq

/-- **A text that writes a tree becomes the postfix order of the tree**, with single spaces.  In any type of values and
for any inputs it compiles as these words do, and so does their text in reversed notation; a program comes out exactly if
the expression denotes a tree of operations that fits the stack, and is its postorder. -/
theorem compile_writing (h : Writes Atom.token e rank tokens) {text : Text}
    (htext : Text.compact text = Token.written tokens) :
    Postfix.render text = .ok (Text.unwords (e.words Atom.token)) ∧
      ∀ (V : Type) [Scalar V] (inputs : List Text),
        (Program.compileConventional text inputs : Except CompileError (Program V)) =
          (Program.assemble inputs (e.words Atom.token)).mapError (⟨·, text⟩) ∧
        (Program.compileReversed (Text.unwords (e.words Atom.token)) inputs : Except CompileError (Program V)) =
          (Program.assemble inputs (e.words Atom.token)).mapError (⟨·, Text.unwords (e.words Atom.token)⟩) ∧
        ∀ p : Program V, Program.compileConventional text inputs = .ok p ↔
          ∃ t : OpTree V, Denotes inputs e t ∧ t.need ≤ stackCapacity ∧ p = ⟨t.postorder, t.need⟩ := by
  have hwords : Postfix.ofText? text = some (e.words Atom.token) := h.ofText? htext
  refine ⟨by rw [Postfix.render, hwords], fun V _ inputs => ⟨?_, ?_, fun p => ?_⟩⟩
  · rw [Program.compileConventional, hwords]
  · have hword : ∀ w ∈ e.words Atom.token, w.IsWord := fun w hw => Entry.isWord (.conventional hwords) hw
    rw [Program.compileReversed, Text.words_unwords _ hword]
  · rw [Program.compileConventional, hwords]
    exact Program.mapError_eq_ok_iff.trans assemble_words_eq_ok_iff

/-- A power of the greater of `x` and a bracketed negative literal, less a quotient. -/
theorem compile_writing_scaled_power :
    let two : Literal := ⟨false, ['2'], none, none, List.cons_ne_nil _ _, List.all_eq_true.1 rfl, fun _ h => nomatch h⟩
    let thousandth : Exponent := ⟨'e', ['-'], ['3'], .inl rfl, .inr (.inr rfl), List.cons_ne_nil _ _,
      List.all_eq_true.1 rfl⟩
    let small : Literal := ⟨true, ['2'], some ['5'], some thousandth, List.cons_ne_nil _ _, List.all_eq_true.1 rfl,
      fun _ h => Option.some.inj h ▸ List.all_eq_true.1 rfl⟩
    let letter : Name := ⟨['x'], rfl, fun _ h => List.mem_singleton.1 h ▸ rfl, fun _ h => List.mem_singleton.1 h ▸ rfl⟩
    let x : Atom := .name letter fun _ => rfl
    let e : Expression Atom := .operator .minus
      (.operator .power (.callTwo .max rfl (.leaf x) (.leaf (.literal small))) (.leaf (.literal two)))
      (.operator .divide .rand (.operator .minus (.leaf (.literal two)) (.leaf x)))
    ∃ tokens : List Token, Writes Atom.token e 10 tokens ∧
      Text.compact " max( x,(-2.5e-3) ) ^ 2 - rand ( )/(2 - x)".toList = Token.written tokens ∧
      Postfix.render " max( x,(-2.5e-3) ) ^ 2 - rand ( )/(2 - x)".toList =
        .ok "x -2.5e-3 max 2 ^ rand 2 x - / -".toList := by
  intro two thousandth small letter x e
  have htwo : Writes Atom.token (.leaf (.literal two)) closedRank _ := .leaf _
  have hx : Writes Atom.token (.leaf x) closedRank _ := .leaf _
  have hsmall : Writes Atom.token (.leaf (.literal small)) closedRank _ := .leaf _
  have hmax : Writes Atom.token (.callTwo .max rfl (.leaf x) (.leaf (.literal small))) closedRank _ :=
    .callTwo hx hsmall.bracket
  have hpower : Writes Atom.token (.operator .power _ _) 30 _ := hmax.operator htwo (by decide) (by decide)
  have hless : Writes Atom.token (.operator .minus (.leaf (.literal two)) (.leaf x)) 10 _ :=
    htwo.operator hx (by decide) (by decide)
  have hquotient : Writes Atom.token (.operator .divide .rand _) 20 _ :=
    Writes.randCall.operator hless.bracket (by decide) (by decide)
  have hall : Writes Atom.token e 10 _ := hpower.operator hquotient (by decide) (by decide)
  refine ⟨_, hall, ?htext, (compile_writing hall ?htext).1⟩
  decide +kernel

end Expression

end SignalFormula
