import SignalFormula.Postfix
import SignalFormula.Proofs.Infix.Expression
/-!
# Arrange — a writing of a tree is put into the tree's postfix order

What waits below a writing stays as it is (`Admits`): an operator there binds less strongly than the writing holds
together, and no call waits for its bracket.  Then reading the writing completes the words of the tree, except for some
operators, the last ones of the words, that still wait on top; each binds at least as strongly as the writing holds
together (`arrange?_of_writes`).  The next token releases them: an operator that may stand there, a closing bracket, a
comma or the end.
-/
namespace SignalFormula
namespace Postfix

/-- The tokens, in front of the rest, complete the words and change what waits. -/
def Passes (stack : List Pending) (tokens rest : List Token) (words : List Text) (below : List Pending) : Prop :=
  arrange? stack (tokens ++ rest) = (arrange? below rest).map (words ++ ·)

theorem Passes.trans {stack mid below : List Pending} {ts us rest : List Token} {ws vs : List Text}
    (h : Passes stack ts (us ++ rest) ws mid) (h' : Passes mid us rest vs below) :
    Passes stack (ts ++ us) rest (ws ++ vs) below := by
  rw [Passes, List.append_assoc, h, h', Option.map_map]
  simp [Function.comp_def]

theorem Passes.step {stack below : List Pending} {token : Token} {rest : List Token} {ws : List Text}
    (h : step? stack token rest.head? = some (ws, below)) : Passes stack [token] rest ws below := by
  rw [Passes, List.singleton_append, arrange?, h, Option.map_eq_bind]
  rfl

/-! ## What may wait below a writing -/

/-- What waits on top binds less strongly than the rank, and is no call. -/
def Admits (rank : Nat) (stack : List Pending) : Prop :=
  ∀ top ∈ stack.head?, top = .bracket ∨ ∃ o : Operator, top = .operator o ∧ o.rank < rank

theorem Admits.nil {rank : Nat} : Admits rank [] := fun _ h => by cases h

theorem Admits.bracket {rank : Nat} {stack : List Pending} : Admits rank (.bracket :: stack) := fun top h => by
  cases h; exact .inl rfl

theorem Admits.operator {rank : Nat} {o : Operator} {stack : List Pending} (h : o.rank < rank) :
    Admits rank (.operator o :: stack) := fun top htop => by
  cases htop; exact .inr ⟨o, rfl, h⟩

theorem Admits.mono {rank rank' : Nat} {stack : List Pending} (h : Admits rank stack) (hle : rank ≤ rank') :
    Admits rank' stack := fun top htop => by
  rcases h top htop with hb | ⟨o, ho, hlt⟩
  · exact .inl hb
  · exact .inr ⟨o, ho, by omega⟩

/-! ## What releases the operators on top -/

def waiting (ops : List Operator) : List Pending := ops.map .operator

theorem map_word_waiting (ops : List Operator) : (waiting ops).map Pending.word = ops.map Operator.text := by
  rw [waiting, List.map_map]; rfl

theorem close?_waiting (stack : List Pending) : ∀ ops : List Operator,
    close? (waiting ops ++ .bracket :: stack) = some (ops.map Operator.text, stack)
  | [] => rfl
  | o :: ops => by
    have ih := close?_waiting stack ops
    rw [waiting, List.map_cons, List.cons_append]
    show (close? (waiting ops ++ .bracket :: stack)).map _ = _
    rw [ih]; rfl

theorem release_of_admits {o : Operator} {stack : List Pending} (h : Admits o.rank stack) :
    release o stack = ([], stack) := by
  cases stack with
  | nil => rfl
  | cons top stack =>
    rcases h top rfl with rfl | ⟨p, rfl, hlt⟩
    · rfl
    · rw [release, if_pos hlt]

theorem release_waiting {o : Operator} {stack : List Pending} (hstack : Admits o.rank stack) : ∀ {ops : List Operator},
    (∀ p ∈ ops, o.rank ≤ p.rank) → release o (waiting ops ++ stack) = (ops.map Operator.text, stack)
  | [], _ => release_of_admits hstack
  | p :: ops, h => by
    have hp : ¬ p.rank < o.rank := Nat.not_lt.2 (h p List.mem_cons_self)
    have ih := release_waiting hstack fun q hq => h q (List.mem_cons_of_mem _ hq)
    rw [waiting, List.map_cons, List.cons_append, release, if_neg hp]
    show (p.text :: (release o (waiting ops ++ stack)).1, (release o (waiting ops ++ stack)).2) = _
    rw [ih]; rfl

theorem releaseCall_of_admits {rank : Nat} {stack : List Pending} (h : Admits rank stack) :
    releaseCall stack = ([], stack) := by
  cases stack with
  | nil => rfl
  | cons top stack => rcases h top rfl with rfl | ⟨p, rfl, -⟩ <;> rfl

/-! ## A writing read -/

/-- Reading the tokens completes the words, but for operators at the end of them that wait on top and bind as strongly
as the rank. -/
def Reads (rank : Nat) (tokens : List Token) (words : List Text) : Prop :=
  ∀ (stack : List Pending) (rest : List Token), Admits rank stack → rest.head? ≠ some .openParen →
    ∃ (done : List Text) (ops : List Operator), done ++ ops.map Operator.text = words ∧ (∀ o ∈ ops, rank ≤ o.rank) ∧
      Passes stack tokens rest done (waiting ops ++ stack)

theorem Reads.of_passes {rank : Nat} {tokens : List Token} {words : List Text}
    (h : ∀ stack rest, Admits rank stack → rest.head? ≠ some .openParen → Passes stack tokens rest words stack) :
    Reads rank tokens words := fun stack rest hstack hrest =>
  ⟨words, [], by simp, by simp, h stack rest hstack hrest⟩

variable {rank : Nat} {ts : List Token} {words : List Text}

theorem Passes.openParen (stack : List Pending) (rest : List Token) :
    Passes stack [.openParen] rest [] (.bracket :: stack) := Passes.step rfl

theorem Passes.called (name : Text) (stack : List Pending) (rest : List Token) :
    Passes stack [.name name, .openParen] rest [] (.bracket :: .call name :: stack) := by
  have hname : Passes stack [.name name] ([.openParen] ++ rest) [] (.call name :: stack) := Passes.step rfl
  exact hname.trans (Passes.openParen _ rest)

/-- Reading the tokens inside a bracket completes the words, but for operators at the end of them that wait on top. -/
def ReadsInside (tokens : List Token) (words : List Text) : Prop :=
  ∀ (stack : List Pending) (rest : List Token), rest.head? ≠ some .openParen →
    ∃ (done : List Text) (ops : List Operator), done ++ ops.map Operator.text = words ∧
      Passes (.bracket :: stack) tokens rest done (waiting ops ++ .bracket :: stack)

theorem Reads.inside (h : Reads rank ts words) : ReadsInside ts words := fun stack rest hrest => by
  obtain ⟨done, ops, hwords, -, hpass⟩ := h (.bracket :: stack) rest Admits.bracket hrest
  exact ⟨done, ops, hwords, hpass⟩

namespace ReadsInside

/-- **From a bracket to the token that closes it** the words are completed. -/
theorem passes_closed (h : ReadsInside ts words) {stack below : List Pending} {token : Token} {rest : List Token}
    {last : List Text} (htoken : token ≠ .openParen)
    (hstep : ∀ ops : List Operator, step? (waiting ops ++ .bracket :: stack) token rest.head? =
      some (ops.map Operator.text ++ last, below)) :
    Passes (.bracket :: stack) (ts ++ [token]) rest (words ++ last) below := by
  obtain ⟨done, ops, rfl, hpass⟩ := h stack (token :: rest) (by simpa using htoken)
  rw [List.append_assoc]
  exact Passes.trans hpass (Passes.step (hstep ops))

theorem bracket (h : ReadsInside ts words) {stack : List Pending} (hstack : Admits rank stack) (rest : List Token) :
    Passes stack (.openParen :: (ts ++ [.closeParen])) rest words stack := by
  have hclose : Passes (.bracket :: stack) (ts ++ [.closeParen]) rest (words ++ []) stack :=
    h.passes_closed (by simp) fun ops => by simp [step?, close?_waiting, releaseCall_of_admits hstack]
  rw [List.append_nil] at hclose
  exact (Passes.openParen stack _).trans hclose

theorem call (h : ReadsInside ts words) (name : Text) (stack : List Pending) (rest : List Token) :
    Passes stack (.name name :: .openParen :: (ts ++ [.closeParen])) rest (words ++ [name]) stack := by
  have hclose : Passes (.bracket :: .call name :: stack) (ts ++ [.closeParen]) rest (words ++ [name]) stack :=
    h.passes_closed (by simp) fun ops => by simp [step?, close?_waiting, releaseCall]
  exact (Passes.called name stack _).trans hclose

/-- **A comma completes the argument in front of it**, and the next one is read in the same bracket. -/
theorem comma {us : List Token} {vs : List Text} (h : ReadsInside ts words) (hr : Reads rank us vs) :
    ReadsInside (ts ++ .comma :: us) (words ++ vs) := fun stack rest hrest => by
  have hcomma : Passes (.bracket :: stack) (ts ++ [.comma]) (us ++ rest) (words ++ []) (.bracket :: stack) :=
    h.passes_closed (by simp) fun ops => by simp [step?, close?_waiting]
  obtain ⟨done, ops, rfl, -, hpass⟩ := hr (.bracket :: stack) rest Admits.bracket hrest
  refine ⟨words ++ done, ops, List.append_assoc .., ?_⟩
  simpa using hcomma.trans hpass

end ReadsInside

/-- **An operator between two writings**: it releases what waits of the left one, and stays below what waits of the right
one. -/
theorem Reads.operator {o : Operator} {rankL rankR : Nat} {ls rs : List Token} {vs ws : List Text}
    (hl : Reads rankL ls vs) (hr : Reads rankR rs ws) (hleft : o.rank ≤ rankL) (hright : o.rank < rankR) :
    Reads o.rank (ls ++ .operator o :: rs) (vs ++ ws ++ [o.text]) := fun stack rest hstack hrest => by
  obtain ⟨doneL, opsL, rfl, hopsL, hpassL⟩ :=
    hl stack (.operator o :: rs ++ rest) (hstack.mono hleft) (by simp)
  have hrelease := release_waiting hstack fun p hp => Nat.le_trans hleft (hopsL p hp)
  have hstep : Passes (waiting opsL ++ stack) [.operator o] (rs ++ rest) (opsL.map Operator.text)
      (.operator o :: stack) := Passes.step (by rw [step?, hrelease])
  obtain ⟨doneR, opsR, rfl, hopsR, hpassR⟩ := hr (.operator o :: stack) rest (Admits.operator hright) hrest
  refine ⟨doneL ++ opsL.map Operator.text ++ doneR, opsR ++ [o], by simp, fun p hp => ?_, ?_⟩
  · rcases List.mem_append.1 hp with hp | hp
    · exact Nat.le_of_lt (Nat.lt_of_lt_of_le hright (hopsR p hp))
    · obtain rfl := List.mem_singleton.1 hp
      exact Nat.le_refl _
  · have hpass := hpassL.trans (hstep.trans hpassR)
    simpa [waiting] using hpass

/-- **With nothing around it** what is read is put into the order of its words. -/
theorem Reads.ofTokens? (h : Reads rank ts words) : Postfix.ofTokens? ts = some words := by
  obtain ⟨done, ops, hwords, -, hpass⟩ := h [] [] Admits.nil (by simp)
  rw [Passes, List.append_nil, List.append_nil, arrange?, map_word_waiting, Option.map_some, hwords] at hpass
  exact hpass

end Postfix

namespace Expression

open Postfix (Reads)

variable {A : Type} {token : A → Token}

/-- **A writing of a tree is read as the words of the tree.** -/
theorem Writes.reads (hleaf : ∀ a, ∃ t, token a = .name t ∨ token a = .operand t) {e : Expression A} {rank : Nat}
    {tokens : List Token} (h : Writes token e rank tokens) : Reads rank tokens (e.words token) := by
  have hword : ∀ (t : Text) (r : Nat), Reads r [.name t] [t] := fun t r =>
    Reads.of_passes fun stack rest _ hrest => Postfix.Passes.step (by rw [Postfix.step?, if_neg hrest])
  induction h with
  | leaf a =>
    obtain ⟨t, ht | ht⟩ := hleaf a <;> rw [words, ht]
    · exact hword t _
    · exact Reads.of_passes fun stack rest _ _ => Postfix.Passes.step rfl
  | rand => exact hword _ _
  | randCall =>
    refine Reads.of_passes fun stack rest _ _ => ?_
    have hclose : Postfix.Passes (.bracket :: .call randWord :: stack) [.closeParen] rest [randWord] stack :=
      Postfix.Passes.step rfl
    exact (Postfix.Passes.called randWord stack _).trans hclose
  | bracket _ ih => exact Reads.of_passes fun stack rest hstack _ => ih.inside.bracket hstack rest
  | operator _ _ hleft hright ihL ihR => exact ihL.operator ihR hleft hright
  | call _ ih => exact Reads.of_passes fun stack rest _ _ => ih.inside.call _ stack rest
  | callTwo _ _ ihL ihR =>
    rw [words]
    refine Reads.of_passes fun stack rest _ _ => ?_
    simpa using (ihL.inside.comma ihR).call _ stack rest

/-- **The words of a writing are the words of the tree.** -/
theorem Writes.ofTokens? (hleaf : ∀ a, ∃ t, token a = .name t ∨ token a = .operand t) {e : Expression A} {rank : Nat}
    {tokens : List Token} (h : Writes token e rank tokens) : Postfix.ofTokens? tokens = some (e.words token) :=
  (h.reads hleaf).ofTokens?

end Expression

end SignalFormula
