import SignalFormula.Postfix
/-!
# Brackets — how many brackets are open

A closing bracket or a comma needs an open bracket, and nothing else can fail while tokens are put into postfix order.
So the number of brackets that wait is the number that a plain count over the tokens gives (`openAfterAll?_of_arrange?`),
and a bracket that still waits at the end becomes a word.
-/
namespace SignalFormula

namespace Token

/-- The brackets open after a token, from those open before it. -/
def openAfter? (n : Nat) : Token → Option Nat
  | .openParen => some (n + 1)
  | .closeParen =>
    match n with
    | 0 => none
    | n + 1 => some n
  | .comma =>
    match n with
    | 0 => none
    | n + 1 => some (n + 1)
  | .operator _ | .name _ | .operand _ => some n

/-- The brackets open after a row of tokens. -/
def openAfterAll? : Nat → List Token → Option Nat
  | n, [] => some n
  | n, t :: ts => (openAfter? n t).bind fun n => openAfterAll? n ts

end Token

namespace Postfix

def brackets (stack : List Pending) : Nat := stack.count .bracket

theorem brackets_of_close? : ∀ {stack below : List Pending} {ws : List Text}, close? stack = some (ws, below) →
    brackets stack = brackets below + 1
  | .bracket :: rest, _, _, h => by
    cases h
    simp [brackets]
  | .operator o :: rest, _, _, h => by
    obtain ⟨⟨vs, under⟩, hclose, heq⟩ := Option.map_eq_some_iff.1 h
    cases heq
    simpa [brackets] using brackets_of_close? hclose
  | .call name :: rest, _, _, h => by
    obtain ⟨⟨vs, under⟩, hclose, heq⟩ := Option.map_eq_some_iff.1 h
    cases heq
    simpa [brackets] using brackets_of_close? hclose

theorem brackets_release (o : Operator) : ∀ stack : List Pending, brackets (release o stack).2 = brackets stack
  | [] | .bracket :: _ | .call _ :: _ => rfl
  | .operator top :: rest => by
    have ih := brackets_release o rest
    rw [release]
    split
    · rfl
    · simpa [brackets] using ih

theorem brackets_releaseCall (stack : List Pending) : brackets (releaseCall stack).2 = brackets stack := by
  unfold releaseCall
  split <;> simp [brackets]

/-- **A token opens and closes brackets as the plain count says.** -/
theorem openAfter?_of_step? {stack below : List Pending} {token : Token} {next : Option Token} {ws : List Text}
    (h : step? stack token next = some (ws, below)) : token.openAfter? (brackets stack) = some (brackets below) := by
  cases token with
  | openParen =>
    cases h
    simp [brackets, Token.openAfter?]
  | closeParen =>
    obtain ⟨⟨vs, under⟩, hclose, heq⟩ := Option.map_eq_some_iff.1 h
    have hbelow : (releaseCall under).2 = below := (Prod.mk.inj heq).2
    rw [brackets_of_close? hclose, ← hbelow, brackets_releaseCall]
    rfl
  | comma =>
    obtain ⟨⟨vs, under⟩, hclose, heq⟩ := Option.map_eq_some_iff.1 h
    cases heq
    rw [brackets_of_close? hclose]
    simp [brackets, Token.openAfter?]
  | operator o =>
    have hbelow : .operator o :: (release o stack).2 = below := (Prod.mk.inj (Option.some.inj h)).2
    rw [← hbelow, ← brackets_release o stack]
    simp [brackets, Token.openAfter?]
  | name t =>
    rw [step?] at h
    split at h <;> cases h <;> simp [brackets, Token.openAfter?]
  | operand t =>
    cases h
    rfl

/-- **Tokens that are put into postfix order open and close brackets as the plain count says**, and a bracket left open
becomes a word. -/
theorem openAfterAll?_of_arrange? : ∀ {tokens : List Token} {stack : List Pending} {words : List Text},
    arrange? stack tokens = some words →
      ∃ n, Token.openAfterAll? (brackets stack) tokens = some n ∧ (n ≠ 0 → ['('] ∈ words)
  | [], stack, words, h => by
    cases h
    refine ⟨_, rfl, fun hn => ?_⟩
    exact List.mem_map_of_mem (f := Pending.word) (List.count_pos_iff.1 (Nat.pos_of_ne_zero hn))
  | token :: tokens, stack, words, h => by
    simp only [arrange?, Option.bind_eq_bind, Option.bind_eq_some_iff, Prod.exists] at h
    obtain ⟨ws, below, hstep, rest, hrest, heq⟩ := h
    cases heq
    obtain ⟨n, hopen, hword⟩ := openAfterAll?_of_arrange? hrest
    refine ⟨n, ?_, fun hn => List.mem_append_right _ (hword hn)⟩
    rw [Token.openAfterAll?, openAfter?_of_step? hstep]
    exact hopen

end Postfix

end SignalFormula
