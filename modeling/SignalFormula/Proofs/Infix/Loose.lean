import SignalFormula.Proofs.Infix.Arrange
/-!
# Loose — expressions with operands missing and in surplus

Putting tokens into postfix order does not look for operands.  So it takes the places for operands as they are: a place
may hold no operand, or several side by side; a bracket or call may have any number of arguments, and any name may be
called.  `Loose` derives such rows of tokens, with their words in postfix order and with two counts: operands in surplus,
beside another one or beyond the arguments that are taken, and operands that are missing where one is due.

A row without any of the two is a writing of an expression; each count alone says how far a row is from one.
-/
namespace SignalFormula

/-- The operands that a builtin word takes.  Other words take none. -/
def Operation.taken (word : Text) : Nat := (ofKeyword? (V := Unit) word).elim 0 arity

/-- The second row of tokens does not open a bracket that would call a name at the end of the first. -/
def Token.Apart (ts us : List Token) : Prop := ∀ w, ts.getLast? = some (.name w) → us.head? ≠ some .openParen

theorem Token.Apart.append_right {ts us vs : List Token} (h : Apart (ts ++ us) vs) : Apart us vs := fun w hw =>
  h w (by rw [List.getLast?_append, hw]; rfl)

namespace Expression

open Operation (taken)
open Token (Apart)

/-- A part of a row of tokens: places with operators between them, which hold together at a rank; one place, with a
number of operands side by side; one operand; or what is in a bracket, a number of arguments. -/
inductive Part where
  | row (rank : Nat)
  | place (operands : Nat)
  | operand
  | arguments (count : Nat)

/-- **The tokens make up the part**, with their words in postfix order, the operands in surplus and those missing. -/
inductive Loose : Part → List Token → List Text → Nat → Nat → Prop where
  | operand (w : Text) : Loose .operand [.operand w] [w] 0 (taken w)
  | name (w : Text) : Loose .operand [.name w] [w] 0 (taken w)
  | bracket {n s m : Nat} {ts : List Token} {ws : List Text} (inner : Loose (.arguments n) ts ws s m) :
      Loose .operand (.openParen :: (ts ++ [.closeParen])) ws (s + (n - 1)) m
  | randCall : Loose .operand [.name randWord, .openParen, .closeParen] [randWord] 0 0
  | call {n s m : Nat} {ts : List Token} {ws : List Text} (w : Text) (hrand : w = randWord → ts ≠ [])
      (inner : Loose (.arguments n) ts ws s m) :
      Loose .operand (.name w :: .openParen :: (ts ++ [.closeParen])) (ws ++ [w])
        (s + (n - taken w)) (m + (taken w - n))
  | vacant : Loose (.place 0) [] [] 0 0
  | beside {k s s' m m' : Nat} {ts us : List Token} {ws vs : List Text} (before : Loose (.place k) ts ws s m)
      (last : Loose .operand us vs s' m') (apart : Apart ts us) :
      Loose (.place (k + 1)) (ts ++ us) (ws ++ vs) (s + s') (m + m')
  | place {k s m : Nat} {ts : List Token} {ws : List Text} (held : Loose (.place k) ts ws s m) :
      Loose (.row closedRank) ts ws (s + (k - 1)) (m + (1 - k))
  | operator {o : Operator} {rankL rankR s s' m m' : Nat} {ls rs : List Token} {vs ws : List Text}
      (left : Loose (.row rankL) ls vs s m) (right : Loose (.row rankR) rs ws s' m') (hleft : o.rank ≤ rankL)
      (hright : o.rank < rankR) :
      Loose (.row o.rank) (ls ++ .operator o :: rs) (vs ++ ws ++ [o.text]) (s + s') (m + m')
  | argument {rank s m : Nat} {ts : List Token} {ws : List Text} (row : Loose (.row rank) ts ws s m) :
      Loose (.arguments 1) ts ws s m
  | comma {n rank s s' m m' : Nat} {ts us : List Token} {ws vs : List Text} (before : Loose (.arguments n) ts ws s m)
      (last : Loose (.row rank) us vs s' m') :
      Loose (.arguments (n + 1)) (ts ++ .comma :: us) (ws ++ vs) (s + s') (m + m')

namespace Loose

variable {part : Part} {ts us : List Token} {ws : List Text} {s m : Nat}

theorem operand_ne_nil (h : Loose .operand ts ws s m) : ts ≠ [] := by
  cases h <;> exact List.cons_ne_nil _ _

theorem one_le_arguments {n : Nat} (h : Loose (.arguments n) ts ws s m) : 1 ≤ n := by
  cases h
  · exact Nat.le_refl 1
  · exact Nat.le_add_left 1 _

theorem eq_nil_of_place_zero (h : Loose (.place 0) ts ws s m) : ts = [] := by
  cases h
  rfl

end Loose

/-! ## A part read -/

section reads

open Postfix (Reads ReadsInside Passes Admits)

/-- How a part is read: a row may leave operators waiting, a place leaves nothing, arguments are read in a bracket. -/
def Part.Read : Part → List Token → List Text → Prop
  | .row rank, ts, ws => Reads rank ts ws
  | .place _, ts, ws | .operand, ts, ws => ∀ (rank : Nat) (stack : List Postfix.Pending) (rest : List Token),
      Admits rank stack → Apart ts rest → Passes stack ts rest ws stack
  | .arguments _, ts, ws => ReadsInside ts ws

namespace Loose

variable {part : Part} {ts us : List Token} {ws : List Text} {s m : Nat}

/-- **A part is read as its words.** -/
theorem read (h : Loose part ts ws s m) : part.Read ts ws := by
  induction h with
  | operand w => exact fun _ _ _ _ _ => Passes.step rfl
  | name w =>
    intro rank stack rest _ hapart
    exact Passes.step (by rw [Postfix.step?, if_neg (hapart w rfl)])
  | bracket _ ih => exact fun _ _ rest hstack _ => ReadsInside.bracket ih hstack rest
  | randCall =>
    intro rank stack rest _ _
    have hclose : Passes (.bracket :: .call randWord :: stack) [.closeParen] rest [randWord] stack := Passes.step rfl
    exact (Passes.called randWord stack _).trans hclose
  | call w _ _ ih => exact fun _ stack rest _ _ => ReadsInside.call ih w stack rest
  | vacant => exact fun _ _ _ _ _ => by simp [Passes]
  | @beside _ _ _ _ _ ts us _ _ _ hlast hapart ihBefore ihLast =>
    intro rank stack rest hstack hrest
    obtain ⟨token, us, rfl⟩ := List.exists_cons_of_ne_nil (operand_ne_nil hlast)
    have hbefore : Apart ts (token :: us ++ rest) := hapart
    exact (ihBefore rank stack _ hstack hbefore).trans (ihLast rank stack rest hstack hrest.append_right)
  | place _ ih => exact Reads.of_passes fun stack rest hstack hrest => ih _ stack rest hstack fun _ _ => hrest
  | operator _ _ hleft hright ihL ihR => exact Reads.operator ihL ihR hleft hright
  | argument _ ih => exact Reads.inside ih
  | comma _ _ ihBefore ihLast => exact ReadsInside.comma ihBefore ihLast

/-- **The words of a row are its postfix order.** -/
theorem ofTokens? {rank : Nat} (h : Loose (.row rank) ts ws s m) : Postfix.ofTokens? ts = some ws :=
  Reads.ofTokens? h.read

end Loose

end reads

end Expression

end SignalFormula
