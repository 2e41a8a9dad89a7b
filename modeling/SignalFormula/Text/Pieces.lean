import SignalFormula.Text.Basic
/-!
# Pieces — a text cut at marked characters

`pieces cut t` cuts `t` into marked characters, each a piece of its own, and the longest stretches between them.  The
pieces in order are the text again (`flatten_pieces`), each is a marked character or a stretch without one
(`piece_shape`), and no two stretches are neighbours.
-/
namespace SignalFormula
namespace Text

def startsWith (p : Char → Bool) : Text → Bool
  | [] => false
  | c :: _ => p c

def endsWith (p : Char → Bool) (t : Text) : Bool := startsWith p t.reverse

/-- The text as marked characters and the longest stretches between them. -/
def pieces (cut : Char → Bool) : Text → List Text
  | [] => []
  | c :: cs =>
    match pieces cut cs with
    | [] => [[c]]
    | p :: ps => if cut c || startsWith cut p then [c] :: p :: ps else (c :: p) :: ps

/-- **Cutting loses nothing.** -/
theorem flatten_pieces (cut : Char → Bool) : ∀ t : Text, (pieces cut t).flatten = t
  | [] => rfl
  | c :: cs => by
    have ih := flatten_pieces cut cs
    rw [pieces]
    split
    · rename_i h; rw [h] at ih; simpa using ih
    · rename_i p ps h
      rw [h] at ih
      split <;> simp_all

/-- **A piece is one marked character or a stretch without any**, and never empty. -/
theorem piece_shape (cut : Char → Bool) : ∀ (t p : Text), p ∈ pieces cut t →
    (∃ c, p = [c] ∧ cut c = true) ∨ (p ≠ [] ∧ ∀ c ∈ p, cut c = false)
  | [], _, h => by simp [pieces] at h
  | c :: cs, p, h => by
    have ih := piece_shape cut cs
    have one : (∃ d, [c] = [d] ∧ cut d = true) ∨ ([c] ≠ [] ∧ ∀ d ∈ [c], cut d = false) := by
      cases hc : cut c <;> simp [hc]
    rw [pieces] at h
    split at h
    · rw [List.mem_singleton] at h
      subst h; exact one
    · rename_i q qs hq
      rw [hq] at ih
      split at h
      · rcases List.mem_cons.1 h with rfl | h
        · exact one
        · exact ih p h
      · rename_i hno
        simp only [Bool.or_eq_true, not_or, Bool.not_eq_true] at hno
        rcases List.mem_cons.1 h with rfl | h
        · right
          refine ⟨by simp, ?_⟩
          rcases ih q (by simp) with ⟨d, rfl, hd⟩ | ⟨_, hq⟩
          · simp [startsWith, hd] at hno
          · intro d hd
            rcases List.mem_cons.1 hd with rfl | hd
            · exact hno.1
            · exact hq d hd
        · exact ih p (List.mem_cons_of_mem _ h)

end Text

end SignalFormula
