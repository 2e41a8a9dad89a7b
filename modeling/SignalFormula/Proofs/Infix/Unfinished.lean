import SignalFormula.Proofs.Infix.Brackets
import SignalFormula.Proofs.Infix.Loose
/-!
# Unfinished — tokens whose brackets close make up a row

Tokens are read from the left.  What is read so far is `Unfinished`: for each bracket that is open there is what stands
in front of it, and the arguments that it holds as yet.  A token goes to the innermost of them: an operand stands beside
the last one, an operator takes what it can of the last row, a comma starts another argument, and a closing bracket makes
an operand of its arguments.  Only a closing bracket and a comma ask for an open bracket, so a plain count of brackets
says whether the tokens can be read (`Unfinished.append_of_openAfterAll?`).
-/
namespace SignalFormula

namespace Token

theorem Apart.of_suffix {ts us vs : List Token} (h : Apart ts vs) (hsuffix : us <:+ ts) : Apart us vs := by
  obtain ⟨before, rfl⟩ := hsuffix
  exact h.append_right

theorem apart_concat {ts us : List Token} {t : Token} (h : ∀ w, t = .name w → us.head? ≠ some .openParen) :
    Apart (ts ++ [t]) us := fun w hw => by
  rw [List.getLast?_concat] at hw
  exact h w (Option.some.inj hw)

end Token

namespace Expression

open Token (Apart)

/-- The tokens make up the part, with some words and counts. -/
def Derives (part : Part) (ts : List Token) : Prop := ∃ ws s m, Loose part ts ws s m

namespace Derives

variable {n rank : Nat} {ts us : List Token} {o : Operator}

theorem nil_row : Derives (.row closedRank) [] := ⟨_, _, _, .place .vacant⟩

theorem nil_arguments : Derives (.arguments 1) [] := ⟨_, _, _, .argument (.place .vacant)⟩

/-- **Induction over a row from the right**: a row is one place, or an operator with a row on the right of it. -/
theorem row_induction {motive : Nat → List Token → Prop}
    (place : ∀ {k : Nat} {ts : List Token}, Derives (.place k) ts → motive closedRank ts)
    (operator : ∀ {o : Operator} {rankL rankR : Nat} {ls rs : List Token}, Derives (.row rankL) ls →
      Derives (.row rankR) rs → o.rank ≤ rankL → o.rank < rankR → motive rankR rs →
      motive o.rank (ls ++ .operator o :: rs)) (h : Derives (.row rank) ts) : motive rank ts := by
  obtain ⟨ws, s, m, h⟩ := h
  generalize hpart : Part.row rank = part at h
  induction h generalizing rank with
  | place held => cases hpart; exact place ⟨_, _, _, held⟩
  | operator left right hleft hright _ ih =>
    cases hpart
    exact operator ⟨_, _, _, left⟩ ⟨_, _, _, right⟩ hleft hright (ih rfl)
  | _ => cases hpart

/-- **An operand behind a row** stands beside what its last place holds. -/
theorem row_operand (h : Derives (.row rank) ts) (hus : Derives .operand us) (hapart : Apart ts us) :
    Derives (.row rank) (ts ++ us) := by
  obtain ⟨vs, s', m', hus⟩ := hus
  refine row_induction (motive := fun rank ts => Apart ts us → Derives (.row rank) (ts ++ us)) ?place ?operator h hapart
  case place =>
    rintro k ts ⟨ws, s, m, held⟩ hapart
    exact ⟨_, _, _, .place (.beside held hus hapart)⟩
  case operator =>
    rintro o rankL rankR ls rs ⟨_, _, _, left⟩ - hleft hright ih hapart
    obtain ⟨_, _, _, right⟩ := ih (hapart.of_suffix ⟨ls ++ [.operator o], by simp⟩)
    rw [List.append_assoc, List.cons_append]
    exact ⟨_, _, _, .operator left right hleft hright⟩

theorem row_takes (h : Derives (.row rank) ts) (hle : o.rank ≤ rank) : Derives (.row o.rank) (ts ++ [.operator o]) := by
  obtain ⟨_, _, _, left⟩ := h
  obtain ⟨_, _, _, right⟩ := nil_row
  exact ⟨_, _, _, .operator left right hle (by cases o <;> decide)⟩

/-- **An operator behind a row** takes the whole row, if it does not bind more strongly, or else it goes to the row on
the right. -/
theorem row_operator (h : Derives (.row rank) ts) : Derives (.row (min rank o.rank)) (ts ++ [.operator o]) := by
  refine row_induction (motive := fun rank ts => Derives (.row (min rank o.rank)) (ts ++ [.operator o]))
    ?place ?operator h
  case place =>
    rintro k ts ⟨_, _, _, held⟩
    have hle : o.rank ≤ closedRank := by cases o <;> decide
    rw [Nat.min_eq_right hle]
    exact row_takes ⟨_, _, _, .place held⟩ hle
  case operator =>
    rintro p rankL rankR ls rs ⟨_, _, _, left⟩ ⟨_, _, _, right⟩ hleft hright ⟨_, _, _, ih⟩
    rcases Nat.lt_or_ge p.rank o.rank with hlt | hge
    · rw [Nat.min_eq_left (Nat.le_of_lt hlt), List.append_assoc, List.cons_append]
      exact ⟨_, _, _, .operator left ih hleft (Nat.lt_min.2 ⟨hright, hlt⟩)⟩
    · rw [Nat.min_eq_right hge]
      exact row_takes ⟨_, _, _, .operator left right hleft hright⟩ hge

/-- What may stand behind every row at the end of the arguments may stand behind the arguments. -/
theorem arguments_append (h : Derives (.arguments n) ts) (hrow : ∀ {rank : Nat} {vs : List Token}, vs <:+ ts →
    Derives (.row rank) vs → ∃ rank', Derives (.row rank') (vs ++ us)) : Derives (.arguments n) (ts ++ us) := by
  obtain ⟨ws, s, m, h⟩ := h
  cases h with
  | argument row =>
    obtain ⟨_, _, _, _, hlast⟩ := hrow (List.suffix_refl _) ⟨_, _, _, row⟩
    exact ⟨_, _, _, .argument hlast⟩
  | @comma _ _ _ _ _ _ before last _ _ hbefore hlast =>
    obtain ⟨_, _, _, _, hlast⟩ := hrow ⟨before ++ [.comma], by simp⟩ ⟨_, _, _, hlast⟩
    rw [List.append_assoc, List.cons_append]
    exact ⟨_, _, _, .comma hbefore hlast⟩

theorem arguments_comma (h : Derives (.arguments n) ts) : Derives (.arguments (n + 1)) (ts ++ [.comma]) := by
  obtain ⟨_, _, _, h⟩ := h
  obtain ⟨_, _, _, hnil⟩ := nil_row
  exact ⟨_, _, _, .comma h hnil⟩

theorem bracket (h : Derives (.arguments n) ts) : Derives .operand (.openParen :: (ts ++ [.closeParen])) := by
  obtain ⟨_, _, _, h⟩ := h
  exact ⟨_, _, _, .bracket h⟩

theorem call (w : Text) (h : Derives (.arguments n) ts) :
    Derives .operand (.name w :: .openParen :: (ts ++ [.closeParen])) := by
  by_cases hrand : w = randWord ∧ ts = []
  · obtain ⟨rfl, rfl⟩ := hrand
    exact ⟨_, _, _, .randCall⟩
  · obtain ⟨_, _, _, h⟩ := h
    exact ⟨_, _, _, .call w (fun hw hnil => hrand ⟨hw, hnil⟩) h⟩

end Derives

/-- **The tokens up to some place**, with the number of brackets open there. -/
inductive Unfinished : Nat → List Token → Prop where
  | row {rank : Nat} {ts : List Token} (h : Derives (.row rank) ts) : Unfinished 0 ts
  | bracket {n k : Nat} {ts us : List Token} (before : Unfinished n ts) (apart : Apart ts [.openParen])
      (held : Derives (.arguments k) us) : Unfinished (n + 1) (ts ++ .openParen :: us)
  | call {n k : Nat} {ts us : List Token} (w : Text) (before : Unfinished n ts) (held : Derives (.arguments k) us) :
      Unfinished (n + 1) (ts ++ .name w :: .openParen :: us)

namespace Unfinished

variable {n : Nat} {ts us : List Token}

theorem nil : Unfinished 0 [] := .row Derives.nil_row

/-- What may stand behind every row at the end may stand there. -/
theorem append (h : Unfinished n ts) (hrow : ∀ {rank : Nat} {vs : List Token}, vs <:+ ts → Derives (.row rank) vs →
    ∃ rank', Derives (.row rank') (vs ++ us)) : Unfinished n (ts ++ us) := by
  cases h with
  | row h =>
    obtain ⟨_, hrow⟩ := hrow (List.suffix_refl _) h
    exact .row hrow
  | @bracket _ _ outer inner before apart held =>
    rw [List.append_assoc, List.cons_append]
    exact .bracket before apart (held.arguments_append fun hsuffix =>
      hrow (hsuffix.trans ⟨outer ++ [.openParen], by simp⟩))
  | @call _ _ outer inner w before held =>
    rw [List.append_assoc, List.cons_append, List.cons_append]
    exact .call w before (held.arguments_append fun hsuffix =>
      hrow (hsuffix.trans ⟨outer ++ [.name w, .openParen], by simp⟩))

theorem operand (h : Unfinished n ts) (hus : Derives .operand us) (hapart : Apart ts us) : Unfinished n (ts ++ us) :=
  h.append fun hsuffix hrow => ⟨_, hrow.row_operand hus (hapart.of_suffix hsuffix)⟩

theorem operator (h : Unfinished n ts) (o : Operator) : Unfinished n (ts ++ [.operator o]) :=
  h.append fun _ hrow => ⟨_, hrow.row_operator⟩

theorem comma (h : Unfinished (n + 1) ts) : Unfinished (n + 1) (ts ++ [.comma]) := by
  cases h with
  | bracket before apart held =>
    rw [List.append_assoc, List.cons_append]
    exact .bracket before apart held.arguments_comma
  | call w before held =>
    rw [List.append_assoc, List.cons_append, List.cons_append]
    exact .call w before held.arguments_comma

theorem close (h : Unfinished (n + 1) ts) : Unfinished n (ts ++ [.closeParen]) := by
  cases h with
  | bracket before apart held =>
    rw [List.append_assoc, List.cons_append]
    exact before.operand held.bracket apart
  | call w before held =>
    rw [List.append_assoc, List.cons_append, List.cons_append]
    exact before.operand (held.call w) fun _ _ => by simp

/-- **Tokens are read as long as the plain count of brackets goes on.** -/
theorem append_of_openAfterAll? : ∀ {us ts : List Token} {n n' : Nat}, Unfinished n ts → Apart ts us →
    Token.openAfterAll? n us = some n' → Unfinished n' (ts ++ us)
  | [], ts, n, n', h, _, hopen => by
    cases hopen
    rwa [List.append_nil]
  | t :: us, ts, n, n', h, hapart, hopen => by
    obtain ⟨k, hk, hopen⟩ := Option.bind_eq_some_iff.1 hopen
    have hrest : ∀ {vs : List Token}, Unfinished k (vs ++ [t]) → (∀ w, t = .name w → us.head? ≠ some .openParen) →
        Unfinished n' (vs ++ t :: us) := fun {vs} hread hname => by
      rw [List.append_cons]
      exact append_of_openAfterAll? hread (Token.apart_concat hname) hopen
    cases t with
    | openParen =>
      cases hk
      exact hrest (.bracket h hapart Derives.nil_arguments) nofun
    | closeParen =>
      cases n <;> cases hk
      exact hrest h.close nofun
    | comma =>
      cases n <;> cases hk
      exact hrest h.comma nofun
    | operator o =>
      cases hk
      exact hrest (h.operator o) nofun
    | operand w =>
      cases hk
      exact hrest (h.operand ⟨_, _, _, .operand w⟩ fun _ _ => by simp) nofun
    | name w =>
      cases hk
      -- A name that is called is read together with its bracket, so that no name at the end meets one.
      by_cases hcalled : us.head? = some .openParen
      · obtain ⟨us, rfl⟩ := List.head?_eq_some_iff.1 hcalled
        have hread : Unfinished (n + 1) (ts ++ [.name w] ++ [.openParen]) := by
          rw [List.append_assoc]
          exact .call w h Derives.nil_arguments
        have hall : Unfinished n' (ts ++ [.name w] ++ [.openParen] ++ us) :=
          append_of_openAfterAll? hread (Token.apart_concat nofun) hopen
        simpa using hall
      · exact hrest (h.operand ⟨_, _, _, .name w⟩ fun _ _ => by simp) fun _ _ => hcalled

end Unfinished

end Expression

end SignalFormula
