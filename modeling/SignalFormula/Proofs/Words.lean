import SignalFormula.Proofs.Assembly
/-!
# Words — what is assembled is made of words

Every word that reaches the assembler is a word: it is not empty and has no white space (`Entry.isWord`).  In reversed
notation that is how an expression is cut; in conventional notation no step makes a word that was not a token before
(`Postfix.mem_of_arrange?`), the bracket that is never closed included.  So any row of them survives being written out.
-/
namespace SignalFormula

namespace Text

def IsWord (t : Text) : Prop := t ≠ [] ∧ ∀ c ∈ t, isBlank c = false

instance : DecidablePred IsWord := fun t =>
  decidable_of_iff (t ≠ [] ∧ t.all (fun c => !isBlank c) = true) (by simp [IsWord])

theorem isWord_of_mem_words : ∀ {t w : Text}, w ∈ words t → IsWord w
  | [], _, h => by cases h
  | c :: cs, w, h => by
    have ih : ∀ {v}, v ∈ words cs → IsWord v := isWord_of_mem_words
    unfold words at h
    split at h
    · exact ih h
    · rename_i hc
      have hone : IsWord [c] := ⟨List.cons_ne_nil _ _, by simpa using hc⟩
      split at h
      · rw [List.mem_singleton] at h
        rw [h]; exact hone
      · rename_i d ds
        split at h
        · rcases List.mem_cons.1 h with rfl | h
          · exact hone
          · exact ih h
        · split at h
          · rw [List.mem_singleton] at h
            rw [h]; exact hone
          · rename_i v vs hv
            rw [hv] at ih
            rcases List.mem_cons.1 h with rfl | h
            · obtain ⟨-, hblank⟩ := ih List.mem_cons_self
              refine ⟨List.cons_ne_nil _ _, fun x hx => ?_⟩
              rcases List.mem_cons.1 hx with rfl | hx
              · simpa using hc
              · exact hblank x hx
            · exact ih (List.mem_cons_of_mem _ h)

end Text

open Text (IsWord)

namespace Token

theorem ne_nil_of_mem_pieces {t p : Text} (h : p ∈ Text.pieces isSeparator t) : p ≠ [] := by
  rcases Text.piece_shape isSeparator t p h with ⟨c, rfl, -⟩ | ⟨hne, -⟩
  · exact List.cons_ne_nil _ _
  · exact hne

theorem ne_nil_of_mem_joinExponents {ps : List Text} (h : ∀ p ∈ ps, p ≠ []) : ∀ p ∈ joinExponents ps, p ≠ [] := by
  fun_induction joinExponents ps with
  | case1 w s v rest hjoin ih =>
    intro p hp
    rcases List.mem_cons.1 hp with rfl | hp
    · simp [h w]
    · exact ih (fun q hq => h q (by simp [hq])) p hp
  | case2 w s v rest hjoin ih =>
    intro p hp
    rcases List.mem_cons.1 hp with rfl | hp
    · exact h p (by simp)
    · exact ih (fun q hq => h q (List.mem_cons_of_mem _ hq)) p hp
  | case3 short => exact h

theorem ne_nil_of_mem_joinSigns {due : Bool} {ps : List Text} (h : ∀ p ∈ ps, p ≠ []) :
    ∀ p ∈ joinSigns due ps, p ≠ [] := by
  fun_induction joinSigns due ps with
  | case1 due p w rest hjoin ih =>
    intro q hq
    rcases List.mem_cons.1 hq with rfl | hq
    · exact List.cons_ne_nil _ _
    · exact ih (fun r hr => h r (by simp [hr])) q hq
  | case2 due p w rest hjoin ih =>
    intro q hq
    rcases List.mem_cons.1 hq with rfl | hq
    · exact h q (by simp)
    · exact ih (fun r hr => h r (List.mem_cons_of_mem _ hr)) q hq
  | case3 due short => exact h

/-- **The lexemes of a text without white space are words.** -/
theorem isWord_of_mem_lexemes {t w : Text} (ht : ∀ c ∈ t, Text.isBlank c = false) (h : w ∈ lexemes t) : IsWord w := by
  have hpieces : ∀ p ∈ Text.pieces isSeparator t, p ≠ [] := fun _ => ne_nil_of_mem_pieces
  refine ⟨ne_nil_of_mem_joinSigns (ne_nil_of_mem_joinExponents hpieces) w h, fun c hc => ht c ?_⟩
  rw [← flatten_lexemes t]
  exact List.mem_flatten.2 ⟨w, h, hc⟩

end Token

namespace Postfix

theorem mem_of_close? {stack below : List Pending} {ws : List Text} (h : close? stack = some (ws, below)) :
    Pending.bracket ∈ stack ∧ ∀ w ∈ ws ++ below.map Pending.word, w ∈ stack.map Pending.word := by
  fun_induction close? stack generalizing ws below with
  | case1 => cases h
  | case2 rest =>
    cases h
    exact ⟨List.mem_cons_self, fun w hw => List.mem_cons_of_mem _ hw⟩
  | case3 rest p hp ih =>
    obtain ⟨⟨vs, under⟩, hclose, heq⟩ := Option.map_eq_some_iff.1 h
    cases heq
    obtain ⟨hbracket, hmem⟩ := ih hclose
    refine ⟨List.mem_cons_of_mem _ hbracket, fun w hw => ?_⟩
    rcases List.mem_cons.1 hw with rfl | hw
    · exact List.mem_cons_self
    · exact List.mem_cons_of_mem _ (hmem w hw)

theorem release_append (o : Operator) (stack : List Pending) :
    (release o stack).1 ++ (release o stack).2.map Pending.word = stack.map Pending.word := by
  fun_induction release o stack with
  | case1 top rest h => rfl
  | case2 top rest h ws below hrel ih =>
    rw [hrel] at ih
    simp only [List.map_cons, List.cons_append, ih]
    rfl
  | case3 stack h => rfl

theorem releaseCall_append (stack : List Pending) :
    (releaseCall stack).1 ++ (releaseCall stack).2.map Pending.word = stack.map Pending.word := by
  unfold releaseCall
  split <;> rfl

/-- **A step makes no new word**: what is complete and what waits are words that waited, and the token's own. -/
theorem mem_of_step? {stack below : List Pending} {token : Token} {next : Option Token} {ws : List Text}
    (h : step? stack token next = some (ws, below)) :
    ∀ w ∈ ws ++ below.map Pending.word, w ∈ stack.map Pending.word ∨ w = token.text := by
  intro w hw
  cases token with
  | openParen =>
    cases h
    rcases List.mem_cons.1 hw with rfl | hw
    · exact .inr rfl
    · exact .inl hw
  | closeParen =>
    obtain ⟨⟨vs, under⟩, hclose, heq⟩ := Option.map_eq_some_iff.1 h
    have hsplit : (vs ++ (releaseCall under).1, (releaseCall under).2) = (ws, below) := heq
    obtain ⟨rfl, rfl⟩ := Prod.mk.inj hsplit
    rw [List.append_assoc, releaseCall_append] at hw
    exact .inl ((mem_of_close? hclose).2 w hw)
  | comma =>
    obtain ⟨⟨vs, under⟩, hclose, heq⟩ := Option.map_eq_some_iff.1 h
    cases heq
    obtain ⟨hbracket, hmem⟩ := mem_of_close? hclose
    left
    rcases List.mem_append.1 hw with hw | hw
    · exact hmem w (List.mem_append_left _ hw)
    · rcases List.mem_cons.1 hw with rfl | hw
      · exact List.mem_map_of_mem hbracket
      · exact hmem w (List.mem_append_right _ hw)
  | operator o =>
    simp only [step?, Option.some.injEq, Prod.mk.injEq] at h
    obtain ⟨rfl, rfl⟩ := h
    rw [← release_append o stack]
    simp only [List.map_cons, List.mem_append, List.mem_cons] at hw ⊢
    rcases hw with hw | hw | hw
    · exact .inl (.inl hw)
    · exact .inr hw
    · exact .inl (.inr hw)
  | name t =>
    rw [step?] at h
    split at h <;> cases h <;> rcases List.mem_cons.1 hw with rfl | hw
    · exact .inr rfl
    · exact .inl hw
    · exact .inr rfl
    · exact .inl hw
  | operand t =>
    cases h
    rcases List.mem_cons.1 hw with rfl | hw
    · exact .inr rfl
    · exact .inl hw

/-- **Every word in postfix order is the text of a token, or waited already.** -/
theorem mem_of_arrange? : ∀ {tokens : List Token} {stack : List Pending} {words : List Text},
    arrange? stack tokens = some words → ∀ w ∈ words, w ∈ stack.map Pending.word ∨ w ∈ tokens.map Token.text
  | [], stack, words, h, w, hw => by cases h; exact .inl hw
  | token :: tokens, stack, words, h, w, hw => by
    simp only [arrange?, Option.bind_eq_bind, Option.bind_eq_some_iff, Prod.exists] at h
    obtain ⟨ws, below, hstep, rest, hrest, heq⟩ := h
    cases heq
    have hnew := mem_of_step? hstep
    rcases List.mem_append.1 hw with hw | hw
    · rcases hnew w (List.mem_append_left _ hw) with hold | rfl
      · exact .inl hold
      · exact .inr List.mem_cons_self
    · rcases mem_of_arrange? hrest w hw with hwait | htext
      · rcases hnew w (List.mem_append_right _ hwait) with hold | rfl
        · exact .inl hold
        · exact .inr List.mem_cons_self
      · exact .inr (List.mem_cons_of_mem _ htext)

theorem mem_lexemes_of_ofText? {expression : Text} {words : List Text} (h : ofText? expression = some words)
    {w : Text} (hw : w ∈ words) : w ∈ Token.lexemes (Text.compact expression) := by
  rw [← Token.map_text_scan]
  rcases mem_of_arrange? h w hw with hold | htext
  · cases hold
  · exact htext

end Postfix

namespace Operation

theorem isWord_of_ofKeyword? {V : Type} {word : Text} {op : Operation V} (h : ofKeyword? word = some op) :
    IsWord word := by
  refine forall_builtin (fun f => ?_) (fun f => ?_) (by decide) (by decide) h
  · cases f <;> decide
  · cases f <;> decide

theorem isWord_of_keyword? {V : Type} {word : Text} {op : Operation V} (h : op.keyword? = some word) : IsWord word :=
  isWord_of_ofKeyword? (ofKeyword?_keyword h)

end Operation

namespace Entry

/-- **What is assembled is made of words.** -/
theorem isWord {body : Text} {words : List Text} (h : Words body words) {w : Text} (hw : w ∈ words) : IsWord w := by
  cases h with
  | reversed => exact Text.isWord_of_mem_words hw
  | conventional h =>
    exact Token.isWord_of_mem_lexemes (fun _ => Text.not_isBlank_of_mem_compact) (Postfix.mem_lexemes_of_ofText? h hw)

end Entry

end SignalFormula
