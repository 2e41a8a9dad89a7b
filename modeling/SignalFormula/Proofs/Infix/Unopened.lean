import SignalFormula.Proofs.Infix.Brackets
import SignalFormula.Proofs.Infix.Notations
import SignalFormula.Proofs.Infix.Segmentation
/-!
# Unopened — closing brackets and commas with no bracket open

Brackets and commas are lexemes of their own, so counting open brackets over the tokens is counting them over the
characters (`Token.openAfterAll?_scan`).  A closing bracket or a comma where none is open is the only fault there is, and
the brackets still open at the end are the ones that become words (`Postfix.openAfterAll?_eq_count`).  No input is read
from such a word unless it has that name, so an expression that is accepted has balanced brackets
(`Postfix.render_brackets`).
-/
namespace SignalFormula

namespace Token

def isPunctuation : Token → Bool
  | .openParen | .closeParen | .comma => true
  | .operator _ | .name _ | .operand _ => false

theorem eq_of_isPunctuation {w : Text} (h : (ofText w).isPunctuation = true) : w = ['('] ∨ w = [')'] ∨ w = [','] := by
  have htext : (ofText w).text = w := text_ofText w
  cases hw : ofText w with
  | openParen => rw [hw] at htext; exact .inl htext.symm
  | closeParen => rw [hw] at htext; exact .inr (.inl htext.symm)
  | comma => rw [hw] at htext; exact .inr (.inr htext.symm)
  | operator | name | operand => rw [hw] at h; cases h

theorem openAfter?_of_isPunctuation {t : Token} (h : t.isPunctuation = false) (n : Nat) : openAfter? n t = some n := by
  cases t with
  | openParen | closeParen | comma => cases h
  | operator | name | operand => rfl

theorem openAfterAll?_append (n : Nat) : ∀ ts us : List Token,
    openAfterAll? n (ts ++ us) = (openAfterAll? n ts).bind fun n => openAfterAll? n us
  | [], us => rfl
  | t :: ts, us => by
    rw [List.cons_append, openAfterAll?, openAfterAll?, Option.bind_assoc]
    exact congrArg _ (funext fun n => openAfterAll?_append n ts us)

theorem openAfterAll?_of_isPunctuation (n : Nat) : ∀ {ts : List Token}, (∀ t ∈ ts, t.isPunctuation = false) →
    openAfterAll? n ts = some n
  | [], _ => rfl
  | t :: ts, h => by
    rw [openAfterAll?, openAfter?_of_isPunctuation (h t List.mem_cons_self)]
    exact openAfterAll?_of_isPunctuation n fun u hu => h u (List.mem_cons_of_mem _ hu)

end Token

namespace Postfix

/-! ## Tokens that cannot be read -/

theorem close?_eq_none_iff : ∀ {stack : List Pending}, close? stack = none ↔ brackets stack = 0
  | [] => by simp [close?, brackets]
  | .bracket :: stack => by simp [close?, brackets]
  | .operator o :: stack => by
    have ih : close? stack = none ↔ brackets stack = 0 := close?_eq_none_iff
    rw [brackets] at ih
    simp [close?, brackets, ih]
  | .call name :: stack => by
    have ih : close? stack = none ↔ brackets stack = 0 := close?_eq_none_iff
    rw [brackets] at ih
    simp [close?, brackets, ih]

/-- **A token cannot be read exactly if the plain count says so.** -/
theorem step?_eq_none_iff {stack : List Pending} {token : Token} {next : Option Token} :
    step? stack token next = none ↔ token.openAfter? (brackets stack) = none := by
  cases token with
  | openParen | operator | operand => simp [step?, Token.openAfter?]
  | name w =>
    rw [step?]
    split <;> simp [Token.openAfter?]
  | closeParen =>
    rw [step?, Option.map_eq_none_iff, close?_eq_none_iff]
    cases brackets stack <;> simp [Token.openAfter?]
  | comma =>
    rw [step?, Option.map_eq_none_iff, close?_eq_none_iff]
    cases brackets stack <;> simp [Token.openAfter?]

theorem arrange?_eq_none_iff : ∀ {tokens : List Token} {stack : List Pending},
    arrange? stack tokens = none ↔ Token.openAfterAll? (brackets stack) tokens = none
  | [], stack => by simp [arrange?, Token.openAfterAll?]
  | token :: tokens, stack => by
    rw [arrange?, Token.openAfterAll?]
    cases hstep : step? stack token tokens.head? with
    | none =>
      rw [step?_eq_none_iff.1 hstep]
      exact ⟨fun _ => rfl, fun _ => rfl⟩
    | some result =>
      obtain ⟨ws, below⟩ := result
      rw [openAfter?_of_step? hstep, Option.bind_some, ← arrange?_eq_none_iff]
      cases hrest : arrange? below tokens <;> simp [hrest]

/-! ## Brackets that become words -/

/-- What is released down to a bracket was on top of it. -/
theorem exists_tops_of_close? : ∀ {stack below : List Pending} {ws : List Text}, close? stack = some (ws, below) →
    ∃ tops, stack = tops ++ .bracket :: below ∧ .bracket ∉ tops ∧ ws = tops.map Pending.word
  | .bracket :: stack, _, _, h => by
    cases h
    exact ⟨[], rfl, List.not_mem_nil, rfl⟩
  | .operator o :: stack, _, _, h => by
    obtain ⟨⟨vs, under⟩, hclose, heq⟩ := Option.map_eq_some_iff.1 h
    cases heq
    obtain ⟨tops, rfl, htops, rfl⟩ := exists_tops_of_close? hclose
    exact ⟨.operator o :: tops, rfl, by simpa using htops, rfl⟩
  | .call name :: stack, _, _, h => by
    obtain ⟨⟨vs, under⟩, hclose, heq⟩ := Option.map_eq_some_iff.1 h
    cases heq
    obtain ⟨tops, rfl, htops, rfl⟩ := exists_tops_of_close? hclose
    exact ⟨.call name :: tops, rfl, by simpa using htops, rfl⟩

/-- A word that is no bracket and no comma. -/
def Plain (w : Text) : Prop := (Token.ofText w).isPunctuation = false

/-- Only what a bracket waits for is not plain. -/
def PlainBut (stack : List Pending) : Prop := ∀ p ∈ stack, p ≠ .bracket → Plain p.word

theorem plain_operator (o : Operator) : Plain o.text := by cases o <;> rfl

theorem PlainBut.of_close? {stack below : List Pending} {ws : List Text} (h : PlainBut stack)
    (hclose : close? stack = some (ws, below)) : (∀ w ∈ ws, Plain w) ∧ PlainBut below := by
  obtain ⟨tops, rfl, htops, rfl⟩ := exists_tops_of_close? hclose
  constructor
  · intro w hw
    obtain ⟨p, hp, rfl⟩ := List.mem_map.1 hw
    exact h p (List.mem_append_left _ hp) fun hbracket => htops (hbracket ▸ hp)
  · exact fun p hp => h p (List.mem_append_right _ (List.mem_cons_of_mem _ hp))

theorem PlainBut.release (o : Operator) : ∀ {stack : List Pending}, PlainBut stack →
    (∀ w ∈ (release o stack).1, Plain w) ∧ PlainBut (release o stack).2
  | [], h | .bracket :: _, h | .call _ :: _, h => ⟨List.forall_mem_nil _, h⟩
  | .operator top :: rest, h => by
    obtain ⟨hws, hbelow⟩ := PlainBut.release o fun p hp => h p (List.mem_cons_of_mem _ hp)
    rw [Postfix.release]
    split
    · exact ⟨List.forall_mem_nil _, h⟩
    · exact ⟨List.forall_mem_cons.2 ⟨plain_operator top, hws⟩, hbelow⟩

theorem PlainBut.releaseCall {stack : List Pending} (h : PlainBut stack) :
    (∀ w ∈ (releaseCall stack).1, Plain w) ∧ PlainBut (releaseCall stack).2 := by
  unfold Postfix.releaseCall
  split
  · rename_i name rest
    refine ⟨fun w hw => ?_, fun p hp => h p (List.mem_cons_of_mem _ hp)⟩
    rw [List.mem_singleton.1 hw]
    exact h (.call name) List.mem_cons_self nofun
  · exact ⟨List.forall_mem_nil _, h⟩

/-- **A step releases plain words only.** -/
theorem PlainBut.step {stack below : List Pending} {token : Token} {next : Option Token} {ws : List Text}
    (h : PlainBut stack) (htoken : Token.ofText token.text = token) (hstep : step? stack token next = some (ws, below)) :
    (∀ w ∈ ws, Plain w) ∧ PlainBut below := by
  have hplain : token.isPunctuation = false → Plain token.text := fun hword => by rwa [Plain, htoken]
  cases token with
  | openParen =>
    cases hstep
    exact ⟨List.forall_mem_nil _, List.forall_mem_cons.2 ⟨fun hne => absurd rfl hne, h⟩⟩
  | closeParen =>
    obtain ⟨⟨vs, under⟩, hclose, heq⟩ := Option.map_eq_some_iff.1 hstep
    have hsplit : (vs ++ (Postfix.releaseCall under).1, (Postfix.releaseCall under).2) = (ws, below) := heq
    obtain ⟨rfl, rfl⟩ := Prod.mk.inj hsplit
    obtain ⟨hvs, hunder⟩ := h.of_close? hclose
    obtain ⟨hcall, hbelow⟩ := hunder.releaseCall
    exact ⟨List.forall_mem_append.2 ⟨hvs, hcall⟩, hbelow⟩
  | comma =>
    obtain ⟨⟨vs, under⟩, hclose, heq⟩ := Option.map_eq_some_iff.1 hstep
    cases heq
    obtain ⟨hvs, hunder⟩ := h.of_close? hclose
    exact ⟨hvs, List.forall_mem_cons.2 ⟨fun hne => absurd rfl hne, hunder⟩⟩
  | operator o =>
    obtain ⟨hws, hbelow⟩ := PlainBut.release o h
    have hsplit : ((Postfix.release o stack).1, .operator o :: (Postfix.release o stack).2) = (ws, below) :=
      Option.some.inj hstep
    obtain ⟨rfl, rfl⟩ := Prod.mk.inj hsplit
    exact ⟨hws, List.forall_mem_cons.2 ⟨fun _ => plain_operator o, hbelow⟩⟩
  | name w =>
    rw [step?] at hstep
    split at hstep <;> cases hstep
    · exact ⟨List.forall_mem_nil _, List.forall_mem_cons.2 ⟨fun _ => hplain rfl, h⟩⟩
    · exact ⟨List.forall_mem_singleton.2 (hplain rfl), h⟩
  | operand w =>
    cases hstep
    exact ⟨List.forall_mem_singleton.2 (hplain rfl), h⟩

theorem count_openParen_of_plain {ws : List Text} (h : ∀ w ∈ ws, Plain w) : ws.count ['('] = 0 :=
  List.count_eq_zero.2 fun hmem => by
    have hplain : Plain ['('] := h _ hmem
    cases hplain

theorem PlainBut.count_words : ∀ {stack : List Pending}, PlainBut stack →
    (stack.map Pending.word).count ['('] = brackets stack
  | [], _ => rfl
  | p :: stack, h => by
    have ih : (stack.map Pending.word).count ['('] = brackets stack :=
      PlainBut.count_words fun q hq => h q (List.mem_cons_of_mem _ hq)
    rw [brackets] at ih
    by_cases hp : p = .bracket
    · subst hp
      simp [brackets, ih, Pending.word]
    · have hword : p.word ≠ ['('] := fun hword => by
        have hplain : Plain p.word := h p List.mem_cons_self hp
        rw [hword] at hplain
        cases hplain
      simp [brackets, ih, hp, hword]

/-- **The brackets that are left open become words**, and no other punctuation does. -/
theorem openAfterAll?_eq_count : ∀ {tokens : List Token} {stack : List Pending} {words : List Text},
    arrange? stack tokens = some words → PlainBut stack → (∀ t ∈ tokens, Token.ofText t.text = t) →
      Token.openAfterAll? (brackets stack) tokens = some (words.count ['(']) ∧ ∀ w ∈ words, Plain w ∨ w = ['(']
  | [], stack, words, h, hstack, _ => by
    cases h
    refine ⟨by rw [hstack.count_words]; rfl, fun w hw => ?_⟩
    obtain ⟨p, hp, rfl⟩ := List.mem_map.1 hw
    by_cases hbracket : p = .bracket
    · exact .inr (by rw [hbracket]; rfl)
    · exact .inl (hstack p hp hbracket)
  | token :: tokens, stack, words, h, hstack, htokens => by
    simp only [arrange?, Option.bind_eq_bind, Option.bind_eq_some_iff, Prod.exists] at h
    obtain ⟨ws, below, hstep, rest, hrest, heq⟩ := h
    cases heq
    obtain ⟨htoken, htokens⟩ := List.forall_mem_cons.1 htokens
    obtain ⟨hws, hbelow⟩ := hstack.step htoken hstep
    obtain ⟨hopen, hwords⟩ := openAfterAll?_eq_count hrest hbelow htokens
    rw [Token.openAfterAll?, openAfter?_of_step? hstep, Option.bind_some, hopen, List.count_append,
      count_openParen_of_plain hws, Nat.zero_add]
    exact ⟨rfl, List.forall_mem_append.2 ⟨fun w hw => .inl (hws w hw), hwords⟩⟩

end Postfix

/-! ## Brackets over the characters -/

/-- The brackets open behind a text, from those open in front of it.  A closing bracket closes one, if there is one. -/
def Text.openBrackets : Nat → Text → Nat
  | n, [] => n
  | n, c :: t => openBrackets (if c = '(' then n + 1 else if c = ')' then n - 1 else n) t

namespace Token

/-- The characters of a text, each as a token. -/
def ofChars (t : Text) : List Token := t.map fun c => ofText [c]

theorem isPunctuation_ofChar {c : Char} (hopen : c ≠ '(') (hclose : c ≠ ')') (hcomma : c ≠ ',') :
    (ofText [c]).isPunctuation = false := by
  cases h : (ofText [c]).isPunctuation with
  | false => rfl
  | true => rcases eq_of_isPunctuation h with heq | heq | heq <;> cases heq <;> contradiction

theorem openAfter?_ofChar (n : Nat) (c : Char) : openAfter? n (ofText [c]) =
    if (c = ')' ∨ c = ',') ∧ n = 0 then none else some (if c = '(' then n + 1 else if c = ')' then n - 1 else n) := by
  by_cases hopen : c = '('
  · subst hopen
    rfl
  · by_cases hclose : c = ')'
    · subst hclose
      cases n <;> rfl
    · by_cases hcomma : c = ','
      · subst hcomma
        cases n <;> rfl
      · rw [openAfter?_of_isPunctuation (isPunctuation_ofChar hopen hclose hcomma)]
        simp [hopen, hclose, hcomma]

/-- **What is left open after all characters**, as long as none of them is at fault. -/
theorem eq_openBrackets_of_ofChars : ∀ {t : Text} {n k : Nat}, openAfterAll? n (ofChars t) = some k →
    k = Text.openBrackets n t ∧ k + t.count ')' = n + t.count '('
  | [], n, k, h => by
    cases h
    exact ⟨rfl, rfl⟩
  | c :: t, n, k, h => by
    obtain ⟨m, hm, hrest⟩ := Option.bind_eq_some_iff.1 h
    rw [openAfter?_ofChar] at hm
    split at hm
    · cases hm
    · rename_i hfault
      cases hm
      obtain ⟨hk, hcount⟩ := eq_openBrackets_of_ofChars hrest
      refine ⟨hk, ?_⟩
      rw [List.count_cons, List.count_cons]
      by_cases hopen : c = '('
      · subst hopen
        simp at hcount ⊢
        omega
      · by_cases hclose : c = ')'
        · subst hclose
          simp at hcount hfault ⊢
          omega
        · simp [hopen, hclose] at hcount ⊢
          exact hcount

/-- **A character is at fault** if it closes a bracket, or is a comma, and no bracket is open before it. -/
theorem openAfterAll?_ofChars_eq_none_iff : ∀ {t : Text} {n : Nat}, openAfterAll? n (ofChars t) = none ↔
    ∃ before c after, t = before ++ c :: after ∧ (c = ')' ∨ c = ',') ∧ Text.openBrackets n before = 0
  | [], n => by simp [ofChars, openAfterAll?]
  | c :: t, n => by
    have hcons : openAfterAll? n (ofChars (c :: t)) =
        (openAfter? n (ofText [c])).bind fun m => openAfterAll? m (ofChars t) := rfl
    rw [hcons, openAfter?_ofChar]
    split
    · rename_i hfault
      exact ⟨fun _ => ⟨[], c, t, rfl, hfault.1, hfault.2⟩, fun _ => rfl⟩
    · rename_i hfault
      rw [Option.bind_some, openAfterAll?_ofChars_eq_none_iff]
      constructor
      · rintro ⟨before, d, after, rfl, hd, hopen⟩
        exact ⟨c :: before, d, after, rfl, hd, hopen⟩
      · rintro ⟨before, d, after, heq, hd, hopen⟩
        cases before with
        | nil =>
          cases heq
          exact absurd ⟨hd, hopen⟩ hfault
        | cons b before =>
          obtain ⟨rfl, rfl⟩ := List.cons.inj heq
          exact ⟨before, d, after, rfl, hd, hopen⟩

theorem openAfterAll?_ofLexeme {w : Text} (h : IsLexeme w) (n : Nat) :
    openAfterAll? n (ofChars w) = openAfterAll? n [ofText w] := by
  cases hw : (ofText w).isPunctuation with
  | true => rcases eq_of_isPunctuation hw with rfl | rfl | rfl <;> rfl
  | false =>
    have hone : openAfterAll? n [ofText w] = some n := openAfterAll?_of_isPunctuation n (by simpa using hw)
    rw [hone]
    refine openAfterAll?_of_isPunctuation n fun t ht => ?_
    obtain ⟨c, hc, rfl⟩ := List.mem_map.1 ht
    -- a lexeme of more than one character has no bracket or comma in it
    cases hmark : (ofText [c]).isPunctuation with
    | false => rfl
    | true =>
      have hsingle : w = [c] := by
        rcases eq_of_isPunctuation hmark with heq | heq | heq <;> cases heq <;>
          exact h.eq_singleton hc rfl (by decide)
      rw [hsingle, hmark] at hw
      cases hw

/-- **Counting over the tokens is counting over the characters.** -/
theorem openAfterAll?_scan (n : Nat) (t : Text) : openAfterAll? n (scan t) = openAfterAll? n (ofChars t) := by
  have hall : ∀ (ws : List Text) (n : Nat), (∀ w ∈ ws, IsLexeme w) →
      openAfterAll? n (ws.map ofText) = openAfterAll? n (ofChars ws.flatten) := by
    intro ws
    induction ws with
    | nil => exact fun _ _ => rfl
    | cons w ws ih =>
      intro n h
      obtain ⟨hw, hws⟩ := List.forall_mem_cons.1 h
      have hchars : ofChars (w :: ws).flatten = ofChars w ++ ofChars ws.flatten := List.map_append
      have htokens : (w :: ws).map ofText = [ofText w] ++ ws.map ofText := rfl
      rw [hchars, htokens, openAfterAll?_append, openAfterAll?_append, openAfterAll?_ofLexeme hw]
      exact congrArg _ (funext fun m => ih m hws)
  rw [scan, hall (lexemes t) n fun w => isLexeme_of_mem_lexemes, flatten_lexemes]

theorem openAfterAll?_compact : ∀ (t : Text) (n : Nat),
    openAfterAll? n (ofChars (Text.compact t)) = openAfterAll? n (ofChars t)
  | [], _ => rfl
  | c :: t, n => by
    have hcons : openAfterAll? n (ofChars (c :: t)) =
        (openAfter? n (ofText [c])).bind fun m => openAfterAll? m (ofChars t) := rfl
    cases hc : Text.isBlank c with
    | false =>
      have hcompact : Text.compact (c :: t) = c :: Text.compact t := List.filter_cons_of_pos (by simp [hc])
      rw [hcompact, hcons]
      exact congrArg _ (funext fun m => openAfterAll?_compact t m)
    | true =>
      have hcompact : Text.compact (c :: t) = Text.compact t := List.filter_cons_of_neg (by simp [hc])
      have hplain : (ofText [c]).isPunctuation = false := by
        refine isPunctuation_ofChar ?_ ?_ ?_ <;> rintro rfl <;> cases hc
      rw [hcompact, hcons, openAfter?_of_isPunctuation hplain]
      exact openAfterAll?_compact t n

end Token

/-! ## Expressions -/

namespace Postfix

open Program (compileConventional)

/-- **The brackets that words keep open.** -/
theorem openAfterAll?_of_ofText? {expression : Text} {words : List Text} (h : ofText? expression = some words) :
    Token.openAfterAll? 0 (Token.scan (Text.compact expression)) = some (words.count ['(']) ∧
      ∀ w ∈ words, Plain w ∨ w = ['('] := by
  have hnone : PlainBut [] := nofun
  refine openAfterAll?_eq_count h hnone fun t ht => ?_
  obtain ⟨w, -, rfl⟩ := List.mem_map.1 ht
  rw [Token.text_ofText]

/-- **Every bracket of an accepted expression is closed**, unless an input is named like one. -/
theorem openAfterAll?_of_compileConventional {F : Format} {inputs : List Text} (hinputs : ['('] ∉ inputs)
    {expression : Text} {p : Program (Binary F)} (h : compileConventional expression inputs = .ok p) :
    Token.openAfterAll? 0 (Token.scan (Text.compact expression)) = some 0 := by
  obtain ⟨words, hwords, hassemble⟩ := Program.compileConventional_eq_ok_iff.1 h
  have hnone : words.count ['('] = 0 := List.count_eq_zero.2 fun hmem => by
    obtain ⟨op, hop⟩ := Program.exists_stands_of_assemble hassemble hmem
    exact Program.not_stands_openParen hinputs op hop
  have hopen := (openAfterAll?_of_ofText? hwords).1
  rwa [hnone] at hopen

theorem ofText?_eq_none_iff {expression : Text} : ofText? expression = none ↔
    ∃ before c after, expression = before ++ c :: after ∧ (c = ')' ∨ c = ',') ∧ Text.openBrackets 0 before = 0 := by
  rw [← Token.openAfterAll?_ofChars_eq_none_iff, ← Token.openAfterAll?_compact, ← Token.openAfterAll?_scan]
  exact arrange?_eq_none_iff

/-- **Which brackets are mistaken.**  There is no postfix order exactly if some closing bracket or comma stands where
every bracket opened before it has been closed before it, and then the error quotes the expression.  Else no word has a
closing bracket or a comma in it, and as many are opening brackets as the expression has in excess of closing ones.  So
if no input is named like an opening bracket, an accepted expression has balanced brackets, and each comma in one. -/
theorem render_brackets (expression : Text) :
    (∀ e, render expression = .error e ↔
      (∃ before c after, expression = before ++ c :: after ∧ (c = ')' ∨ c = ',') ∧ Text.openBrackets 0 before = 0) ∧
        e = ⟨.unopenedBracket, expression⟩) ∧
    (∀ text, render expression = .ok text → ∃ words, text = Text.unwords words ∧ Text.words text = words ∧
      (∀ w ∈ words, ')' ∉ w ∧ ',' ∉ w) ∧ words.count ['('] + expression.count ')' = expression.count '(') ∧
    ∀ (F : Format) (inputs : List Text) (p : Program (Binary F)), ['('] ∉ inputs →
      compileConventional expression inputs = .ok p → Text.openBrackets 0 expression = 0 ∧
        ∀ before c after, expression = before ++ c :: after → (c = ')' ∨ c = ',') → Text.openBrackets 0 before ≠ 0 := by
  refine ⟨fun e => by rw [render_eq_error_iff, ofText?_eq_none_iff], fun text htext => ?_, fun F inputs p hinputs h => ?_⟩
  · obtain ⟨words, hwords, rfl⟩ := render_eq_ok_iff.1 htext
    have hword : ∀ w ∈ words, w.IsWord := fun w hw => Entry.isWord (.conventional hwords) hw
    obtain ⟨hopen, hplain⟩ := openAfterAll?_of_ofText? hwords
    refine ⟨words, rfl, Text.words_unwords words hword, fun w hw => ?_, ?_⟩
    · have hlexeme : Token.IsLexeme w := Token.isLexeme_of_mem_lexemes (mem_lexemes_of_ofText? hwords hw)
      constructor <;> intro hmem <;> obtain rfl := hlexeme.eq_singleton hmem rfl (by decide) <;>
        rcases hplain _ hw with h | h <;> cases h
    · rw [Token.openAfterAll?_scan, Token.openAfterAll?_compact] at hopen
      simpa using (Token.eq_openBrackets_of_ofChars hopen).2
  · have hopen : Token.openAfterAll? 0 (Token.ofChars expression) = some 0 := by
      rw [← Token.openAfterAll?_compact, ← Token.openAfterAll?_scan]
      exact openAfterAll?_of_compileConventional hinputs h
    refine ⟨(Token.eq_openBrackets_of_ofChars hopen).1.symm, fun before c after heq hc hnone => ?_⟩
    have hfault := Token.openAfterAll?_ofChars_eq_none_iff.2 ⟨before, c, after, heq, hc, hnone⟩
    rw [hopen] at hfault
    cases hfault

/-- Two brackets left open, one of them called; a comma behind the last closing bracket; and an accepted expression. -/
theorem render_brackets_left_open :
    let inputs : List Text := ["x".toList]
    let expression : Text := "((1)".toList
    let text : Text := "1 (".toList
    let p : Program Double := ⟨[.input 0, .const (.ofRat 2), .unary .sin, .binary .mul], 2⟩
    render expression = .ok text ∧ (Text.words text).count ['('] + expression.count ')' = expression.count '(' ∧
      render "(1),(2)".toList = .error ⟨.unopenedBracket, "(1),(2)".toList⟩ ∧
      ['('] ∉ inputs ∧ compileConventional "sin (x,2)*".toList inputs = .ok p ∧
      Text.openBrackets 0 "sin (x,2)*".toList = 0 := by
  intro inputs expression text p
  have htext : render expression = .ok text := by decide +kernel
  have hinputs : ['('] ∉ inputs := by decide
  have hcompile : compileConventional "sin (x,2)*".toList inputs = .ok p := by decide +kernel
  obtain ⟨words, -, hwords, -, hcount⟩ := (render_brackets expression).2.1 text htext
  refine ⟨htext, by rw [hwords]; exact hcount, ?_, hinputs, hcompile, ?_⟩
  · exact ((render_brackets "(1),(2)".toList).1 _).2 ⟨⟨"(1)".toList, ',', "(2)".toList, rfl, .inr rfl, rfl⟩, rfl⟩
  · exact ((render_brackets "sin (x,2)*".toList).2.2 _ inputs p hinputs hcompile).1

end Postfix
end SignalFormula
