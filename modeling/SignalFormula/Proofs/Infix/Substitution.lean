import SignalFormula.Proofs.Infix.Acceptance
import SignalFormula.Proofs.Infix.Unopened
/-!
# Substitution — accepted expressions put into a larger one

A bracket and a comma cut a text in two: what stands in front of them is cut into lexemes as if it stood alone, and what
stands behind an opening bracket or a comma is cut as at the start of a text (`Token.lexemesFrom_append`).  The tokens of
an accepted expression are a row with its brackets closed, so they are read in a bracket as they are alone.  So accepted
texts, well formed or not, are put together by an operator or a call as programs are
(`Program.compileConventional_substitute`).
-/
namespace SignalFormula

namespace Text

/-- The text in brackets. -/
def bracketed (t : Text) : Text := '(' :: (t ++ [')'])

theorem compact_bracketed (t : Text) : compact (bracketed t) = bracketed (compact t) := by
  have hopen : compact ['('] = ['('] := rfl
  have hclose : compact [')'] = [')'] := rfl
  rw [bracketed, ← List.singleton_append, compact_append, compact_append, hopen, hclose]
  rfl

end Text

namespace Token

/-! ## Lexemes in front of a bracket or a comma -/

theorem startsDigit_append_cons {c : Char} (hc : c.isDigit = false) (rest t : Text) :
    startsDigit (rest ++ c :: t) = startsDigit rest := by
  cases rest with
  | nil => exact hc
  | cons d rest => rfl

theorem EndsRun.append {rest : Text} (h : EndsRun rest) {c : Char} (hc : isSeparator c = true) (t : Text) :
    EndsRun (rest ++ c :: t) := by
  cases rest with
  | nil => exact fun d hd => by cases hd; exact hc
  | cons d rest => exact h

theorem continuesExponent_append {c : Char} (hdigit : c.isDigit = false) (hsign : isSign [c] = false) (rest t : Text) :
    continuesExponent (rest ++ c :: t) = continuesExponent rest := by
  cases rest with
  | nil =>
    show (isSign [c] && startsDigit t) = false
    rw [hsign, Bool.false_and]
  | cons s rest =>
    show (isSign [s] && startsDigit (rest ++ c :: t)) = (isSign [s] && startsDigit rest)
    rw [startsDigit_append_cons hdigit]

theorem Unsigned.append {w rest : Text} (h : Unsigned w rest) {c : Char} (hc : isSeparator c = true)
    (hdigit : c.isDigit = false) (hsign : isSign [c] = false) (t : Text) : Unsigned w (rest ++ c :: t) := by
  cases h with
  | run hw hend hexponent =>
    refine .run hw (hend.append hc t) fun hstarts hmark => ?_
    rw [continuesExponent_append hdigit hsign]
    exact hexponent hstarts hmark
  | scaled hw hfirst hmark hs hv hdigits hend => exact .scaled hw hfirst hmark hs hv hdigits (hend.append hc t)

/-- **A separator that is no sign does not change the first lexeme** of the text in front of it. -/
theorem Front.append {due : Bool} {w rest : Text} (h : Front due w rest) {c : Char} (hc : isSeparator c = true)
    (hdigit : c.isDigit = false) (hsign : isSign [c] = false) (t : Text) : Front due w (rest ++ c :: t) := by
  cases h with
  | separator hsep hminus =>
    refine .separator hsep fun hdue heq => ?_
    rw [startsDigit_append_cons hdigit]
    exact hminus hdue heq
  | unsigned h => exact .unsigned (h.append hc hdigit hsign t)
  | negative hdue h hstarts => exact .negative hdue (h.append hc hdigit hsign t) hstarts

/-- **A text is cut at a bracket or a comma** as if it ended there. -/
theorem lexemesFrom_append {c : Char} (hc : isSeparator c = true) (hdigit : c.isDigit = false)
    (hsign : isSign [c] = false) (t : Text) : ∀ (due : Bool) (s : Text),
      lexemesFrom due (s ++ c :: t) = lexemesFrom due s ++ [c] :: lexemesFrom (precedesOperand [c]) t
  | due, [] => by
    have hminus : c ≠ '-' := fun h => by subst h; cases hsign
    rw [lexemesFrom_nil, List.nil_append, List.nil_append, lexemesFrom_separator hc (.inr hminus)]
  | due, d :: s => by
    obtain ⟨w, rest, heq, hfront⟩ := exists_front due (List.cons_ne_nil d s)
    have hw : w ≠ [] := hfront.ne_nil
    have hshorter : rest.length < (d :: s).length := by
      rw [heq, List.length_append]
      exact Nat.lt_add_of_pos_left (List.length_pos_iff.2 hw)
    have ih := lexemesFrom_append hc hdigit hsign t (precedesOperand w) rest
    rw [heq, List.append_assoc, (hfront.append hc hdigit hsign t).lexemesFrom_eq, hfront.lexemesFrom_eq, ih,
      List.cons_append]
termination_by _ s => s.length
decreasing_by exact hshorter

/-- The tokens of a text that follows a token after which an operand is due, or is not. -/
def scanFrom (due : Bool) (t : Text) : List Token := (lexemesFrom due t).map ofText

theorem scanFrom_nil (due : Bool) : scanFrom due [] = [] := by
  rw [scanFrom, lexemesFrom_nil]; rfl

theorem scanFrom_openParen (due : Bool) (t : Text) : scanFrom due ('(' :: t) = .openParen :: scan t := by
  rw [scanFrom, lexemesFrom_separator rfl (.inr (by decide))]
  rfl

theorem scanFrom_closeParen (due : Bool) (s t : Text) :
    scanFrom due (s ++ ')' :: t) = scanFrom due s ++ .closeParen :: scanFrom false t := by
  rw [scanFrom, lexemesFrom_append rfl rfl rfl, List.map_append]
  rfl

theorem scan_comma (s t : Text) : scan (s ++ ',' :: t) = scan s ++ .comma :: scan t := by
  show (lexemesFrom true (s ++ ',' :: t)).map ofText = _
  rw [lexemesFrom_append rfl rfl rfl, List.map_append]
  rfl

theorem scanFrom_bracketed (due : Bool) (s t : Text) :
    scanFrom due (Text.bracketed s ++ t) = .openParen :: (scan s ++ .closeParen :: scanFrom false t) := by
  have htext : Text.bracketed s ++ t = '(' :: (s ++ ')' :: t) := by simp [Text.bracketed]
  rw [htext, scanFrom_openParen]
  exact congrArg _ (scanFrom_closeParen true s t)

theorem scanFrom_operator (o : Operator) (t : Text) : scanFrom false (o.text ++ t) = .operator o :: scan t := by
  cases o <;> exact congrArg (List.map ofText) (lexemesFrom_separator rfl (.inl rfl) t)

theorem scanFrom_bracketed_nil (due : Bool) (s : Text) :
    scanFrom due (Text.bracketed s) = .openParen :: (scan s ++ [.closeParen]) := by
  have h := scanFrom_bracketed due s []
  rwa [List.append_nil, scanFrom_nil] at h

theorem scan_called (n : Name) (s : Text) :
    scan (n.text ++ Text.bracketed s) = .name n.text :: .openParen :: (scan s ++ [.closeParen]) := by
  have hopen : ∀ c ∈ (Text.bracketed s).head?, isSeparator c = true := fun c hc => by cases hc; rfl
  show (lexemesFrom true (n.text ++ Text.bracketed s)).map ofText = _
  rw [lexemesFrom_name n hopen, List.map_cons, ofText_name]
  exact congrArg _ (scanFrom_bracketed_nil false s)

end Token

namespace Postfix

/-! ## Words put together -/

variable {rank rank' : Nat} {e e' : Text} {ws vs : List Text}

theorem ReadsInside.reads_bracket {ts : List Token} (h : ReadsInside ts ws) :
    Reads rank (.openParen :: (ts ++ [.closeParen])) ws :=
  Reads.of_passes fun _ rest hstack _ => h.bracket hstack rest

theorem ReadsInside.reads_call {ts : List Token} (h : ReadsInside ts ws) (name : Text) :
    Reads rank (.name name :: .openParen :: (ts ++ [.closeParen])) (ws ++ [name]) :=
  Reads.of_passes fun stack rest _ _ => h.call name stack rest

theorem ofText?_bracketed (h : Reads rank (Token.scan (Text.compact e)) ws) :
    ofText? (Text.bracketed e) = some ws := by
  have hscan : Token.scan (Text.bracketed (Text.compact e)) = _ := Token.scanFrom_bracketed_nil true _
  have hrow : Reads Expression.closedRank _ ws := h.inside.reads_bracket
  rw [ofText?, Text.compact_bracketed, hscan]
  exact hrow.ofTokens?

theorem compact_name (n : Name) : Text.compact n.text = n.text := Text.compact_eq_self n.not_isBlank

theorem ofText?_called (h : Reads rank (Token.scan (Text.compact e)) ws) (n : Name) :
    ofText? (n.text ++ Text.bracketed e) = some (ws ++ [n.text]) := by
  have hrow : Reads Expression.closedRank _ (ws ++ [n.text]) := h.inside.reads_call n.text
  rw [ofText?, Text.compact_append, Text.compact_bracketed, compact_name, Token.scan_called]
  exact hrow.ofTokens?

theorem ofText?_calledTwo (h : Reads rank (Token.scan (Text.compact e)) ws)
    (h' : Reads rank' (Token.scan (Text.compact e')) vs) (n : Name) :
    ofText? (n.text ++ Text.bracketed (e ++ ',' :: e')) = some (ws ++ vs ++ [n.text]) := by
  have hcomma : Text.compact (e ++ ',' :: e') = Text.compact e ++ ',' :: Text.compact e' := Text.compact_append e _
  have hrow : Reads Expression.closedRank _ (ws ++ vs ++ [n.text]) := (h.inside.comma h').reads_call n.text
  rw [ofText?, Text.compact_append, Text.compact_bracketed, compact_name, hcomma, Token.scan_called, Token.scan_comma]
  exact hrow.ofTokens?

theorem ofText?_between (h : Reads rank (Token.scan (Text.compact e)) ws)
    (h' : Reads rank' (Token.scan (Text.compact e')) vs) (o : Operator) :
    ofText? (Text.bracketed e ++ o.text ++ Text.bracketed e') = some (ws ++ vs ++ [o.text]) := by
  have hcompact : Text.compact o.text = o.text := by cases o <;> rfl
  have hleft : Reads Expression.closedRank _ ws := h.inside.reads_bracket
  have hright : Reads Expression.closedRank _ vs := h'.inside.reads_bracket
  have hrow : Reads o.rank _ (ws ++ vs ++ [o.text]) :=
    hleft.operator hright (by cases o <;> decide) (by cases o <;> decide)
  have hscan : Token.scan (Text.bracketed (Text.compact e) ++ (o.text ++ Text.bracketed (Text.compact e'))) = _ :=
    Token.scanFrom_bracketed true _ _
  have hscan' : Token.scan (Text.bracketed (Text.compact e')) = _ := Token.scanFrom_bracketed_nil true _
  rw [ofText?, List.append_assoc, Text.compact_append, Text.compact_append, Text.compact_bracketed,
    Text.compact_bracketed, hcompact, hscan, Token.scanFrom_operator, hscan']
  simpa using hrow.ofTokens?

end Postfix

namespace Program

variable {V : Type} [Scalar V] {inputs : List Text}

open Expression (resolve?_of_keyword? resolve?_operator)

/-- What an operation makes of the programs of its operands. -/
def joined (f : BinaryOp) (p q : Program V) : Except CompileFault (Program V) :=
  let depth := max p.maxDepth (1 + q.maxDepth)
  if stackCapacity < depth then .error (.stackOverflow depth) else .ok ⟨p.ops ++ q.ops ++ [.binary f], depth⟩

theorem assemble_joined {ws vs : List Text} {l r : OpTree V} {word : Text} {f : BinaryOp}
    (hl : ws.map (resolve? inputs) = l.postorder.map some) (hr : vs.map (resolve? inputs) = r.postorder.map some)
    (hword : resolve? (V := V) inputs word = some (.binary f)) :
    assemble inputs (ws ++ vs ++ [word]) = joined f ⟨l.postorder, l.need⟩ ⟨r.postorder, r.need⟩ := by
  have hall : (ws ++ vs ++ [word]).map (resolve? inputs) = (OpTree.binary f l r).postorder.map some := by
    simp [OpTree.postorder, hl, hr, hword]
  exact assemble_of_postorder hall

theorem compileConventional_of_ofText? {text : Text} {words : List Text} (h : Postfix.ofText? text = some words) :
    compileConventional text inputs = (assemble inputs words : Except CompileFault (Program V)).mapError (⟨·, text⟩) := by
  rw [compileConventional, h]

/-- **The tokens of an accepted expression are a row**, read as words that stand for the tree of its program. -/
theorem exists_reads {F : Format} (hinputs : ['('] ∉ inputs) {text : Text} {p : Program (Binary F)}
    (h : compileConventional text inputs = .ok p) : ∃ (rank : Nat) (words : List Text) (t : OpTree (Binary F)),
      Postfix.Reads rank (Token.scan (Text.compact text)) words ∧
        words.map (resolve? inputs) = t.postorder.map some ∧ t.need ≤ stackCapacity ∧ p = ⟨t.postorder, t.need⟩ := by
  obtain ⟨words, htext, hassemble⟩ := compileConventional_eq_ok_iff.1 h
  obtain ⟨t, hmap, hneed, rfl⟩ := assemble_eq_ok_iff.1 hassemble
  have hopen := Postfix.openAfterAll?_of_compileConventional hinputs h
  have hread : Expression.Unfinished 0 (Token.scan (Text.compact text)) :=
    Expression.Unfinished.append_of_openAfterAll? .nil (fun _ hlast => by cases hlast) hopen
  cases hread with
  | @row rank _ h =>
    obtain ⟨vs, s, m, hloose⟩ := h
    obtain rfl : vs = words := Option.some.inj (hloose.ofTokens?.symm.trans htext)
    exact ⟨rank, vs, t, hloose.read, hmap, hneed, rfl⟩

/-- **Accepted expressions are put together as their programs are.**  In brackets an accepted text compiles to its program,
and as the argument of a call to its program and the operation.  Two of them, with an operator between them in brackets or
as the arguments of a call, compile to the two programs and the operation, or are refused for the depth that it then has. -/
theorem compileConventional_substitute {F : Format} (hinputs : ['('] ∉ inputs) {e₁ e₂ : Text}
    {p₁ p₂ : Program (Binary F)} (h₁ : compileConventional e₁ inputs = .ok p₁)
    (h₂ : compileConventional e₂ inputs = .ok p₂) :
    compileConventional (Text.bracketed e₁) inputs = .ok p₁ ∧
    (∀ f : UnaryOp, compileConventional (f.keyword ++ Text.bracketed e₁) inputs =
      .ok ⟨p₁.ops ++ [.unary f], p₁.maxDepth⟩) ∧
    (∀ (o : Operator) (text : Text), text = Text.bracketed e₁ ++ o.text ++ Text.bracketed e₂ →
      compileConventional text inputs = (joined o.operation p₁ p₂).mapError (⟨·, text⟩)) ∧
    ∀ (f : BinaryOp) (text : Text), Token.startsName f.keyword = true →
      text = f.keyword ++ Text.bracketed (e₁ ++ ',' :: e₂) →
        compileConventional text inputs = (joined f p₁ p₂).mapError (⟨·, text⟩) := by
  obtain ⟨rank₁, ws, l, hread₁, hl, hneed, rfl⟩ := exists_reads hinputs h₁
  obtain ⟨rank₂, vs, r, hread₂, hr, -, rfl⟩ := exists_reads hinputs h₂
  refine ⟨?bracket, fun f => ?call, ?operator, ?callTwo⟩
  case bracket =>
    exact compileConventional_eq_ok_iff.2
      ⟨ws, Postfix.ofText?_bracketed hread₁, assemble_eq_ok_iff.2 ⟨l, hl, hneed, rfl⟩⟩
  case call =>
    obtain ⟨n, hn⟩ : ∃ n : Name, n.text = f.keyword := by cases f <;> exact Expression.exists_name rfl rfl
    have hf : resolve? (V := Binary F) inputs f.keyword = some (.unary f) := resolve?_of_keyword? rfl
    have hall : (ws ++ [f.keyword]).map (resolve? inputs) = (OpTree.unary f l).postorder.map some := by
      simp [OpTree.postorder, hl, hf]
    have hwords := Postfix.ofText?_called hread₁ n
    rw [hn] at hwords
    exact compileConventional_eq_ok_iff.2 ⟨_, hwords, assemble_eq_ok_iff.2 ⟨.unary f l, hall, hneed, rfl⟩⟩
  case operator =>
    rintro o text rfl
    rw [compileConventional_of_ofText? (Postfix.ofText?_between hread₁ hread₂ o),
      assemble_joined hl hr (resolve?_operator o)]
  case callTwo =>
    rintro f text named rfl
    obtain ⟨n, hn⟩ : ∃ n : Name, n.text = f.keyword := by
      cases f <;> cases named <;> exact Expression.exists_name rfl rfl
    have hwords := Postfix.ofText?_calledTwo hread₁ hread₂ n
    rw [hn] at hwords
    rw [compileConventional_of_ofText? hwords, assemble_joined hl hr (resolve?_of_keyword? rfl)]

/-- Texts that are no well-formed expressions: an operator behind its operands, and one in front of them. -/
theorem compileConventional_substitute_malformed :
    let inputs : List Text := ["x".toList]
    let e₁ : Text := "sin(x, -2e-1)*".toList
    let e₂ : Text := "-(x,rand)".toList
    let p₁ : Program Double := ⟨[.input 0, .const (.ofRat (-1 / 5)), .unary .sin, .binary .mul], 2⟩
    let p₂ : Program Double := ⟨[.input 0, .rand, .binary .sub], 2⟩
    let text : Text := "pow(sin(x, -2e-1)*,-(x,rand))".toList
    ['('] ∉ inputs ∧ compileConventional e₁ inputs = .ok p₁ ∧ compileConventional e₂ inputs = .ok p₂ ∧
      compileConventional (Text.bracketed e₁) inputs = .ok p₁ ∧
      compileConventional text inputs = .ok (⟨p₁.ops ++ p₂.ops ++ [.binary .pow], 3⟩ : Program Double) := by
  intro inputs e₁ e₂ p₁ p₂ text
  have hinputs : ['('] ∉ inputs := by decide
  have h₁ : compileConventional e₁ inputs = .ok p₁ := by decide +kernel
  have h₂ : compileConventional e₂ inputs = .ok p₂ := by decide +kernel
  obtain ⟨hbracket, -, -, hcallTwo⟩ := compileConventional_substitute hinputs h₁ h₂
  exact ⟨hinputs, h₁, h₂, hbracket, hcallTwo .pow text rfl rfl⟩

end Program
end SignalFormula
