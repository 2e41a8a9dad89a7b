import SignalFormula.Proofs.Infix.Expression
import SignalFormula.Token.Lexeme
/-!
# Scan — the tokens of a writing are read off its text

A text is cut at every separator, so a literal with signs in it falls apart.  It is put together again by what stands
around its signs: the exponent's sign between the mark and digits (`Literal.joinExponents_magnitude`), the minus sign in
front of digits where an operand is due.  In a writing operands stand exactly where they are due (`Token.Alternates`), so
neither pass takes an operator for a sign (`Token.scan_of_alternates`).
-/
namespace SignalFormula

namespace Text

variable {cut : Char → Bool}

theorem startsWith_of_pieces {t p : Text} {ps : List Text} (h : pieces cut t = p :: ps) :
    startsWith cut p = startsWith cut t := by
  cases t with
  | nil => cases h
  | cons c t =>
    rw [pieces] at h
    split at h
    · cases h; rfl
    · split at h <;> cases h <;> rfl

theorem pieces_marked {c : Char} (h : cut c = true) (t : Text) : pieces cut (c :: t) = [c] :: pieces cut t := by
  rw [pieces]
  cases pieces cut t with
  | nil => rfl
  | cons p ps => simp [h]

/-- **A stretch that ends at a mark is one piece.** -/
theorem pieces_stretch {t : Text} (ht : ∀ c ∈ t.head?, cut c = true) : ∀ {p : Text}, p ≠ [] →
    (∀ c ∈ p, cut c = false) → pieces cut (p ++ t) = p :: pieces cut t
  | [c], _, hp => by
    rw [List.singleton_append, pieces]
    cases hps : pieces cut t with
    | nil => rfl
    | cons q qs =>
      have hq : startsWith cut q = true := by
        rw [startsWith_of_pieces hps]
        cases t with
        | nil => cases hps
        | cons d t => exact ht d rfl
      simp [hq]
  | c :: d :: p, _, hp => by
    have hc : cut c = false := hp c List.mem_cons_self
    have hd : cut d = false := hp d (List.mem_cons_of_mem _ List.mem_cons_self)
    have ih := pieces_stretch ht (List.cons_ne_nil d p) fun x hx => hp x (List.mem_cons_of_mem _ hx)
    rw [List.cons_append, pieces, ih]
    simp [hc, hd, startsWith]

end Text

namespace Token

/-! ## The two passes, piece by piece -/

theorem joinExponents_cons {w : Text} (h : startsDigit w = false ∨ endsExponent w = false) (ps : List Text) :
    joinExponents (w :: ps) = w :: joinExponents ps := by
  match ps with
  | [] => rfl
  | [s] => rfl
  | s :: v :: ps =>
    rw [joinExponents, if_neg]
    rcases h with h | h <;> simp [h]

theorem joinExponents_numeral {w s v : Text} (hdigit : startsDigit w = true) (hmark : endsExponent w = true)
    (hsign : isSign s = true) (hdigits : startsDigit v = true) (ps : List Text) :
    joinExponents (w :: s :: v :: ps) = (w ++ s ++ v) :: joinExponents ps := by
  rw [joinExponents, if_pos (by simp [hdigit, hmark, hsign, hdigits])]

/-- **A stretch that is no numeral with a signed exponent to come** stays as it is. -/
theorem joinExponents_stretch {w t : Text} (ht : ∀ c ∈ t.head?, isSeparator c = true) (hne : w ≠ [])
    (hw : ∀ c ∈ w, isSeparator c = false) (h : startsDigit w = false ∨ endsExponent w = false) :
    joinExponents (Text.pieces isSeparator (w ++ t)) = w :: joinExponents (Text.pieces isSeparator t) := by
  rw [Text.pieces_stretch ht hne hw, joinExponents_cons h]

theorem joinSigns_cons {due : Bool} {p : Text} (h : due = false ∨ p ≠ ['-']) (ps : List Text) :
    joinSigns due (p :: ps) = p :: joinSigns (precedesOperand p) ps := by
  cases ps with
  | nil => rfl
  | cons w ps =>
    rw [joinSigns, if_neg]
    rcases h with h | h <;> simp [h]

theorem joinSigns_negative {w : Text} (h : startsDigit w = true) (ps : List Text) :
    joinSigns true (['-'] :: w :: ps) = ('-' :: w) :: joinSigns false ps := by
  rw [joinSigns, if_pos (by simp [h])]

/-! ## Characters of words -/

theorem isSeparator_eq_false {P : Char → Bool} (hP : "(),*/+-^".toList.all (!P ·) = true) {c : Char} (h : P c = true) :
    isSeparator c = false := by
  have hmem : ∀ d ∈ "(),*/+-^".toList, P d = false := by simpa using hP
  cases hc : isSeparator c with
  | false => rfl
  | true =>
    have hc' : c ∈ "(),*/+-^".toList := by simpa [isSeparator, or_assoc] using hc
    rw [hmem c hc'] at h
    cases h

theorem isSeparator_of_isDigit {c : Char} (h : c.isDigit = true) : isSeparator c = false :=
  isSeparator_eq_false (P := Char.isDigit) (by decide) h

theorem isSeparator_of_startsName {c : Char} {w : Text} (h : startsName (c :: w) = true) : isSeparator c = false :=
  isSeparator_eq_false (P := fun c => startsName [c]) (by decide) h

theorem startsDigit_of_startsName {t : Text} (h : startsName t = true) : startsDigit t = false := by
  cases t with
  | nil => rfl
  | cons c t =>
    show c.isDigit = false
    rw [startsName, Bool.or_eq_true] at h
    rcases h with h | h
    · have hletter : 65 ≤ c.toNat := by
        rcases Bool.or_eq_true_iff.1 h with hcase | hcase
        · have hupper : 'A'.val ≤ c.val := (of_decide_eq_true hcase).1
          exact UInt32.le_iff_toNat_le.1 hupper
        · have hlower : 'a'.val ≤ c.val := of_decide_eq_true (Bool.and_eq_true_iff.1 hcase).1
          exact Nat.le_trans (by decide) (UInt32.le_iff_toNat_le.1 hlower)
      cases hd : c.isDigit with
      | false => rfl
      | true =>
        have hle : c.toNat ≤ 57 := (Char.isDigit_iff_toNat.1 hd).2
        omega
    · rw [of_decide_eq_true h]; rfl

theorem precedesOperand_cons {c : Char} (h : isSeparator c = false) (t : Text) : precedesOperand (c :: t) = false := by
  cases hp : precedesOperand (c :: t) with
  | false => rfl
  | true =>
    simp only [precedesOperand, Bool.or_eq_true, decide_eq_true_eq, Option.isSome_iff_exists] at hp
    rcases hp with (hp | hp) | ⟨o, ho⟩
    · cases hp; cases h
    · cases hp; cases h
    · have htext := Operator.text_of_ofText? ho
      cases o <;> cases htext <;> cases h

theorem ofText_cons {c : Char} (h : isSeparator c = false) (t : Text) :
    ofText (c :: t) = if startsName (c :: t) then .name (c :: t) else .operand (c :: t) := by
  unfold ofText
  split
  · rename_i heq; cases heq; cases h
  · rename_i heq; cases heq; cases h
  · rename_i heq; cases heq; cases h
  · cases ho : Operator.ofText? (c :: t) with
    | none => rfl
    | some o =>
      have htext := Operator.text_of_ofText? ho
      cases o <;> cases htext <;> cases h

end Token

namespace Literal

open Token (isSeparator startsDigit endsExponent joinExponents)

theorem isDigit_or_point_of_mem_mantissa {l : Literal} {c : Char} (h : c ∈ l.mantissa) :
    c.isDigit = true ∨ c = '.' := by
  rw [mantissa] at h
  rcases List.mem_append.1 h with h | h
  · exact .inl (l.isDigit_whole c h)
  · cases hf : l.fraction with
    | none => rw [hf] at h; cases h
    | some f =>
      rw [hf] at h
      rcases List.mem_cons.1 h with rfl | h
      · exact .inr rfl
      · exact .inl (l.isDigit_fraction f hf c h)

theorem exists_mantissa_eq (l : Literal) : ∃ c t, l.mantissa = c :: t ∧ c.isDigit = true := by
  obtain ⟨c, t, hw⟩ := List.exists_cons_of_ne_nil l.whole_ne_nil
  exact ⟨c, _, by rw [mantissa, hw]; rfl, l.isDigit_whole c (by simp [hw])⟩

theorem exists_magnitude_eq (l : Literal) : ∃ c t, l.magnitude = c :: t ∧ c.isDigit = true := by
  obtain ⟨c, t, hm, hc⟩ := l.exists_mantissa_eq
  exact ⟨c, _, by rw [magnitude, hm]; rfl, hc⟩

theorem endsExponent_append {t u : Text} (hne : u ≠ []) (h : ∀ c ∈ u, c.isDigit = true ∨ c = '.') :
    endsExponent (t ++ u) = false := by
  rw [endsExponent, Text.endsWith, List.reverse_append]
  cases hu : u.reverse with
  | nil => exact absurd (List.reverse_eq_nil_iff.1 hu) hne
  | cons c v =>
    have hc : c ∈ u := by rw [← List.mem_reverse, hu]; exact List.mem_cons_self
    show (decide (c = 'e') || decide (c = 'E')) = false
    cases hmark : decide (c = 'e') || decide (c = 'E') with
    | false => rfl
    | true =>
      simp only [Bool.or_eq_true, decide_eq_true_eq] at hmark
      rcases hmark with rfl | rfl <;> rcases h _ hc with h | h <;> cases h

theorem endsExponent_append_mark {t : Text} {c : Char} (h : c = 'e' ∨ c = 'E') : endsExponent (t ++ [c]) = true := by
  rw [endsExponent, Text.endsWith, List.reverse_append]
  show (decide (c = 'e') || decide (c = 'E')) = true
  simpa using h

/-- **A literal without its minus sign is put together again.** -/
theorem joinExponents_magnitude (l : Literal) {t : Text} (ht : ∀ c ∈ t.head?, isSeparator c = true) :
    joinExponents (Text.pieces isSeparator (l.magnitude ++ t)) =
      l.magnitude :: joinExponents (Text.pieces isSeparator t) := by
  obtain ⟨c, w, hw, hc⟩ := l.exists_mantissa_eq
  have hne : l.mantissa ≠ [] := by rw [hw]; exact List.cons_ne_nil _ _
  have hmantissa : ∀ c ∈ l.mantissa, isSeparator c = false := fun c hc => by
    rcases isDigit_or_point_of_mem_mantissa hc with h | rfl
    · exact Token.isSeparator_of_isDigit h
    · rfl
  rw [magnitude]
  cases l.exponent with
  | none =>
    simp only [List.append_nil]
    refine Token.joinExponents_stretch ht hne hmantissa (.inr ?_)
    exact endsExponent_append (t := []) hne fun c hc => isDigit_or_point_of_mem_mantissa hc
  | some e =>
    have hmarked : ∀ c ∈ l.mantissa ++ [e.mark], isSeparator c = false := fun c hc => by
      rcases List.mem_append.1 hc with hc | hc
      · exact hmantissa c hc
      · rw [List.mem_singleton.1 hc]
        rcases e.mark_eq with h | h <;> rw [h] <;> rfl
    have hdigits : ∀ c ∈ e.digits, isSeparator c = false := fun c hc =>
      Token.isSeparator_of_isDigit (e.isDigit_digits c hc)
    have hstart : startsDigit (l.mantissa ++ [e.mark]) = true := by rw [hw]; exact hc
    have hdigit : startsDigit e.digits = true := by
      obtain ⟨d, ds, hd⟩ := List.exists_cons_of_ne_nil e.digits_ne_nil
      rw [hd]
      exact e.isDigit_digits d (by simp [hd])
    -- with a sign the exponent comes in three pieces, without one the literal is a single piece
    have hsigned : ∀ s : Char, isSeparator s = true → Token.isSign [s] = true →
        joinExponents (Text.pieces isSeparator (l.mantissa ++ [e.mark] ++ s :: (e.digits ++ t))) =
          (l.mantissa ++ [e.mark] ++ s :: e.digits) :: joinExponents (Text.pieces isSeparator t) := fun s hs hsign => by
      rw [Text.pieces_stretch (by simpa using hs) (by simp) hmarked, Text.pieces_marked hs,
        Text.pieces_stretch ht e.digits_ne_nil hdigits,
        Token.joinExponents_numeral hstart (endsExponent_append_mark e.mark_eq) hsign hdigit]
      simp
    rcases e.sign_eq with hs | hs | hs <;> simp only [hs]
    · have hword : ∀ c ∈ l.mantissa ++ [e.mark] ++ e.digits, isSeparator c = false := fun c hc =>
        (List.mem_append.1 hc).elim (hmarked c) (hdigits c)
      have hends : endsExponent (l.mantissa ++ [e.mark] ++ e.digits) = false :=
        endsExponent_append e.digits_ne_nil fun c hc => .inl (e.isDigit_digits c hc)
      simpa using Token.joinExponents_stretch ht (by simp) hword (.inr hends)
    · simpa using hsigned '+' rfl rfl
    · simpa using hsigned '-' rfl rfl

end Literal

namespace Token

/-! ## A row of tokens -/

/-- Operands stand where one is due and operators where none is; names and literals are such. -/
def Alternates : Bool → List Token → Prop
  | _, [] => True
  | due, .operator _ :: ts => due = false ∧ Alternates true ts
  | _, .openParen :: ts => Alternates true ts
  | _, .comma :: ts => Alternates true ts
  | _, .closeParen :: ts => Alternates false ts
  | due, .name w :: ts => due = true ∧ (∃ n : Name, n.text = w) ∧ Alternates false ts
  | due, .operand w :: ts => due = true ∧ (∃ l : Literal, l.text = w) ∧ Alternates false ts

def written (ts : List Token) : Text := (ts.map text).flatten

theorem written_cons (t : Token) (ts : List Token) : written (t :: ts) = t.text ++ written ts := by
  rw [written, List.map_cons, List.flatten_cons]; rfl

theorem Alternates.isSeparator_head {ts : List Token} (h : Alternates false ts) :
    ∀ c ∈ (written ts).head?, isSeparator c = true := by
  intro c hc
  cases ts with
  | nil => cases hc
  | cons t ts =>
    rw [written_cons] at hc
    cases t with
    | openParen => cases hc; rfl
    | closeParen => cases hc; rfl
    | comma => cases hc; rfl
    | operator o => cases o <;> cases hc <;> rfl
    | name w => cases h.1
    | operand w => cases h.1

/-- The lexemes of a text that follows a token after which an operand is due, or is not. -/
def lexemesFrom (due : Bool) (t : Text) : List Text := joinSigns due (joinExponents (Text.pieces isSeparator t))

theorem lexemesFrom_separator {due : Bool} {c : Char} (hc : isSeparator c = true) (h : due = false ∨ c ≠ '-')
    (t : Text) : lexemesFrom due (c :: t) = [c] :: lexemesFrom (precedesOperand [c]) t := by
  have hdigit : startsDigit [c] = false := by
    show c.isDigit = false
    cases hd : c.isDigit with
    | false => rfl
    | true => rw [isSeparator_of_isDigit hd] at hc; cases hc
  rw [lexemesFrom, Text.pieces_marked hc, joinExponents_cons (.inl hdigit), joinSigns_cons (by simpa using h)]
  rfl

/-- A word that the first pass leaves or makes, where a separator follows. -/
theorem lexemesFrom_word {due : Bool} {c : Char} {w t : Text} (hc : isSeparator c = false)
    (h : joinExponents (Text.pieces isSeparator (c :: w ++ t)) =
      (c :: w) :: joinExponents (Text.pieces isSeparator t)) :
    lexemesFrom due (c :: w ++ t) = (c :: w) :: lexemesFrom false t := by
  have hsign : c :: w ≠ ['-'] := fun hw => by cases hw; cases hc
  rw [lexemesFrom, h, joinSigns_cons (.inr hsign), precedesOperand_cons hc]
  rfl

theorem lexemesFrom_name {due : Bool} (n : Name) {t : Text} (ht : ∀ c ∈ t.head?, isSeparator c = true) :
    lexemesFrom due (n.text ++ t) = n.text :: lexemesFrom false t := by
  obtain ⟨w, hstarts, hsep, -⟩ := n
  cases w with
  | nil => cases hstarts
  | cons c w =>
    have hdigit : startsDigit (c :: w) = false := startsDigit_of_startsName hstarts
    exact lexemesFrom_word (hsep c List.mem_cons_self)
      (joinExponents_stretch ht (List.cons_ne_nil c w) hsep (.inl hdigit))

/-- **A literal where an operand is due is one lexeme**, its minus sign with it. -/
theorem lexemesFrom_literal (l : Literal) {t : Text} (ht : ∀ c ∈ t.head?, isSeparator c = true) :
    lexemesFrom true (l.text ++ t) = l.text :: lexemesFrom false t := by
  have hjoin := l.joinExponents_magnitude ht
  obtain ⟨c, w, hw, hc⟩ := l.exists_magnitude_eq
  rw [Literal.text]
  rw [hw] at hjoin ⊢
  cases l.negative with
  | false => exact lexemesFrom_word (isSeparator_of_isDigit hc) hjoin
  | true =>
    show lexemesFrom true ('-' :: (c :: w ++ t)) = _
    rw [lexemesFrom, Text.pieces_marked rfl, joinExponents_cons (.inl rfl), hjoin, joinSigns_negative (w := c :: w) hc]
    rfl

/-- **The texts of tokens that alternate are the lexemes of their row.** -/
theorem lexemesFrom_of_alternates : ∀ {ts : List Token} {due : Bool}, Alternates due ts →
    lexemesFrom due (written ts) = ts.map text
  | [], due, _ => by cases due <;> rfl
  | t :: ts, due, h => by
    rw [written_cons, List.map_cons]
    cases t with
    | openParen =>
      have hts : Alternates true ts := h
      rw [← lexemesFrom_of_alternates hts]
      exact lexemesFrom_separator rfl (.inr (by decide)) _
    | closeParen =>
      have hts : Alternates false ts := h
      rw [← lexemesFrom_of_alternates hts]
      exact lexemesFrom_separator rfl (.inr (by decide)) _
    | comma =>
      have hts : Alternates true ts := h
      rw [← lexemesFrom_of_alternates hts]
      exact lexemesFrom_separator rfl (.inr (by decide)) _
    | operator o =>
      rw [← lexemesFrom_of_alternates h.2]
      cases o <;> exact lexemesFrom_separator rfl (.inl h.1) _
    | name w =>
      obtain ⟨rfl, ⟨n, rfl⟩, hts⟩ := h
      rw [← lexemesFrom_of_alternates hts]
      exact lexemesFrom_name n hts.isSeparator_head
    | operand w =>
      obtain ⟨rfl, ⟨l, rfl⟩, hts⟩ := h
      rw [← lexemesFrom_of_alternates hts]
      exact lexemesFrom_literal l hts.isSeparator_head

theorem ofText_of_startsName {w : Text} (h : startsName w = true) : ofText w = .name w := by
  cases w with
  | nil => cases h
  | cons c w => rw [ofText_cons (isSeparator_of_startsName h), if_pos h]

theorem startsName_of_ofText {w v : Text} (h : ofText w = .name v) : startsName w = true := by
  unfold ofText at h
  split at h
  · cases h
  · cases h
  · cases h
  · split at h
    · cases h
    · split at h
      · assumption
      · cases h

theorem ofText_name (n : Name) : ofText n.text = .name n.text := ofText_of_startsName n.startsName

theorem ofText_literal (l : Literal) : ofText l.text = .operand l.text := by
  obtain ⟨c, w, hw, hc⟩ := l.exists_magnitude_eq
  have hname : startsName (c :: w) = false := by
    cases hs : startsName (c :: w) with
    | false => rfl
    | true =>
      have hdigit : c.isDigit = false := startsDigit_of_startsName hs
      rw [hc] at hdigit; cases hdigit
  rw [Literal.text, hw]
  cases l.negative with
  | true => rfl
  | false => simp [ofText_cons (isSeparator_of_isDigit hc), hname]

theorem ofText_text_of_alternates : ∀ {ts : List Token} {due : Bool}, Alternates due ts →
    ∀ t ∈ ts, ofText t.text = t
  | t :: ts, due, h, u, hu => by
    have hrest : (∃ due', Alternates due' ts) ∧ ofText t.text = t := by
      cases t with
      | openParen => exact ⟨⟨_, h⟩, rfl⟩
      | closeParen => exact ⟨⟨_, h⟩, rfl⟩
      | comma => exact ⟨⟨_, h⟩, rfl⟩
      | operator o => exact ⟨⟨_, h.2⟩, by cases o <;> rfl⟩
      | name w =>
        obtain ⟨-, ⟨n, rfl⟩, hts⟩ := h
        exact ⟨⟨_, hts⟩, ofText_name n⟩
      | operand w =>
        obtain ⟨-, ⟨l, rfl⟩, hts⟩ := h
        exact ⟨⟨_, hts⟩, ofText_literal l⟩
    obtain ⟨⟨due', hts⟩, ht⟩ := hrest
    rcases List.mem_cons.1 hu with rfl | hu
    · exact ht
    · exact ofText_text_of_alternates hts u hu

/-- **Tokens that alternate are scanned back from their texts in a row.** -/
theorem scan_of_alternates {ts : List Token} (h : Alternates true ts) : scan (written ts) = ts := by
  show (lexemesFrom true (written ts)).map ofText = ts
  rw [lexemesFrom_of_alternates h, List.map_map]
  conv => rhs; rw [← List.map_id ts]
  exact List.map_congr_left (ofText_text_of_alternates h)

end Token

namespace Expression

open Token (Alternates)

theorem exists_name {t : Text} (h : Token.startsName t = true)
    (hall : t.all (fun c => !Token.isSeparator c && !Text.isBlank c) = true) : ∃ n : Name, n.text = t := by
  simp only [List.all_eq_true, Bool.and_eq_true, Bool.not_eq_true'] at hall
  exact ⟨⟨t, h, fun c hc => (hall c hc).1, fun c hc => (hall c hc).2⟩, rfl⟩

theorem alternates_called {t : Text} (h : ∃ n : Name, n.text = t) {ts : List Token} (hts : Alternates true ts) :
    Alternates true (.name t :: .openParen :: ts) := ⟨rfl, h, hts⟩

/-- **In a writing operands stand where they are due.** -/
theorem Writes.alternates {e : Expression Atom} {rank : Nat} {ts : List Token} (h : Writes Atom.token e rank ts) :
    ∀ {rest : List Token}, Alternates false rest → Alternates true (ts ++ rest) := by
  have hrand : ∃ n : Name, n.text = randWord := exists_name rfl rfl
  induction h with
  | leaf a =>
    intro rest hrest
    cases a with
    | literal l => exact ⟨rfl, ⟨l, rfl⟩, hrest⟩
    | name n _ => exact ⟨rfl, ⟨n, rfl⟩, hrest⟩
  | rand => exact fun hrest => ⟨rfl, hrand, hrest⟩
  | randCall => exact fun hrest => alternates_called hrand hrest
  | bracket _ ih =>
    intro rest hrest
    have hclose : Alternates false (.closeParen :: rest) := hrest
    have hinner : Alternates true (.openParen :: _) := ih hclose
    simpa using hinner
  | @operator o _ _ _ _ _ rs _ _ _ _ ihL ihR =>
    intro rest hrest
    have hoperator : Alternates false (.operator o :: (rs ++ rest)) := ⟨rfl, ihR hrest⟩
    simpa using ihL hoperator
  | @call f _ _ _ _ ih =>
    intro rest hrest
    have hname : ∃ n : Name, n.text = f.keyword := by cases f <;> exact exists_name rfl rfl
    have hclose : Alternates false (.closeParen :: rest) := hrest
    simpa using alternates_called hname (ih hclose)
  | @callTwo f named _ _ _ _ _ rs _ _ ihL ihR =>
    intro rest hrest
    have hname : ∃ n : Name, n.text = f.keyword := by cases f <;> cases named <;> exact exists_name rfl rfl
    have hclose : Alternates false (.closeParen :: rest) := hrest
    have hcomma : Alternates false (.comma :: (rs ++ .closeParen :: rest)) := ihR hclose
    simpa using alternates_called hname (ihL hcomma)

/-- **A writing is scanned back from its text.** -/
theorem Writes.scan {e : Expression Atom} {rank : Nat} {ts : List Token} (h : Writes Atom.token e rank ts) :
    Token.scan (Token.written ts) = ts := by
  have halternates : Alternates true (ts ++ []) := h.alternates trivial
  rw [List.append_nil] at halternates
  exact Token.scan_of_alternates halternates

end Expression

end SignalFormula
