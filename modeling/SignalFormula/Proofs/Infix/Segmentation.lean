import SignalFormula.Proofs.Infix.Scan
import SignalFormula.Proofs.Words
/-!
# Segmentation — which lexemes a text is cut into

The first lexeme of a text is found by what follows it (`Token.Front`): a separator, a run as long as it goes, a run that
takes a signed exponent, or one of these behind a minus sign where an operand is due.  The rest of the text is cut in the
same way, and all it knows of the lexeme is whether an operand is due behind it (`Token.Front.lexemesFrom_eq`).  So each
lexeme of a text is the first one of what is left of the text there, and that says what it looks like and what stands
beside it (`Token.lexemes_segmentation`).
-/
namespace SignalFormula
namespace Token

/-- A stretch of characters without a separator. -/
def IsRun (w : Text) : Prop := w ≠ [] ∧ ∀ c ∈ w, isSeparator c = false

/-- No run goes on with the text. -/
def EndsRun (rest : Text) : Prop := ∀ c ∈ rest.head?, isSeparator c = true

/-- The text goes on with a sign and a digit, as a numeral does behind its exponent mark. -/
def continuesExponent : Text → Bool
  | [] => false
  | s :: v => isSign [s] && startsDigit v

/-- A lexeme without a sign in front of it, and the text behind it. -/
inductive Unsigned : Text → Text → Prop where
  | run {w rest : Text} (hw : IsRun w) (hend : EndsRun rest)
      (hexponent : startsDigit w = true → endsExponent w = true → continuesExponent rest = false) : Unsigned w rest
  | scaled {w v rest : Text} {s : Char} (hw : IsRun w) (hdigit : startsDigit w = true) (hmark : endsExponent w = true)
      (hsign : isSign [s] = true) (hv : IsRun v) (hdigits : startsDigit v = true) (hend : EndsRun rest) :
      Unsigned (w ++ s :: v) rest

/-- **The first lexeme of a text**, and the text behind it; `due` says that an operand is due. -/
inductive Front (due : Bool) : Text → Text → Prop where
  | separator {c : Char} {rest : Text} (hc : isSeparator c = true)
      (hminus : due = true → c = '-' → startsDigit rest = false) : Front due [c] rest
  | unsigned {w rest : Text} (h : Unsigned w rest) : Front due w rest
  | negative {w rest : Text} (hdue : due = true) (h : Unsigned w rest) (hdigit : startsDigit w = true) :
      Front due ('-' :: w) rest

theorem isSeparator_of_isSign {c : Char} (h : isSign [c] = true) : isSeparator c = true := by
  simp only [isSign, Bool.or_eq_true, decide_eq_true_eq, List.cons.injEq, and_true] at h
  rcases h with rfl | rfl <;> rfl

theorem Unsigned.exists_cons {w rest : Text} (h : Unsigned w rest) : ∃ c t, w = c :: t ∧ isSeparator c = false := by
  cases h with
  | run hw =>
    obtain ⟨c, t, rfl⟩ := List.exists_cons_of_ne_nil hw.1
    exact ⟨c, t, rfl, hw.2 c List.mem_cons_self⟩
  | scaled hw =>
    obtain ⟨c, t, rfl⟩ := List.exists_cons_of_ne_nil hw.1
    exact ⟨c, _, rfl, hw.2 c List.mem_cons_self⟩

/-! ## The first lexeme -/

theorem startsDigit_flatten {p : Text} (hp : p ≠ []) (ps : List Text) :
    startsDigit (p :: ps).flatten = startsDigit p := by
  obtain ⟨c, t, rfl⟩ := List.exists_cons_of_ne_nil hp
  rfl

theorem startsDigit_of_pieces {t p : Text} {ps : List Text} (h : Text.pieces isSeparator t = p :: ps) :
    startsDigit p = startsDigit t := by
  have hp : p ≠ [] := ne_nil_of_mem_pieces (t := t) (by simp [h])
  rw [← Text.flatten_pieces isSeparator t, h, startsDigit_flatten hp]

theorem startsDigit_of_joinExponents {t q : Text} {qs : List Text}
    (h : joinExponents (Text.pieces isSeparator t) = q :: qs) : startsDigit q = startsDigit t := by
  have hq : q ≠ [] := ne_nil_of_mem_joinExponents (fun _ => ne_nil_of_mem_pieces (t := t)) q (by simp [h])
  rw [← Text.flatten_pieces isSeparator t, ← flatten_joinExponents, h, startsDigit_flatten hq]

/-- **A run that no signed exponent follows** stays as it is. -/
theorem joinExponents_run {w rest : Text} (hw : IsRun w) (hend : EndsRun rest)
    (h : startsDigit w = true → endsExponent w = true → continuesExponent rest = false) :
    joinExponents (Text.pieces isSeparator (w ++ rest)) = w :: joinExponents (Text.pieces isSeparator rest) := by
  rw [Text.pieces_stretch hend hw.1 hw.2]
  cases hdigit : startsDigit w with
  | false => exact joinExponents_cons (.inl hdigit) _
  | true =>
    cases hmark : endsExponent w with
    | false => exact joinExponents_cons (.inr hmark) _
    | true =>
      cases rest with
      | nil => rfl
      | cons s u =>
        have hexponent : (isSign [s] && startsDigit u) = false := h hdigit hmark
        rw [Text.pieces_marked (hend s rfl)]
        cases hu : Text.pieces isSeparator u with
        | nil => rfl
        | cons v ps =>
          have hv : startsDigit v = startsDigit u := startsDigit_of_pieces hu
          rw [joinExponents, if_neg]
          rw [hv, Bool.and_assoc, hexponent, Bool.and_false]
          exact Bool.false_ne_true

/-- **A run and its signed exponent** are put together. -/
theorem joinExponents_scaled {w v rest : Text} {s : Char} (hw : IsRun w) (hdigit : startsDigit w = true)
    (hmark : endsExponent w = true) (hsign : isSign [s] = true) (hv : IsRun v) (hdigits : startsDigit v = true)
    (hend : EndsRun rest) : joinExponents (Text.pieces isSeparator (w ++ s :: v ++ rest)) =
      (w ++ s :: v) :: joinExponents (Text.pieces isSeparator rest) := by
  have hs : isSeparator s = true := isSeparator_of_isSign hsign
  have hstops : EndsRun (s :: (v ++ rest)) := fun c hc => by cases hc; exact hs
  rw [List.append_assoc, List.cons_append, Text.pieces_stretch hstops hw.1 hw.2, Text.pieces_marked hs,
    Text.pieces_stretch hend hv.1 hv.2, joinExponents_numeral hdigit hmark hsign hdigits]
  simp

theorem Unsigned.joinExponents_eq {w rest : Text} (h : Unsigned w rest) :
    joinExponents (Text.pieces isSeparator (w ++ rest)) = w :: joinExponents (Text.pieces isSeparator rest) := by
  cases h with
  | run hw hend hexponent => exact joinExponents_run hw hend hexponent
  | scaled hw hdigit hmark hsign hv hdigits hend => exact joinExponents_scaled hw hdigit hmark hsign hv hdigits hend

/-- A text that starts with no separator is a run and a rest that does not go on with it. -/
theorem exists_run {c : Char} (hc : isSeparator c = false) (t : Text) :
    ∃ w rest, c :: t = w ++ rest ∧ IsRun w ∧ EndsRun rest ∧ w.head? = some c := by
  have hall : ∀ d ∈ t.takeWhile fun d => !isSeparator d, isSeparator d = false := fun d hd => by
    simpa using List.all_eq_true.1 List.all_takeWhile d hd
  refine ⟨c :: t.takeWhile fun d => !isSeparator d, t.dropWhile fun d => !isSeparator d, ?_, ⟨List.cons_ne_nil _ _, ?_⟩,
    fun d hd => ?_, rfl⟩
  · rw [List.cons_append, List.takeWhile_append_dropWhile]
  · exact List.forall_mem_cons.2 ⟨hc, hall⟩
  · have hstop := List.head?_dropWhile_not (fun d => !isSeparator d) t
    rw [hd] at hstop
    simpa using hstop

theorem exists_unsigned {c : Char} (hc : isSeparator c = false) (t : Text) :
    ∃ w rest, c :: t = w ++ rest ∧ Unsigned w rest ∧ w.head? = some c := by
  obtain ⟨w, rest, heq, hw, hend, hhead⟩ := exists_run hc t
  cases hall : startsDigit w && endsExponent w && continuesExponent rest with
  | false =>
    refine ⟨w, rest, heq, .run hw hend fun hdigit hmark => ?_, hhead⟩
    simpa [hdigit, hmark] using hall
  | true =>
    simp only [Bool.and_eq_true] at hall
    obtain ⟨⟨hdigit, hmark⟩, hexponent⟩ := hall
    cases rest with
    | nil => cases hexponent
    | cons s u =>
      obtain ⟨hsign, hdigits⟩ := Bool.and_eq_true_iff.1 hexponent
      cases u with
      | nil => cases hdigits
      | cons d u =>
        obtain ⟨v, rest, hu, hv, hend, hd⟩ := exists_run (isSeparator_of_isDigit hdigits) u
        obtain ⟨v, rfl⟩ := List.head?_eq_some_iff.1 hd
        refine ⟨w ++ s :: d :: v, rest, ?_, .scaled hw hdigit hmark hsign hv hdigits hend, ?_⟩
        · rw [heq, hu]
          simp
        · rw [List.head?_append, hhead]
          rfl

theorem precedesOperand_minus {c : Char} (t : Text) : precedesOperand ('-' :: c :: t) = false := by
  have hoperator : Operator.ofText? ('-' :: c :: t) = none := rfl
  simp [precedesOperand, hoperator]

theorem lexemesFrom_separator_alone {due : Bool} {c : Char} {rest : Text} (hc : isSeparator c = true)
    (hminus : due = true → c = '-' → startsDigit rest = false) :
    lexemesFrom due (c :: rest) = [c] :: lexemesFrom (precedesOperand [c]) rest := by
  by_cases hsign : due = true ∧ c = '-'
  · obtain ⟨rfl, rfl⟩ := hsign
    have hrest : startsDigit rest = false := hminus rfl rfl
    rw [lexemesFrom, Text.pieces_marked hc, joinExponents_cons (.inl rfl), lexemesFrom]
    cases hqs : joinExponents (Text.pieces isSeparator rest) with
    | nil => rfl
    | cons q qs =>
      have hq : startsDigit q = false := (startsDigit_of_joinExponents hqs).trans hrest
      rw [joinSigns, if_neg]
      simp [hq]
  · refine lexemesFrom_separator hc ?_ rest
    cases due with
    | false => exact .inl rfl
    | true => exact .inr fun heq => hsign ⟨rfl, heq⟩

/-- **The first lexeme is the first one**, and the rest is cut by itself. -/
theorem Front.lexemesFrom_eq {due : Bool} {w rest : Text} (h : Front due w rest) :
    lexemesFrom due (w ++ rest) = w :: lexemesFrom (precedesOperand w) rest := by
  cases h with
  | separator hc hminus => exact lexemesFrom_separator_alone hc hminus
  | unsigned h =>
    have heq := h.joinExponents_eq
    obtain ⟨c, t, rfl, hc⟩ := h.exists_cons
    have hsign : c :: t ≠ ['-'] := fun hw => by cases hw; cases hc
    rw [lexemesFrom, heq, joinSigns_cons (.inr hsign)]
    rfl
  | negative hdue h hdigit =>
    have heq := h.joinExponents_eq
    obtain ⟨c, t, rfl, -⟩ := h.exists_cons
    rw [List.cons_append, lexemesFrom, Text.pieces_marked rfl, joinExponents_cons (.inl rfl), heq, hdue,
      joinSigns_negative hdigit, precedesOperand_minus]
    rfl

/-- **A text that is not empty has a first lexeme.** -/
theorem exists_front (due : Bool) {t : Text} (ht : t ≠ []) : ∃ w rest, t = w ++ rest ∧ Front due w rest := by
  obtain ⟨c, t, rfl⟩ := List.exists_cons_of_ne_nil ht
  cases hc : isSeparator c with
  | false =>
    obtain ⟨w, rest, heq, hw, -⟩ := exists_unsigned hc t
    exact ⟨w, rest, heq, .unsigned hw⟩
  | true =>
    by_cases hminus : due = true ∧ c = '-' ∧ startsDigit t = true
    · obtain ⟨rfl, rfl, hstarts⟩ := hminus
      cases t with
      | nil => cases hstarts
      | cons d t =>
        obtain ⟨w, rest, heq, hw, hhead⟩ := exists_unsigned (isSeparator_of_isDigit hstarts) t
        obtain ⟨u, rfl⟩ := List.head?_eq_some_iff.1 hhead
        exact ⟨'-' :: d :: u, rest, by rw [heq]; rfl, .negative rfl hw hstarts⟩
    · refine ⟨[c], t, rfl, .separator hc fun hdue hc => ?_⟩
      cases hstarts : startsDigit t with
      | false => rfl
      | true => exact absurd ⟨hdue, hc, hstarts⟩ hminus

/-! ## Every lexeme -/

/-- Whether an operand is due behind some lexemes. -/
def dueBehind (due : Bool) (before : List Text) : Bool := before.getLast?.elim due precedesOperand

theorem lexemesFrom_nil (due : Bool) : lexemesFrom due [] = [] := by cases due <;> rfl

theorem flatten_lexemesFrom (due : Bool) (t : Text) : (lexemesFrom due t).flatten = t := by
  rw [lexemesFrom, flatten_joinSigns, flatten_joinExponents, Text.flatten_pieces]

/-- **Each lexeme is the first one of what is left of the text there.** -/
theorem front_of_lexemesFrom : ∀ {before after : List Text} {due : Bool} {t w : Text},
    lexemesFrom due t = before ++ w :: after → Front (dueBehind due before) w after.flatten
  | before, after, due, [], w, h => by
    rw [lexemesFrom_nil] at h
    cases before <;> cases h
  | [], after, due, c :: t, w, h => by
    obtain ⟨v, rest, heq, hfront⟩ := exists_front due (List.cons_ne_nil c t)
    rw [heq, hfront.lexemesFrom_eq] at h
    cases h
    rw [flatten_lexemesFrom]
    exact hfront
  | b :: before, after, due, c :: t, w, h => by
    obtain ⟨v, rest, heq, hfront⟩ := exists_front due (List.cons_ne_nil c t)
    rw [heq, hfront.lexemesFrom_eq] at h
    obtain ⟨rfl, hrest⟩ := List.cons.inj h
    have ih := front_of_lexemesFrom hrest
    have hdue : dueBehind (precedesOperand v) before = dueBehind due (v :: before) := by
      rw [dueBehind, dueBehind, List.getLast?_cons]
      cases before.getLast? <;> rfl
    rwa [hdue] at ih

/-! ## The lexemes of a text -/

/-- What a lexeme looks like: a separator, a run, or a numeral with a sign in front, within its exponent or both. -/
inductive IsLexeme : Text → Prop where
  | separator {c : Char} (hc : isSeparator c = true) : IsLexeme [c]
  | run {w : Text} (hw : IsRun w) : IsLexeme w
  | negative {w : Text} (hw : IsRun w) (hdigit : startsDigit w = true) : IsLexeme ('-' :: w)
  | scaled {w v : Text} {s : Char} (hw : IsRun w) (hdigit : startsDigit w = true) (hmark : endsExponent w = true)
      (hsign : s = '+' ∨ s = '-') (hv : IsRun v) (hdigits : startsDigit v = true) : IsLexeme (w ++ s :: v)
  | negativeScaled {w v : Text} {s : Char} (hw : IsRun w) (hdigit : startsDigit w = true)
      (hmark : endsExponent w = true) (hsign : s = '+' ∨ s = '-') (hv : IsRun v) (hdigits : startsDigit v = true) :
      IsLexeme ('-' :: (w ++ s :: v))

/-- An operand is due behind some lexemes: there are none, or the last one is an opening bracket, a comma or an
operator. -/
def OperandDue (before : List Text) : Prop :=
  ∀ p ∈ before.getLast?, p = ['('] ∨ p = [','] ∨ ∃ o : Operator, p = o.text

theorem isSign_iff {c : Char} : isSign [c] = true ↔ c = '+' ∨ c = '-' := by
  simp [isSign, or_comm]

theorem precedesOperand_iff {p : Text} :
    precedesOperand p = true ↔ p = ['('] ∨ p = [','] ∨ ∃ o : Operator, p = o.text := by
  simp only [precedesOperand, Bool.or_eq_true, decide_eq_true_eq, Option.isSome_iff_exists, or_assoc]
  refine or_congr_right (or_congr_right (exists_congr fun o => ?_))
  constructor
  · exact fun h => (Operator.text_of_ofText? h).symm
  · rintro rfl
    exact Operator.ofText?_text o

theorem dueBehind_iff {before : List Text} : dueBehind true before = true ↔ OperandDue before := by
  rw [dueBehind, OperandDue]
  cases before.getLast? with
  | none => simp
  | some p => simp [precedesOperand_iff]

theorem exists_separator_of_precedesOperand {p : Text} (h : precedesOperand p = true) :
    ∃ c, p = [c] ∧ isSeparator c = true := by
  rcases precedesOperand_iff.1 h with rfl | rfl | ⟨o, rfl⟩
  · exact ⟨_, rfl, rfl⟩
  · exact ⟨_, rfl, rfl⟩
  · cases o <;> exact ⟨_, rfl, rfl⟩

namespace Unsigned

variable {w rest : Text}

theorem isLexeme (h : Unsigned w rest) : IsLexeme w := by
  cases h with
  | run hw => exact .run hw
  | scaled hw hdigit hmark hsign hv hdigits => exact .scaled hw hdigit hmark (isSign_iff.1 hsign) hv hdigits

theorem isLexeme_minus (h : Unsigned w rest) (hdigit : startsDigit w = true) : IsLexeme ('-' :: w) := by
  cases h with
  | run hw => exact .negative hw hdigit
  | scaled hw hfirst hmark hsign hv hdigits => exact .negativeScaled hw hfirst hmark (isSign_iff.1 hsign) hv hdigits

theorem endsRun (h : Unsigned w rest) : EndsRun rest := by
  cases h <;> assumption

/-- A run that is left without its exponent has none behind it. -/
theorem continuesExponent_eq_false (h : Unsigned w rest) (hw : IsRun w) (hdigit : startsDigit w = true)
    (hmark : endsExponent w = true) : continuesExponent rest = false := by
  cases h with
  | run _ _ hexponent => exact hexponent hdigit hmark
  | @scaled _ _ _ s _ _ _ hsign =>
    have hs : isSeparator s = false := hw.2 s (by simp)
    rw [isSeparator_of_isSign hsign] at hs
    cases hs

end Unsigned

namespace Front

variable {due : Bool} {w rest : Text}

theorem ne_nil (h : Front due w rest) : w ≠ [] := by
  cases h with
  | separator | negative => exact List.cons_ne_nil _ _
  | unsigned h =>
    obtain ⟨c, t, rfl, -⟩ := h.exists_cons
    exact List.cons_ne_nil _ _

theorem isLexeme (h : Front due w rest) : IsLexeme w := by
  cases h with
  | separator hc => exact .separator hc
  | unsigned h => exact h.isLexeme
  | negative _ h hdigit => exact h.isLexeme_minus hdigit

theorem separator_or_endsRun (h : Front due w rest) : (∃ c, w = [c] ∧ isSeparator c = true) ∨ EndsRun rest := by
  cases h with
  | separator hc => exact .inl ⟨_, rfl, hc⟩
  | unsigned h => exact .inr h.endsRun
  | negative _ h => exact .inr h.endsRun

theorem due_of_minus (h : Front due w rest) (hlength : 1 < w.length) (hhead : w.head? = some '-') : due = true := by
  cases h with
  | separator => exact absurd hlength (Nat.lt_irrefl 1)
  | unsigned h =>
    obtain ⟨c, t, rfl, hc⟩ := h.exists_cons
    cases hhead
    cases hc
  | negative hdue => exact hdue

theorem startsDigit_of_minus (h : Front due ['-'] rest) (hdue : due = true) : startsDigit rest = false := by
  cases h with
  | separator _ hminus => exact hminus hdue rfl
  | unsigned h =>
    obtain ⟨c, t, heq, hc⟩ := h.exists_cons
    cases heq
    cases hc
  | negative _ _ hdigit => cases hdigit

/-- A numeral that is left without its exponent has none behind it, whether there is a minus sign in front or not. -/
theorem continuesExponent_eq_false {v : Text} (h : Front due w rest) (hv : IsRun v) (hdigit : startsDigit v = true)
    (hmark : endsExponent v = true) (hw : w = v ∨ w = '-' :: v) : continuesExponent rest = false := by
  obtain ⟨c, t, rfl⟩ := List.exists_cons_of_ne_nil hv.1
  have hc : isSeparator c = false := hv.2 c List.mem_cons_self
  rcases hw with rfl | rfl
  · cases h with
    | separator hsep => exact absurd (hsep.symm.trans hc) (by decide)
    | unsigned h => exact h.continuesExponent_eq_false hv hdigit hmark
    | negative => cases hc
  · cases h with
    | unsigned h =>
      obtain ⟨d, u, heq, hd⟩ := h.exists_cons
      cases heq
      cases hd
    | negative _ h => exact h.continuesExponent_eq_false hv hdigit hmark

/-- **What stands before a lexeme that is no separator** is one. -/
theorem exists_separator_before {due' : Bool} {b after : Text} (hb : Front due b (w ++ after))
    (hw : Front due' w after) (hdue : due' = precedesOperand b) (hno : ∀ c, w = [c] → isSeparator c = false) :
    ∃ c, b = [c] ∧ isSeparator c = true := by
  cases hw with
  | @separator c _ hc => exact absurd (hc.symm.trans (hno c rfl)) (by decide)
  | unsigned h =>
    obtain ⟨c, t, rfl, hc⟩ := h.exists_cons
    rcases hb.separator_or_endsRun with hsep | hends
    · exact hsep
    · exact absurd ((hends c rfl).symm.trans hc) (by decide)
  | negative htrue => exact exists_separator_of_precedesOperand (hdue.symm.trans htrue)

end Front

theorem isLexeme_of_mem_lexemes {t w : Text} (h : w ∈ lexemes t) : IsLexeme w := by
  obtain ⟨before, after, heq⟩ := List.append_of_mem h
  exact (front_of_lexemesFrom heq).isLexeme

/-- A lexeme with a separator in it that is no sign is that separator. -/
theorem IsLexeme.eq_singleton {w : Text} (h : IsLexeme w) {c : Char} (hmem : c ∈ w) (hc : isSeparator c = true)
    (hsign : ¬ (c = '+' ∨ c = '-')) : w = [c] := by
  have hrun : ∀ {v : Text}, IsRun v → c ∉ v := fun hv hcv => absurd ((hv.2 c hcv).symm.trans hc) (by decide)
  cases h with
  | separator => rw [List.mem_singleton.1 hmem]
  | run hw => exact absurd hmem (hrun hw)
  | negative hw =>
    rcases List.mem_cons.1 hmem with rfl | hmem
    · exact absurd (.inr rfl) hsign
    · exact absurd hmem (hrun hw)
  | scaled hw _ _ hs hv =>
    rcases List.mem_append.1 hmem with hmem | hmem
    · exact absurd hmem (hrun hw)
    · rcases List.mem_cons.1 hmem with rfl | hmem
      · exact absurd hs hsign
      · exact absurd hmem (hrun hv)
  | negativeScaled hw _ _ hs hv =>
    rcases List.mem_cons.1 hmem with rfl | hmem
    · exact absurd (.inr rfl) hsign
    · rcases List.mem_append.1 hmem with hmem | hmem
      · exact absurd hmem (hrun hw)
      · rcases List.mem_cons.1 hmem with rfl | hmem
        · exact absurd hs hsign
        · exact absurd hmem (hrun hv)

/-- A lexeme that is no separator stands between separators, or at an end of the text. -/
theorem isSeparator_beside {t w : Text} {before after : List Text} (h : lexemes t = before ++ w :: after)
    (hno : ∀ c, w = [c] → isSeparator c = false) :
    (∀ c ∈ before.flatten.getLast?, isSeparator c = true) ∧ EndsRun after.flatten := by
  have hfront : Front _ w after.flatten := front_of_lexemesFrom h
  constructor
  · rcases List.eq_nil_or_concat before with rfl | ⟨front, b, rfl⟩
    · exact nofun
    · rw [List.concat_eq_append] at h hfront ⊢
      have hsplit : lexemes t = front ++ b :: w :: after := by simpa using h
      have hb : Front _ b (w :: after).flatten := front_of_lexemesFrom hsplit
      have hdue : dueBehind true (front ++ [b]) = precedesOperand b := by rw [dueBehind, List.getLast?_concat]; rfl
      obtain ⟨c, rfl, hc⟩ := Front.exists_separator_before hb hfront hdue hno
      intro d hd
      rw [List.flatten_append, List.flatten_singleton, List.getLast?_concat] at hd
      cases hd
      exact hc
  · rcases hfront.separator_or_endsRun with ⟨c, rfl, hc⟩ | hends
    · exact absurd (hc.symm.trans (hno c rfl)) (by decide)
    · exact hends

/-- **A text is cut into its lexemes without loss**, white space or not.  None is empty, and each is a separator, a run or
a numeral with its signs.  Where it is no separator it goes as far as it can, up to a separator on both sides.  A minus
sign is part of a longer lexeme only where an operand is due, and where one is due, it stands alone only if no digit
follows.  And a sign and a digit never follow a numeral that ends in the exponent mark and has no other sign within. -/
theorem lexemes_segmentation (t : Text) :
    (lexemes t).flatten = t ∧
    ∀ (before : List Text) (w : Text) (after : List Text), lexemes t = before ++ w :: after →
      w ≠ [] ∧ IsLexeme w ∧
      ((∀ c, w = [c] → isSeparator c = false) →
        (∀ c ∈ before.flatten.getLast?, isSeparator c = true) ∧ EndsRun after.flatten) ∧
      (1 < w.length → w.head? = some '-' → OperandDue before) ∧
      (w = ['-'] → OperandDue before → startsDigit after.flatten = false) ∧
      ∀ v, IsRun v → startsDigit v = true → endsExponent v = true → (w = v ∨ w = '-' :: v) →
        ∀ s rest, after = [s] :: rest → (s = '+' ∨ s = '-') → startsDigit rest.flatten = false := by
  refine ⟨flatten_lexemes t, fun before w after h => ?_⟩
  have hfront : Front (dueBehind true before) w after.flatten := front_of_lexemesFrom h
  refine ⟨hfront.ne_nil, hfront.isLexeme, isSeparator_beside h, fun hlength hhead => ?_, ?_, ?_⟩
  · exact dueBehind_iff.1 (hfront.due_of_minus hlength hhead)
  · rintro rfl hdue
    exact hfront.startsDigit_of_minus (dueBehind_iff.2 hdue)
  · rintro v hv hdigit hmark hw s rest rfl hs
    have hcontinues : (isSign [s] && startsDigit rest.flatten) = false :=
      hfront.continuesExponent_eq_false hv hdigit hmark hw
    rwa [isSign_iff.2 hs, Bool.true_and] at hcontinues

/-- A numeral that takes a first exponent and leaves the second; and a minus sign behind an operator, alone before a
name and not before a digit beyond it. -/
theorem lexemes_segmentation_chain :
    let t : Text := "-1e-2e-3*--4e\u00e9 x".toList
    lexemes t = ["-1e-2e".toList, ['-'], ['3'], ['*'], ['-'], "-4e\u00e9 x".toList] ∧ IsLexeme "-1e-2e".toList ∧
      OperandDue ["-1e-2e".toList, ['-'], ['3'], ['*'], ['-']] ∧ startsDigit "-4e\u00e9 x".toList = false := by
  intro t
  have hlexemes : lexemes t = ["-1e-2e".toList, ['-'], ['3'], ['*'], ['-'], "-4e\u00e9 x".toList] := by decide +kernel
  have hdue : OperandDue ["-1e-2e".toList, ['-'], ['3'], ['*']] := fun p hp => by
    cases hp
    exact .inr (.inr ⟨.times, rfl⟩)
  have hevery := (lexemes_segmentation t).2
  obtain ⟨-, hshape, -⟩ := hevery [] _ _ hlexemes
  obtain ⟨-, -, -, hlong, -⟩ := hevery ["-1e-2e".toList, ['-'], ['3'], ['*'], ['-']] _ _ hlexemes
  obtain ⟨-, -, -, -, halone, -⟩ := hevery ["-1e-2e".toList, ['-'], ['3'], ['*']] _ _ hlexemes
  exact ⟨hlexemes, hshape, hlong (by decide) rfl, halone rfl hdue⟩

end Token
end SignalFormula
