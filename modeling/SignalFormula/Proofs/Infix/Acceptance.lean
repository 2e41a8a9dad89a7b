import SignalFormula.Proofs.Infix.Tally
import SignalFormula.Proofs.Infix.Translation
import SignalFormula.Proofs.Infix.Unfinished
import Mathlib.Control.Monad.Basic
/-!
# Acceptance — what the tokens of an accepted expression are

Words are assembled by counting operands, so a program comes out of a loose row of tokens if the count comes out right:
an operand too many at one place makes up for a missing one at another, as in `sin(x,2)*`.  That is the only way: the
tokens of an accepted expression make up a loose row, and in it there are as many operands in surplus as are missing.  If
there is none of them, the tokens are a writing of an expression, and the program is its postorder
(`compileConventional_derives`).
-/
namespace SignalFormula

open Program (resolve? Stands)

/-! ## Names and literals apart -/

namespace Token

theorem ofText_text_of_mem_scan {t : Text} {token : Token} (h : token ∈ scan t) : ofText token.text = token := by
  obtain ⟨w, -, rfl⟩ := List.mem_map.1 h
  rw [text_ofText]

end Token

/-- A text that starts a name is no numeral. -/
theorem Numeral.read?_of_startsName {w : Text} (h : Token.startsName w = true) : read? w = none := by
  cases w with
  | nil => cases h
  | cons c w =>
    have hdigit : c.isDigit = false := Token.startsDigit_of_startsName h
    have hsign : splitSign (c :: w) = (false, c :: w) := by
      unfold splitSign
      split
      · rename_i heq; cases heq; cases h
      · rename_i heq; cases heq; cases h
      · rfl
    have hwhole : splitDigits (c :: w) = ([], c :: w) := by simp [splitDigits, hdigit]
    have hfraction : splitFraction (c :: w) = ([], c :: w) := by
      unfold splitFraction
      split
      · rename_i heq; cases heq; cases h
      · rfl
    simp [read?, hsign, hwhole, hfraction]

theorem Binary.literal?_of_startsName {F : Format} {w : Text} (h : Token.startsName w = true) :
    literal? (F := F) w = none := by
  rw [literal?, Numeral.read?_of_startsName h]
  rfl

/-! ## Accepted expressions -/

/-- A leaf of an accepted expression, with what it stands for: a literal, or the name of an input. -/
inductive Leaf (V : Type) [Scalar V] (inputs : List Text) where
  | literal (word : Text) (value : V) (stands : Stands inputs word (.const value))
  | input (word : Text) (index : Nat) (stands : Stands (V := V) inputs word (.input index))

namespace Leaf

variable {V : Type} [Scalar V] {inputs : List Text}

def token : Leaf V inputs → Token
  | .literal word _ _ => .operand word
  | .input word _ _ => .name word

def tree : Leaf V inputs → OpTree V
  | .literal _ value _ => .const value
  | .input _ index _ => .input index

theorem token_eq : ∀ a : Leaf V inputs, ∃ t, a.token = .name t ∨ a.token = .operand t
  | .literal word _ _ => ⟨word, .inr rfl⟩
  | .input word _ _ => ⟨word, .inl rfl⟩

theorem resolve?_text : ∀ a : Leaf V inputs, [resolve? inputs a.token.text] = a.tree.postorder.map some
  | .literal _ _ stands | .input _ _ stands => congrArg (fun op => [op]) (Program.resolve?_eq_some_iff.2 stands)

end Leaf

namespace Expression

variable {V : Type} [Scalar V] {inputs : List Text}

/-- The tree of operations of an expression whose leaves stand for inputs and constants. -/
def tree : Expression (Leaf V inputs) → OpTree V
  | .leaf a => a.tree
  | .rand => .rand
  | .operator o l r => .binary o.operation l.tree r.tree
  | .call f e => .unary f e.tree
  | .callTwo f _ l r => .binary f l.tree r.tree

/-- The words of an expression stand for the operations of its tree. -/
theorem map_resolve?_words : ∀ e : Expression (Leaf V inputs),
    (e.words Leaf.token).map (resolve? inputs) = e.tree.postorder.map some
  | .leaf a => a.resolve?_text
  | .rand => rfl
  | .operator o l r => by
    have ho : resolve? (V := V) inputs o.text = some (.binary o.operation) := resolve?_operator o
    simp [words, tree, OpTree.postorder, map_resolve?_words l, map_resolve?_words r, ho]
  | .call f e => by
    have hf : resolve? (V := V) inputs f.keyword = some (.unary f) := resolve?_of_keyword? rfl
    simp [words, tree, OpTree.postorder, map_resolve?_words e, hf]
  | .callTwo f _ l r => by
    have hf : resolve? (V := V) inputs f.keyword = some (.binary f) := resolve?_of_keyword? rfl
    simp [words, tree, OpTree.postorder, map_resolve?_words l, map_resolve?_words r, hf]

end Expression

namespace Expression

open Operation (taken)

variable {F : Format} {inputs : List Text} {w : Text} {op : Operation (Binary F)}

/-- A word that takes nothing and stands for a builtin is the draw. -/
theorem eq_randWord (h : Operation.ofKeyword? w = some op) (htaken : taken w = 0) : w = randWord := by
  rw [Operation.taken_of_ofKeyword? h] at htaken
  rcases Operation.cases_of_ofKeyword? h with ⟨-, hw⟩ | ⟨f, rfl, -⟩ | ⟨f, rfl, -⟩
  · exact hw
  · cases htaken
  · cases htaken

/-- Each token is of the class of its text, and each word stands for something. -/
structure Understood (F : Format) (inputs : List Text) (ts : List Token) (ws : List Text) : Prop where
  ofText_text : ∀ t ∈ ts, Token.ofText t.text = t
  exists_stands : ∀ w ∈ ws, ∃ op : Operation (Binary F), Stands inputs w op

theorem Understood.mono {ts us : List Token} {ws vs : List Text} (h : Understood F inputs ts ws) (hts : us ⊆ ts)
    (hws : vs ⊆ ws) : Understood F inputs us vs :=
  ⟨fun t ht => h.ofText_text t (hts ht), fun w hw => h.exists_stands w (hws hw)⟩

/-- A word of operand class that takes nothing is a literal: inputs have names, and so has the draw. -/
theorem exists_writes_operand (hinputs : ∀ name ∈ inputs, Token.startsName name = true)
    (h : Understood F inputs [.operand w] [w]) (htaken : taken w = 0) :
    ∃ e : Expression (Leaf (Binary F) inputs), Writes Leaf.token e closedRank [.operand w] := by
  have hclass : Token.ofText w = .operand w := h.ofText_text (.operand w) List.mem_cons_self
  obtain ⟨op, hop⟩ := h.exists_stands w List.mem_cons_self
  cases hop with
  | builtin h =>
    obtain rfl := eq_randWord h htaken
    cases hclass
  | input _ hname =>
    rw [Token.ofText_of_startsName (hinputs w (List.mem_of_getElem? hname))] at hclass
    cases hclass
  | literal hbuiltin hname hv => exact ⟨.leaf (.literal w _ (.literal hbuiltin hname hv)), .leaf _⟩

/-- A name that takes nothing is a draw or the name of an input: no literal starts like a name. -/
theorem exists_writes_name (h : Understood F inputs [.name w] [w]) (htaken : taken w = 0) :
    ∃ e : Expression (Leaf (Binary F) inputs), Writes Leaf.token e closedRank [.name w] := by
  have hname : Token.startsName w = true := Token.startsName_of_ofText (h.ofText_text (.name w) List.mem_cons_self)
  obtain ⟨op, hop⟩ := h.exists_stands w List.mem_cons_self
  cases hop with
  | builtin h =>
    obtain rfl := eq_randWord h htaken
    exact ⟨_, .rand⟩
  | input hbuiltin hi hfirst => exact ⟨.leaf (.input w _ (.input hbuiltin hi hfirst)), .leaf _⟩
  | literal _ _ hv =>
    have hnone : (Scalar.literal? w : Option (Binary F)) = none := Binary.literal?_of_startsName hname
    rw [hnone] at hv
    cases hv

/-- A part is written by expressions: a row or a bracket by one, a place by the one that stands there, arguments by one
or two. -/
def Part.Written (F : Format) (inputs : List Text) : Part → List Token → Prop
  | .row rank, ts => ∃ e : Expression (Leaf (Binary F) inputs), Writes Leaf.token e rank ts
  | .operand, ts => ∃ e : Expression (Leaf (Binary F) inputs), Writes Leaf.token e closedRank ts
  | .place k, ts => k = 1 → ∃ e : Expression (Leaf (Binary F) inputs), Writes Leaf.token e closedRank ts
  | .arguments n, ts =>
    (n = 1 → ∃ (e : Expression (Leaf (Binary F) inputs)) (rank : Nat), Writes Leaf.token e rank ts) ∧
      (n = 2 → ∃ (l r : Expression (Leaf (Binary F) inputs)) (rankL rankR : Nat) (ls rs : List Token),
        Writes Leaf.token l rankL ls ∧ Writes Leaf.token r rankR rs ∧ ts = ls ++ .comma :: rs)

/-- A call of a name that takes as many arguments as there are, and takes some. -/
theorem exists_writes_call (hname : Token.startsName w = true) (hstands : Stands inputs w op) {n : Nat} (hn : 1 ≤ n)
    (htaken : taken w = n) {ts : List Token} (h : (Part.arguments n).Written F inputs ts) :
    ∃ e : Expression (Leaf (Binary F) inputs),
      Writes Leaf.token e closedRank (.name w :: .openParen :: (ts ++ [.closeParen])) := by
  obtain ⟨hone, htwo⟩ := h
  rw [Operation.taken_of_stands hstands] at htaken
  subst htaken
  cases hstands with
  | builtin h =>
    rcases Operation.cases_of_ofKeyword? h with ⟨rfl, -⟩ | ⟨f, rfl, rfl⟩ | ⟨f, rfl, rfl | rfl⟩
    · exact absurd hn (Nat.not_succ_le_zero 0)
    · obtain ⟨e, rank, he⟩ := hone rfl
      exact ⟨.call f e, .call he⟩
    · obtain ⟨l, r, rankL, rankR, ls, rs, hl, hr, rfl⟩ := htwo rfl
      have hcall : Writes Leaf.token (.callTwo f hname l r) closedRank _ := .callTwo hl hr
      exact ⟨.callTwo f hname l r, by simpa using hcall⟩
    · cases hname
  | input | literal => exact absurd hn (Nat.not_succ_le_zero 0)

/-- **A part with no operand in surplus and none missing is written by expressions.** -/
theorem Loose.written (hinputs : ∀ name ∈ inputs, Token.startsName name = true) {part : Part} {ts : List Token}
    {ws : List Text} {s m : Nat} (h : Loose part ts ws s m) (hs : s = 0) (hm : m = 0)
    (hall : Understood F inputs ts ws) : part.Written F inputs ts := by
  induction h with
  | operand w => exact exists_writes_operand hinputs hall hm
  | name w => exact exists_writes_name hall hm
  | bracket inner ih =>
    have hone := inner.one_le_arguments
    obtain ⟨hheld, -⟩ := ih (by omega) hm (hall.mono (by simp) (by simp))
    obtain ⟨e, rank, he⟩ := hheld (by omega)
    exact ⟨e, .bracket he⟩
  | randCall => exact ⟨_, .randCall⟩
  | call w _ inner ih =>
    have hone := inner.one_le_arguments
    have hname : Token.startsName w = true :=
      Token.startsName_of_ofText (hall.ofText_text (.name w) List.mem_cons_self)
    obtain ⟨op, hop⟩ := hall.exists_stands w (by simp)
    have hheld := ih (by omega) (by omega) (hall.mono (by grind) (by simp))
    exact exists_writes_call hname hop hone (by omega) hheld
  | vacant => exact nofun
  | beside before _ _ _ ihLast =>
    -- One operand at the place, so what stands before it is nothing.
    intro hk
    obtain rfl : _ = 0 := Nat.succ.inj hk
    obtain rfl := before.eq_nil_of_place_zero
    exact ihLast (by omega) (by omega) (hall.mono (by simp) (by simp))
  | place _ ih =>
    obtain ⟨e, he⟩ := ih (by omega) (by omega) hall (by omega)
    exact ⟨e, he⟩
  | operator _ _ hleft hright ihL ihR =>
    obtain ⟨l, hl⟩ := ihL (by omega) (by omega) (hall.mono (by simp) (by simp))
    obtain ⟨r, hr⟩ := ihR (by omega) (by omega) (hall.mono (by simp) (by simp))
    exact ⟨_, .operator hl hr hleft hright⟩
  | argument _ ih =>
    obtain ⟨e, he⟩ := ih hs hm hall
    exact ⟨fun _ => ⟨e, _, he⟩, nofun⟩
  | comma before _ ihBefore ihLast =>
    have hone := before.one_le_arguments
    obtain ⟨hfirst, -⟩ := ihBefore (by omega) (by omega) (hall.mono (by simp) (by simp))
    obtain ⟨r, hr⟩ := ihLast (by omega) (by omega) (hall.mono (by simp) (by simp))
    refine ⟨fun hn => by omega, fun hn => ?_⟩
    obtain ⟨l, rankL, hl⟩ := hfirst (by omega)
    exact ⟨l, r, rankL, _, _, _, hl, hr, rfl⟩

/-- No word that is left for a bracket stands for anything. -/
theorem not_stands_bracket (hinputs : ∀ name ∈ inputs, Token.startsName name = true) : ¬ Stands inputs ['('] op :=
  Program.not_stands_openParen (fun hmem => absurd (hinputs _ hmem) (by decide)) op

/-- **The tokens of an accepted expression make up a row**, and whatever row they make up, the program is what the words
of the row stand for, and the row has as many operands in surplus as are missing.  If there is none of them, the tokens
write an expression over the literals and the inputs, and the program is its postorder. -/
theorem compileConventional_derives (hinputs : ∀ name ∈ inputs, Token.startsName name = true) {text : Text}
    {p : Program (Binary F)} (h : Program.compileConventional text inputs = .ok p) :
    (∃ rank, Derives (.row rank) (Token.scan (Text.compact text))) ∧
      ∀ {rank : Nat} {words : List Text} {s m : Nat}, Loose (.row rank) (Token.scan (Text.compact text)) words s m →
        words.map (resolve? inputs) = p.ops.map some ∧ s = m ∧
          (m = 0 → ∃ e : Expression (Leaf (Binary F) inputs),
            Writes Leaf.token e rank (Token.scan (Text.compact text)) ∧ p = ⟨e.tree.postorder, e.tree.need⟩) := by
  obtain ⟨words, htext, hassemble⟩ := Program.compileConventional_eq_ok_iff.1 h
  obtain ⟨t, hmap, -, rfl⟩ := Program.assemble_eq_ok_iff.1 hassemble
  have hstands : ∀ w ∈ words, ∃ op : Operation (Binary F), Stands inputs w op := fun w hw => by
    have hmem : resolve? inputs w ∈ t.postorder.map some := by rw [← hmap]; exact List.mem_map_of_mem hw
    obtain ⟨op, -, hop⟩ := List.mem_map.1 hmem
    exact ⟨op, Program.resolve?_eq_some_iff.1 hop.symm⟩
  constructor
  · -- A bracket left open would be a word, and that word stands for nothing.
    obtain ⟨n, hopen, hleft⟩ := Postfix.openAfterAll?_of_arrange? htext
    obtain rfl : n = 0 := Classical.byContradiction fun hn => by
      obtain ⟨op, hop⟩ := hstands _ (hleft hn)
      exact not_stands_bracket hinputs hop
    have hread : Unfinished 0 (Token.scan (Text.compact text)) :=
      Unfinished.append_of_openAfterAll? .nil (fun _ hlast => by cases hlast) hopen
    cases hread with
    | row h => exact ⟨_, h⟩
  · intro rank vs s m hloose
    obtain rfl : vs = words := Option.some.inj (hloose.ofTokens?.symm.trans htext)
    have hcount : (1 : Int) = 1 + s - m := (tally_of_postorder hmap).symm.trans hloose.tally_eq
    refine ⟨hmap, by omega, fun hm => ?_⟩
    obtain ⟨e, he⟩ := hloose.written hinputs (by omega) hm ⟨fun _ => Token.ofText_text_of_mem_scan, hstands⟩
    have hwords : e.words Leaf.token = vs :=
      Option.some.inj ((he.ofTokens? Leaf.token_eq).symm.trans htext)
    have hpost : e.tree.postorder.map some = t.postorder.map some := by
      rw [← e.map_resolve?_words, hwords, hmap]
    obtain rfl : e.tree = t := OpTree.eq_of_map_some_postorder hpost
    exact ⟨e, he, rfl⟩

/-- The greater of an input and a negative literal. -/
theorem compileConventional_derives_greater :
    let inputs : List Text := ["x".toList]
    let text : Text := "max( x,-2)".toList
    let p : Program Double := ⟨[.input 0, .const (.ofRat (-2)), .binary .max], 2⟩
    (∀ name ∈ inputs, Token.startsName name = true) ∧ Program.compileConventional text inputs = .ok p ∧
      (∃ rank, Derives (.row rank) (Token.scan (Text.compact text))) ∧
      ∃ e : Expression (Leaf Double inputs),
        Writes Leaf.token e closedRank (Token.scan (Text.compact text)) ∧ p = ⟨e.tree.postorder, e.tree.need⟩ := by
  intro inputs text p
  have hinputs : ∀ name ∈ inputs, Token.startsName name = true := by decide
  have hcompile : Program.compileConventional text inputs = .ok p := by decide +kernel
  have hx : Loose (.place 1) [.name "x".toList] _ 0 0 := .beside .vacant (.name _) (fun _ hlast => by cases hlast)
  have htwo : Loose (.place 1) [.operand "-2".toList] _ 0 0 :=
    .beside .vacant (.operand _) (fun _ hlast => by cases hlast)
  have hall : Loose (.place 1) (Token.scan (Text.compact text)) _ 0 0 :=
    .beside .vacant (.call "max".toList (by decide) (.comma (.argument (.place hx)) (.place htwo)))
      (fun _ hlast => by cases hlast)
  obtain ⟨hderives, hevery⟩ := compileConventional_derives hinputs hcompile
  exact ⟨hinputs, hcompile, hderives, (hevery (.place hall)).2.2 rfl⟩

/-- A comma stands only between the two arguments of a call. -/
theorem Writes.exists_call_of_comma {A : Type} {token : A → Token}
    (hleaf : ∀ a, ∃ t, token a = .name t ∨ token a = .operand t) {e : Expression A} {rank : Nat} {ts : List Token}
    (h : Writes token e rank ts) (hcomma : .comma ∈ ts) : ∃ f : BinaryOp, .name f.keyword ∈ ts := by
  induction h with
  | leaf a =>
    obtain ⟨t, ht | ht⟩ := hleaf a <;> simp [ht] at hcomma
  | rand => simp at hcomma
  | randCall => simp at hcomma
  | bracket _ ih =>
    obtain ⟨f, hf⟩ := ih (by simpa using hcomma)
    exact ⟨f, by simp [hf]⟩
  | operator _ _ _ _ ihL ihR =>
    rw [List.mem_append, List.mem_cons] at hcomma
    rcases hcomma with hl | heq | hr
    · obtain ⟨f, hf⟩ := ihL hl
      exact ⟨f, by simp [hf]⟩
    · cases heq
    · obtain ⟨f, hf⟩ := ihR hr
      exact ⟨f, by simp [hf]⟩
  | call _ ih =>
    obtain ⟨f, hf⟩ := ih (by simpa using hcomma)
    exact ⟨f, by simp [hf]⟩
  | @callTwo f => exact ⟨f, by simp⟩

/-- The argument that is too many for the call is the operand that the operator lacks; the tokens write no expression.
And an input may be called, with nothing for an argument. -/
theorem compileConventional_call_surplus :
    let inputs : List Text := ["x".toList]
    let text : Text := "sin(x,2)*".toList
    (∀ name ∈ inputs, Token.startsName name = true ∧ ∀ c ∈ name, Token.isSeparator c = false) ∧
      Program.compileConventional text inputs =
        .ok (⟨[.input 0, .const (.ofRat 2), .unary .sin, .binary .mul], 2⟩ : Program Double) ∧
      (∀ (A : Type) (token : A → Token), (∀ a, ∃ t, token a = .name t ∨ token a = .operand t) →
        ¬ ∃ (e : Expression A) (rank : Nat), Writes token e rank (Token.scan (Text.compact text))) ∧
      Token.scan (Text.compact "x()".toList) = [.name "x".toList, .openParen, .closeParen] ∧
      Program.compileConventional "x()".toList inputs = .ok (⟨[.input 0], 1⟩ : Program Double) := by
  intro inputs text
  refine ⟨fun name hname => ?_, by decide +kernel, fun A token hleaf => ?_, by decide +kernel, by decide +kernel⟩
  · obtain rfl := List.mem_singleton.1 hname
    refine ⟨rfl, fun c hc => ?_⟩
    obtain rfl := List.mem_singleton.1 hc
    rfl
  · rintro ⟨e, rank, h⟩
    obtain ⟨f, hf⟩ := h.exists_call_of_comma hleaf (by decide +kernel)
    have hscan : Token.scan (Text.compact text) = [.name "sin".toList, .openParen, .name "x".toList, .comma,
        .operand "2".toList, .closeParen, .operator .times] := by decide +kernel
    rw [hscan] at hf
    cases f <;> simp [BinaryOp.keyword] at hf

end Expression

end SignalFormula
