import SignalFormula.Proofs.Number.Legible
import SignalFormula.Proofs.Words
/-!
# Recompile — a program read back from its own postfix text

Of a program's words the builtin ones and the names of its inputs stand for the same operations again.  A constant is
written as a decimal, which is no builtin word; it is read back as the constant, unless an input has that very text for
its name.  So the text of a program always compiles, to a program of the same shape, and to the program itself exactly
if no constant reads like an input (`compile_toPostfix`).
-/
namespace SignalFormula

namespace Text

theorem not_isBlank_of_isDigit {c : Char} (h : c.isDigit = true) : isBlank c = false := by
  have hrange : 48 ≤ c.toNat ∧ c.toNat ≤ 57 := Char.isDigit_iff_toNat.1 h
  simp only [isBlank, blankRanges, List.any_cons, List.any_nil, Bool.or_false, Bool.or_eq_false_iff,
    Bool.and_eq_false_iff, decide_eq_false_iff_not]
  omega

theorem IsDecimal.isWord {t : Text} (h : IsDecimal t) : IsWord t := by
  obtain ⟨sign, digits, rfl, hsign, hne, hdigits, -⟩ := h
  refine ⟨List.append_ne_nil_of_right_ne_nil _ hne, fun c hc => ?_⟩
  rcases List.mem_append.1 hc with hc | hc
  · rcases hsign with rfl | rfl
    · cases hc
    · rw [List.mem_singleton.1 hc]; decide
  · rcases hdigits c hc with hdigit | rfl
    · exact not_isBlank_of_isDigit hdigit
    · decide

theorem getLast?_of_ofKeyword? {V : Type} {word : Text} {op : Operation V} (h : Operation.ofKeyword? word = some op) :
    ∃ c, word.getLast? = some c ∧ c.isDigit = false ∧ c ≠ '.' := by
  refine Operation.forall_builtin (P := fun t => ∃ c, t.getLast? = some c ∧ c.isDigit = false ∧ c ≠ '.')
    (fun f => ?_) (fun f => ?_) ?_ ?_ h
  · cases f <;> exact ⟨_, rfl, rfl, by decide⟩
  · cases f <;> exact ⟨_, rfl, rfl, by decide⟩
  · exact ⟨_, rfl, rfl, by decide⟩
  · exact ⟨_, rfl, rfl, by decide⟩

theorem IsDecimal.ofKeyword?_eq_none {V : Type} {t : Text} (h : IsDecimal t) :
    Operation.ofKeyword? (V := V) t = none := by
  obtain ⟨sign, digits, rfl, -, hne, hdigits, -⟩ := h
  cases hop : Operation.ofKeyword? (V := V) (sign ++ digits) with
  | none => rfl
  | some op =>
    obtain ⟨c, hlast, hdigit, hpoint⟩ := getLast?_of_ofKeyword? hop
    have hc : digits.getLast hne = c := by
      rw [List.getLast?_append, List.getLast?_eq_some_getLast hne, Option.some_or] at hlast
      exact Option.some.inj hlast
    rcases hdigits _ (List.getLast_mem hne) with h | h
    · rw [hc, hdigit] at h; cases h
    · rw [hc] at h; exact absurd h hpoint

end Text

namespace Operation

variable {V : Type} [Scalar V]

/-- The operation that the word of an operation stands for: a constant that reads like an input is that input. -/
def reread (names : List Text) : Operation V → Operation V
  | .const v =>
    match names.findIdx? (· = Scalar.toText v) with
    | some i => .input i
    | none => .const v
  | op => op

/-- An operation is read back as it was, except a constant that reads like an input. -/
theorem reread_eq_self_iff {names : List Text} {op : Operation V} :
    op.reread names = op ↔ ∀ v, op = .const v → Scalar.toText v ∉ names := by
  cases op with
  | const v =>
    rw [reread]
    cases hi : names.findIdx? (· = Scalar.toText v) with
    | some i =>
      obtain ⟨hlt, hname, -⟩ := List.findIdx?_eq_some_iff_getElem.1 hi
      have hmem : Scalar.toText v ∈ names := by
        rw [← of_decide_eq_true hname]
        exact List.getElem_mem hlt
      simp [hmem]
    | none =>
      have hmem : Scalar.toText v ∉ names := fun h => by
        simpa using List.findIdx?_eq_none_iff.1 hi _ h
      simp [hmem]
  | _ => simp [reread]

/-- **What an operation is read back as**, if it is what some word stands for. -/
theorem resolve?_word [LegibleScalar V] {inputs : List Text} {word : Text} {op : Operation V}
    (h : Program.resolve? inputs word = some op) :
    Program.resolve? inputs (op.word inputs) = some (op.reread inputs) := by
  have hbuiltin : ∀ k, op.keyword? = some k → Program.resolve? inputs k = some op := fun k hk => by
    rw [Program.resolve?, ofKeyword?_keyword hk]
  cases op with
  | binary f => exact hbuiltin _ rfl
  | unary f => exact hbuiltin _ rfl
  | rand => exact hbuiltin _ rfl
  | input i =>
    have hword : (input i : Operation V).word inputs = word := by
      rw [Operation.word, Program.getElem?_of_resolve? h]
      rfl
    rw [hword]
    exact h
  | const v =>
    have hv : Scalar.literal? word = some v := Program.literal?_of_resolve? h
    have hnone : ofKeyword? (V := V) (Scalar.toText v) = none :=
      (LegibleScalar.isDecimal_toText hv).ofKeyword?_eq_none
    rw [Operation.word, Program.resolve?, hnone, reread]
    cases inputs.findIdx? (· = Scalar.toText v) with
    | some i => rfl
    | none =>
      show (Scalar.literal? (Scalar.toText v)).map Operation.const = _
      rw [LegibleScalar.literal?_toText hv]
      rfl

theorem isWord_word [LegibleScalar V] {inputs : List Text} {word : Text} {op : Operation V}
    (h : Program.resolve? inputs word = some op) (hword : word.IsWord) : (op.word inputs).IsWord := by
  have hbuiltin : ∀ k, op.keyword? = some k → k.IsWord := fun k hk => isWord_of_keyword? hk
  cases op with
  | binary f => exact hbuiltin _ rfl
  | unary f => exact hbuiltin _ rfl
  | rand => exact hbuiltin _ rfl
  | input i =>
    rw [Operation.word, Program.getElem?_of_resolve? h]
    exact hword
  | const v => exact (LegibleScalar.isDecimal_toText (Program.literal?_of_resolve? h)).isWord

end Operation

namespace OpTree

variable {V : Type} [Scalar V]

def reread (names : List Text) : OpTree V → OpTree V
  | .const v =>
    match names.findIdx? (· = Scalar.toText v) with
    | some i => .input i
    | none => .const v
  | .unary f t => .unary f (t.reread names)
  | .binary f l r => .binary f (l.reread names) (r.reread names)
  | leaf => leaf

theorem postorder_reread (names : List Text) : ∀ t : OpTree V,
    (t.reread names).postorder = t.postorder.map (Operation.reread names)
  | .rand => rfl
  | .input _ => rfl
  | .const v => by
    simp only [reread, postorder, List.map_cons, List.map_nil, Operation.reread]
    split <;> rfl
  | .unary f t => by
    rw [reread, postorder, postorder, postorder_reread names t, List.map_append]
    rfl
  | .binary f l r => by
    rw [reread, postorder, postorder, postorder_reread names l, postorder_reread names r, List.map_append,
      List.map_append]
    rfl

theorem need_reread (names : List Text) : ∀ t : OpTree V, (t.reread names).need = t.need
  | .rand => rfl
  | .input _ => rfl
  | .const v => by
    rw [reread]
    split <;> rfl
  | .unary _ t => need_reread names t
  | .binary _ l r => by rw [reread, need, need, need_reread names l, need_reread names r]

end OpTree

namespace Style

theorem detect_mark_append (body : Text) : detect (mark ++ body) = (.reversed, body) := by
  rw [detect, Text.afterLead?_eq_some_iff.2 rfl]

end Style

namespace Program

variable {V : Type} [Scalar V] {inputs : List Text}

theorem compile_mark_unwords {words : List Text} (h : ∀ w ∈ words, w.IsWord) {p : Program V}
    (hp : assemble inputs words = .ok p) : compile (Style.mark ++ Text.unwords words) inputs = .ok p := by
  rw [compile, Style.detect_mark_append]
  show (assemble inputs (Text.words (Text.unwords words))).mapError _ = _
  rw [Text.words_unwords words h, hp]
  rfl

end Program

namespace Entry

variable {V : Type} [Scalar V] {inputs : List Text}

/-- **The text of a program compiles to a program of the same length and depth**, and to the program itself exactly if no
constant of it is written like the name of an input. -/
theorem compile_toPostfix [LegibleScalar V] {entry : Entry} {expression : Text} {p : Program V}
    (h : entry.compile expression inputs = .ok p) :
    ∃ q : Program V, Program.compile (Style.mark ++ p.toPostfix inputs) inputs = .ok q ∧
      q.ops.length = p.ops.length ∧ q.maxDepth = p.maxDepth ∧
      (q = p ↔ ∀ v, .const v ∈ p.ops → Scalar.toText v ∉ inputs) := by
  obtain ⟨body, words, hwords, hassemble⟩ := exists_words h
  obtain ⟨t, hmap, hneed, rfl⟩ := Program.assemble_eq_ok_iff.1 hassemble
  have hstands : ∀ op ∈ t.postorder, ∃ word, word.IsWord ∧ Program.resolve? inputs word = some op := fun op hop => by
    have hmem : some op ∈ words.map (Program.resolve? inputs) := by rw [hmap]; exact List.mem_map_of_mem hop
    obtain ⟨word, hword, heq⟩ := List.mem_map.1 hmem
    exact ⟨word, isWord hwords hword, heq⟩
  have hresolve : (t.postorder.map (Operation.word inputs)).map (Program.resolve? inputs) =
      (t.reread inputs).postorder.map some := by
    rw [OpTree.postorder_reread, List.map_map, List.map_map]
    refine List.map_congr_left fun op hop => ?_
    obtain ⟨word, -, heq⟩ := hstands op hop
    exact Operation.resolve?_word heq
  refine ⟨⟨(t.reread inputs).postorder, (t.reread inputs).need⟩, ?_, ?_, OpTree.need_reread inputs t, ?_⟩
  · refine Program.compile_mark_unwords (fun w hw => ?_) (Program.assemble_eq_ok_iff.2 ⟨_, hresolve, ?_, rfl⟩)
    · obtain ⟨op, hop, rfl⟩ := List.mem_map.1 hw
      obtain ⟨word, hword, heq⟩ := hstands op hop
      exact Operation.isWord_word heq hword
    · rw [OpTree.need_reread]
      exact hneed
  · rw [OpTree.postorder_reread, List.length_map]
  · rw [Program.mk.injEq, OpTree.postorder_reread, OpTree.need_reread]
    constructor
    · rintro ⟨hops, -⟩ v hv
      have hself : ∀ op ∈ t.postorder, op.reread inputs = op := by
        rw [← List.map_id t.postorder, List.map_map] at hops
        exact List.map_inj_left.1 hops
      exact Operation.reread_eq_self_iff.1 (hself _ hv) v rfl
    · intro hfree
      refine ⟨?_, rfl⟩
      conv => rhs; rw [← List.map_id t.postorder]
      refine List.map_congr_left fun op hop => Operation.reread_eq_self_iff.2 fun v hv => hfree v ?_
      rw [← hv]
      exact hop

/-- A constant that is written like an input is read back as the input. -/
theorem compile_toPostfix_tenth :
    let inputs : List Text := ["x".toList, "0.1".toList]
    let p : Program Double := ⟨[.input 0, .const (.ofRat (1 / 10)), .binary .mul], 2⟩
    conventional.compile "x * 0.10".toList inputs = .ok p ∧
      ∃ q : Program Double, Program.compile (Style.mark ++ p.toPostfix inputs) inputs = .ok q ∧
        q.ops.length = 3 ∧ q.maxDepth = 2 ∧ q ≠ p := by
  intro inputs p
  let t : OpTree Double := .binary .mul (.input 0) (.const (.ofRat (1 / 10)))
  have hwords : Postfix.ofText? "x * 0.10".toList = some ["x".toList, "0.10".toList, ['*']] := by decide +kernel
  have hcompile : conventional.compile "x * 0.10".toList inputs = .ok p :=
    Program.compileConventional_eq_ok_iff.2
      ⟨_, hwords, Program.assemble_eq_ok_iff.2 ⟨t, by decide +kernel, by decide, rfl⟩⟩
  obtain ⟨q, hq, hlength, hdepth, hself⟩ := compile_toPostfix hcompile
  have htext : Scalar.toText (.ofRat (1 / 10) : Double) = "0.1".toList := by decide +kernel
  refine ⟨hcompile, q, hq, hlength, hdepth, fun h => hself.1 h (.ofRat (1 / 10)) (by simp [p]) ?_⟩
  rw [htext]
  decide

end Entry

end SignalFormula
