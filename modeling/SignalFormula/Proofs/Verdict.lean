import Mathlib.Algebra.Ring.Int.Defs
import Mathlib.Data.Nat.Find
import Mathlib.Order.Bounds.Basic
import SignalFormula.Proofs.Binding
import SignalFormula.Proofs.Infix.Notations
/-!
# Verdict — what becomes of words, and which of them is blamed

Words are read from the left.  A word can be at fault by itself: it stands for nothing, or no value is left after it
(`Program.FaultAt`).  The first one that is gets the blame, whatever stands behind it.  If there is none, the values at the
end are counted, and only if one is left it is asked whether the stack was ever higher than there are slots.  So the faults
rule each other out in this order, and words without any become a program (`Program.assemble_verdict`).
-/
namespace SignalFormula
namespace Program

variable {V : Type} [Scalar V] {inputs words : List Text}

/-- What a word does to the height of the stack; one that stands for nothing leaves it. -/
def effectOf (V : Type) [Scalar V] (inputs : List Text) (word : Text) : Int :=
  (resolve? (V := V) inputs word).elim 0 Operation.effect

/-- The height of the stack after the first `n` words: the sum of their effects. -/
def heightAfter (V : Type) [Scalar V] (inputs words : List Text) (n : Nat) : Int :=
  ((words.take n).map (effectOf V inputs)).sum

/-- The word at `k` is at fault: it stands for nothing, or no value is left after it. -/
def FaultAt (V : Type) [Scalar V] (inputs words : List Text) (k : Nat) : Prop :=
  ∃ word, words[k]? = some word ∧
    ((∀ op : Operation V, ¬ Stands inputs word op) ∨ heightAfter V inputs words (k + 1) < 1)

/-- What becomes of words, with the text that an error quotes. -/
inductive Verdict (inputs words : List Text) (expression : Text) : Except CompileError (Program V) → Prop where
  /-- The first word at fault stands for nothing. -/
  | unknownToken {k : Nat} {word : Text} (hfirst : ∀ j < k, ¬ FaultAt V inputs words j) (hword : words[k]? = some word)
      (h : ∀ op : Operation V, ¬ Stands inputs word op) :
      Verdict inputs words expression (.error ⟨.unknownToken word, expression⟩)
  /-- The first word at fault stands for an operation that leaves no value. -/
  | stackUnderflow {k : Nat} {word : Text} {op : Operation V} (hfirst : ∀ j < k, ¬ FaultAt V inputs words j)
      (hword : words[k]? = some word) (h : Stands inputs word op) (hheight : heightAfter V inputs words (k + 1) < 1) :
      Verdict inputs words expression (.error ⟨.stackUnderflow word, expression⟩)
  | imbalanced {final : Nat} (hnone : ∀ k, ¬ FaultAt V inputs words k)
      (hfinal : heightAfter V inputs words words.length = final) (h : final ≠ 1) :
      Verdict inputs words expression (.error ⟨.imbalanced final, expression⟩)
  | stackOverflow {top : Nat} (hnone : ∀ k, ¬ FaultAt V inputs words k)
      (hfinal : heightAfter V inputs words words.length = 1)
      (htop : IsGreatest (Set.range (heightAfter V inputs words)) top) (h : stackCapacity < top) :
      Verdict inputs words expression (.error ⟨.stackOverflow top, expression⟩)
  | program {ops : List (Operation V)} {top : Nat} (hnone : ∀ k, ¬ FaultAt V inputs words k)
      (hfinal : heightAfter V inputs words words.length = 1)
      (htop : IsGreatest (Set.range (heightAfter V inputs words)) top) (h : top ≤ stackCapacity)
      (hops : List.Forall₂ (Stands inputs) words ops) : Verdict inputs words expression (.ok ⟨ops, top⟩)

theorem resolve?_eq_none_iff {word : Text} :
    resolve? (V := V) inputs word = none ↔ ∀ op : Operation V, ¬ Stands inputs word op := by
  rw [Option.eq_none_iff_forall_ne_some]
  exact forall_congr' fun op => not_congr resolve?_eq_some_iff

theorem map_resolve?_eq_iff {ops : List (Operation V)} :
    words.map (resolve? inputs) = ops.map some ↔ List.Forall₂ (Stands inputs) words ops := by
  rw [← List.forall₂_eq_eq_eq, List.forall₂_map_left_iff, List.forall₂_map_right_iff]
  exact ⟨fun h => h.imp fun _ _ => resolve?_eq_some_iff.1, fun h => h.imp fun _ _ => resolve?_eq_some_iff.2⟩

instance {k : Nat} : Decidable (FaultAt V inputs words k) :=
  decidable_of_iff (∃ word ∈ words[k]?, resolve? (V := V) inputs word = none ∨ heightAfter V inputs words (k + 1) < 1) (by
    simp only [FaultAt, ← resolve?_eq_none_iff, Option.mem_def])

/-! ## Heights -/

theorem effectOf_eq {word : Text} {op : Operation V} (h : resolve? inputs word = some op) :
    effectOf V inputs word = op.effect := by
  rw [effectOf, h]
  rfl

theorem heightAfter_zero : heightAfter V inputs words 0 = 0 := by
  rw [heightAfter, List.take_zero]
  rfl

theorem heightAfter_succ {k : Nat} {word : Text} (h : words[k]? = some word) :
    heightAfter V inputs words (k + 1) = heightAfter V inputs words k + effectOf V inputs word := by
  rw [heightAfter, heightAfter, List.take_add_one, h]
  simp

theorem heightAfter_of_length_le {n : Nat} (h : words.length ≤ n) :
    heightAfter V inputs words n = heightAfter V inputs words words.length := by
  rw [heightAfter, heightAfter, List.take_of_length_le h, List.take_length]

theorem heightAfter_take_append {k n : Nat} (rest : List Text) (hk : k ≤ words.length) (hn : n ≤ k) :
    heightAfter V inputs (words.take k ++ rest) n = heightAfter V inputs words n := by
  rw [heightAfter, heightAfter, List.take_append_of_le_length (by simp; omega), List.take_take, Nat.min_eq_left hn]

/-! ## Reading words from the left -/

/-- **Words are read one after another**: the words behind some others from the height that those leave. -/
theorem operations_append : ∀ (pre post : List Text) (height peak : Nat),
    operations (V := V) inputs height peak (pre ++ post) = (operations inputs height peak pre).bind fun r =>
      (operations inputs r.2.1 r.2.2 post).map fun s => (r.1 ++ s.1, s.2)
  | [], post, height, peak => by
    cases h : operations (V := V) inputs height peak post <;>
      simp [operations, Except.bind, Except.map, h]
  | word :: pre, post, height, peak => by
    rw [List.cons_append, operations, operations]
    cases resolve? (V := V) inputs word with
    | none => rfl
    | some op =>
      by_cases hunder : height < op.arity
      · simp only [if_pos hunder]
        rfl
      · simp only [if_neg hunder]
        rw [operations_append pre post]
        cases operations (V := V) inputs (height - op.arity + 1) (max peak (height - op.arity + 1)) pre with
        | error fault => rfl
        | ok r =>
          simp only [Except.bind]
          cases operations (V := V) inputs r.2.1 r.2.2 post <;> rfl

theorem operations_cons_of_none {word : Text} (h : resolve? (V := V) inputs word = none) (rest : List Text)
    (height peak : Nat) : operations (V := V) inputs height peak (word :: rest) = .error (.unknownToken word) := by
  rw [operations, h]

theorem operations_cons_of_lt_arity {word : Text} {op : Operation V} (h : resolve? inputs word = some op) {height : Nat}
    (hunder : height < op.arity) (rest : List Text) (peak : Nat) :
    operations (V := V) inputs height peak (word :: rest) = .error (.stackUnderflow word) := by
  rw [operations, h]
  exact if_pos hunder

theorem operations_singleton {word : Text} {op : Operation V} (h : resolve? inputs word = some op) {height : Nat}
    (henough : op.arity ≤ height) (peak : Nat) : operations inputs height peak [word] =
      .ok ([op], height - op.arity + 1, max peak (height - op.arity + 1)) := by
  rw [operations, h]
  exact if_neg (Nat.not_lt.2 henough)

/-- What the first `k` words have come to, if none of them is at fault. -/
structure ReadTo (inputs words : List Text) (k : Nat) (ops : List (Operation V)) (height peak : Nat) : Prop where
  operations_eq : operations inputs 0 0 (words.take k) = .ok (ops, height, peak)
  stands : (words.take k).map (resolve? inputs) = ops.map some
  height_eq : heightAfter V inputs words k = height
  reached : ∃ n ≤ k, heightAfter V inputs words n = peak
  le_peak : ∀ n ≤ k, heightAfter V inputs words n ≤ peak

/-- **One more word that is not at fault.** -/
theorem ReadTo.step {k : Nat} {ops : List (Operation V)} {height peak : Nat} (h : ReadTo inputs words k ops height peak)
    {word : Text} {op : Operation V} (hword : words[k]? = some word) (hop : resolve? inputs word = some op)
    (hone : 1 ≤ heightAfter V inputs words (k + 1)) :
    ∃ height' peak', ReadTo inputs words (k + 1) (ops ++ [op]) height' peak' := by
  have htake : words.take (k + 1) = words.take k ++ [word] := by rw [List.take_add_one, hword]; rfl
  have hsucc : heightAfter V inputs words (k + 1) = height + op.effect := by
    rw [heightAfter_succ hword, effectOf_eq hop, h.height_eq]
  have heffect : op.effect = 1 - (op.arity : Int) := rfl
  have henough : op.arity ≤ height := by omega
  have hheight : heightAfter V inputs words (k + 1) = (height - op.arity + 1 : Nat) := by omega
  refine ⟨height - op.arity + 1, max peak (height - op.arity + 1), ?_, ?_, hheight, ?_, fun n hn => ?_⟩
  · rw [htake, operations_append, h.operations_eq]
    simp only [Except.bind, operations_singleton hop henough, Except.map]
  · rw [htake, List.map_append, List.map_append, h.stands, List.map_singleton, hop]
    rfl
  · by_cases hle : height - op.arity + 1 ≤ peak
    · obtain ⟨n, hn, hpeak⟩ := h.reached
      exact ⟨n, by omega, by rw [hpeak, Nat.max_eq_left hle]⟩
    · exact ⟨k + 1, Nat.le_refl _, by rw [hheight, Nat.max_eq_right (by omega)]⟩
  · rcases Nat.lt_or_ge k n with hlt | hle
    · obtain rfl : n = k + 1 := by omega
      omega
    · have := h.le_peak n hle
      omega

theorem exists_of_not_faultAt {k : Nat} (h : ¬ FaultAt V inputs words k) (hk : k < words.length) :
    ∃ (word : Text) (op : Operation V), words[k]? = some word ∧ resolve? inputs word = some op ∧
      1 ≤ heightAfter V inputs words (k + 1) := by
  have hword : words[k]? = some words[k] := List.getElem?_eq_getElem hk
  have hone : ¬ heightAfter V inputs words (k + 1) < 1 := fun hlt => h ⟨_, hword, .inr hlt⟩
  cases hop : resolve? (V := V) inputs words[k] with
  | none => exact absurd ⟨_, hword, .inl (resolve?_eq_none_iff.1 hop)⟩ h
  | some op => exact ⟨_, op, hword, hop, by omega⟩

/-- **Words that are not at fault are read.** -/
theorem exists_readTo : ∀ {k : Nat}, k ≤ words.length → (∀ j < k, ¬ FaultAt V inputs words j) →
    ∃ (ops : List (Operation V)) (height peak : Nat), ReadTo inputs words k ops height peak
  | 0, _, _ => ⟨[], 0, 0, rfl, rfl, heightAfter_zero, ⟨0, Nat.le_refl 0, heightAfter_zero⟩, fun n hn => by
      rw [Nat.le_zero.1 hn, heightAfter_zero]
      rfl⟩
  | k + 1, hk, h => by
    obtain ⟨ops, height, peak, hread⟩ := exists_readTo (Nat.le_of_succ_le hk) fun j hj => h j (Nat.lt_succ_of_lt hj)
    obtain ⟨word, op, hword, hop, hone⟩ := exists_of_not_faultAt (h k (Nat.lt_succ_self k)) hk
    obtain ⟨height', peak', hread'⟩ := hread.step hword hop hone
    exact ⟨_, _, _, hread'⟩

/-! ## The verdict -/

/-- **The first word at fault is blamed**, whatever stands behind it. -/
theorem assemble_of_first {k : Nat} {word : Text} (hfirst : ∀ j < k, ¬ FaultAt V inputs words j)
    (hword : words[k]? = some word) :
    ((∀ op : Operation V, ¬ Stands inputs word op) →
      (assemble inputs words : Except CompileFault (Program V)) = .error (.unknownToken word)) ∧
    ∀ op : Operation V, Stands inputs word op → heightAfter V inputs words (k + 1) < 1 →
      (assemble inputs words : Except CompileFault (Program V)) = .error (.stackUnderflow word) := by
  obtain ⟨hk, hget⟩ := List.getElem?_eq_some_iff.1 hword
  obtain ⟨ops, height, peak, hread⟩ := exists_readTo (Nat.le_of_lt hk) hfirst
  have hsplit : operations (V := V) inputs 0 0 words =
      (operations (V := V) inputs height peak (word :: words.drop (k + 1))).map fun s => (ops ++ s.1, s.2) := by
    have hwords : words = words.take k ++ word :: words.drop (k + 1) := by
      rw [← hget, List.getElem_cons_drop, List.take_append_drop]
    conv => lhs; rw [hwords, operations_append, hread.operations_eq]
    rfl
  refine ⟨fun h => ?_, fun op h hlow => ?_⟩
  · rw [assemble, hsplit, operations_cons_of_none (resolve?_eq_none_iff.2 h)]
    rfl
  · have hop : resolve? inputs word = some op := resolve?_eq_some_iff.2 h
    have heffect : op.effect = 1 - (op.arity : Int) := rfl
    rw [heightAfter_succ hword, effectOf_eq hop, hread.height_eq] at hlow
    rw [assemble, hsplit, operations_cons_of_lt_arity hop (by omega)]
    rfl

theorem getElem?_take_append {k j : Nat} (rest : List Text) (hk : k < words.length) (hj : j ≤ k) :
    (words.take (k + 1) ++ rest)[j]? = words[j]? := by
  rw [List.getElem?_append_left (by simp; omega), List.getElem?_take_of_lt (by omega)]

theorem faultAt_take_append {k j : Nat} (rest : List Text) (hk : k < words.length) (hj : j ≤ k) :
    FaultAt V inputs (words.take (k + 1) ++ rest) j ↔ FaultAt V inputs words j := by
  rw [FaultAt, FaultAt, getElem?_take_append rest hk hj, heightAfter_take_append rest hk (by omega)]

/-- What stands behind the first word at fault does not matter. -/
theorem assemble_take_append {k : Nat} (hk : FaultAt V inputs words k) (hfirst : ∀ j < k, ¬ FaultAt V inputs words j)
    (rest : List Text) :
    (assemble inputs (words.take (k + 1) ++ rest) : Except CompileFault (Program V)) = assemble inputs words := by
  have hk' := hk
  obtain ⟨word, hword, hbad⟩ := hk
  have hlt : k < words.length := (List.getElem?_eq_some_iff.1 hword).1
  obtain ⟨word', hword', hbad'⟩ := (faultAt_take_append rest hlt (Nat.le_refl k)).2 hk'
  have hsame := getElem?_take_append rest hlt (Nat.le_refl k)
  obtain rfl : word' = word := Option.some.inj (hword'.symm.trans (hsame.trans hword))
  have hfirst' : ∀ j < k, ¬ FaultAt V inputs (words.take (k + 1) ++ rest) j := fun j hj =>
    mt (faultAt_take_append rest hlt (Nat.le_of_lt hj)).1 (hfirst j hj)
  obtain ⟨hunknown, hunder⟩ := assemble_of_first hfirst hword
  obtain ⟨hunknown', hunder'⟩ := assemble_of_first hfirst' hword'
  by_cases hstands : ∃ op : Operation V, Stands inputs word' op
  · obtain ⟨op, hop⟩ := hstands
    rw [hunder op hop (hbad.resolve_left fun h => h op hop), hunder' op hop (hbad'.resolve_left fun h => h op hop)]
  · rw [hunknown (not_exists.1 hstands), hunknown' (not_exists.1 hstands)]

/-- **Words without one at fault** are counted at the end, and then the greatest height is. -/
theorem exists_assemble_eq (hnone : ∀ k, ¬ FaultAt V inputs words k) :
    ∃ (ops : List (Operation V)) (final top : Nat), List.Forall₂ (Stands inputs) words ops ∧
      heightAfter V inputs words words.length = final ∧ IsGreatest (Set.range (heightAfter V inputs words)) top ∧
      assemble inputs words = if final ≠ 1 then .error (.imbalanced final)
        else if stackCapacity < top then .error (.stackOverflow top) else .ok ⟨ops, top⟩ := by
  obtain ⟨ops, final, top, hread⟩ := exists_readTo (Nat.le_refl words.length) fun k _ => hnone k
  have hrun := hread.operations_eq
  have hstands := hread.stands
  rw [List.take_length] at hrun hstands
  refine ⟨ops, final, top, map_resolve?_eq_iff.1 hstands, hread.height_eq, ⟨?_, ?_⟩, by rw [assemble, hrun]⟩
  · obtain ⟨n, -, hn⟩ := hread.reached
    exact ⟨n, hn⟩
  · rintro _ ⟨n, rfl⟩
    rcases Nat.le_total n words.length with hle | hle
    · exact hread.le_peak n hle
    · rw [heightAfter_of_length_le hle]
      exact hread.le_peak _ (Nat.le_refl _)

theorem verdict_assemble (expression : Text) :
    Verdict (V := V) inputs words expression ((assemble inputs words).mapError (⟨·, expression⟩)) := by
  by_cases hfault : ∃ k, FaultAt V inputs words k
  · obtain ⟨word, hword, hbad⟩ := Nat.find_spec hfault
    have hfirst : ∀ j < Nat.find hfault, ¬ FaultAt V inputs words j := fun j => Nat.find_min hfault
    obtain ⟨hunknown, hunder⟩ := assemble_of_first hfirst hword
    by_cases hstands : ∃ op : Operation V, Stands inputs word op
    · obtain ⟨op, hop⟩ := hstands
      have hlow := hbad.resolve_left fun h => h op hop
      rw [hunder op hop hlow]
      exact .stackUnderflow hfirst hword hop hlow
    · have hnothing := not_exists.1 hstands
      rw [hunknown hnothing]
      exact .unknownToken hfirst hword hnothing
  · have hnone := not_exists.1 hfault
    obtain ⟨ops, final, top, hops, hfinal, htop, heq⟩ := exists_assemble_eq hnone
    rw [heq]
    by_cases hone : final = 1
    · subst hone
      by_cases hcap : stackCapacity < top
      · simp only [ne_eq, not_true_eq_false, if_false, if_pos hcap]
        exact .stackOverflow hnone hfinal htop hcap
      · simp only [ne_eq, not_true_eq_false, if_false, if_neg hcap]
        exact .program hnone hfinal htop (Nat.le_of_not_lt hcap) hops
    · rw [if_pos hone]
      exact .imbalanced hnone hfinal hone

theorem Verdict.eq_assemble {expression : Text} {r : Except CompileError (Program V)}
    (h : Verdict inputs words expression r) : (assemble inputs words).mapError (⟨·, expression⟩) = r := by
  cases h with
  | unknownToken hfirst hword h =>
    rw [(assemble_of_first hfirst hword).1 h]
    rfl
  | stackUnderflow hfirst hword h hlow =>
    rw [(assemble_of_first hfirst hword).2 _ h hlow]
    rfl
  | imbalanced hnone hfinal h =>
    obtain ⟨ops, final, top, -, hfinal', -, heq⟩ := exists_assemble_eq hnone
    obtain rfl := Int.ofNat.inj (hfinal.symm.trans hfinal')
    rw [heq, if_pos h]
    rfl
  | stackOverflow hnone hfinal htop h =>
    obtain ⟨ops, final, top, -, hfinal', htop', heq⟩ := exists_assemble_eq hnone
    obtain rfl : 1 = final := Int.ofNat.inj (hfinal.symm.trans hfinal')
    obtain rfl := Int.ofNat.inj (htop.unique htop')
    rw [heq, if_neg (by simp), if_pos h]
    rfl
  | program hnone hfinal htop h hops =>
    obtain ⟨ops, final, top, hops', hfinal', htop', heq⟩ := exists_assemble_eq hnone
    obtain rfl : 1 = final := Int.ofNat.inj (hfinal.symm.trans hfinal')
    obtain rfl := Int.ofNat.inj (htop.unique htop')
    have hsame := (map_resolve?_eq_iff.2 hops).symm.trans (map_resolve?_eq_iff.2 hops')
    obtain rfl := (List.map_inj_right fun _ _ => Option.some.inj).1 hsame
    rw [heq, if_neg (by simp), if_neg (Nat.not_lt.2 h)]
    rfl

/-- An error that cites a word cites one that was read. -/
theorem mem_of_token? {expression : Text} {e : CompileError}
    (h : (assemble inputs words : Except CompileFault (Program V)).mapError (⟨·, expression⟩) = .error e) {t : Text}
    (ht : e.token? = some t) : t ∈ words := by
  have hverdict : Verdict (V := V) inputs words expression (.error e) := h ▸ verdict_assemble expression
  cases hverdict with
  | unknownToken _ hword => cases ht; exact List.mem_of_getElem? hword
  | stackUnderflow _ hword => cases ht; exact List.mem_of_getElem? hword
  | imbalanced => cases ht
  | stackOverflow => cases ht

theorem eq_zero_iff_of_imbalanced {final : Nat}
    (h : (assemble inputs words : Except CompileFault (Program V)) = .error (.imbalanced final)) :
    (final = 0 ↔ words = []) ∧ final ≠ 1 := by
  have hverdict : Verdict (V := V) inputs words [] ((assemble inputs words).mapError (⟨·, []⟩)) := verdict_assemble []
  rw [h] at hverdict
  cases hverdict with
  | imbalanced hnone hfinal hne =>
    refine ⟨⟨fun hzero => ?_, fun hnil => ?_⟩, hne⟩
    · by_contra hwords
      have hlen : words.length - 1 < words.length := by
        have := List.length_pos_of_ne_nil hwords
        omega
      obtain ⟨-, -, -, -, hone⟩ := exists_of_not_faultAt (hnone (words.length - 1)) hlen
      rw [show words.length - 1 + 1 = words.length by omega, hfinal, hzero] at hone
      omega
    · rw [hnil, List.length_nil, heightAfter_zero] at hfinal
      omega

end Program

namespace Entry

variable {V : Type} [Scalar V]

/-- The text that an error quotes: the expression without its mark. -/
def quoted : Entry → Text → Text
  | .marked, expression => (Style.detect expression).2
  | .conventional, expression | .reversed, expression => expression

/-- The words that an expression is assembled from; there are none if a closing bracket or a comma has no bracket open. -/
def words? : Entry → Text → Option (List Text)
  | .marked, expression =>
    match Style.detect expression with
    | (.reversed, body) => some (Text.words body)
    | (.conventional, body) => Postfix.ofText? body
  | .conventional, expression => Postfix.ofText? expression
  | .reversed, expression => some (Text.words expression)

/-- **Every way into the compiler assembles words**, and quotes the text that they are from. -/
theorem compile_eq (entry : Entry) (expression : Text) (inputs : List Text) :
    (entry.compile expression inputs : Except CompileError (Program V)) =
      match entry.words? expression with
      | none => .error ⟨.unopenedBracket, entry.quoted expression⟩
      | some words => (Program.assemble inputs words).mapError (⟨·, entry.quoted expression⟩) := by
  cases entry with
  | conventional => rfl
  | reversed => rfl
  | marked =>
    simp only [compile, Program.compile, words?, quoted]
    cases Style.detect expression with
    | mk style body => cases style <;> rfl

theorem mem_tokens_of_words? {entry : Entry} {expression : Text} {words : List Text}
    (h : entry.words? expression = some words) {w : Text} (hw : w ∈ words) : w ∈ entry.tokens expression := by
  cases entry with
  | conventional => exact Postfix.mem_lexemes_of_ofText? h hw
  | reversed => cases h; exact hw
  | marked =>
    simp only [words?] at h
    simp only [tokens]
    cases hstyle : Style.detect expression with
    | mk style body =>
      rw [hstyle] at h
      cases style with
      | conventional => exact Postfix.mem_lexemes_of_ofText? h hw
      | reversed => cases h; exact hw

/-- **Errors quote the text that was given**, and cite a token of it if they cite a word. -/
theorem of_compile_eq_error {entry : Entry} {expression : Text} {inputs : List Text} {e : CompileError}
    (h : (entry.compile expression inputs : Except CompileError (Program V)) = .error e) :
    e.expression = entry.quoted expression ∧ ∀ t, e.token? = some t → t ∈ entry.tokens expression := by
  rw [compile_eq] at h
  cases hwords : entry.words? expression with
  | none =>
    rw [hwords] at h
    cases h
    exact ⟨rfl, nofun⟩
  | some words =>
    rw [hwords] at h
    refine ⟨?_, fun t ht => mem_tokens_of_words? hwords (Program.mem_of_token? h ht)⟩
    obtain ⟨fault, -, rfl⟩ := Program.mapError_eq_error_iff.1 h
    rfl

end Entry

namespace Program

variable {V : Type} [Scalar V]

/-- **What becomes of words is settled by the first one at fault**, else by the values at the end, else by the greatest
height on the way.  The blame does not depend on what stands behind the word that gets it; words are imbalanced with no
value only if there are none of them; and an error quotes the text that was given, and cites a token of it. -/
theorem assemble_verdict (inputs words : List Text) (expression : Text) :
    (∀ (word : Text) (op : Operation V), resolve? inputs word = some op ↔ Stands inputs word op) ∧
    (∀ r : Except CompileError (Program V),
      (assemble inputs words).mapError (⟨·, expression⟩) = r ↔ Verdict inputs words expression r) ∧
    (∀ k, FaultAt V inputs words k → (∀ j < k, ¬ FaultAt V inputs words j) → ∀ rest : List Text,
      (assemble inputs (words.take (k + 1) ++ rest) : Except CompileFault (Program V)) = assemble inputs words) ∧
    (∀ final, (assemble inputs words : Except CompileFault (Program V)) = .error (.imbalanced final) →
      (final = 0 ↔ words = []) ∧ final ≠ 1) ∧
    ∀ (entry : Entry) (e : CompileError),
      (entry.compile expression inputs : Except CompileError (Program V)) = .error e →
        e.expression = entry.quoted expression ∧ ∀ t, e.token? = some t → t ∈ entry.tokens expression := by
  refine ⟨fun _ _ => resolve?_eq_some_iff, fun r => ⟨?_, Verdict.eq_assemble⟩, fun _ => assemble_take_append,
    fun _ => eq_zero_iff_of_imbalanced, fun _ _ => Entry.of_compile_eq_error⟩
  rintro rfl
  exact verdict_assemble expression

/-- An operator that finds too few values gets the blame, not the unknown name behind it; and of too many values and too
many slots the values count. -/
theorem assemble_verdict_early_operator :
    let inputs : List Text := ["x".toList]
    let words : List Text := ["x".toList, ['+'], "y".toList]
    let expression : Text := "x + y".toList
    let many : List Text := List.replicate 22 ['1']
    ((assemble inputs words).mapError (⟨·, expression⟩) : Except CompileError (Program Double)) =
        .error ⟨.stackUnderflow ['+'], expression⟩ ∧
      (assemble inputs ["x".toList, ['+']] : Except CompileFault (Program Double)) = assemble inputs words ∧
      Verdict (V := Double) inputs many [] (.error ⟨.imbalanced 22, []⟩) ∧ (22 = 0 ↔ many = []) := by
  intro inputs words expression many
  have hfirst : ∀ j < 1, ¬ FaultAt Double inputs words j := by decide +kernel
  have hfault : FaultAt Double inputs words 1 := by decide +kernel
  have hplus : Stands inputs ['+'] (.binary .add : Operation Double) := .builtin rfl
  have hverdict : Verdict (V := Double) inputs words expression (.error ⟨.stackUnderflow ['+'], expression⟩) :=
    .stackUnderflow hfirst rfl hplus (by decide +kernel)
  have hmany : (assemble inputs many : Except CompileFault (Program Double)) = .error (.imbalanced 22) := by
    decide +kernel
  obtain ⟨-, hiff, hrest, -, -⟩ := assemble_verdict (V := Double) inputs words expression
  obtain ⟨-, hiff', -, hzero, -⟩ := assemble_verdict (V := Double) inputs many []
  exact ⟨(hiff _).2 hverdict, hrest 1 hfault hfirst [], (hiff' _).1 (by rw [hmany]; rfl), (hzero 22 hmany).1⟩

end Program
end SignalFormula
