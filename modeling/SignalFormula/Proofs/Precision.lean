import SignalFormula.Proofs.Number.Range
import SignalFormula.Proofs.Verdict
/-!
# Precision — one language for all formats, up to their range

Formats differ in one thing that the compiler takes notice of: a literal can be out of the range of the narrower format.
There it stands for nothing; every other word stands for the same operation in both, a literal for its value in each
(`Program.Stands.exists_widen`).  So the words in front of the first such literal are read alike, heights included, and it
can only come in front of what is wrong in the wider format (`Entry.compile_single`).
-/
namespace SignalFormula

/-- The same operation in two types of values; the values of two constants are those of one literal. -/
inductive Operation.ReadsAlike {V W : Type} [Scalar V] [Scalar W] : Operation V → Operation W → Prop where
  | binary (f : BinaryOp) : ReadsAlike (.binary f) (.binary f)
  | unary (f : UnaryOp) : ReadsAlike (.unary f) (.unary f)
  | rand : ReadsAlike .rand .rand
  | input (i : Nat) : ReadsAlike (.input i) (.input i)
  | const {t : Text} {x : V} {y : W} (hx : Scalar.literal? t = some x) (hy : Scalar.literal? t = some y) :
      ReadsAlike (.const x) (.const y)

/-- A literal of the wider format that is infinite in the narrower one. -/
structure Overflows (F G : Format) (t : Text) : Prop where
  literal : ∃ y : Binary G, Scalar.literal? t = some y
  infinite : ∃ negative, (Scalar.value? t : Option (Binary F)) = some (.infinite negative)

namespace Operation

variable {V W : Type} [Scalar V] [Scalar W]

theorem ReadsAlike.effect_eq {op : Operation V} {op' : Operation W} (h : op.ReadsAlike op') : op.effect = op'.effect := by
  cases h <;> rfl

/-- A builtin word names one operation, whatever the type of values. -/
theorem exists_readsAlike_of_ofKeyword? {word : Text} {op : Operation V} (h : ofKeyword? word = some op) :
    ∃ op' : Operation W, ofKeyword? word = some op' ∧ op.ReadsAlike op' := by
  rcases eq_of_ofKeyword? h with hk | ⟨rfl, rfl⟩
  · cases op with
    | binary f => exact ⟨_, ofKeyword?_keyword hk, .binary f⟩
    | unary f => exact ⟨_, ofKeyword?_keyword hk, .unary f⟩
    | rand => exact ⟨_, ofKeyword?_keyword hk, .rand⟩
    | input i => cases hk
    | const v => cases hk
  · exact ⟨_, rfl, .binary .pow⟩

theorem ofKeyword?_eq_none_of_none {word : Text} (h : (ofKeyword? word : Option (Operation V)) = none) :
    (ofKeyword? word : Option (Operation W)) = none :=
  Option.eq_none_iff_forall_ne_some.2 fun op' hop' => by
    obtain ⟨op, hop, -⟩ := exists_readsAlike_of_ofKeyword? (W := V) hop'
    rw [h] at hop
    cases hop

end Operation

namespace Program

open Operation (ReadsAlike)

variable {F G : Format} {inputs words : List Text} {word : Text}

/-! ## What words stand for in two formats -/

/-- **What a word stands for in a format, it stands for in every format that goes further.** -/
theorem Stands.exists_widen (h : F.Narrower G) {op : Operation (Binary F)} (hop : Stands inputs word op) :
    ∃ op' : Operation (Binary G), Stands inputs word op' ∧ op.ReadsAlike op' := by
  cases hop with
  | builtin hop =>
    obtain ⟨op', hop', hread⟩ := Operation.exists_readsAlike_of_ofKeyword? (W := Binary G) hop
    exact ⟨op', .builtin hop', hread⟩
  | input hnone hname hfirst =>
    have hnone' := Operation.ofKeyword?_eq_none_of_none (W := Binary G) hnone
    exact ⟨_, .input hnone' hname hfirst, .input _⟩
  | literal hnone hname hx =>
    have hnone' := Operation.ofKeyword?_eq_none_of_none (W := Binary G) hnone
    obtain ⟨y, hy⟩ := Binary.exists_literal?_widen h hx
    exact ⟨_, .literal hnone' hname hy, .const hx hy⟩

theorem Stands.readsAlike (h : F.Narrower G) {op : Operation (Binary F)} {op' : Operation (Binary G)}
    (hop : Stands inputs word op) (hop' : Stands inputs word op') : op.ReadsAlike op' := by
  obtain ⟨op'', hop'', hread⟩ := hop.exists_widen h
  have hsame := (resolve?_eq_some_iff.2 hop').symm.trans (resolve?_eq_some_iff.2 hop'')
  obtain rfl := Option.some.inj hsame
  exact hread

theorem forall₂_readsAlike (h : F.Narrower G) : ∀ {words : List Text} {ops : List (Operation (Binary F))}
    {ops' : List (Operation (Binary G))}, List.Forall₂ (Stands inputs) words ops →
      List.Forall₂ (Stands inputs) words ops' → List.Forall₂ ReadsAlike ops ops'
  | _, _, _, .nil, .nil => .nil
  | _, _, _, .cons hop hops, .cons hop' hops' => .cons (hop.readsAlike h hop') (forall₂_readsAlike h hops hops')

/-- **A word that stands for something in the wider format only** is a literal, out of range in the narrower one. -/
theorem Stands.overflows {op' : Operation (Binary G)} (hop' : Stands inputs word op')
    (hnone : ∀ op : Operation (Binary F), ¬ Stands inputs word op) : Overflows F G word ∧ op'.effect = 1 := by
  cases hop' with
  | builtin hop' =>
    obtain ⟨op, hop, -⟩ := Operation.exists_readsAlike_of_ofKeyword? (W := Binary F) hop'
    exact absurd (.builtin hop) (hnone op)
  | input hkeyword hname hfirst =>
    have hkeyword' := Operation.ofKeyword?_eq_none_of_none (W := Binary F) hkeyword
    exact absurd (.input hkeyword' hname hfirst) (hnone _)
  | literal hkeyword hname hy =>
    have hkeyword' := Operation.ofKeyword?_eq_none_of_none (W := Binary F) hkeyword
    have hout : (Binary.literal? word : Option (Binary F)) = none :=
      Option.eq_none_iff_forall_ne_some.2 fun x hx => hnone _ (.literal hkeyword' hname hx)
    exact ⟨⟨⟨_, hy⟩, Binary.exists_value?_eq_infinite hy hout⟩, rfl⟩

/-! ## Words that are read alike -/

/-- **In front of the first word at fault the heights are the same** in every format that goes further. -/
theorem heightAfter_widen (h : F.Narrower G) : ∀ {n : Nat}, n ≤ words.length →
    (∀ j < n, ¬ FaultAt (Binary F) inputs words j) →
      heightAfter (Binary F) inputs words n = heightAfter (Binary G) inputs words n
  | 0, _, _ => by rw [heightAfter_zero, heightAfter_zero]
  | n + 1, hn, hnone => by
    obtain ⟨word, op, hword, hop, -⟩ := exists_of_not_faultAt (hnone n (Nat.lt_succ_self n)) hn
    obtain ⟨op', hop', hread⟩ := (resolve?_eq_some_iff.1 hop).exists_widen h
    rw [heightAfter_succ hword, heightAfter_succ hword, effectOf_eq hop, effectOf_eq (resolve?_eq_some_iff.2 hop'),
      hread.effect_eq, heightAfter_widen h (Nat.le_of_succ_le hn) fun j hj => hnone j (Nat.lt_succ_of_lt hj)]

theorem not_faultAt_widen (h : F.Narrower G) {k : Nat} (hnone : ∀ j < k, ¬ FaultAt (Binary F) inputs words j) :
    ∀ j < k, ¬ FaultAt (Binary G) inputs words j := by
  rintro j hj ⟨word, hword, hbad⟩
  have hlt : j < words.length := (List.getElem?_eq_some_iff.1 hword).1
  obtain ⟨word', op, hword', hop, hone⟩ := exists_of_not_faultAt (hnone j hj) hlt
  obtain rfl : word = word' := Option.some.inj (hword.symm.trans hword')
  obtain ⟨op', hop', -⟩ := (resolve?_eq_some_iff.1 hop).exists_widen h
  have hlow := hbad.resolve_left fun hnothing => hnothing op' hop'
  have hheight : heightAfter (Binary F) inputs words (j + 1) = heightAfter (Binary G) inputs words (j + 1) :=
    heightAfter_widen h hlt fun i hi => hnone i (by omega)
  omega

/-- How words are assembled in a format and in one that goes further: to programs that do the same, to the same fault, or
to the fault of a literal that is out of range, in front of anything that is wrong in the wider format. -/
inductive Narrowed (F G : Format) (inputs words : List Text) :
    Except CompileFault (Program (Binary F)) → Except CompileFault (Program (Binary G)) → Prop where
  | program {p : Program (Binary F)} {q : Program (Binary G)} (hops : List.Forall₂ ReadsAlike p.ops q.ops)
      (hdepth : p.maxDepth = q.maxDepth) : Narrowed F G inputs words (.ok p) (.ok q)
  | fault (fault : CompileFault) : Narrowed F G inputs words (.error fault) (.error fault)
  | outOfRange {k : Nat} {t : Text} (r : Except CompileFault (Program (Binary G))) (hword : words[k]? = some t)
      (hover : Overflows F G t) (hearlier : ∀ j ≤ k, ¬ FaultAt (Binary G) inputs words j) :
      Narrowed F G inputs words (.error (.unknownToken t)) r

/-- Words whose first one at fault in the narrower format is known. -/
theorem narrowed_of_first (h : F.Narrower G) {k : Nat} (hk : FaultAt (Binary F) inputs words k)
    (hfirst : ∀ j < k, ¬ FaultAt (Binary F) inputs words j) :
    Narrowed F G inputs words (assemble inputs words) (assemble inputs words) := by
  obtain ⟨word, hword, hbad⟩ := hk
  have hlt : k < words.length := (List.getElem?_eq_some_iff.1 hword).1
  have hfirst' := not_faultAt_widen h hfirst
  have hheight := heightAfter_widen h (Nat.le_of_lt hlt) hfirst
  obtain ⟨hunknown, hunder⟩ := assemble_of_first hfirst hword
  obtain ⟨hunknown', hunder'⟩ := assemble_of_first hfirst' hword
  by_cases hstands : ∃ op : Operation (Binary F), Stands inputs word op
  · obtain ⟨op, hop⟩ := hstands
    obtain ⟨op', hop', hread⟩ := hop.exists_widen h
    have hlow := hbad.resolve_left fun hnothing => hnothing op hop
    have hlow' : heightAfter (Binary G) inputs words (k + 1) < 1 := by
      rw [heightAfter_succ hword, effectOf_eq (resolve?_eq_some_iff.2 hop)] at hlow
      rw [heightAfter_succ hword, effectOf_eq (resolve?_eq_some_iff.2 hop'), ← hread.effect_eq, ← hheight]
      exact hlow
    rw [hunder op hop hlow, hunder' op' hop' hlow']
    exact .fault _
  · have hnothing := not_exists.1 hstands
    rw [hunknown hnothing]
    by_cases hstands' : ∃ op' : Operation (Binary G), Stands inputs word op'
    · obtain ⟨op', hop'⟩ := hstands'
      obtain ⟨hover, heffect⟩ := hop'.overflows hnothing
      refine .outOfRange _ hword hover fun j hj => ?_
      rcases Nat.lt_or_eq_of_le hj with hj | rfl
      · exact hfirst' j hj
      · -- a literal leaves a value on whatever the words in front of it have left
        rintro ⟨word', hword', hbad'⟩
        obtain rfl : word = word' := Option.some.inj (hword.symm.trans hword')
        have hlow := hbad'.resolve_left fun hnothing' => hnothing' op' hop'
        obtain ⟨ops, height, peak, hread⟩ := exists_readTo (Nat.le_of_lt hlt) hfirst'
        rw [heightAfter_succ hword, effectOf_eq (resolve?_eq_some_iff.2 hop'), heffect, hread.height_eq] at hlow
        omega
    · rw [hunknown' (not_exists.1 hstands')]
      exact .fault _

/-- **Words are assembled alike in two formats**, up to the range of the narrower one. -/
theorem assemble_narrowed (h : F.Narrower G) :
    Narrowed F G inputs words (assemble inputs words) (assemble inputs words) := by
  by_cases hfault : ∃ k, FaultAt (Binary F) inputs words k
  · exact narrowed_of_first h (Nat.find_spec hfault) fun j => Nat.find_min hfault
  · have hnone := not_exists.1 hfault
    have hnone' : ∀ k, ¬ FaultAt (Binary G) inputs words k := fun k =>
      not_faultAt_widen h (fun j _ => hnone j) k (Nat.lt_succ_self k)
    have hheights : heightAfter (Binary F) inputs words = heightAfter (Binary G) inputs words := funext fun n => by
      have hmin := heightAfter_widen (n := min n words.length) h (Nat.min_le_right ..) fun j _ => hnone j
      rcases Nat.le_total n words.length with hle | hle
      · rwa [Nat.min_eq_left hle] at hmin
      · rw [heightAfter_of_length_le hle, heightAfter_of_length_le hle]
        rwa [Nat.min_eq_right hle] at hmin
    obtain ⟨ops, final, top, hops, hfinal, htop, heq⟩ := exists_assemble_eq hnone
    obtain ⟨ops', final', top', hops', hfinal', htop', heq'⟩ := exists_assemble_eq hnone'
    rw [hheights] at hfinal htop
    obtain rfl : final = final' := Int.ofNat.inj (hfinal.symm.trans hfinal')
    obtain rfl : top = top' := Int.ofNat.inj (htop.unique htop')
    rw [heq, heq']
    split_ifs
    · exact .fault _
    · exact .fault _
    · exact .program (forall₂_readsAlike h hops hops') rfl

end Program

theorem Format.single_narrower_double : Format.single.Narrower Format.double := by
  unfold Format.Narrower
  decide

namespace Entry

open Operation (ReadsAlike)
open Program (FaultAt Narrowed)

/-- **Single and double precision compile the same language up to range.**  A program of single precision is one of double
precision, with the values that its literals have there.  Where only double precision has a program, single precision
blames a literal that is out of its range, and where double precision has an error, single precision has the same one or
blames such a literal in front of it. -/
theorem compile_single (entry : Entry) (expression : Text) (inputs : List Text) :
    (∀ p : Program Single, entry.compile expression inputs = .ok p →
      ∃ q : Program Double, entry.compile expression inputs = .ok q ∧ q.ops.length = p.ops.length ∧
        q.maxDepth = p.maxDepth ∧ List.Forall₂ ReadsAlike p.ops q.ops) ∧
    (∀ (q : Program Double) (e : CompileError), entry.compile expression inputs = .ok q →
      (entry.compile expression inputs : Except CompileError (Program Single)) = .error e →
        ∃ t, e = ⟨.unknownToken t, entry.quoted expression⟩ ∧ Overflows .single .double t) ∧
    ∀ e : CompileError, (entry.compile expression inputs : Except CompileError (Program Double)) = .error e →
      (entry.compile expression inputs : Except CompileError (Program Single)) = .error e ∨
      ∃ words k t, entry.words? expression = some words ∧ words[k]? = some t ∧ Overflows .single .double t ∧
        (∀ j ≤ k, ¬ FaultAt Double inputs words j) ∧
        (entry.compile expression inputs : Except CompileError (Program Single)) =
          .error ⟨.unknownToken t, entry.quoted expression⟩ := by
  rw [compile_eq, compile_eq]
  cases hwords : entry.words? expression with
  | none =>
    refine ⟨nofun, nofun, fun e he => .inl ?_⟩
    cases he
    rfl
  | some words =>
    have hnarrowed : Narrowed .single .double inputs words (Program.assemble inputs words)
        (Program.assemble inputs words) := Program.assemble_narrowed Format.single_narrower_double
    simp only
    generalize (Program.assemble inputs words : Except CompileFault (Program Single)) = r at hnarrowed ⊢
    generalize (Program.assemble inputs words : Except CompileFault (Program Double)) = s at hnarrowed ⊢
    cases hnarrowed with
    | @program p q hops hdepth =>
      refine ⟨fun p' hp => ?_, nofun, nofun⟩
      cases hp
      exact ⟨q, rfl, hops.length_eq.symm, hdepth.symm, hops⟩
    | fault fault =>
      refine ⟨nofun, nofun, fun e he => .inl ?_⟩
      cases he
      rfl
    | @outOfRange k t _ hword hover hearlier =>
      refine ⟨nofun, fun q e _ he => ?_, fun e _ => .inr ⟨words, k, t, rfl, hword, hover, hearlier, rfl⟩⟩
      cases he
      exact ⟨t, rfl, hover⟩

/-- A tenth is not the same number in both; and `1e39` is out of the range of single precision, where it is blamed in front of
an unknown name. -/
theorem compile_single_out_of_range :
    let inputs : List Text := ["x".toList]
    let tenth : Text := "x - 0.1".toList
    let large : Text := "x - 1e39".toList
    let unknown : Text := "1e39 - y".toList
    (∃ q : Program Double, conventional.compile tenth inputs = .ok q ∧ q.ops.length = 3 ∧ q.maxDepth = 2) ∧
      (∃ t, (⟨.unknownToken "1e39".toList, large⟩ : CompileError) = ⟨.unknownToken t, large⟩ ∧
        Overflows .single .double t) ∧
      (conventional.compile unknown inputs : Except CompileError (Program Double)) =
        .error ⟨.unknownToken ['y'], unknown⟩ ∧
      ∃ words k t, conventional.words? unknown = some words ∧ words[k]? = some t ∧ Overflows .single .double t ∧
        (∀ j ≤ k, ¬ FaultAt Double inputs words j) ∧
        (conventional.compile unknown inputs : Except CompileError (Program Single)) =
          .error ⟨.unknownToken t, unknown⟩ := by
  intro inputs tenth large unknown
  let p : Program Single := ⟨[.input 0, .const (.round false (1 / 10)), .binary .sub], 2⟩
  let wide : Program Double := ⟨[.input 0, .const (.ofDecimal false 1 39), .binary .sub], 2⟩
  have htenth : conventional.compile tenth inputs = .ok p := by decide +kernel
  have hwide : conventional.compile large inputs = .ok wide := by decide +kernel
  have hlarge : (conventional.compile large inputs : Except CompileError (Program Single)) =
      .error ⟨.unknownToken "1e39".toList, large⟩ := by decide +kernel
  have hunknown : (conventional.compile unknown inputs : Except CompileError (Program Double)) =
      .error ⟨.unknownToken ['y'], unknown⟩ := by decide +kernel
  have hdiffer : (conventional.compile unknown inputs : Except CompileError (Program Single)) ≠
      .error ⟨.unknownToken ['y'], unknown⟩ := by decide +kernel
  obtain ⟨q, hq, hlength, hdepth, -⟩ := (compile_single conventional tenth inputs).1 p htenth
  exact ⟨⟨q, hq, hlength, hdepth⟩, (compile_single conventional large inputs).2.1 wide _ hwide hlarge, hunknown,
    ((compile_single conventional unknown inputs).2.2 _ hunknown).resolve_left hdiffer⟩

end Entry

end SignalFormula
