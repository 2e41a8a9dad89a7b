import SignalFormula.Proofs.Number.Significant
import SignalFormula.Proofs.Recompile
/-!
# Listing — what the texts of a program tell about it

The listing of a program has a line for each operation (`Program.lines_disassemble`).  A line tells its operation: a builtin
word names it, an input has its number, and a constant has a text that no other constant of a program has.  The depth is not
in the listing, but the operations are those of one tree only; so a compiled program is known from its listing
(`Entry.disassemble_injective`).

In the listing and in the postfix text a constant stands as a shortest decimal, and as that it is read back
(`Program.const_written`).
-/
namespace SignalFormula

namespace Text

/-- The lines of a text: each one goes to the next break, and what is left behind the last break is a line too. -/
def lines : Text → List Text
  | [] => []
  | c :: t =>
    if c = '\n' then [] :: lines t
    else
      match lines t with
      | [] => [[c]]
      | line :: rest => (c :: line) :: rest

theorem lines_append_break {t : Text} : ∀ {line : Text}, '\n' ∉ line → lines (line ++ '\n' :: t) = line :: lines t
  | [], _ => by simp [lines]
  | c :: line, h => by
    have hc : c ≠ '\n' := fun heq => h (heq ▸ List.mem_cons_self)
    have hline : '\n' ∉ line := fun hmem => h (List.mem_cons_of_mem c hmem)
    rw [List.cons_append, lines, if_neg hc, lines_append_break hline]

theorem IsWord.not_mem_break {t : Text} (h : IsWord t) : '\n' ∉ t := fun hmem => by cases h.2 _ hmem

theorem not_mem_break_ofNat (n : Nat) : '\n' ∉ ofNat n := fun hmem => by cases isDigit_of_mem_ofNat hmem

theorem ofNat_injective {m n : Nat} (h : ofNat m = ofNat n) : m = n := by
  rw [← Numeral.valueOfDigits_ofNat m, h, Numeral.valueOfDigits_ofNat]

end Text

/-- A type of values whose texts tell the values of literals apart, and fit in a line. -/
class DistinctScalar (V : Type) [Scalar V] : Prop where
  eq_of_toText_eq {t u : Text} {v w : V} : Scalar.literal? t = some v → Scalar.literal? u = some w →
    Scalar.toText v = Scalar.toText w → v = w
  not_mem_break_toText {t : Text} {v : V} : Scalar.literal? t = some v → '\n' ∉ Scalar.toText v

/-- Values that are read back from their texts are told apart by them. -/
instance {V : Type} [Scalar V] [LegibleScalar V] : DistinctScalar V where
  eq_of_toText_eq hv hw htext := by
    have hread := LegibleScalar.literal?_toText hv
    rw [htext, LegibleScalar.literal?_toText hw] at hread
    exact (Option.some.inj hread).symm
  not_mem_break_toText hv := (LegibleScalar.isDecimal_toText hv).isWord.not_mem_break

namespace Operation

variable {V : Type} [Scalar V]

/-- An operation is written in one line if the text of its constant fits in a line. -/
theorem not_mem_break_listing {op : Operation V} (h : ∀ v, op = .const v → '\n' ∉ Scalar.toText v) :
    '\n' ∉ op.listing := by
  have hbuiltin : ∀ k, op.keyword? = some k → '\n' ∉ k := fun k hk => (isWord_of_keyword? hk).not_mem_break
  cases op with
  | binary f => exact hbuiltin _ rfl
  | unary f => exact hbuiltin _ rfl
  | rand => exact hbuiltin _ rfl
  | input i =>
    intro hmem
    rcases List.mem_append.1 hmem with hmem | hmem
    · exact absurd hmem (by decide)
    · exact Text.not_mem_break_ofNat i hmem
  | const v =>
    intro hmem
    rcases List.mem_append.1 hmem with hmem | hmem
    · exact absurd hmem (by decide)
    · exact h v rfl hmem

/-- **What is listed as a builtin word is the operation of that word.** -/
theorem ofKeyword?_listing (op : Operation V) : ofKeyword? op.listing = op.keyword?.map fun _ => op := by
  cases op with
  | binary f => cases f <;> rfl
  | unary f => cases f <;> rfl
  | rand => rfl
  | input i => rfl
  | const v => rfl

/-- **A line tells its operation**, if the operation is what some word stands for. -/
theorem eq_of_listing_eq [DistinctScalar V] {inputs inputs' : List Text} {word word' : Text} {op op' : Operation V}
    (h : Program.resolve? inputs word = some op) (h' : Program.resolve? inputs' word' = some op')
    (hlisting : op.listing = op'.listing) : op = op' := by
  have hkeyword := ofKeyword?_listing op
  rw [hlisting, ofKeyword?_listing op'] at hkeyword
  cases hk : op.keyword? with
  | some k =>
    rw [hk] at hkeyword
    obtain ⟨-, -, heq⟩ := Option.map_eq_some_iff.1 hkeyword
    exact heq.symm
  | none =>
    rw [hk, Option.map_none, Option.map_eq_none_iff] at hkeyword
    cases op with
    | binary f => cases hk
    | unary f => cases hk
    | rand => cases hk
    | input i =>
      cases op' with
      | binary f => cases hkeyword
      | unary f => cases hkeyword
      | rand => cases hkeyword
      | input j => rw [Text.ofNat_injective (List.append_cancel_left hlisting)]
      | const w =>
        have hhead : some 'i' = some 'c' := congrArg List.head? hlisting
        exact absurd hhead (by decide)
    | const v =>
      cases op' with
      | binary f => cases hkeyword
      | unary f => cases hkeyword
      | rand => cases hkeyword
      | input j =>
        have hhead : some 'c' = some 'i' := congrArg List.head? hlisting
        exact absurd hhead (by decide)
      | const w =>
        rw [DistinctScalar.eq_of_toText_eq (Program.literal?_of_resolve? h) (Program.literal?_of_resolve? h')
          (List.append_cancel_left hlisting)]

end Operation

namespace Program

variable {V : Type} [Scalar V]

/-- The line of an operation at an offset. -/
def line (n : Nat) (op : Operation V) : Text := offset n ++ ": ".toList ++ op.listing

theorem line_const (n : Nat) (v : V) : line n (.const v) = offset n ++ ": const ".toList ++ Scalar.toText v := by
  show offset n ++ ": ".toList ++ ("const ".toList ++ Scalar.toText v) = _
  rw [List.append_assoc, List.append_assoc]
  rfl

theorem not_mem_break_line {op : Operation V} (h : '\n' ∉ op.listing) (n : Nat) : '\n' ∉ line n op := by
  simp only [line, offset, List.mem_append, not_or]
  refine ⟨⟨⟨fun hmem => ?_, Text.not_mem_break_ofNat n⟩, by decide⟩, h⟩
  cases List.eq_of_mem_replicate hmem

theorem lines_listFrom : ∀ {ops : List (Operation V)} (n : Nat), (∀ op ∈ ops, '\n' ∉ op.listing) →
    Text.lines (listFrom n ops) = (ops.zipIdx n).map fun e => line e.2 e.1
  | [], _, _ => rfl
  | op :: ops, n, h => by
    have hline : '\n' ∉ line n op := not_mem_break_line (h op List.mem_cons_self) n
    rw [listFrom, List.zipIdx_cons, List.map_cons]
    exact (Text.lines_append_break hline).trans
      (congrArg (line n op :: ·) (lines_listFrom (n + 1) fun op' hop' => h op' (List.mem_cons_of_mem op hop')))

/-- **The listing has one line for each operation**, if every constant fits in a line. -/
theorem lines_disassemble {p : Program V} (h : ∀ v, .const v ∈ p.ops → '\n' ∉ Scalar.toText v) :
    Text.lines p.disassemble = p.ops.mapIdx line := by
  rw [List.mapIdx_eq_zipIdx_map]
  exact lines_listFrom 0 fun op hop => Operation.not_mem_break_listing fun v hv => h v (hv ▸ hop)

end Program

namespace Entry

open Program (line resolve?)

variable {V : Type} [Scalar V] {entry entry' : Entry} {expression expression' : Text} {inputs inputs' : List Text}
  {p q : Program V}

/-- The operations of a compiled program are those of one tree, so they tell its depth. -/
theorem maxDepth_eq_of_ops_eq (hp : entry.compile expression inputs = .ok p)
    (hq : entry'.compile expression' inputs' = .ok q) (h : p.ops = q.ops) : p.maxDepth = q.maxDepth := by
  obtain ⟨t, rfl, -⟩ := exists_tree hp
  obtain ⟨u, rfl, -⟩ := exists_tree hq
  rw [OpTree.postorder_injective h]

variable [DistinctScalar V]

theorem not_mem_break_const (h : entry.compile expression inputs = .ok p) {v : V} (hv : .const v ∈ p.ops) :
    '\n' ∉ Scalar.toText v := by
  obtain ⟨word, hword⟩ := exists_resolve? h hv
  exact DistinctScalar.not_mem_break_toText (Program.literal?_of_resolve? hword)

/-- Compiled programs with the same lines have the same operations. -/
theorem ops_eq_of_mapIdx_line (hp : entry.compile expression inputs = .ok p)
    (hq : entry'.compile expression' inputs' = .ok q) (h : p.ops.mapIdx line = q.ops.mapIdx line) : p.ops = q.ops := by
  refine List.ext_getElem? fun i => ?_
  have hline := congrArg (·[i]?) h
  simp only [List.getElem?_mapIdx] at hline
  cases hop : p.ops[i]? with
  | none =>
    rw [hop, Option.map_none] at hline
    exact (Option.map_eq_none_iff.1 hline.symm).symm
  | some op =>
    rw [hop, Option.map_some] at hline
    obtain ⟨op', hop', hsame⟩ := Option.map_eq_some_iff.1 hline.symm
    obtain ⟨word, hword⟩ := exists_resolve? hp (List.mem_of_getElem? hop)
    obtain ⟨word', hword'⟩ := exists_resolve? hq (List.mem_of_getElem? hop')
    rw [hop', Operation.eq_of_listing_eq hword hword' (List.append_cancel_left hsame).symm]

/-- **A compiled program is known from its listing**, by whichever way, from whatever expression and for whatever inputs it
was compiled: programs with one listing have the same operations and the same depth.  And the listing has as many lines as
the program has operations. -/
theorem disassemble_injective (hp : entry.compile expression inputs = .ok p)
    (hq : entry'.compile expression' inputs' = .ok q) :
    (p.disassemble = q.disassemble → p.ops = q.ops ∧ p.maxDepth = q.maxDepth) ∧
      (Text.lines p.disassemble).length = p.ops.length := by
  have hlines := Program.lines_disassemble fun v => not_mem_break_const hp (v := v)
  have hlines' := Program.lines_disassemble fun v => not_mem_break_const hq (v := v)
  constructor
  · intro h
    rw [h, hlines'] at hlines
    have hops := ops_eq_of_mapIdx_line hp hq hlines.symm
    exact ⟨hops, maxDepth_eq_of_ops_eq hp hq hops⟩
  · rw [hlines, List.length_mapIdx]

/-- A tenth of the first input in both notations, with the input named and the tenth written in two ways. -/
theorem disassemble_injective_tenth :
    let p : Program Double := ⟨[.input 0, .const (.ofRat (1 / 10)), .binary .mul], 2⟩
    let q : Program Double := ⟨[.input 0, .const (.ofDecimal false 1 (-1)), .binary .mul], 2⟩
    conventional.compile "x * 0.10".toList ["x".toList] = .ok p ∧
      reversed.compile "y 1e-1 *".toList ["y".toList, "z".toList] = .ok q ∧
      p.disassemble = "0000: input #0\n0001: const 0.1\n0002: *\n".toList ∧ p.disassemble = q.disassemble ∧
      (p.ops = q.ops ∧ p.maxDepth = q.maxDepth) ∧ (Text.lines p.disassemble).length = 3 := by
  intro p q
  have hp : conventional.compile "x * 0.10".toList ["x".toList] = .ok p := by decide +kernel
  have hq : reversed.compile "y 1e-1 *".toList ["y".toList, "z".toList] = .ok q := by decide +kernel
  have htext : p.disassemble = "0000: input #0\n0001: const 0.1\n0002: *\n".toList := by decide +kernel
  have hsame : p.disassemble = q.disassemble := by decide +kernel
  obtain ⟨htell, hlength⟩ := disassemble_injective hp hq
  exact ⟨hp, hq, htext, hsame, htell hsame, hlength⟩

end Entry

namespace Program

variable {F : Format}

theorem not_mem_break_toText (x : Binary F) : '\n' ∉ Scalar.toText x := by
  cases x with
  | nan => exact (by decide : '\n' ∉ "NaN".toList)
  | infinite negative =>
    cases negative with
    | false => exact (by decide : '\n' ∉ "inf".toList)
    | true => exact (by decide : '\n' ∉ "-inf".toList)
  | finite negative sig exp hc => exact (Numeral.isDecimal_positional _).isWord.not_mem_break

/-- **A constant can always be read back.**  Wherever a finite number stands in a program, the postfix text and the listing
have one and the same decimal for it, without an exponent and with as few significant digits as any decimal that is a
literal of the number.  This decimal is a literal of the number itself, and no other finite number is written so. -/
theorem const_written {p : Program (Binary F)} {i : Nat} {x : Binary F} (hop : p.ops[i]? = some (.const x))
    (hfinite : x.isFinite = true) (names : List Text) : ∃ d : Decimal, d.sign ≠ ['+'] ∧ d.exponent = none ∧
      (∃ words : List Text, words.length = p.ops.length ∧ words[i]? = some d.text ∧
        p.toPostfix names = Text.unwords words) ∧
      (Text.lines p.disassemble)[i]? = some (offset i ++ ": const ".toList ++ d.text) ∧
      Binary.literal? d.text = some x ∧ d.IsShortest x ∧
      ∀ y : Binary F, y.isFinite = true → (Scalar.toText y = d.text ↔ y = x) := by
  obtain ⟨d, htext, hsign, hexponent, hshortest⟩ := Binary.exists_isShortest hfinite
  have hread : Binary.literal? d.text = some x := htext ▸ Binary.literal?_toText hfinite
  refine ⟨d, hsign, hexponent, ⟨p.ops.map (Operation.word names), List.length_map _, ?_, rfl⟩, ?_, hread, hshortest,
    fun y hy => ⟨fun hsame => ?_, fun heq => heq ▸ htext.symm⟩⟩
  · rw [List.getElem?_map, hop, Option.map_some]
    exact congrArg some htext.symm
  · rw [lines_disassemble fun v _ => not_mem_break_toText v, List.getElem?_mapIdx, hop, Option.map_some, line_const]
    exact congrArg some (congrArg _ htext.symm)
  · have hback : Binary.literal? (Scalar.toText y) = some y := Binary.literal?_toText hy
    rw [hsame, hread] at hback
    exact (Option.some.inj hback).symm

/-- The least positive number of single precision is written with one significant digit, as `1e-45` is, but in place. -/
theorem const_written_least :
    let x : Single := .finite false 1 (-149) (by decide)
    let p : Program Single := ⟨[.input 0, .const x, .binary .mul], 2⟩
    p.ops[1]? = some (.const x) ∧ x.isFinite = true ∧
      Scalar.toText x = "0.000000000000000000000000000000000000000000001".toList ∧
      ∃ d : Decimal, d.exponent = none ∧
        (Text.lines p.disassemble)[1]? = some (offset 1 ++ ": const ".toList ++ d.text) ∧
        Binary.literal? d.text = some x ∧ d.significant.length ≤ 1 := by
  intro x p
  let e : Decimal := ⟨[], ['1'], none, some ⟨'e', ['-'], ['4', '5'], .inl rfl, .inr (.inr rfl), by decide,
    List.all_eq_true.1 rfl⟩, .inl rfl, List.all_eq_true.1 rfl, by decide, .inl (by decide)⟩
  have he : Binary.literal? e.text = some x := by decide +kernel
  obtain ⟨d, -, hexponent, -, hline, hread, hshortest, -⟩ := const_written (p := p) (i := 1) (x := x) rfl rfl []
  exact ⟨rfl, rfl, by decide +kernel, d, hexponent, hline, hread, hshortest e he⟩

end Program

end SignalFormula
