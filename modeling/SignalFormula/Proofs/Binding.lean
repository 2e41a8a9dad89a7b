import Mathlib.Control.Monad.Basic
import Mathlib.Data.List.Forall2
import SignalFormula.Proofs.Words
import SignalFormula.Program.Machine
/-!
# Binding — an expression depends on what its names are bound to, not on where

A name is bound to the value at the place of the first input that has it (`Program.bound?`).  The place is found when the
expression is compiled and read when the program is evaluated, from two lists.  If two pairs of lists bind the names of an
expression alike, then word by word the operations do the same on their values (`Operation.Corresponds`), so compiling
ends alike, with programs of one size, and evaluating ends alike (`compile_of_bound?_eq`).
-/
namespace SignalFormula

/-- Two results agree: the same error, or related values. -/
inductive Agree {ε α β : Type} (R : α → β → Prop) : Except ε α → Except ε β → Prop where
  | error (e : ε) : Agree R (.error e) (.error e)
  | ok {a : α} {b : β} (h : R a b) : Agree R (.ok a) (.ok b)

theorem Agree.mapError {ε ε' α β : Type} {R : α → β → Prop} {r : Except ε α} {r' : Except ε β} (h : Agree R r r')
    (f : ε → ε') : Agree R (r.mapError f) (r'.mapError f) := by
  cases h with
  | error e => exact .error (f e)
  | ok h => exact .ok h

variable {V : Type}

/-- The operations do the same, each on its own list of values. -/
inductive Operation.Corresponds (values values' : List V) : Operation V → Operation V → Prop where
  | same {op : Operation V} (h : ∀ i, op ≠ .input i) : Corresponds values values' op op
  | input {i j : Nat} {v : V} (h : values[i]? = some v) (h' : values'[j]? = some v) :
      Corresponds values values' (.input i) (.input j)

theorem Operation.Corresponds.arity_eq {values values' : List V} {op op' : Operation V}
    (h : Corresponds values values' op op') : op.arity = op'.arity := by
  cases h <;> rfl

variable [Scalar V] {values values' : List V}

namespace Machine

open Operation (Corresponds)

theorem step_eq_of_corresponds {op op' : Operation V} (h : Corresponds values values' op op') (m : Machine V) :
    m.step values op = m.step values' op' := by
  cases h with
  | same h =>
    cases op with
    | input i => exact absurd rfl (h i)
    | _ => rfl
  | input h h' => rw [step, step, h, h']

/-- **Rows that correspond run alike.** -/
theorem run_eq_of_corresponds : ∀ {ops ops' : List (Operation V)}, List.Forall₂ (Corresponds values values') ops ops' →
    ∀ m : Machine V, run values m ops = run values' m ops'
  | _, _, .nil, _ => rfl
  | _, _, .cons h hs, m => by
    rw [run, run, step_eq_of_corresponds h]
    split
    · exact run_eq_of_corresponds hs _
    · rfl

end Machine

namespace Program

open Operation (Corresponds)

/-- The value that a word is bound to: that of the first input of this name. -/
def bound? (inputs : List Text) (values : List V) (word : Text) : Option V :=
  (inputs.findIdx? (· = word)).bind (values[·]?)

/-- Programs of one length and depth that evaluate alike, each on its own list of values. -/
structure Alike (values values' : List V) (p p' : Program V) : Prop where
  length_eq : p.ops.length = p'.ops.length
  maxDepth_eq : p.maxDepth = p'.maxDepth
  evaluate_eq (noise : Noise) : p.evaluate values noise = p'.evaluate values' noise

variable {inputs inputs' : List Text} (hcover : inputs.length ≤ values.length) (hcover' : inputs'.length ≤ values'.length)

include hcover in
omit [Scalar V] in
theorem getElem?_eq_bound? {word : Text} {i : Nat} (h : inputs.findIdx? (· = word) = some i) :
    ∃ v, values[i]? = some v ∧ bound? inputs values word = some v := by
  obtain ⟨hlt, -, -⟩ := List.findIdx?_eq_some_iff_getElem.1 h
  have hv : values[i]? = some values[i] := List.getElem?_eq_getElem (by omega)
  exact ⟨_, hv, by rw [bound?, h]; exact hv⟩

include hcover hcover'

/-- **A word bound alike stands for operations that do the same.** -/
theorem resolve?_corresponds {word : Text}
    (h : Operation.ofKeyword? (V := V) word = none → bound? inputs values word = bound? inputs' values' word) :
    Option.Rel (Corresponds values values') (resolve? inputs word) (resolve? inputs' word) := by
  unfold resolve?
  cases hbuiltin : Operation.ofKeyword? (V := V) word with
  | some op =>
    refine .some (.same fun i hi => ?_)
    rcases Operation.eq_of_ofKeyword? hbuiltin with hk | ⟨-, hk⟩ <;> rw [hi] at hk <;> cases hk
  | none =>
    have hbound := h hbuiltin
    cases hi : inputs.findIdx? (· = word) with
    | some i =>
      obtain ⟨v, hv, hbv⟩ := getElem?_eq_bound? hcover hi
      cases hj : inputs'.findIdx? (· = word) with
      | some j =>
        obtain ⟨v', hv', hbv'⟩ := getElem?_eq_bound? hcover' hj
        obtain rfl : v = v' := Option.some.inj (hbv.symm.trans (hbound.trans hbv'))
        exact .some (.input hv hv')
      | none =>
        rw [hbv, bound?, hj] at hbound
        cases hbound
    | none =>
      cases hj : inputs'.findIdx? (· = word) with
      | some j =>
        obtain ⟨v', -, hbv'⟩ := getElem?_eq_bound? hcover' hj
        rw [hbv', bound?, hi] at hbound
        cases hbound
      | none =>
        cases Scalar.literal? (V := V) word with
        | none => exact .none
        | some v => exact .some (.same fun i hi => by cases hi)

/-- **Words bound alike are counted alike**, and become rows that correspond. -/
theorem operations_agree : ∀ {words : List Text}, (∀ w ∈ words, Operation.ofKeyword? (V := V) w = none →
    bound? inputs values w = bound? inputs' values' w) → ∀ height peak : Nat,
      Agree (fun r r' => List.Forall₂ (Corresponds values values') r.1 r'.1 ∧ r.2 = r'.2)
        (operations inputs height peak words) (operations inputs' height peak words)
  | [], _, _, _ => .ok ⟨.nil, rfl⟩
  | word :: words, h, height, peak => by
    have hword := resolve?_corresponds hcover hcover' (h word List.mem_cons_self)
    rw [operations, operations]
    cases hr : resolve? (V := V) inputs word with
    | none =>
      cases hr' : resolve? (V := V) inputs' word with
      | none => exact .error _
      | some op' => rw [hr, hr'] at hword; cases hword
    | some op =>
      cases hr' : resolve? (V := V) inputs' word with
      | none => rw [hr, hr'] at hword; cases hword
      | some op' =>
        rw [hr, hr'] at hword
        cases hword with
        | some hop =>
          simp only [hop.arity_eq]
          by_cases hunder : height < op'.arity
          · simp only [if_pos hunder]
            exact .error _
          · simp only [if_neg hunder]
            have hrest := operations_agree (fun w hw => h w (List.mem_cons_of_mem _ hw)) (height - op'.arity + 1)
              (max peak (height - op'.arity + 1))
            generalize operations (V := V) inputs (height - op'.arity + 1) _ words = r at hrest
            generalize operations (V := V) inputs' (height - op'.arity + 1) _ words = r' at hrest
            cases hrest with
            | error e => exact .error e
            | ok hrest => exact .ok ⟨.cons hop hrest.1, hrest.2⟩

/-- **Words bound alike are assembled alike.** -/
theorem assemble_agree {words : List Text} (h : ∀ w ∈ words, Operation.ofKeyword? (V := V) w = none →
    bound? inputs values w = bound? inputs' values' w) :
    Agree (Alike values values') (assemble inputs words) (assemble inputs' words) := by
  have hrun := operations_agree hcover hcover' h 0 0
  unfold assemble
  generalize operations (V := V) inputs 0 0 words = r at hrun
  generalize operations (V := V) inputs' 0 0 words = r' at hrun
  cases hrun with
  | error e => exact .error e
  | @ok a b hab =>
    obtain ⟨ops, final, top⟩ := a
    obtain ⟨ops', final', top'⟩ := b
    obtain ⟨hops, heq⟩ := hab
    cases heq
    simp only
    split
    · exact .error _
    · split
      · exact .error _
      · refine .ok ⟨hops.length_eq, rfl, fun noise => ?_⟩
        rw [evaluate, evaluate, Machine.run_eq_of_corresponds hops]

end Program

namespace Entry

open Program (Alike bound?)

/-- The tokens of an expression: the words that it is made of, or the lexemes that it is cut into. -/
def tokens : Entry → Text → List Text
  | .marked, expression =>
    match Style.detect expression with
    | (.reversed, body) => Text.words body
    | (.conventional, body) => Token.lexemes (Text.compact body)
  | .conventional, expression => Token.lexemes (Text.compact expression)
  | .reversed, expression => Text.words expression

/-- **An expression whose tokens are bound alike compiles and evaluates alike.** -/
theorem compile_agree {inputs inputs' : List Text} (hcover : inputs.length ≤ values.length)
    (hcover' : inputs'.length ≤ values'.length) {entry : Entry} {expression : Text}
    (h : ∀ w ∈ entry.tokens expression, Operation.ofKeyword? (V := V) w = none →
      bound? inputs values w = bound? inputs' values' w) :
    Agree (Alike values values') (entry.compile expression inputs) (entry.compile expression inputs') := by
  have hreversed : ∀ body, (∀ w ∈ Text.words body, Operation.ofKeyword? (V := V) w = none →
      bound? inputs values w = bound? inputs' values' w) →
        Agree (Alike values values') (Program.compileReversed body inputs) (Program.compileReversed body inputs') :=
    fun body hbody => (Program.assemble_agree hcover hcover' hbody).mapError _
  have hconventional : ∀ body, (∀ w ∈ Token.lexemes (Text.compact body), Operation.ofKeyword? (V := V) w = none →
      bound? inputs values w = bound? inputs' values' w) → Agree (Alike values values')
        (Program.compileConventional body inputs) (Program.compileConventional body inputs') := fun body hbody => by
    unfold Program.compileConventional
    cases hwords : Postfix.ofText? body with
    | none => exact .error _
    | some words =>
      have hmem : ∀ w ∈ words, w ∈ Token.lexemes (Text.compact body) := fun w => Postfix.mem_lexemes_of_ofText? hwords
      exact (Program.assemble_agree hcover hcover' fun w hw => hbody w (hmem w hw)).mapError _
  cases entry with
  | conventional => exact hconventional expression h
  | reversed => exact hreversed expression h
  | marked =>
    simp only [tokens] at h
    simp only [compile, Program.compile]
    cases hstyle : Style.detect expression with
    | mk style body =>
      rw [hstyle] at h
      cases style with
      | conventional => exact hconventional body h
      | reversed => exact hreversed body h

/-! ## Inputs in pairs with their values -/

section layouts

variable {V : Type} {b b' : List (Text × V)} {word : Text}

theorem bound?_layout (rest : List V) : ∀ b : List (Text × V),
    bound? (b.map Prod.fst) (b.map Prod.snd ++ rest) word = (b.find? (·.1 = word)).map Prod.snd
  | [] => rfl
  | (name, value) :: b => by
    have ih := bound?_layout rest b
    rw [bound?] at ih ⊢
    by_cases hname : name = word
    · simp [List.findIdx?_cons, hname]
    · simp [List.findIdx?_cons, hname, ← ih, Option.bind_map, Function.comp_def]

theorem find?_of_perm (h : b.Perm b') (distinct : (b.map Prod.fst).Nodup) :
    b.find? (·.1 = word) = b'.find? (·.1 = word) := by
  induction h with
  | nil => rfl
  | cons x _ ih =>
    rw [List.find?_cons, List.find?_cons, ih (List.nodup_cons.1 distinct).2]
  | swap x y l =>
    have hne : ¬ (x.1 = word ∧ y.1 = word) := fun ⟨hx, hy⟩ => by
      simp [hx, hy] at distinct
    rw [List.find?_cons, List.find?_cons, List.find?_cons, List.find?_cons]
    by_cases hx : x.1 = word
    · have hy : ¬ y.1 = word := fun hy => hne ⟨hx, hy⟩
      simp [hx, hy]
    · simp [hx]
  | trans h _ ih ih' => exact (ih distinct).trans (ih' ((h.map Prod.fst).nodup distinct))

theorem find?_filter_used {used : List Text} (hword : word ∈ used) (b : List (Text × V)) :
    (b.filter (·.1 ∈ used)).find? (·.1 = word) = b.find? (·.1 = word) := by
  rw [List.find?_filter]
  refine congrArg (List.find? · b) (funext fun x => ?_)
  by_cases hx : x.1 = word
  · simp [hx, hword]
  · simp [hx]

/-- One layout of the inputs and their values for another. -/
inductive Rearranged (used : List Text) : List (Text × V) → List (Text × V) → Prop where
  /-- Inputs of distinct names in another order. -/
  | permuted {b b' : List (Text × V)} (h : b.Perm b') (distinct : (b.map Prod.fst).Nodup) : Rearranged used b b'
  /-- Inputs more or less, at any places, that are not used. -/
  | unused {b b' : List (Text × V)} (h : b.filter (·.1 ∈ used) = b'.filter (·.1 ∈ used)) : Rearranged used b b'
  /-- Inputs more, at the end, of names that are there already. -/
  | repeated {b extra : List (Text × V)} (h : ∀ x ∈ extra, x.1 ∈ b.map Prod.fst) : Rearranged used b (b ++ extra)

/-- **Rearranging leaves every name in use bound as it was.** -/
theorem Rearranged.find?_eq {used : List Text} (h : Rearranged used b b') (hword : word ∈ used) :
    b.find? (·.1 = word) = b'.find? (·.1 = word) := by
  cases h with
  | permuted h distinct => exact find?_of_perm h distinct
  | unused h => rw [← find?_filter_used hword b, h, find?_filter_used hword b']
  | @repeated extra h =>
    rw [List.find?_append]
    cases hfind : b.find? (·.1 = word) with
    | some x => rfl
    | none =>
      have hextra : extra.find? (·.1 = word) = none := List.find?_eq_none.2 fun x hx hxw => by
        obtain ⟨y, hy, hyx⟩ := List.mem_map.1 (h x hx)
        exact List.find?_eq_none.1 hfind y hy (hyx ▸ hxw)
      rw [hextra]
      rfl

end layouts

/-- **Only the binding of names to values counts, not the layout of the inputs.**  If each token of an expression that is
no builtin word is bound alike by two lists of inputs with their values, or by neither, then the expression is refused with
one error for both or becomes programs of one length and depth, and these evaluate alike, each on its values.  So
inputs may be permuted with their values, put in where they are not used, and repeated at the end. -/
theorem compile_of_bound?_eq (entry : Entry) (expression : Text) :
    (∀ {inputs inputs' : List Text} {values values' : List V}, inputs.length ≤ values.length →
      inputs'.length ≤ values'.length → (∀ w ∈ entry.tokens expression, Operation.ofKeyword? (V := V) w = none →
        bound? inputs values w = bound? inputs' values' w) →
      Agree (Alike values values') (entry.compile expression inputs) (entry.compile expression inputs')) ∧
    ∀ {b b' : List (Text × V)} (rest rest' : List V), Rearranged (entry.tokens expression) b b' →
      Agree (Alike (b.map Prod.snd ++ rest) (b'.map Prod.snd ++ rest')) (entry.compile expression (b.map Prod.fst))
        (entry.compile expression (b'.map Prod.fst)) := by
  refine ⟨fun hcover hcover' h => compile_agree hcover hcover' h, fun {b b'} rest rest' h => ?_⟩
  refine compile_agree (by simp) (by simp) fun w hw _ => ?_
  rw [bound?_layout, bound?_layout, h.find?_eq hw]

/-- A layout with the inputs in another order, one that is not used and one twice: the programs are not the same, but
they come to the same. -/
theorem compile_of_bound?_eq_shuffled :
    let expression : Text := "max(x, gain) - x * sin(2)".toList
    let x : Text × Double := ("x".toList, .ofRat (1 / 2))
    let gain : Text × Double := ("gain".toList, .ofRat 3)
    let inputs : List Text := ["sin".toList, "gain".toList, "x".toList, "x".toList]
    let values : List Double := [.nan, gain.2, x.2, .infinite true]
    conventional.compile expression [x.1, gain.1] ≠ (conventional.compile expression inputs : Except _ (Program Double)) ∧
      Agree (Alike [x.2, gain.2] values) (conventional.compile expression [x.1, gain.1])
        (conventional.compile expression inputs) ∧
      Agree (Alike [x.2, gain.2, .nan] [gain.2, x.2]) (conventional.compile expression [x.1, gain.1])
        (conventional.compile expression [gain.1, x.1]) := by
  intro expression x gain inputs values
  have hlayout : Rearranged (conventional.tokens expression) [x, gain] [gain, x] :=
    .permuted (List.Perm.swap _ _ _) (by decide)
  obtain ⟨hbound, hrearranged⟩ := compile_of_bound?_eq (V := Double) conventional expression
  exact ⟨by decide +kernel, hbound (by decide) (by decide) (by decide +kernel), hrearranged [.nan] [] hlayout⟩

end Entry

end SignalFormula
