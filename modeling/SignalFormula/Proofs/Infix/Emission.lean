import Mathlib.Data.List.Perm.Basic
import SignalFormula.Proofs.Infix.Matching
import SignalFormula.Proofs.Infix.Unopened
/-!
# Emission — the order in which tokens become words

Tokens are told apart by their places.  What waits is held with the places of its tokens (`Postfix.Held`), a called name
and the bracket behind it as one, so that a bracket that closes takes its own name along.  A run over the tokens
(`Postfix.Run`) then says of every place when it becomes a word, and what every step keeps gives the order as a whole:
each place is emitted or held once (`Run.perm`), the brackets that are held are the open ones (`Run.opened`), and what is
emitted is emitted behind the operands before it (`Run.operand_precedes`).
-/
namespace SignalFormula

namespace Token

/-- A name with a bracket opened right behind it. -/
def CalledAt (tokens : List Token) (k : Nat) : Prop :=
  (∃ w, tokens[k]? = some (.name w)) ∧ tokens[k + 1]? = some .openParen

/-- An operand, or a name that is not called. -/
def OperandAt (tokens : List Token) (i : Nat) : Prop :=
  (∃ w, tokens[i]? = some (.operand w)) ∨ (∃ w, tokens[i]? = some (.name w)) ∧ tokens[i + 1]? ≠ some .openParen

/-- An operator, or a name that is called. -/
def WaitsAt (tokens : List Token) (j : Nat) : Prop :=
  (∃ o, tokens[j]? = some (.operator o)) ∨ CalledAt tokens j

/-- An operator, a name or an operand. -/
def WordAt (tokens : List Token) (i : Nat) : Prop := ∃ t, tokens[i]? = some t ∧ t.isPunctuation = false

/-- The places before `n` of what is no bracket and no comma. -/
def wordPlaces (tokens : List Token) (n : Nat) : List Nat :=
  (List.range n).filter fun i => tokens[i]?.map isPunctuation = some false

theorem wordPlaces_succ_of_false {tokens : List Token} {n : Nat} {t : Token} (h : tokens[n]? = some t)
    (ht : t.isPunctuation = false) : wordPlaces tokens (n + 1) = wordPlaces tokens n ++ [n] := by
  simp [wordPlaces, List.range_succ, h, ht]

theorem wordPlaces_succ_of_true {tokens : List Token} {n : Nat} {t : Token} (h : tokens[n]? = some t)
    (ht : t.isPunctuation = true) : wordPlaces tokens (n + 1) = wordPlaces tokens n := by
  simp [wordPlaces, List.range_succ, h, ht]

theorem mem_wordPlaces {tokens : List Token} {n i : Nat} :
    i ∈ wordPlaces tokens n ↔ i < n ∧ WordAt tokens i := by
  simp [wordPlaces, WordAt]

theorem WordAt.lt_length {tokens : List Token} {i : Nat} (h : WordAt tokens i) : i < tokens.length := by
  obtain ⟨t, ht, -⟩ := h
  exact (List.getElem?_eq_some_iff.1 ht).1

theorem OperandAt.wordAt {tokens : List Token} {i : Nat} (h : OperandAt tokens i) : WordAt tokens i := by
  rcases h with ⟨w, hw⟩ | ⟨⟨w, hw⟩, -⟩
  · exact ⟨_, hw, rfl⟩
  · exact ⟨_, hw, rfl⟩

theorem WaitsAt.wordAt {tokens : List Token} {i : Nat} (h : WaitsAt tokens i) : WordAt tokens i := by
  rcases h with ⟨o, ho⟩ | ⟨⟨w, hw⟩, -⟩
  · exact ⟨_, ho, rfl⟩
  · exact ⟨_, hw, rfl⟩

end Token

namespace Postfix

open Token (CalledAt OperandAt WaitsAt WordAt Balanced ClosedAt Opened wordPlaces)

/-- What waits, with the places of its tokens.  The bracket of a call stands right behind the name. -/
inductive Held where
  | operator (i : Nat) (o : Operator)
  | bracket (i : Nat)
  | call (i : Nat) (w : Text)

namespace Held

def pendings : Held → List Pending
  | .operator _ o => [.operator o]
  | .bracket _ => [.bracket]
  | .call _ w => [.bracket, .call w]

/-- The place of its bracket. -/
def opened : Held → List Nat
  | .operator _ _ => []
  | .bracket i => [i]
  | .call i _ => [i + 1]

/-- The place of its operator or of its name. -/
def waits : Held → List Nat
  | .operator i _ => [i]
  | .bracket _ => []
  | .call i _ => [i]

/-- In the order in which they become words if nothing closes the bracket. -/
def places (e : Held) : List Nat := e.opened ++ e.waits

/-- Its tokens stand at its places. -/
def Fits (tokens : List Token) : Held → Prop
  | .operator i o => tokens[i]? = some (.operator o)
  | .bracket i => tokens[i]? = some .openParen
  | .call i w => tokens[i]? = some (.name w) ∧ tokens[i + 1]? = some .openParen

end Held

/-- One token read at place `n`, or a called name and its bracket: the places that are emitted, the next place, and what
is held then. -/
inductive Step (tokens : List Token) : Nat → List Held → List Nat → Nat → List Held → Prop where
  | openParen {n : Nat} {held : List Held} (h : tokens[n]? = some .openParen) :
      Step tokens n held [] (n + 1) (.bracket n :: held)
  | called {n : Nat} {held : List Held} {w : Text} (h : tokens[n]? = some (.name w))
      (h' : tokens[n + 1]? = some .openParen) : Step tokens n held [] (n + 2) (.call n w :: held)
  | closeParen {n : Nat} {tops under : List Held} {e : Held} (h : tokens[n]? = some .closeParen)
      (htops : ∀ t ∈ tops, t.opened = []) (he : e.opened ≠ []) :
      Step tokens n (tops ++ e :: under) (tops.flatMap Held.waits ++ e.waits) (n + 1) under
  | comma {n : Nat} {tops under : List Held} {e : Held} (h : tokens[n]? = some .comma)
      (htops : ∀ t ∈ tops, t.opened = []) (he : e.opened ≠ []) :
      Step tokens n (tops ++ e :: under) (tops.flatMap Held.waits) (n + 1) (e :: under)
  | operator {n : Nat} {tops under : List Held} {o : Operator} (h : tokens[n]? = some (.operator o))
      (htops : ∀ t ∈ tops, t.opened = []) :
      Step tokens n (tops ++ under) (tops.flatMap Held.waits) (n + 1) (.operator n o :: under)
  | operand {n : Nat} {held : List Held} (h : OperandAt tokens n) : Step tokens n held [n] (n + 1) held

/-- The tokens before place `n` read: what is held, and what has been emitted. -/
inductive Run (tokens : List Token) : Nat → List Held → List Nat → Prop where
  | start : Run tokens 0 [] []
  | step {n n' : Nat} {held held' : List Held} {done out : List Nat} (run : Run tokens n held done)
      (step : Step tokens n held out n' held') : Run tokens n' held' (done ++ out)

variable {tokens : List Token} {n n' : Nat} {held held' : List Held} {done out : List Nat}

/-! ## What a step keeps -/

theorem Step.fits (h : Step tokens n held out n' held') (hheld : ∀ e ∈ held, e.Fits tokens) :
    ∀ e ∈ held', e.Fits tokens := by
  cases h with
  | openParen h => exact List.forall_mem_cons.2 ⟨h, hheld⟩
  | called h h' => exact List.forall_mem_cons.2 ⟨⟨h, h'⟩, hheld⟩
  | closeParen h htops he => exact fun e hmem => hheld e (List.mem_append_right _ (List.mem_cons_of_mem _ hmem))
  | comma h htops he => exact fun e hmem => hheld e (List.mem_append_right _ hmem)
  | operator h htops => exact List.forall_mem_cons.2 ⟨h, fun e hmem => hheld e (List.mem_append_right _ hmem)⟩
  | operand h => exact hheld

/-- A step reads what stands at its place. -/
theorem Step.le_length (h : Step tokens n held out n' held') : n' ≤ tokens.length := by
  have hlt {i : Nat} {t : Token} (hi : tokens[i]? = some t) : i < tokens.length := (List.getElem?_eq_some_iff.1 hi).1
  cases h with
  | openParen h | closeParen h | comma h | operator h => exact hlt h
  | called h h' => exact hlt h'
  | operand h => exact h.wordAt.lt_length

/-- A step that emits goes on by one place. -/
theorem Step.eq_nil_or (h : Step tokens n held out n' held') : out = [] ∨ n' = n + 1 := by
  cases h with
  | called => exact .inl rfl
  | openParen | closeParen | comma | operator | operand => exact .inr rfl

theorem flatMap_opened_eq_nil {tops : List Held} (h : ∀ t ∈ tops, t.opened = []) : tops.flatMap Held.opened = [] :=
  List.flatMap_eq_nil_iff.2 h

/-- **The brackets that are held stay the open ones.** -/
theorem Step.opened (h : Step tokens n held out n' held') (hopen : Opened (tokens.take n) (held.flatMap Held.opened)) :
    Opened (tokens.take n') (held'.flatMap Held.opened) := by
  have htake {i : Nat} {t : Token} (hi : tokens[i]? = some t) : tokens.take (i + 1) = tokens.take i ++ [t] := by
    rw [List.take_add_one, hi]; rfl
  have hlen {i : Nat} {t : Token} (hi : tokens[i]? = some t) : (tokens.take i).length = i :=
    List.length_take_of_le (Nat.le_of_lt (List.getElem?_eq_some_iff.1 hi).1)
  have hsingle {i : Nat} {t : Token} {bs : List Nat} (hi : tokens[i]? = some t) (hne : t ≠ .openParen)
      (hne' : t ≠ .closeParen) (hbs : Opened (tokens.take i) bs) : Opened (tokens.take (i + 1)) bs := by
    rw [htake hi]
    exact hbs.append (.single hne hne')
  cases h with
  | openParen h =>
    have hmore := hopen.openParen
    rwa [hlen h, ← htake h] at hmore
  | called h h' =>
    have hmore := (hsingle h nofun nofun hopen).openParen
    rwa [hlen h', ← htake h'] at hmore
  | @closeParen tops under e h htops he =>
    rw [List.flatMap_append, flatMap_opened_eq_nil htops, List.nil_append, List.flatMap_cons] at hopen
    rw [htake h]
    cases e with
    | operator => exact absurd rfl he
    | bracket | call => exact hopen.closeParen
  | comma h htops he =>
    rw [List.flatMap_append, flatMap_opened_eq_nil htops] at hopen
    exact hsingle h nofun nofun hopen
  | operator h htops =>
    rw [List.flatMap_append, flatMap_opened_eq_nil htops] at hopen
    exact hsingle h nofun nofun hopen
  | operand h =>
    obtain ⟨t, ht, hplain⟩ := h.wordAt
    exact hsingle ht (by rintro rfl; cases hplain) (by rintro rfl; cases hplain) hopen

theorem perm_insert {xs ys zs : List Nat} (h : (xs ++ ys).Perm zs) (i : Nat) : (xs ++ i :: ys).Perm (zs ++ [i]) :=
  calc (xs ++ i :: ys).Perm (i :: (xs ++ ys)) := List.perm_middle
    List.Perm _ (i :: zs) := h.cons i
    List.Perm _ (zs ++ [i]) := (List.perm_append_singleton i zs).symm

/-- **No place is lost and none comes twice.** -/
theorem Step.perm (h : Step tokens n held out n' held')
    (hdone : (done ++ held.flatMap Held.waits).Perm (wordPlaces tokens n)) :
    (done ++ out ++ held'.flatMap Held.waits).Perm (wordPlaces tokens n') := by
  cases h with
  | openParen h =>
    rw [Token.wordPlaces_succ_of_true h rfl, List.append_nil]
    exact hdone
  | called h h' =>
    rw [Token.wordPlaces_succ_of_true h' rfl, Token.wordPlaces_succ_of_false h rfl, List.append_nil]
    exact perm_insert hdone n
  | closeParen h htops he =>
    rw [Token.wordPlaces_succ_of_true h rfl]
    simpa using hdone
  | comma h htops he =>
    rw [Token.wordPlaces_succ_of_true h rfl]
    simpa using hdone
  | operator h htops =>
    rw [Token.wordPlaces_succ_of_false h rfl]
    rw [List.flatMap_append, ← List.append_assoc] at hdone
    exact perm_insert hdone n
  | operand h =>
    obtain ⟨t, ht, hplain⟩ := h.wordAt
    rw [Token.wordPlaces_succ_of_false ht hplain, List.append_assoc]
    exact perm_insert hdone n

/-! ## What a run keeps -/

theorem pair_sublist {i j : Nat} (hi : i ∈ done) (hj : j ∈ out) : [i, j].Sublist (done ++ out) :=
  (List.singleton_sublist.2 hi).append (List.singleton_sublist.2 hj)

namespace Run

variable {i j k m : Nat}

theorem fits (h : Run tokens n held done) : ∀ e ∈ held, e.Fits tokens := by
  induction h with
  | start => exact nofun
  | step run step ih => exact step.fits ih

theorem le_length (h : Run tokens n held done) : n ≤ tokens.length := by
  cases h with
  | start => exact Nat.zero_le _
  | step run step => exact step.le_length

theorem opened (h : Run tokens n held done) : Opened (tokens.take n) (held.flatMap Held.opened) := by
  induction h with
  | start => exact .closed .nil
  | step run step ih => exact step.opened ih

theorem perm (h : Run tokens n held done) : (done ++ held.flatMap Held.waits).Perm (wordPlaces tokens n) := by
  induction h with
  | start => exact List.Perm.nil
  | step run step ih => exact step.perm ih

theorem mem_iff (h : Run tokens n held done) : i ∈ done ∨ i ∈ held.flatMap Held.waits ↔
    i < n ∧ WordAt tokens i := by
  rw [← List.mem_append, h.perm.mem_iff, Token.mem_wordPlaces]

theorem lt_of_mem (h : Run tokens n held done) (hi : i ∈ done) : i < n := (h.mem_iff.1 (.inl hi)).1

/-- What is read has been emitted, or it is an operator, or it is a called name that is held. -/
theorem mem_or_held (h : Run tokens n held done) {t : Token} (ht : tokens[i]? = some t)
    (hplain : t.isPunctuation = false) (hlt : i < n) : i ∈ done ∨ (∃ o, t = .operator o) ∨ ∃ w, .call i w ∈ held := by
  rcases h.mem_iff.2 ⟨hlt, t, ht, hplain⟩ with hdone | hwaits
  · exact .inl hdone
  · obtain ⟨e, he, hmem⟩ := List.mem_flatMap.1 hwaits
    cases e with
    | operator j o =>
      obtain rfl := List.mem_singleton.1 hmem
      exact .inr (.inl ⟨o, Option.some.inj (ht.symm.trans (h.fits _ he))⟩)
    | bracket j => cases hmem
    | call j w =>
      obtain rfl := List.mem_singleton.1 hmem
      exact .inr (.inr ⟨w, he⟩)

/-- **An operand has been emitted once it is read.** -/
theorem operand_mem (h : Run tokens n held done) (hi : OperandAt tokens i) (hlt : i < n) : i ∈ done := by
  obtain ⟨t, ht, hplain⟩ := hi.wordAt
  rcases h.mem_or_held ht hplain hlt with hdone | ⟨o, rfl⟩ | ⟨w, hcall⟩
  · exact hdone
  · rcases hi with ⟨w, hw⟩ | ⟨⟨w, hw⟩, -⟩ <;> cases hw.symm.trans ht
  · obtain ⟨hname, hopen⟩ := h.fits _ hcall
    rcases hi with ⟨v, hv⟩ | ⟨-, hnot⟩
    · cases hv.symm.trans hname
    · exact absurd hopen hnot

/-- **A called name has been emitted once its bracket is closed.** -/
theorem called_mem (h : Run tokens n held done) (hk : CalledAt tokens k) (hclosed : ClosedAt tokens (k + 1) m)
    (hlt : m < n) : k ∈ done := by
  obtain ⟨⟨w, hw⟩, -⟩ := hk
  have hbefore : k < n := Nat.lt_trans (Nat.lt_of_succ_lt hclosed.lt) hlt
  rcases h.mem_or_held hw rfl hbefore with hdone | ⟨o, ho⟩ | ⟨v, hcall⟩
  · exact hdone
  · cases ho
  · have hopen : k + 1 ∈ held.flatMap Held.opened := List.mem_flatMap.2 ⟨_, hcall, List.mem_singleton_self _⟩
    exact absurd (hclosed.take hlt) (h.opened.not_closedAt hopen)

/-- **What is emitted is emitted behind the operands before it.** -/
theorem operand_precedes (h : Run tokens n held done) (hi : OperandAt tokens i) (hij : i < j) (hj : j ∈ done) :
    [i, j].Sublist done := by
  induction h with
  | start => cases hj
  | @step n n' held held' done out run step ih =>
    rcases List.mem_append.1 hj with hbefore | hnow
    · exact (ih hbefore).trans (List.sublist_append_left _ _)
    · have hlt : j < n' := (run.step step).lt_of_mem hj
      rcases step.eq_nil_or with rfl | rfl
      · cases hnow
      · exact pair_sublist (run.operand_mem hi (by omega)) hnow

/-- **A call that is closed is emitted before the operands behind it.** -/
theorem called_precedes (h : Run tokens n held done) (hk : CalledAt tokens k) (hclosed : ClosedAt tokens (k + 1) m)
    (hi : OperandAt tokens i) (hmi : m < i) (hmem : i ∈ done) : [k, i].Sublist done := by
  induction h with
  | start => cases hmem
  | @step n n' held held' done out run step ih =>
    by_cases hbefore : i < n
    · exact (ih (run.operand_mem hi hbefore)).trans (List.sublist_append_left _ _)
    · have hlt : i < n' := (run.step step).lt_of_mem hmem
      have hnow : i ∈ out := (List.mem_append.1 hmem).resolve_left fun hdone => hbefore (run.lt_of_mem hdone)
      rcases step.eq_nil_or with rfl | rfl
      · cases hnow
      · exact pair_sublist (run.called_mem hk hclosed (by omega)) hnow

end Run

/-! ## The words of a run -/

/-- The text of the token at a place. -/
def textAt (tokens : List Token) (i : Nat) : Option Text := tokens[i]?.map Token.text

theorem textAt_eq {i : Nat} {t : Token} (h : tokens[i]? = some t) : textAt tokens i = some t.text := by
  rw [textAt, h]; rfl

theorem Held.Fits.texts_places {e : Held} (h : e.Fits tokens) :
    e.places.map (textAt tokens) = e.pendings.map (some ∘ Pending.word) := by
  cases e with
  | operator i o => exact congrArg (· :: []) (textAt_eq h)
  | bracket i => exact congrArg (· :: []) (textAt_eq h)
  | call i w => exact congrArg₂ (· :: · :: []) (textAt_eq h.2) (textAt_eq h.1)

theorem texts_places (h : ∀ e ∈ held, e.Fits tokens) : (held.flatMap Held.places).map (textAt tokens) =
    (held.flatMap Held.pendings).map (some ∘ Pending.word) := by
  rw [List.map_flatMap, List.map_flatMap]
  exact List.flatMap_congr fun e he => (h e he).texts_places

/-- What is on top of the innermost bracket becomes words by its own. -/
theorem texts_waits {tops : List Held} (h : ∀ e ∈ tops, e.Fits tokens) (htops : ∀ t ∈ tops, t.opened = []) :
    (tops.flatMap Held.waits).map (textAt tokens) = (tops.flatMap Held.pendings).map (some ∘ Pending.word) := by
  rw [← texts_places h]
  refine congrArg _ (List.flatMap_congr fun e he => ?_)
  rw [Held.places, htops e he, List.nil_append]

/-- A call that closes becomes a word. -/
theorem Held.Fits.texts_waits {e : Held} (h : e.Fits tokens) (he : e.opened ≠ []) :
    e.waits.map (textAt tokens) = e.pendings.tail.map (some ∘ Pending.word) := by
  cases e with
  | operator => exact absurd rfl he
  | bracket => rfl
  | call i w => exact congrArg (· :: []) (textAt_eq h.1)

theorem exists_of_close? : ∀ {held : List Held} {ws : List Text} {below : List Pending},
    close? (held.flatMap Held.pendings) = some (ws, below) → ∃ tops e under, held = tops ++ e :: under ∧
      (∀ t ∈ tops, t.opened = []) ∧ e.opened ≠ [] ∧ ws = (tops.flatMap Held.pendings).map Pending.word ∧
      below = e.pendings.tail ++ under.flatMap Held.pendings
  | .bracket i :: held, _, _, h => by
    cases h
    exact ⟨[], .bracket i, held, rfl, nofun, List.cons_ne_nil _ _, rfl, rfl⟩
  | .call i w :: held, _, _, h => by
    cases h
    exact ⟨[], .call i w, held, rfl, nofun, List.cons_ne_nil _ _, rfl, rfl⟩
  | .operator i o :: held, _, _, h => by
    obtain ⟨⟨vs, below⟩, hclose, heq⟩ := Option.map_eq_some_iff.1 h
    cases heq
    obtain ⟨tops, e, under, rfl, htops, he, rfl, rfl⟩ := exists_of_close? hclose
    exact ⟨.operator i o :: tops, e, under, rfl, List.forall_mem_cons.2 ⟨rfl, htops⟩, he, rfl, rfl⟩

theorem exists_of_release (o : Operator) : ∀ held : List Held, ∃ tops under, held = tops ++ under ∧
    (∀ t ∈ tops, t.opened = []) ∧ release o (held.flatMap Held.pendings) =
      ((tops.flatMap Held.pendings).map Pending.word, under.flatMap Held.pendings)
  | [] => ⟨[], [], rfl, nofun, rfl⟩
  | .bracket i :: held => ⟨[], .bracket i :: held, rfl, nofun, rfl⟩
  | .call i w :: held => ⟨[], .call i w :: held, rfl, nofun, rfl⟩
  | .operator i top :: held => by
    by_cases hrank : top.rank < o.rank
    · exact ⟨[], .operator i top :: held, rfl, nofun, if_pos hrank⟩
    · obtain ⟨tops, under, rfl, htops, hrelease⟩ := exists_of_release o held
      refine ⟨.operator i top :: tops, under, rfl, List.forall_mem_cons.2 ⟨rfl, htops⟩, ?_⟩
      have hcons : ((Held.operator i top :: (tops ++ under)).flatMap Held.pendings) =
          .operator top :: (tops ++ under).flatMap Held.pendings := rfl
      rw [hcons, release, if_neg hrank, hrelease]
      rfl

theorem releaseCall_pendings {e : Held} (he : e.opened ≠ []) (under : List Held) :
    releaseCall (e.pendings.tail ++ under.flatMap Held.pendings) =
      (e.pendings.tail.map Pending.word, under.flatMap Held.pendings) := by
  cases e with
  | operator => exact absurd rfl he
  | call i w => rfl
  | bracket i =>
    cases under with
    | nil => rfl
    | cons e' under => cases e' <;> rfl

theorem pendings_cons_tail {e : Held} (he : e.opened ≠ []) : Pending.bracket :: e.pendings.tail = e.pendings := by
  cases e with
  | operator => exact absurd rfl he
  | bracket | call => rfl

/-- **A token that is read is a step**, unless it is a name that is called. -/
theorem exists_of_step? {token : Token} {ws : List Text} {below : List Pending} (hfits : ∀ e ∈ held, e.Fits tokens)
    (htoken : tokens[n]? = some token) (hcalled : ¬ CalledAt tokens n)
    (hstep : step? (held.flatMap Held.pendings) token tokens[n + 1]? = some (ws, below)) :
    ∃ held' out, Step tokens n held out (n + 1) held' ∧ below = held'.flatMap Held.pendings ∧
      out.map (textAt tokens) = ws.map some := by
  cases token with
  | openParen =>
    cases hstep
    exact ⟨_, _, .openParen htoken, rfl, rfl⟩
  | closeParen =>
    obtain ⟨⟨vs, rest⟩, hclose, heq⟩ := Option.map_eq_some_iff.1 hstep
    obtain ⟨tops, e, under, rfl, htops, he, rfl, rfl⟩ := exists_of_close? hclose
    obtain ⟨hfitsTops, hfitsUnder⟩ := List.forall_mem_append.1 hfits
    simp only [releaseCall_pendings he] at heq
    cases heq
    refine ⟨_, _, .closeParen htoken htops he, rfl, ?_⟩
    rw [List.map_append, texts_waits hfitsTops htops, (hfitsUnder e List.mem_cons_self).texts_waits he]
    simp
  | comma =>
    obtain ⟨⟨vs, rest⟩, hclose, heq⟩ := Option.map_eq_some_iff.1 hstep
    obtain ⟨tops, e, under, rfl, htops, he, rfl, rfl⟩ := exists_of_close? hclose
    cases heq
    refine ⟨_, _, .comma htoken htops he, ?_, ?_⟩
    · rw [← List.cons_append, pendings_cons_tail he]
      rfl
    · rw [texts_waits (List.forall_mem_append.1 hfits).1 htops]
      simp
  | operator o =>
    obtain ⟨tops, under, rfl, htops, hrelease⟩ := exists_of_release o held
    rw [step?, hrelease] at hstep
    cases hstep
    refine ⟨_, _, .operator htoken htops, rfl, ?_⟩
    rw [texts_waits (List.forall_mem_append.1 hfits).1 htops]
    simp
  | name w =>
    have hnext : tokens[n + 1]? ≠ some .openParen := fun hopen => hcalled ⟨⟨w, htoken⟩, hopen⟩
    rw [step?, if_neg hnext] at hstep
    cases hstep
    exact ⟨_, _, .operand (.inr ⟨⟨w, htoken⟩, hnext⟩), rfl, congrArg (· :: []) (textAt_eq htoken)⟩
  | operand w =>
    cases hstep
    exact ⟨_, _, .operand (.inl ⟨w, htoken⟩), rfl, congrArg (· :: []) (textAt_eq htoken)⟩

theorem of_drop_eq_cons {us : List Token} {token : Token} (h : tokens.drop n = token :: us) :
    tokens[n]? = some token ∧ tokens.drop (n + 1) = us := by
  rw [← List.head?_drop, ← List.tail_drop, h]
  exact ⟨rfl, rfl⟩

/-- **Tokens that are arranged have a run**, and what it emits and holds at the end are the words. -/
theorem Run.exists_of_arrange? {n : Nat} {held : List Held} {done : List Nat} {words : List Text}
    (hrun : Run tokens n held done) (h : arrange? (held.flatMap Held.pendings) (tokens.drop n) = some words) :
    ∃ held' done', Run tokens tokens.length held' done' ∧
      (done' ++ held'.flatMap Held.places).map (textAt tokens) = done.map (textAt tokens) ++ words.map some := by
  cases hdrop : tokens.drop n with
  | nil =>
    obtain rfl : n = tokens.length := Nat.le_antisymm hrun.le_length (List.drop_eq_nil_iff.1 hdrop)
    rw [hdrop] at h
    cases h
    refine ⟨held, done, hrun, ?_⟩
    rw [List.map_append, texts_places hrun.fits]
    simp
  | cons token us =>
    obtain ⟨htoken, hrest⟩ := of_drop_eq_cons hdrop
    have hnext : us.head? = tokens[n + 1]? := by rw [← hrest, List.head?_drop]
    have hlt : n < tokens.length := (List.getElem?_eq_some_iff.1 htoken).1
    rw [hdrop] at h
    simp only [arrange?, Option.bind_eq_bind, Option.bind_eq_some_iff, Prod.exists, hnext] at h
    obtain ⟨ws, below, hstep, vs, hvs, heq⟩ := h
    cases heq
    by_cases hcalled : CalledAt tokens n
    · -- a name that is called is read together with its bracket
      obtain ⟨⟨w, hw⟩, hopen⟩ := hcalled
      obtain rfl := Option.some.inj (htoken.symm.trans hw)
      rw [step?, if_pos hopen] at hstep
      cases hstep
      rw [hopen] at hnext
      obtain ⟨us, rfl⟩ := List.head?_eq_some_iff.1 hnext
      simp only [arrange?, step?, Option.bind_eq_bind, Option.bind_some, ← (of_drop_eq_cons hrest).2] at hvs
      obtain ⟨rest, harrange, heq⟩ := Option.bind_eq_some_iff.1 hvs
      cases heq
      obtain ⟨held', done', hrun', hwords⟩ := exists_of_arrange? (hrun.step (.called hw hopen)) harrange
      exact ⟨held', done', hrun', by simpa using hwords⟩
    · obtain ⟨held', out, hread, rfl, hout⟩ := exists_of_step? hrun.fits htoken hcalled hstep
      rw [← hrest] at hvs
      obtain ⟨held', done', hrun', hwords⟩ := exists_of_arrange? (hrun.step hread) hvs
      refine ⟨held', done', hrun', ?_⟩
      rw [hwords, List.map_append, hout]
      simp
termination_by tokens.length - n

/-! ## The order of the words -/

/-- **What is emitted or held at the end** is each place of a word, and each bracket that is open. -/
theorem Run.places_perm (h : Run tokens n held done) : (done ++ held.flatMap Held.places).Perm
    (wordPlaces tokens n ++ held.flatMap Held.opened) :=
  calc (done ++ held.flatMap Held.places).Perm (done ++ (held.flatMap Held.waits ++ held.flatMap Held.opened)) :=
        ((List.flatMap_append_perm held Held.opened Held.waits).symm.trans List.perm_append_comm).append_left done
    List.Perm _ (wordPlaces tokens n ++ held.flatMap Held.opened) := by
        rw [← List.append_assoc]
        exact h.perm.append_right _

theorem mem_wordPlaces_length {i : Nat} : i ∈ wordPlaces tokens tokens.length ↔ WordAt tokens i := by
  rw [Token.mem_wordPlaces, and_iff_right_iff_imp]
  exact fun h => h.lt_length

/-- **The order of the words.**  Each word is the text of one token: each operator, name and operand makes one word, no
closing bracket and no comma does, and of the opening brackets those that nothing closes.  Operands and names that are not
called keep their order; an operator or a called name comes behind all of them that stand before it; and a called name
whose bracket is closed comes before all of them that stand behind the closing bracket. -/
theorem ofTokens?_order {words : List Text} (h : ofTokens? tokens = some words) :
    ∃ order : List Nat, order.map (fun i => tokens[i]?.map Token.text) = words.map some ∧ order.Nodup ∧
      (∀ i, i ∈ order ↔ WordAt tokens i ∨ tokens[i]? = some .openParen ∧ ∀ m, ¬ ClosedAt tokens i m) ∧
      (∀ i j, OperandAt tokens i → OperandAt tokens j ∨ WaitsAt tokens j → i < j → [i, j].Sublist order) ∧
      ∀ k m i, CalledAt tokens k → ClosedAt tokens (k + 1) m → OperandAt tokens i → m < i → [k, i].Sublist order := by
  obtain ⟨held, done, hrun, hwords⟩ := Run.start.exists_of_arrange? h
  have hopen : Opened tokens (held.flatMap Held.opened) := by
    have hopened := hrun.opened
    rwa [List.take_length] at hopened
  have hoperand : ∀ {i}, OperandAt tokens i → i ∈ done := fun hi => hrun.operand_mem hi hi.wordAt.lt_length
  have hmem : ∀ i, i ∈ done ++ held.flatMap Held.places ↔
      WordAt tokens i ∨ tokens[i]? = some .openParen ∧ ∀ m, ¬ ClosedAt tokens i m := fun i => by
    rw [hrun.places_perm.mem_iff, List.mem_append, mem_wordPlaces_length, hopen.mem_iff]
  refine ⟨done ++ held.flatMap Held.places, hwords, ?nodup, hmem, ?operands, ?calls⟩
  case nodup =>
    rw [hrun.places_perm.nodup_iff, List.nodup_append]
    refine ⟨List.nodup_range.filter _, hopen.nodup, ?_⟩
    rintro i hi _ hb rfl
    obtain ⟨t, ht, hplain⟩ := mem_wordPlaces_length.1 hi
    cases ht.symm.trans (hopen.getElem? hb)
    cases hplain
  case operands =>
    intro i j hi hj hij
    have hjmem : j ∈ done ++ held.flatMap Held.places :=
      (hmem j).2 (.inl (hj.elim OperandAt.wordAt WaitsAt.wordAt))
    rcases List.mem_append.1 hjmem with hdone | hheld
    · exact (hrun.operand_precedes hi hij hdone).trans (List.sublist_append_left _ _)
    · exact pair_sublist (hoperand hi) hheld
  case calls =>
    intro k m i hk hclosed hi hmi
    exact (hrun.called_precedes hk hclosed hi hmi (hoperand hi)).trans (List.sublist_append_left _ _)

/-- A call that is closed, with an operand behind it, and a bracket that is left open. -/
theorem ofTokens?_order_left_open :
    let arguments : List Token := [.name "x".toList, .comma, .operand "2".toList]
    let call : List Token := [.name "sin".toList] ++ .openParen :: (arguments ++ [.closeParen])
    let tokens : List Token := call ++ [.operator .times] ++ .openParen :: [.name "y".toList]
    let words : List Text := ["x".toList, "2".toList, "sin".toList, "y".toList, "(".toList, "*".toList]
    Token.scan "sin(x,2)*(y".toList = tokens ∧ ofTokens? tokens = some words ∧ ∃ order : List Nat,
      order.map (fun i => tokens[i]?.map Token.text) = words.map some ∧ 5 ∉ order ∧ 7 ∈ order ∧
      [2, 6].Sublist order ∧ [0, 8].Sublist order := by
  intro arguments call tokens words
  have hwords : ofTokens? tokens = some words := by decide +kernel
  have harguments : Balanced arguments := .cons nofun nofun (.cons nofun nofun (.single nofun nofun))
  have hcall : Balanced call := .append (.single nofun nofun) harguments.bracket
  have hopen : Opened tokens [7] :=
    .opened (.closed (hcall.append (.single nofun nofun))) (.single nofun nofun)
  have hclosed : ClosedAt tokens 1 5 := ⟨[.name "sin".toList], arguments, _, rfl, harguments, rfl, rfl⟩
  obtain ⟨order, htexts, -, hmem, hoperands, hcalls⟩ := ofTokens?_order hwords
  refine ⟨by decide +kernel, hwords, order, htexts, ?_, ?_, ?_, ?_⟩
  · rw [hmem 5]
    rintro (⟨t, ht, hplain⟩ | ⟨ht, -⟩)
    · cases ht
      cases hplain
    · cases ht
  · exact (hmem 7).2 (.inr (hopen.mem_iff.1 (List.mem_singleton_self 7)))
  · exact hoperands 2 6 (.inr ⟨⟨_, rfl⟩, nofun⟩) (.inr (.inl ⟨_, rfl⟩)) (by decide)
  · exact hcalls 0 5 8 ⟨⟨_, rfl⟩, rfl⟩ hclosed (.inr ⟨⟨_, rfl⟩, nofun⟩) (by decide)

end Postfix
end SignalFormula
