import Mathlib.Control.Monad.Basic
import SignalFormula.Proofs.Draws
import SignalFormula.Session
/-!
# History — a formula is what its own history makes it

Each formula of a session has a history: the actions on it since it took its place, those of the formula that it is a
clone of in front of them (`Histories.record`).  The program is that of the latest compilation that succeeded, and the
noise is that of the latest seed, moved on by the draws that were executed since (`performAll_histories`).  Nothing else
counts: no other formula, no compilation that failed, and of an evaluation only its draws, even if it ended early.
-/
namespace SignalFormula

variable {V : Type} [Scalar V]

namespace Action

/-- The program that the action gives to its formula. -/
def program? : Action V → Option (Program V)
  | .compile expression inputs | .recompile expression inputs => (Program.compile expression inputs).toOption
  | _ => none

/-- The seed that the action gives to its formula. -/
def seed? : Action V → Option UInt16
  | .new seed => some (seed.getD Noise.defaultSeed)
  | .compile expression inputs => (Program.compile (V := V) expression inputs).toOption.map fun _ => Noise.defaultSeed
  | .reseed seed => some seed
  | _ => none

/-- The draws of the action on a formula with a program, or without one. -/
def draws (program : Option (Program V)) : Action V → Nat
  | .evaluate values => program.elim 0 (·.draws values)
  | _ => 0

end Action

/-- The actions on a formula, the latest one first. -/
abbrev History (V : Type) := List (Action V)

namespace History

/-- The program of the latest compilation that succeeded. -/
def program (h : History V) : Option (Program V) := h.findSome? Action.program?

def seed (h : History V) : Option UInt16 := h.findSome? Action.seed?

/-- The draws since the latest seed, each evaluation on the program that there was then. -/
def draws : History V → Nat
  | [] => 0
  | a :: earlier => if a.seed?.isSome then 0 else draws earlier + a.draws (program earlier)

theorem program_cons (a : Action V) (h : History V) : program (a :: h) = a.program?.or (program h) := by
  rw [program, List.findSome?_cons]
  cases a.program? <;> rfl

theorem seed_cons (a : Action V) (h : History V) : seed (a :: h) = a.seed?.or (seed h) := by
  rw [seed, List.findSome?_cons]
  cases a.seed? <;> rfl

theorem exists_compile_of_program {h : History V} {p : Program V} (hp : h.program = some p) :
    ∃ expression inputs, Program.compile expression inputs = .ok p := by
  obtain ⟨a, -, ha⟩ := List.exists_of_findSome?_eq_some hp
  have hcompile : ∀ expression inputs, (Program.compile expression inputs).toOption = some p →
      ∃ expression inputs, Program.compile expression inputs = .ok p := fun expression inputs hok => by
    refine ⟨expression, inputs, ?_⟩
    cases hr : Program.compile (V := V) expression inputs with
    | error e => rw [hr] at hok; cases hok
    | ok q => rw [hr] at hok; cases hok; rfl
  cases a with
  | compile expression inputs => exact hcompile expression inputs ha
  | recompile expression inputs => exact hcompile expression inputs ha
  | _ => cases ha

end History

/-- The history of each formula. -/
abbrev Histories (V : Type) := Nat → History V

namespace Histories

/-- The history that an action leaves its formula with.  A formula that takes its place begins a history, and a clone
begins with that of its source. -/
def own (h : Histories V) (n : Nat) : Action V → History V
  | .new seed => [.new seed]
  | .compile expression inputs =>
    match Program.compile (V := V) expression inputs with
    | .ok _ => [.compile expression inputs]
    | .error _ => h n
  | .clone source => h source
  | a => a :: h n

def record (h : Histories V) (n : Nat) (a : Action V) (k : Nat) : History V := if k = n then h.own n a else h k

omit [Scalar V] in
/-- All formulas are there from the start. -/
def start : Histories V := fun _ => [.new none]

/-- The histories after a row of actions. -/
def recordAll : Histories V → List (Nat × Action V) → Histories V
  | h, [] => h
  | h, (n, a) :: rest => recordAll (h.record n a) rest

end Histories

/-- The history makes the formula what it is. -/
structure History.Makes (h : History V) (f : Formula V) : Prop where
  program_eq : f.program = h.program
  noise_eq : ∃ seed, h.seed = some seed ∧ f.noise = Noise.steps h.draws ⟨seed⟩

namespace History.Makes

variable {h : History V} {f : Formula V}

theorem ofSeed (seed : Option UInt16) :
    Makes [.new seed] (Formula.ofSeed (seed.getD Noise.defaultSeed) : Formula V) := ⟨rfl, _, rfl, rfl⟩

theorem compile {expression : Text} {inputs : List Text} {p : Program V} (hp : Program.compile expression inputs = .ok p) :
    Makes [.compile expression inputs] ⟨some p, ⟨Noise.defaultSeed⟩⟩ := by
  have hseed : (Action.compile expression inputs : Action V).seed? = some Noise.defaultSeed := by
    rw [Action.seed?, hp]
    rfl
  refine ⟨?_, Noise.defaultSeed, ?_, ?_⟩
  · rw [program_cons, Action.program?, hp]
    rfl
  · rw [seed_cons, hseed]
    rfl
  · rw [draws, hseed]
    rfl

theorem recompile_ok (hf : Makes h f) {expression : Text} {inputs : List Text} {p : Program V}
    (hp : Program.compile expression inputs = .ok p) :
    Makes (.recompile expression inputs :: h) { f with program := some p } := by
  obtain ⟨seed, hseed, hnoise⟩ := hf.noise_eq
  refine ⟨?_, seed, hseed, hnoise⟩
  rw [program_cons, Action.program?, hp]
  rfl

theorem recompile_error (hf : Makes h f) {expression : Text} {inputs : List Text} {e : CompileError}
    (he : (Program.compile expression inputs : Except CompileError (Program V)) = .error e) :
    Makes (.recompile expression inputs :: h) f := by
  obtain ⟨seed, hseed, hnoise⟩ := hf.noise_eq
  refine ⟨?_, seed, hseed, hnoise⟩
  rw [program_cons, Action.program?, he]
  exact hf.program_eq

theorem reseed (hf : Makes h f) (seed : UInt16) : Makes (.reseed seed :: h) (f.reseed seed) :=
  ⟨hf.program_eq, seed, rfl, rfl⟩

/-- **An evaluation moves the noise on by the draws that it executes**, and leaves the program. -/
theorem evaluate (hf : Makes h f) (values : List V) : Makes (.evaluate values :: h) (f.evaluate values).2 := by
  obtain ⟨seed, hseed, hnoise⟩ := hf.noise_eq
  have hdraws : draws (.evaluate values :: h) = h.draws + h.program.elim 0 (·.draws values) := rfl
  cases hp : h.program with
  | none =>
    have hevaluate : (f.evaluate values).2 = f := by rw [Formula.evaluate, hf.program_eq, hp]
    rw [hevaluate]
    refine ⟨hf.program_eq, seed, hseed, ?_⟩
    rw [hdraws, hp]
    exact hnoise
  | some p =>
    obtain ⟨expression, inputs, hcompile⟩ := exists_compile_of_program hp
    have hevaluate : (f.evaluate values).2 = ⟨some p, (p.evaluate values f.noise).2⟩ := by
      rw [Formula.evaluate, hf.program_eq, hp]
    rw [hevaluate]
    have hmarked : Entry.marked.compile expression inputs = .ok p := hcompile
    refine ⟨hp.symm, seed, hseed, ?_⟩
    rw [hdraws, hp, Noise.steps_add, ← hnoise]
    exact Entry.evaluate_snd hmarked values f.noise

end History.Makes

namespace Session

open Histories (record recordAll)

variable {s : Session V} {h : Histories V}

omit [Scalar V] in
theorem set_self (s : Session V) (n : Nat) (f : Formula V) : s.set n f n = f := if_pos rfl

/-- **One action**: a formula is made by its history afterwards if each formula was before. -/
theorem perform_makes (hs : ∀ k, (h k).Makes (s k)) (n : Nat) (a : Action V) (k : Nat) :
    (h.record n a k).Makes ((s.perform n a).2 k) := by
  by_cases hk : k = n
  · subst hk
    rw [record, if_pos rfl]
    cases a with
    | new seed =>
      simp only [perform, set_self]
      exact .ofSeed seed
    | compile expression inputs =>
      simp only [perform, Formula.compile, Formula.recompile]
      cases hp : Program.compile (V := V) expression inputs with
      | error e =>
        rw [Histories.own, hp]
        exact hs k
      | ok p =>
        rw [Histories.own, hp]
        simp only [Except.map, attempt, set_self]
        exact .compile hp
    | recompile expression inputs =>
      simp only [perform, Formula.recompile]
      cases hp : Program.compile (V := V) expression inputs with
      | error e => exact (hs k).recompile_error hp
      | ok p =>
        simp only [Except.map, attempt, set_self]
        exact (hs k).recompile_ok hp
    | evaluate values =>
      simp only [perform, set_self]
      exact (hs k).evaluate values
    | reseed seed =>
      simp only [perform, set_self]
      exact (hs k).reseed seed
    | clone source =>
      simp only [perform, set_self]
      exact hs source
  · rw [perform_other s hk, record, if_neg hk]
    exact hs k

/-- **Any row of actions.** -/
theorem performAll_makes : ∀ {run : List (Nat × Action V)} {s : Session V} {h : Histories V},
    (∀ k, (h k).Makes (s k)) → ∀ k, (recordAll h run k).Makes (performAll s run k)
  | [], _, _, hs => hs
  | (n, a) :: _, _, _, hs => fun k => performAll_makes (fun i => perform_makes hs n a i) k

/-- **After any row of actions each formula is what its own history makes it**: its program is that of the latest
compilation that succeeded, and its noise is that of the latest seed, moved on by the draws executed since.  A compilation
that fails changes nothing and one that succeeds leaves the noise, no action changes another formula, and an evaluation
has the result of evaluating the program on the noise, or zero without a program, when it changes nothing. -/
theorem performAll_histories (run : List (Nat × Action V)) (n : Nat) :
    let s := performAll (start (V := V)) run
    let h := recordAll Histories.start run n
    (s n).program = h.program ∧
    (∃ seed, h.seed = some seed ∧ (s n).noise = Noise.steps h.draws ⟨seed⟩) ∧
    (∀ expression inputs e, (Program.compile expression inputs : Except CompileError (Program V)) = .error e →
      s.perform n (.recompile expression inputs) = (.rejected e, s)) ∧
    (∀ expression inputs p, Program.compile expression inputs = .ok p →
      (s.perform n (.recompile expression inputs)).2 n = ⟨some p, (s n).noise⟩) ∧
    (∀ a k, k ≠ n → (s.perform n a).2 k = s k) ∧
    (∀ p values, h.program = some p →
      s.perform n (.evaluate values) =
        (.value (p.evaluate values (s n).noise).1, s.set n ⟨some p, (p.evaluate values (s n).noise).2⟩)) ∧
    ∀ values, h.program = none → s.perform n (.evaluate values) = (.value (.ok Scalar.zero), s) := by
  intro s h
  have hmakes : h.Makes (s n) := performAll_makes (fun _ => .ofSeed none) n
  refine ⟨hmakes.program_eq, hmakes.noise_eq, fun expression inputs e he => ?_, fun expression inputs p hp => ?_,
    fun a k hk => perform_other s hk a, fun p values hp => ?_, fun values hp => ?_⟩
  · rw [perform, Formula.recompile, he]
    rfl
  · rw [perform, Formula.recompile, hp]
    exact set_self s n _
  · rw [perform, Formula.evaluate, hmakes.program_eq, hp]
  · have hself : s.set n (s n) = s := funext fun k => by
      rw [set]
      split
      · rename_i hk; rw [hk]
      · rfl
    rw [perform, Formula.evaluate, hmakes.program_eq, hp]
    exact congrArg (Prod.mk _) hself

/-- A clone that goes on after its source: both evaluations before it drew, the second one before its input was found
missing, and the compilation that failed left no trace. -/
theorem performAll_histories_clone :
    let x : List Text := ["x".toList]
    let p : Program Double := ⟨[.rand, .input 0, .binary .mul], 2⟩
    let run : List (Nat × Action Double) := [(0, .compile "rand() * x".toList x), (0, .evaluate [.ofRat 3]),
      (0, .evaluate []), (1, .clone 0), (0, .reseed 7), (1, .recompile "x +".toList x), (1, .evaluate [.ofRat 3])]
    let s := performAll start run
    s 1 = ⟨some p, ⟨0x389C⟩⟩ ∧
      s.perform 1 (.recompile "x +".toList x) = (.rejected ⟨.stackUnderflow ['+'], "x +".toList⟩, s) ∧
      (s.perform 1 (.recompile "rpn:x".toList x)).2 1 = ⟨some ⟨[.input 0], 1⟩, ⟨0x389C⟩⟩ ∧
      (s.perform 1 (.reseed 7)).2 0 = s 0 ∧
      s.perform 1 (.evaluate []) =
        (.value (p.evaluate [] ⟨0x389C⟩).1, s.set 1 ⟨some p, (p.evaluate [] ⟨0x389C⟩).2⟩) ∧
      s.perform 2 (.evaluate []) = (.value (.ok Scalar.zero), s) := by
  intro x p run s
  have hprogram : History.program (recordAll Histories.start run 1) = some p := by decide +kernel
  have hdraws : History.draws (recordAll Histories.start run 1) = 3 := by decide +kernel
  have hseed : History.seed (recordAll Histories.start run 1) = some 0xACE1 := by decide +kernel
  have hempty : History.program (recordAll Histories.start run 2) = none := by decide +kernel
  obtain ⟨hp, ⟨seed, hs, hnoise⟩, hrejected, hcompiled, hother, hvalue, -⟩ := performAll_histories run 1
  obtain rfl : 0xACE1 = seed := Option.some.inj (hseed.symm.trans hs)
  have hregister : (s 1).noise = ⟨0x389C⟩ := by
    rw [hnoise, hdraws]
    decide
  have hone : s 1 = ⟨some p, ⟨0x389C⟩⟩ := by
    rw [← hprogram, ← hp, ← hregister]
  refine ⟨hone, hrejected _ _ _ (by decide +kernel), ?_, hother _ 0 (by decide), ?_,
    (performAll_histories run 2).2.2.2.2.2.2 [] hempty⟩
  · rw [← hregister]
    exact hcompiled _ _ _ (by decide +kernel)
  · rw [← hregister]
    exact hvalue p [] hprogram

end Session

end SignalFormula
