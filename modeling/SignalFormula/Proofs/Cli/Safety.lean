import SignalFormula.Proofs.Assembly
import SignalFormula.Proofs.Cli.Parts
import SignalFormula.Proofs.Execution
/-!
# Safety — a run ends with its results or with an error that it reports

What the options are resolved to has a value for each input, every value that is read stays in its place, and a program
asks only for inputs that it was compiled with.  So each evaluation has a value and leaves a formula with the same program
(`Formula.Covered.exists_evaluate_eq`), and with it every row of evaluations (`exists_evaluations_eq`).  Every other part
of a run fails only with errors that are reported (`failsOnly_run`).
-/
namespace SignalFormula

namespace Formula

variable {V : Type} [Scalar V] {f : Formula V} {values : List V}

/-- The program of the formula was compiled for no more inputs than there are values. -/
structure Covered (f : Formula V) (values : List V) (p : Program V) : Prop where
  program_eq : f.program = some p
  compiled : ∃ expression inputs, Entry.marked.compile expression inputs = .ok p ∧ inputs.length ≤ values.length

namespace Covered

variable {p : Program V}

theorem input_lt (h : f.Covered values p) {i : Nat} (hi : .input i ∈ p.ops) : i < values.length := by
  obtain ⟨expression, inputs, hcompile, hlength⟩ := h.compiled
  exact Nat.lt_of_lt_of_le (Entry.input_lt hcompile hi) hlength

/-- **One evaluation**: there is a value, and the program stays. -/
theorem exists_evaluate_eq (h : f.Covered values p) :
    ∃ v g, f.evaluate values = (.ok v, g) ∧ g.Covered values p := by
  obtain ⟨expression, inputs, hcompile, hlength⟩ := h.compiled
  obtain ⟨t, hp, hneed⟩ := Entry.exists_tree hcompile
  have hgiven : ∀ i, .input i ∈ p.ops → values[i]? = some (Program.givenBy values i) := fun i hi =>
    Program.getElem?_eq_givenBy (h.input_lt hi)
  have heval := Program.evaluate_eq_value (by rw [hp]) hneed hgiven f.noise
  refine ⟨(t.value (Program.givenBy values) f.noise).1,
    { f with noise := (t.value (Program.givenBy values) f.noise).2 }, ?_, h.program_eq, h.compiled⟩
  rw [evaluate, h.program_eq]
  simp only [heval]

end Covered

end Formula

namespace Spec

theorem exists_covered_of_build {V : Type} [Scalar V] {s : Spec} {f : Formula V} {values : List V}
    (h : s.build = .ok f) (hlength : s.inputs.length ≤ values.length) : ∃ p, f.Covered values p := by
  rw [build, Formula.recompile] at h
  obtain ⟨p, hp, rfl⟩ := Result.map_eq_ok_iff.1 h
  exact ⟨p, rfl, _, _, hp, hlength⟩

end Spec

namespace Cli

open Result (FailsOnly mapM_eq_ok_iff)

variable {V : Type} [Scalar V]

/-- **Any number of evaluations**: the formula that is left has the same program, and its next evaluation has a value. -/
theorem exists_evaluations_eq {values : List V} {p : Program V} : ∀ (count : Nat) {f : Formula V}, f.Covered values p →
    ∃ g, (evaluations values count f).result = .ok g ∧ g.Covered values p
  | 0, f, h => ⟨f, rfl, h⟩
  | count + 1, f, h => by
    obtain ⟨v, g, hg, hcovered⟩ := h.exists_evaluate_eq
    obtain ⟨g', hg', hcovered'⟩ := exists_evaluations_eq count hcovered
    refine ⟨g', ?_, hcovered'⟩
    rw [evaluations, hg]
    exact hg'

theorem length_of_readValues {texts : List Text} {values : List V} (h : readValues texts = .ok values) :
    values.length = texts.length := (mapM_eq_ok_iff.1 h).length_eq.symm

/-! ## Errors -/

/-- The errors that a run reports, and is not stopped by. -/
def Reported (e : RunError) : Prop := ∀ fault, e ≠ .stopped fault

theorem Reported.status_eq {e : RunError} (h : Reported e) : e.status = 1 := by
  cases e with
  | stopped fault => exact absurd rfl (h fault)
  | _ => rfl

theorem failsOnly_andThen {α β : Type} {r : Part α} {f : α → Part β} (hr : FailsOnly Reported r.result)
    (hf : ∀ a, r.result = .ok a → FailsOnly Reported (f a).result) : FailsOnly Reported (r.andThen f).result := by
  rw [Report.result_andThen]
  exact hr.bind hf

theorem failsOnly_splitInputs (arguments : List Text) : FailsOnly Reported (splitInputs arguments) :=
  .mapM (fun argument => by
    split
    · exact .ok _
    · exact .error fun _ h => by cases h) arguments

theorem failsOnly_readValues (texts : List Text) : FailsOnly Reported (readValues texts : Except RunError (List V)) :=
  .mapM (fun t => by
    split
    · exact .ok _
    · exact .error fun _ h => by cases h) texts

theorem failsOnly_loadFile (files : Files) (path : Text) : FailsOnly Reported (loadFile files path).result := by
  refine failsOnly_andThen (.mapError (fun _ _ h => by cases h) _) fun text _ => ?_
  refine failsOnly_andThen (.mapError (fun _ _ h => by cases h) _) fun file _ => ?_
  exact .ok file

theorem failsOnly_namedSpec (files : Files) (o : Options) (names : List Text) :
    FailsOnly Reported (namedSpec files o names).result := by
  rw [namedSpec]
  split
  · refine failsOnly_andThen (failsOnly_loadFile files _) fun file _ => ?_
    refine failsOnly_andThen (.mapError (fun _ _ h => by cases h) _) fun s _ => ?_
    rw [Report.ofExcept]
    split
    · exact .error fun _ h => by cases h
    · exact .ok s
  · exact .ok _
  · exact .error fun _ h => by cases h

theorem failsOnly_withValues (seed : Option UInt16) (values : List Text) (s : Spec) :
    FailsOnly Reported (withValues seed values s) := by
  rw [withValues]
  split
  · exact .error fun _ h => by cases h
  · exact .ok _

theorem failsOnly_resolve (files : Files) (o : Options) : FailsOnly Reported (resolve files o).result := by
  rw [resolve_eq]
  exact failsOnly_andThen (failsOnly_splitInputs o.inputs) fun _ _ =>
    failsOnly_andThen (failsOnly_namedSpec files o _) fun s _ => failsOnly_withValues o.seed _ s

theorem failsOnly_wordsSection (expression : Text) : FailsOnly Reported (wordsSection expression).result := by
  simp only [wordsSection, Report.bind_eq]
  split
  · exact .ok ()
  · exact failsOnly_andThen (.mapError (fun _ _ h => by cases h) _) fun _ _ => .ok ()

theorem failsOnly_wordsPart (o : Options) (s : Spec) : FailsOnly Reported (wordsPart o s).result := by
  rw [wordsPart]
  split
  · exact failsOnly_wordsSection s.expression
  · exact .ok ()

theorem failsOnly_programPart (o : Options) (f : Formula V) : FailsOnly Reported (programPart o f).result := by
  rw [programPart]
  split
  · split
    · exact .ok ()
    · exact .ok ()
  · exact .ok ()

theorem failsOnly_resultsPart {o : Options} {values : List V} {f : Formula V} {p : Program V} (h : f.Covered values p) :
    FailsOnly Reported (resultsPart o values f).result := by
  obtain ⟨g, hg, -⟩ := exists_evaluations_eq (o.count.getD 1) h
  rw [resultsPart, Report.result_andThen, hg]
  exact .ok g.noise

theorem failsOnly_runIn (o : Options) {s : Spec} {texts : List Text} (h : s.inputs.length ≤ texts.length) :
    FailsOnly Reported (runIn V o s texts).result := by
  rw [runIn_eq]
  refine failsOnly_andThen (failsOnly_readValues texts) fun values hvalues => ?_
  refine failsOnly_andThen (failsOnly_wordsPart o s) fun _ _ => ?_
  refine failsOnly_andThen (.mapError (fun _ _ h => by cases h) _) fun f hf => ?_
  refine failsOnly_andThen (failsOnly_programPart o f) fun _ _ => ?_
  -- only here the lengths count: the values that were read cover the inputs of the formula that was built
  rw [← length_of_readValues hvalues] at h
  obtain ⟨p, hp⟩ := Spec.exists_covered_of_build (Program.mapError_eq_ok_iff.1 hf) h
  exact failsOnly_resultsPart hp

theorem failsOnly_run (files : Files) (o : Options) : FailsOnly Reported (run files o).result := by
  rw [run]
  refine failsOnly_andThen (failsOnly_resolve files o) fun (s, texts) h => ?_
  have hlength := length_inputs_le_of_resolve h
  show FailsOnly Reported (if o.single then runIn Single o s texts else runIn Double o s texts).result
  split
  · exact failsOnly_runIn o hlength
  · exact failsOnly_runIn o hlength

/-- **A run ends with its results or with an error that it reports, and never evaluates past its values.**  After any
number of evaluations, the program has inputs only below the number of values, and the next evaluation has a value. -/
theorem run_safe (files : Files) (o : Options) :
    (∀ filter : Filter,
      (Outcome.ofReport filter (run files o)).status = 0 ∧ (∃ noise, (run files o).result = .ok noise) ∨
        (Outcome.ofReport filter (run files o)).status = 1 ∧ ∃ e, (run files o).result = .error e ∧
          (Outcome.ofReport filter (run files o)).errors.getLast? = some ("Error: ".toList ++ e.message)) ∧
    ∀ (V : Type) [Scalar V] {s : Spec} {texts : List Text} {values : List V} {f : Formula V},
      (resolve files o).result = .ok (s, texts) → readValues texts = .ok values → s.build = .ok f →
        ∀ count, ∃ g p, (evaluations values count f).result = .ok g ∧ g.program = some p ∧
          (∀ i, .input i ∈ p.ops → i < values.length) ∧ ∃ v, (g.evaluate values).1 = .ok v := by
  refine ⟨fun filter => ?_, fun V _ s texts values f hresolve hvalues hf count => ?_⟩
  · rw [Outcome.ofReport]
    cases hresult : (run files o).result with
    | ok noise => exact .inl ⟨rfl, noise, rfl⟩
    | error e => exact .inr ⟨(failsOnly_run files o e hresult).status_eq, e, rfl, List.getLast?_concat⟩
  · have hlength := length_inputs_le_of_resolve hresolve
    rw [← length_of_readValues hvalues] at hlength
    obtain ⟨p, hp⟩ := Spec.exists_covered_of_build hf hlength
    obtain ⟨g, hg, hcovered⟩ := exists_evaluations_eq count hp
    obtain ⟨v, g', hv, -⟩ := hcovered.exists_evaluate_eq
    exact ⟨g, p, hg, hcovered.program_eq, fun i hi => hcovered.input_lt hi, v, by rw [hv]⟩

/-- Of a set of specs, one that is an array with two inputs of one name. -/
theorem run_safe_array_of_set :
    let files : Files := fun _ => .ok
      "\x7b\"f\":[\"x+x*rand()\",[\"x\",\"x\"]],\"g\":\x7b\"expression\":\"1\"\x7d\x7d".toList
    let o : Options := { inputs := ["x=1".toList, "x=2".toList], spec := some "f.json".toList, name := some ['f'] }
    let s : Spec := ⟨"x+x*rand()".toList, [['x'], ['x']], none⟩
    let texts : List Text := [['1'], ['2']]
    let values : List Double := [.ofRat 1, .ofRat 2]
    let f : Formula Double := ⟨some ⟨[.input 0, .input 0, .rand, .binary .mul, .binary .add], 3⟩, ⟨Noise.defaultSeed⟩⟩
    (resolve files o).result = .ok (s, texts) ∧ readValues texts = .ok values ∧ s.build = .ok f ∧
      (∃ g p, (evaluations values 2 f).result = .ok g ∧ g.program = some p ∧
        (∀ i, .input i ∈ p.ops → i < values.length) ∧ ∃ v, (g.evaluate values).1 = .ok v) ∧
      (Outcome.ofReport Filter.standard (run files o)).status = 0 := by
  intro files o s texts values f
  have hresolve : (resolve files o).result = .ok (s, texts) := by decide +kernel
  have hvalues : readValues texts = .ok values := by decide +kernel
  have hbuild : s.build = .ok f := by decide +kernel
  obtain ⟨hend, hsafe⟩ := run_safe files o
  refine ⟨hresolve, hvalues, hbuild, hsafe Double hresolve hvalues hbuild 2, ?_⟩
  rcases hend Filter.standard with ⟨hstatus, -⟩ | ⟨-, e, he, -⟩
  · exact hstatus
  · have hok : (run files o).result.isOk := by decide +kernel
    rw [he] at hok
    cases hok

end Cli
end SignalFormula
