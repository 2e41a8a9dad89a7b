import SignalFormula.Proofs.Cli.Parts
import SignalFormula.Proofs.Spec.Encoding
/-!
# Sources — a formula on the command line and in a spec file

The options name a formula by its expression, with the names of the inputs and the seed beside it, or by a file that holds
the text of that spec.  A file with the text of a spec is read to the spec, the names agree with those in front of the
values, and its seed counts where the options have none.  So both ways lead to one run, but for the event that a file was
read (`run_ofSpecFile`).
-/
namespace SignalFormula
namespace Cli

open Report (after)

theorem loadFile_of_text {files : Files} {path text : Text} {file : SpecFile} (hfile : files path = .ok text)
    (h : SpecFile.ofText text = .ok file) :
    loadFile files path = after (Event.ofSpecFile path file.size) (Report.ofExcept (.ok file)) := by
  rw [loadFile, hfile]
  simp only [Report.bind_eq, Except.mapError, Report.ofExcept_ok_andThen, h]
  rfl

/-- **The text of a spec gives the spec**, if the names are its own or there are none. -/
theorem specOfFile_of_render {files : Files} {path : Text} {s : Spec} (hfile : files path = .ok s.toJson.render)
    (name : Option Text) {names : List Text} (hnames : names ≠ [] → names = s.inputs) :
    specOfFile files path name names = after (Event.ofSpecFile path 1) (Report.ofExcept (.ok s)) := by
  have hload := loadFile_of_text hfile (SpecFile.ofText_render (.single s))
  have hmatch : ¬ (names ≠ [] ∧ names ≠ s.inputs) := fun h => h.2 (hnames h.1)
  rw [specOfFile, hload]
  simp only [Report.bind_eq, Report.after_andThen, Report.ofExcept_ok_andThen, SpecFile.select, Except.mapError,
    if_neg hmatch]
  rfl

namespace Options

/-- The options with this expression, and no spec file. -/
def ofExpression (o : Options) (expression : Text) : Options := { o with expression := some expression, spec := none }

/-- The options with this spec file, and no expression and no seed. -/
def ofSpecFile (o : Options) (path : Text) : Options :=
  { o with expression := none, spec := some path, seed := none }

end Options

section sources

variable {files : Files} {o : Options} {e path : Text} (hpairs : ∀ a ∈ o.inputs, '=' ∈ a)
  (hfile : files path = .ok (Spec.toJson ⟨e, o.inputs.map nameOf, o.seed⟩).render)

include hpairs hfile

theorem resolve_ofSpecFile :
    resolve files (o.ofSpecFile path) = after (Event.ofSpecFile path 1) (resolve files (o.ofExpression e)) := by
  obtain ⟨pairs, hsplit, hnames⟩ := exists_splitInputs_eq hpairs
  have hspec : namedSpec files (o.ofSpecFile path) (o.inputs.map nameOf) = _ :=
    specOfFile_of_render hfile o.name fun _ => rfl
  have hseed : ∀ values, withValues none values ⟨e, o.inputs.map nameOf, o.seed⟩ =
      withValues o.seed values ⟨e, o.inputs.map nameOf, none⟩ := fun values => by
    rw [withValues, withValues, Option.none_or, Option.or_none]
  have hfiled : resolve files (o.ofSpecFile path) =
      (namedSpec files (o.ofSpecFile path) (pairs.map Prod.fst)).andThen fun s =>
        Report.ofExcept (withValues none (pairs.map Prod.snd) s) := by
    rw [resolve_eq, Options.ofSpecFile, hsplit, Report.ofExcept_ok_andThen]
  have hdirect : resolve files (o.ofExpression e) =
      Report.ofExcept (withValues o.seed (pairs.map Prod.snd) ⟨e, pairs.map Prod.fst, none⟩) := by
    rw [resolve_eq, Options.ofExpression, hsplit, Report.ofExcept_ok_andThen]
    exact Report.ofExcept_ok_andThen _ _
  rw [hfiled, hdirect, hnames, hspec, Report.after_andThen, Report.ofExcept_ok_andThen, hseed]

theorem run_ofSpecFile :
    run files (o.ofSpecFile path) = after (Event.ofSpecFile path 1) (run files (o.ofExpression e)) := by
  rw [run, resolve_ofSpecFile hpairs hfile]
  exact Report.after_andThen _ _ _

/-- **A formula in a spec file and on the command line give the same run**: the same output, the same error or noise that
is left, and the same events but for the one of the file; so the same outcome unless the filter lets that one pass. -/
theorem same_run :
    (run files (o.ofSpecFile path)).output = (run files (o.ofExpression e)).output ∧
      (run files (o.ofSpecFile path)).result = (run files (o.ofExpression e)).result ∧
      (run files (o.ofSpecFile path)).events = Event.ofSpecFile path 1 :: (run files (o.ofExpression e)).events ∧
      ∀ filter : Filter, filter.depth < Level.debug.depth →
        Outcome.ofReport filter (run files (o.ofSpecFile path)) =
          Outcome.ofReport filter (run files (o.ofExpression e)) := by
  rw [run_ofSpecFile hpairs hfile]
  refine ⟨rfl, rfl, rfl, fun filter hfilter => ?_⟩
  have hpasses : Event.passes filter (Event.ofSpecFile path 1) = false :=
    decide_eq_false (Nat.not_le.2 hfilter)
  simp only [Outcome.ofReport, after, List.filter_cons, hpasses]
  rfl

end sources

/-- Two evaluations of an expression with a seed and with two inputs of one name. -/
theorem same_run_seeded_noise :
    let path : Text := "f.json".toList
    let files : Files := fun _ => .ok
      "\x7b\"expression\":\"x*rand()\",\"inputs\":[\"x\",\"x\"],\"seed\":7\x7d".toList
    let o : Options := { inputs := [" x = 2".toList, "x=1".toList], seed := some 7, count := some 2 }
    let e : Text := "x*rand()".toList
    let left : Outcome := ⟨0, "1.4063630121309225\n1.8594338902876326\n".toList,
      ["INFO evaluation finished count=2 rng_state=60929".toList]⟩
    (∀ a ∈ o.inputs, '=' ∈ a) ∧ files path = .ok (Spec.toJson ⟨e, o.inputs.map nameOf, o.seed⟩).render ∧
      Outcome.ofReport Filter.standard (run files (o.ofExpression e)) = left ∧
      Outcome.ofReport Filter.standard (run files (o.ofSpecFile path)) = left := by
  intro path files o e left
  have hpairs : ∀ a ∈ o.inputs, '=' ∈ a := by decide
  have hfile : files path = .ok (Spec.toJson ⟨e, o.inputs.map nameOf, o.seed⟩).render := by decide +kernel
  have hdirect : Outcome.ofReport Filter.standard (run files (o.ofExpression e)) = left := by decide +kernel
  obtain ⟨-, -, -, hsame⟩ := same_run hpairs hfile
  exact ⟨hpairs, hfile, hdirect, (hsame _ (by decide)).trans hdirect⟩

end Cli
end SignalFormula
