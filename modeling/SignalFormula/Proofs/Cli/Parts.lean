import SignalFormula.Cli.Run
import SignalFormula.Proofs.Result
/-!
# Parts — a run taken apart

A run is a row of parts, of which the first that fails ends it.  The options are resolved in three: the inputs are split
into names and values, the spec is found, and the seed and the values are put to it (`resolve_eq`).  What comes out has a
value for each input, wherever the spec is from (`length_inputs_le_of_resolve`).  Then the values are read, the sections
that are asked for are written around the formula's compiling, and the results follow (`runIn_eq`).
-/
namespace SignalFormula
namespace Cli

open Result (bind_eq_ok_iff)

namespace Report

variable {ε α β : Type}

/-- **The result of a row is that of its parts in a row.** -/
theorem result_andThen (r : Report ε α) (f : α → Report ε β) :
    (r.andThen f).result = r.result >>= fun a => (f a).result := by
  rw [andThen]
  cases r.result <;> rfl

/-- The report with an event in front. -/
def after (e : Event) (r : Report ε α) : Report ε α := ⟨r.output, e :: r.events, r.result⟩

theorem after_andThen (e : Event) (r : Report ε α) (f : α → Report ε β) :
    (after e r).andThen f = after e (r.andThen f) := by
  rw [andThen, andThen, after]
  cases r.result <;> rfl

end Report

/-- What stands before the first equals sign of an argument. -/
def nameOf (argument : Text) : Text := Text.trim (argument.takeWhile (· ≠ '='))

theorem exists_splitAt?_eq {mark : Char} : ∀ {t : Text}, mark ∈ t →
    ∃ r, Text.splitAt? mark t = some (t.takeWhile (· ≠ mark), r)
  | c :: cs, h => by
    rw [Text.splitAt?]
    by_cases hc : c = mark
    · subst hc
      exact ⟨cs, by simp⟩
    · obtain ⟨r, hr⟩ := exists_splitAt?_eq ((List.mem_cons.1 h).resolve_left (Ne.symm hc))
      exact ⟨r, by simp [hc, hr]⟩

/-- **Arguments with an equals sign are names and values.** -/
theorem exists_splitInputs_eq {arguments : List Text} (h : ∀ a ∈ arguments, '=' ∈ a) :
    ∃ pairs, splitInputs arguments = .ok pairs ∧ pairs.map Prod.fst = arguments.map nameOf := by
  induction arguments with
  | nil => exact ⟨[], rfl, rfl⟩
  | cons a as ih =>
    obtain ⟨pairs, hpairs, hnames⟩ := ih fun b hb => h b (List.mem_cons_of_mem _ hb)
    obtain ⟨r, hr⟩ := exists_splitAt?_eq (h a List.mem_cons_self)
    refine ⟨(nameOf a, Text.trim r) :: pairs, ?_, by rw [List.map_cons, List.map_cons, hnames]⟩
    rw [splitInputs] at hpairs ⊢
    rw [List.mapM_cons, hr, hpairs]
    rfl

/-- The spec that the options name, before their seed counts. -/
def namedSpec (files : Files) (o : Options) (names : List Text) : Part Spec :=
  match o.spec, o.expression with
  | some path, _ => specOfFile files path o.name names
  | none, some expression => pure { expression, inputs := names }
  | none, none => Report.ofExcept (.error .noExpression)

/-- The spec with the seed of the options if there is one, and the values if there are enough. -/
def withValues (seed : Option UInt16) (values : List Text) (s : Spec) : Except RunError (Spec × List Text) :=
  if values.length < s.inputs.length then .error (.tooFewValues s.inputs.length values.length)
  else .ok ({ s with seed := seed.or s.seed }, values)

theorem resolve_eq (files : Files) (o : Options) :
    resolve files o = (Report.ofExcept (splitInputs o.inputs)).andThen fun pairs =>
      (namedSpec files o (pairs.map Prod.fst)).andThen fun s =>
        Report.ofExcept (withValues o.seed (pairs.map Prod.snd) s) := by
  simp only [resolve, namedSpec, Report.bind_eq]
  congr
  funext pairs
  -- the definition has the rest of the row in each branch of the choice
  cases o.spec with
  | some path => rfl
  | none => cases o.expression <;> rfl

theorem length_inputs_le_of_withValues {seed : Option UInt16} {values texts : List Text} {s t : Spec}
    (h : withValues seed values s = .ok (t, texts)) : t.inputs.length ≤ texts.length := by
  rw [withValues] at h
  split at h
  · cases h
  · cases h
    exact Nat.not_lt.1 ‹_›

/-- **Each input of the spec has a value.** -/
theorem length_inputs_le_of_resolve {files : Files} {o : Options} {s : Spec} {texts : List Text}
    (h : (resolve files o).result = .ok (s, texts)) : s.inputs.length ≤ texts.length := by
  rw [resolve_eq, Report.result_andThen] at h
  obtain ⟨pairs, -, h⟩ := bind_eq_ok_iff.1 h
  rw [Report.result_andThen] at h
  obtain ⟨spec, -, h⟩ := bind_eq_ok_iff.1 h
  exact length_inputs_le_of_withValues h

/-! ## The run for a spec -/

section run

variable {V : Type} [Scalar V]

def wordsPart (o : Options) (s : Spec) : Part Unit :=
  if o.showWords then wordsSection s.expression else Report.ofExcept (.ok ())

def programPart (o : Options) (f : Formula V) : Part Unit :=
  if o.showProgram then
    match f.program with
    | some p => Report.print (programSection p)
    | none => Report.ofExcept (.ok ())
  else Report.ofExcept (.ok ())

def resultsPart (o : Options) (values : List V) (f : Formula V) : Part Noise :=
  (evaluations values (o.count.getD 1) f).andThen fun f =>
    (Report.log (Event.ofEvaluations (o.count.getD 1) f.noise.register)).andThen fun _ => Report.ofExcept (.ok f.noise)

theorem runIn_eq (o : Options) (s : Spec) (texts : List Text) :
    runIn V o s texts = (Report.ofExcept (readValues texts)).andThen fun values : List V =>
      (wordsPart o s).andThen fun _ => (buildFormula s).andThen fun f =>
        (programPart o f).andThen fun _ => resultsPart o values f := by
  -- the definition has the rest of the row in each branch, so both choices are put in front of it
  have hprogram : ∀ (values : List V) (f : Formula V), (programPart o f).andThen (fun _ => resultsPart o values f) =
      if o.showProgram then
        match f.program with
        | some p => (Report.print (programSection p)).andThen fun _ => resultsPart o values f
        | none => resultsPart o values f
      else resultsPart o values f := fun values f => by
    rw [programPart]
    split
    · cases f.program with
      | some p => rfl
      | none => exact Report.ofExcept_ok_andThen _ _
    · exact Report.ofExcept_ok_andThen _ _
  simp only [hprogram]
  simp only [runIn, Report.bind_eq]
  congr
  funext values
  rw [wordsPart]
  split
  · rfl
  · exact (Report.ofExcept_ok_andThen _ _).symm

end run

end Cli
end SignalFormula
