import Mathlib
import SignalFormula.Proofs.Spec.Shape
import SignalFormula.Spec.File
/-!
# Format — the texts that are spec files

The text of a file is read to a value, and the value is one spec, a set of specs under names, or neither.  It is one spec
if it describes it as an object (`ofJson_normal_eq_single_iff`), and a set if it is an object whose last member for the
expression is no string and whose last member under each name describes the spec there (`ofJson_normal_eq_set_iff`).
Otherwise there is an error, which is about the value and not about the text (`SpecFile.failsOnly_ofJson`).
-/
namespace SignalFormula
namespace Spec

open Json (Draft)
open Result (FailsOnly)

/-! ## Errors of a value

A value has no flaw, so it is read to a spec or to an error of its own.
-/

/-- The error is not a flaw of the text. -/
def Unflawed (e : ReadError) : Prop := ∀ flaw, e ≠ .flawed flaw

theorem unflawed_mismatch (expected : Expected) (j : Json) : Unflawed (mismatch expected (Draft.ofJson j)) := by
  intro flaw h
  cases j <;> cases h

theorem failsOnly_readText (j : Json) : FailsOnly Unflawed (readText (Draft.ofJson j)) := by
  cases j with
  | string t => exact .ok t
  | _ => exact .error (unflawed_mismatch .text _)

theorem failsOnly_readTexts (items : List Json) : FailsOnly Unflawed (readTexts (Draft.ofItems items) none) := by
  induction items with
  | nil => exact .ok []
  | cons j rest ih =>
    rw [Draft.ofItems, readTexts]
    exact (failsOnly_readText j).bind fun t _ => ih.bind fun ts _ => .ok (t :: ts)

theorem failsOnly_readInputs (j : Json) : FailsOnly Unflawed (readInputs (Draft.ofJson j)) := by
  cases j with
  | array items => exact failsOnly_readTexts items
  | _ => exact .error (unflawed_mismatch .sequence _)

theorem failsOnly_readRegister (j : Json) : FailsOnly Unflawed (readRegister (Draft.ofJson j)) := by
  cases j with
  | number n =>
    cases n with
    | integer i =>
      rw [Draft.ofJson, readRegister]
      split
      · exact .ok _
      · exact .error fun _ h => by cases h
    | decimal x => exact .error (unflawed_mismatch .seed (.number (.decimal x)))
  | _ => exact .error (unflawed_mismatch .seed _)

theorem failsOnly_readSeed (j : Json) : FailsOnly Unflawed (readSeed (Draft.ofJson j)) := by
  have hregister := (failsOnly_readRegister j).map some
  cases j with
  | null => exact .ok none
  | _ => exact hregister

theorem failsOnly_readItems (items : List Json) :
    FailsOnly Unflawed (readItems .tooLong (Draft.ofItems items) none) := by
  match items with
  | [] => exact .error fun _ h => by cases h
  | [e] => exact (failsOnly_readText e).bind fun _ _ => .ok _
  | [e, i] => exact (failsOnly_readText e).bind fun _ _ => (failsOnly_readInputs i).bind fun _ _ => .ok _
  | e :: i :: r :: rest =>
    refine (failsOnly_readText e).bind fun _ _ => (failsOnly_readInputs i).bind fun _ _ =>
      (failsOnly_readSeed r).bind fun _ _ => ?_
    cases rest with
    | nil => exact .ok _
    | cons j js => exact .error fun _ h => by cases h

theorem failsOnly_finish (f : Fields) : FailsOnly Unflawed f.finish := by
  rw [Fields.finish]
  cases f.expression with
  | none => exact .error fun _ h => by cases h
  | some t => exact .ok _

theorem failsOnly_readMembers : ∀ (ms : List (Text × Json)) (f : Fields),
    FailsOnly Unflawed (readMembers f (Draft.ofMembers ms) none)
  | [], f => failsOnly_finish f
  | (name, j) :: rest, f => by
    have hduplicate : Unflawed (.duplicateField name) := fun _ h => by cases h
    rw [Draft.ofMembers, readMembers]
    split
    · split
      · exact .error hduplicate
      · exact (failsOnly_readText j).bind fun _ _ => failsOnly_readMembers rest _
    · split
      · split
        · exact .error hduplicate
        · exact (failsOnly_readInputs j).bind fun _ _ => failsOnly_readMembers rest _
      · split
        · split
          · exact .error hduplicate
          · exact (failsOnly_readSeed j).bind fun _ _ => failsOnly_readMembers rest _
        · exact .error fun _ h => by cases h

theorem failsOnly_ofJson (j : Json) : FailsOnly Unflawed (ofJson j) := by
  cases j with
  | array items => exact failsOnly_readItems items
  | object ms => exact failsOnly_readMembers ms {}
  | _ => exact .error (unflawed_mismatch .spec _)

end Spec

namespace SpecFile

open Result (FailsOnly bind_eq_ok_iff map_eq_ok_iff)
open Spec (Describes InMembers ReadError Unflawed)

theorem isString_eq_true_iff {j : Json} : isString j = true ↔ ∃ t, j = .string t := by
  cases j <;> simp [isString]

/-- **An object is one spec if its last member for the expression is a string.** -/
theorem isSingle_normal_iff {ms : List (Text × Json)} :
    isSingle (Catalog.ofList (Json.normalMembers ms)).entries = true ↔
      ∃ t, lastUnder? Spec.expressionField ms = some (.string t) := by
  rw [isSingle, Json.lookup_normal]
  cases lastUnder? Spec.expressionField ms <;> simp [isString_eq_true_iff, Json.normal_eq_string_iff]

theorem readSpecs_eq_ok_iff : ∀ {ms : List (Text × Json)} {ss : List (Text × Spec)},
    readSpecs ms = .ok ss ↔ List.Forall₂ (fun m e => m.1 = e.1 ∧ Spec.ofJson m.2 = .ok e.2) ms ss
  | [], ss => by simp [readSpecs, eq_comm]
  | (name, j) :: rest, ss => by
    rw [readSpecs, bind_eq_ok_iff]
    constructor
    · rintro ⟨s, hs, h⟩
      obtain ⟨us, hus, heq⟩ := bind_eq_ok_iff.1 h
      cases heq
      exact .cons ⟨rfl, hs⟩ (readSpecs_eq_ok_iff.1 hus)
    · intro h
      cases h with
      | @cons _ e _ us he hus =>
        obtain ⟨n, s⟩ := e
        obtain ⟨rfl, hs⟩ := he
        exact ⟨s, hs, bind_eq_ok_iff.2 ⟨us, readSpecs_eq_ok_iff.2 hus, rfl⟩⟩

/-- The members are the specs by name, the last one under a name, and the one under the name of the expression, if there
is one, is no string. -/
structure InSet (ms : List (Text × Json)) (specs : Catalog Spec) : Prop where
  expression_ne : ∀ t, lastUnder? Spec.expressionField ms ≠ some (.string t)
  describes : ∀ name, Option.Rel Describes (lastUnder? name ms) (specs.find? name)

/-- **The members of an object in normal form are read to the catalog of the specs that they describe.** -/
theorem readSpecs_normal_iff {ms : List (Text × Json)} {specs : Catalog Spec} :
    (readSpecs (Catalog.ofList (Json.normalMembers ms)).entries).map Catalog.ofList = .ok specs ↔
      ∀ name, Option.Rel Describes (lastUnder? name ms) (specs.find? name) := by
  -- in normal form no name comes twice, so what is found under the names is what stands there
  have hrel : (∀ name, Option.Rel Describes (lastUnder? name ms) (specs.find? name)) ↔
      ∀ name, Option.Rel (fun j s => Spec.ofJson j = .ok s)
        ((Catalog.ofList (Json.normalMembers ms)).entries.lookup name) (specs.entries.lookup name) := by
    refine forall_congr' fun name => ?_
    rw [Json.lookup_normal, Catalog.find?]
    cases lastUnder? name ms <;> cases specs.entries.lookup name <;>
      simp [Spec.ofJson_normal_eq_ok_iff]
  rw [hrel]
  constructor
  · intro h
    cases hspecs : readSpecs (Catalog.ofList (Json.normalMembers ms)).entries with
    | error e => rw [hspecs] at h; cases h
    | ok ss =>
      have hall := readSpecs_eq_ok_iff.1 hspecs
      have hincreasing := Increasing.of_forall₂ (R := fun j s => Spec.ofJson j = .ok s) hall (Catalog.increasing _)
      rw [hspecs, Except.map, Catalog.ofList_entries hincreasing] at h
      cases h
      exact rel_lookup_of_forall₂ (R := fun j s => Spec.ofJson j = .ok s) hall
  · intro h
    have hall := Increasing.forall₂ (Catalog.increasing _) specs.increasing h
    rw [readSpecs_eq_ok_iff.2 hall, Except.map, Catalog.ofList_entries specs.increasing]

theorem ofJson_normal_eq_single_iff {j : Json} {s : Spec} :
    ofJson j.normal = .ok (.single s) ↔ ∃ ms, j = .object ms ∧ InMembers ms s := by
  cases j with
  | object ms =>
    have hdescribes : Spec.ofJson (.object (Catalog.ofList (Json.normalMembers ms)).entries) = .ok s ↔ InMembers ms s := by
      rw [← Json.normal, Spec.ofJson_normal_eq_ok_iff]
      exact ⟨fun h => by cases h; assumption, .members⟩
    rw [Json.normal, ofJson]
    split
    · simp [map_eq_ok_iff, hdescribes]
    · rename_i hsingle
      rw [isSingle_normal_iff] at hsingle
      have hnot : ¬ InMembers ms s := fun h => hsingle ⟨_, h.expression_eq⟩
      simp [map_eq_ok_iff, hnot]
  | _ => simp [Json.normal, ofJson]

theorem ofJson_normal_eq_set_iff {j : Json} {specs : Catalog Spec} :
    ofJson j.normal = .ok (.set specs) ↔ ∃ ms, j = .object ms ∧ InSet ms specs := by
  cases j with
  | object ms =>
    have hspecs : (∃ ss, readSpecs (Catalog.ofList (Json.normalMembers ms)).entries = .ok ss ∧
        Catalog.ofList ss = specs) ↔ _ := map_eq_ok_iff.symm.trans readSpecs_normal_iff
    rw [Json.normal, ofJson]
    split
    · rename_i hsingle
      obtain ⟨t, ht⟩ := isSingle_normal_iff.1 hsingle
      have hnot : ¬ InSet ms specs := fun h => h.expression_ne t ht
      simp [map_eq_ok_iff, hnot]
    · rename_i hsingle
      rw [isSingle_normal_iff, not_exists] at hsingle
      have hset : InSet ms specs ↔ ∀ name, Option.Rel Describes (lastUnder? name ms) (specs.find? name) :=
        ⟨InSet.describes, fun h => ⟨hsingle, h⟩⟩
      simp [map_eq_ok_iff, hset, ← hspecs]
  | _ => simp [Json.normal, ofJson]

/-! ## Files that are wrong -/

theorem failsOnly_readSpecs (ms : List (Text × Json)) : FailsOnly Unflawed (readSpecs ms) := by
  induction ms with
  | nil => exact .ok []
  | cons m rest ih =>
    obtain ⟨name, j⟩ := m
    rw [readSpecs]
    exact (Spec.failsOnly_ofJson j).bind fun s _ => ih.bind fun ss _ => .ok ((name, s) :: ss)

theorem failsOnly_ofJson (j : Json) : FailsOnly Unflawed (ofJson j) := by
  cases j with
  | object ms =>
    rw [ofJson]
    split
    · exact (Spec.failsOnly_ofJson _).map _
    · exact (failsOnly_readSpecs ms).map _
  | _ => exact .error (Spec.unflawed_mismatch .map _)

theorem ofText_of_parse {t : Text} {j : Json} (h : Json.parse t = .ok j) : ofText t = ofJson j.normal := by
  rw [ofText, h]

/-- **The texts that are spec files**: one spec, a set of specs, or for every other value an error that is not a flaw of
the text. -/
theorem ofText_format {t : Text} {j : Json} (h : Json.parse t = .ok j) :
    (∀ s, ofText t = .ok (.single s) ↔ ∃ ms, j = .object ms ∧ InMembers ms s) ∧
      (∀ specs, ofText t = .ok (.set specs) ↔ ∃ ms, j = .object ms ∧ InSet ms specs) ∧
      ((¬ ∃ ms, j = .object ms ∧ ((∃ s, InMembers ms s) ∨ ∃ specs, InSet ms specs)) →
        ∃ e, ofText t = .error e ∧ ∀ flaw, e ≠ .flawed flaw) := by
  rw [ofText_of_parse h]
  refine ⟨fun s => ofJson_normal_eq_single_iff, fun specs => ofJson_normal_eq_set_iff, fun hother => ?_⟩
  cases hread : ofJson j.normal with
  | error e => exact ⟨e, rfl, failsOnly_ofJson j.normal e hread⟩
  | ok file =>
    cases file with
    | single s =>
      obtain ⟨ms, hj, hs⟩ := ofJson_normal_eq_single_iff.1 hread
      exact absurd ⟨ms, hj, .inl ⟨s, hs⟩⟩ hother
    | set specs =>
      obtain ⟨ms, hj, hspecs⟩ := ofJson_normal_eq_set_iff.1 hread
      exact absurd ⟨ms, hj, .inr ⟨specs, hspecs⟩⟩ hother

/-- A set that has a spec under the name of the expression, and two members of one name of which the last is an array. -/
def repeatedName : Text :=
  "\x7b\"a\": null, \"expression\": \x7b\"expression\": \"rand()\", \"seed\": null\x7d, ".toList ++
    "\"a\": [\"x\", [\"x\"], 9]\x7d".toList

theorem ofText_format_repeated_name :
    let spec : Json := .object [("expression".toList, .string "rand()".toList), ("seed".toList, .null)]
    let items : Json := .array [.string "x".toList, .array [.string "x".toList], .number (.integer 9)]
    let members : List (Text × Json) := [("a".toList, .null), ("expression".toList, spec), ("a".toList, items)]
    let specs : Catalog Spec := Catalog.ofList
      [("expression".toList, ⟨"rand()".toList, [], none⟩), ("a".toList, ⟨"x".toList, ["x".toList], some 9⟩)]
    Json.parse repeatedName = .ok (.object members) ∧ InSet members specs ∧
      ofText repeatedName = .ok (.set specs) := by
  intro spec items members specs
  have hparse : Json.parse repeatedName = .ok (.object members) := by cbv
  have hspec : Describes spec ⟨"rand()".toList, [], none⟩ :=
    .members ⟨rfl, .missing, .null, by decide⟩
  have hitems : Describes items ⟨"x".toList, ["x".toList], some 9⟩ :=
    .items ⟨rfl, .texts ["x".toList], .register 9, by decide⟩
  have hset : InSet members specs := by
    refine ⟨fun t (ht : some (Json.object _) = some (Json.string t)) => ?_, fun name => ?_⟩
    · cases ht
    · rw [Catalog.find?_ofList]
      simp only [members, lastUnder?_cons]
      by_cases ha : name = "a".toList
      · subst ha
        exact .some hitems
      · by_cases hexpression : name = "expression".toList
        · subst hexpression
          exact .some hspec
        · simp only [if_neg ha, if_neg hexpression]
          exact .none
  exact ⟨hparse, hset, ((ofText_format hparse).2.1 specs).2 ⟨members, rfl, hset⟩⟩

end SpecFile
end SignalFormula
