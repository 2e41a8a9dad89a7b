import SignalFormula.Proofs.Json.RoundTrip
import SignalFormula.Proofs.Spec.Format
/-!
# Encoding — specs and files of specs are read back from their text

The JSON of a spec is an object with strings for its texts and its seed only if it has one, and that of a set is an object
with these under the names.  The text of either is whole JSON of few levels, so it is read to that value, and the value
has the shape of the spec or the file that it came from.
-/
namespace SignalFormula
namespace Spec

open Json (Draft Fits)

theorem toJson_eq (s : Spec) : ∃ ms, s.toJson = .object ms ∧ (ms.map Prod.fst).Nodup ∧ InMembers ms s := by
  obtain ⟨expression, inputs, seed⟩ := s
  refine ⟨_, rfl, ?_, ?_⟩
  · cases seed with
    | none => exact (by decide : [expressionField, inputsField].Nodup)
    | some seed => exact (by decide : fieldNames.Nodup)
  · cases seed with
    | none => exact ⟨rfl, .texts inputs, .missing, by simp [fieldNames]⟩
    | some seed => exact ⟨rfl, .texts inputs, .register seed, by simp [fieldNames]⟩

theorem fits_toJson (s : Spec) : Fits 2 s.toJson := by
  have hinputs : Fits 1 (.array (s.inputs.map .string)) := .array fun j hj => by
    obtain ⟨t, -, rfl⟩ := List.mem_map.1 hj
    exact .string t
  refine .object fun m hm => ?_
  rcases List.mem_append.1 hm with hm | hm
  · simp only [List.mem_cons, List.not_mem_nil, or_false] at hm
    rcases hm with rfl | rfl
    · exact .string s.expression
    · exact hinputs
  · cases hseed : s.seed with
    | none => rw [hseed] at hm; cases hm
    | some seed =>
      rw [hseed] at hm
      cases List.mem_singleton.1 hm
      have hlt : seed.toNat < 65536 := seed.toNat_lt
      exact .integer (by rw [Json.IsWide]; omega)

theorem describes_toJson (s : Spec) : Describes s.toJson s := by
  obtain ⟨ms, hms, -, h⟩ := toJson_eq s
  exact hms ▸ .members h

/-- **A spec is read back from its text.** -/
theorem ofText_render (s : Spec) : ofText s.toJson.render = .ok s := by
  obtain ⟨ms, hms, hnodup, h⟩ := toJson_eq s
  have hread : ∀ surplus, read surplus (Draft.ofJson s.toJson) = .ok s := fun surplus =>
    read_eq_ok_iff.2 (.inr ⟨ms, hms, hnodup, h⟩)
  rw [ofText, Draft.read_render (s.fits_toJson.mono (by decide))]
  simp only [hread]
  rfl

end Spec

namespace SpecFile

open Spec (Describes InMembers)

theorem fits_toJson : ∀ file : SpecFile, Json.Fits 3 file.toJson
  | .single s => s.fits_toJson.mono (by decide)
  | .set specs => .object fun m hm => by
    obtain ⟨e, -, rfl⟩ := List.mem_map.1 hm
    exact e.2.fits_toJson

theorem inSet_toJson (specs : Catalog Spec) : InSet (specs.entries.map fun e => (e.1, e.2.toJson)) specs := by
  have hlast : ∀ name, lastUnder? name (specs.entries.map fun e => (e.1, e.2.toJson)) =
      (specs.find? name).map Spec.toJson := fun name => by
    rw [lastUnder?_map, lastUnder?_eq_lookup specs.increasing.nodup]
    rfl
  refine ⟨fun t ht => ?_, fun name => ?_⟩
  · rw [hlast] at ht
    cases hfind : specs.find? Spec.expressionField with
    | none => rw [hfind] at ht; cases ht
    | some s => rw [hfind] at ht; cases ht
  · rw [hlast]
    cases specs.find? name with
    | none => exact .none
    | some s => exact .some s.describes_toJson

theorem ofText_render : ∀ file : SpecFile, ofText file.toJson.render = .ok file
  | .single s => by
    obtain ⟨ms, hms, -, h⟩ := s.toJson_eq
    rw [ofText_of_parse (Json.parse_render ((fits_toJson (.single s)).mono (by decide)))]
    exact ofJson_normal_eq_single_iff.2 ⟨ms, hms, h⟩
  | .set specs => by
    rw [ofText_of_parse (Json.parse_render ((fits_toJson (.set specs)).mono (by decide)))]
    exact ofJson_normal_eq_set_iff.2 ⟨_, rfl, inSet_toJson specs⟩

/-- **Specs and files are read back from their text**, whatever the texts and names in them. -/
theorem ofText_render_toJson : (∀ s : Spec, Spec.ofText s.toJson.render = .ok s) ∧
    ∀ file : SpecFile, ofText file.toJson.render = .ok file := ⟨Spec.ofText_render, ofText_render⟩

end SpecFile
end SignalFormula
