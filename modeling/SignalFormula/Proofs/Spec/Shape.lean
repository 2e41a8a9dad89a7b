import SignalFormula.Proofs.Json.Normal
import SignalFormula.Proofs.Spec.Fields
/-!
# Shape — the values that are specs

A value describes a spec as an object with the fields by name, or as an array with the fields in order.  This does not
depend on the order of members or on members that a later one of the same name replaces, so a value and its normal form
describe the same spec, and it is the one that is read (`Spec.ofJson_normal_eq_ok_iff`).
-/
namespace SignalFormula
namespace Spec

open Json (Draft)

/-- The members are the fields by name, the last one under a name, and of the fields only the expression has to be
there. -/
structure InMembers (ms : List (Text × Json)) (s : Spec) : Prop where
  expression_eq : lastUnder? expressionField ms = some (.string s.expression)
  inputs : HoldsInputs (lastUnder? inputsField ms) s.inputs
  seed : HoldsSeed (lastUnder? seedField ms) s.seed
  known : ∀ m ∈ ms, m.1 ∈ fieldNames

/-- **An object is read by its names**, none of which may come twice. -/
theorem readMembers_empty_eq_ok_iff {ms : List (Text × Json)} {s : Spec} :
    readMembers {} (Draft.ofMembers ms) none = .ok s ↔ (ms.map Prod.fst).Nodup ∧ InMembers ms s := by
  have hinputs : ∀ {ts}, (∃ slot, Slot (fun j => readInputs (Draft.ofJson j)) ms inputsField slot ∧ slot.getD [] = ts) ↔
      HoldsInputs (ms.lookup inputsField) ts :=
    exists_slot_iff ⟨fun h => by cases h; rfl, fun h => by rw [h]; exact .missing⟩ readInputs_eq_ok_iff
  have hseed : ∀ {r}, (∃ slot, Slot (fun j => readSeed (Draft.ofJson j)) ms seedField slot ∧ slot.getD none = r) ↔
      HoldsSeed (ms.lookup seedField) r :=
    exists_slot_iff ⟨fun h => by cases h; rfl, fun h => by rw [h]; exact .missing⟩ readSeed_eq_ok_iff
  rw [readMembers_eq_ok_iff Gives.nil, List.nil_append]
  constructor
  · rintro ⟨g, hg, hs⟩
    obtain ⟨hexpression, hi, hr⟩ := finish_eq_ok_iff.1 hs
    refine ⟨hg.nodup, ?_, ?_, ?_, hg.known⟩
    · have hslot := hg.expression
      rw [hexpression, Slot] at hslot
      rw [lastUnder?_eq_lookup hg.nodup]
      cases hlookup : ms.lookup expressionField with
      | none => rw [hlookup] at hslot; cases hslot
      | some j =>
        rw [hlookup] at hslot
        cases hslot with
        | some h => rw [readText_eq_ok_iff.1 h]
    · rw [lastUnder?_eq_lookup hg.nodup]
      exact hinputs.1 ⟨_, hg.inputs, hi⟩
    · rw [lastUnder?_eq_lookup hg.nodup]
      exact hseed.1 ⟨_, hg.seed, hr⟩
  · rintro ⟨hnodup, he, hi, hr, hknown⟩
    rw [lastUnder?_eq_lookup hnodup] at he hi hr
    obtain ⟨inputs, hinputsSlot, hi⟩ := hinputs.2 hi
    obtain ⟨seed, hseedSlot, hr⟩ := hseed.2 hr
    have hslot : Slot (fun j => readText (Draft.ofJson j)) ms expressionField (some s.expression) := by
      rw [Slot, he]
      exact .some (readText_eq_ok_iff.2 rfl)
    exact ⟨⟨some s.expression, inputs, seed⟩, ⟨hnodup, hknown, hslot, hinputsSlot, hseedSlot⟩,
      finish_eq_ok_iff.2 ⟨rfl, hi, hr⟩⟩

theorem read_eq_ok_iff {surplus : Nat → ReadError} {j : Json} {s : Spec} :
    read surplus (Draft.ofJson j) = .ok s ↔
      (∃ items, j = .array items ∧ InItems items s) ∨
        ∃ ms, j = .object ms ∧ (ms.map Prod.fst).Nodup ∧ InMembers ms s := by
  cases j with
  | array items => simp [Draft.ofJson, read, readItems_eq_ok_iff]
  | object ms => simp [Draft.ofJson, read, readMembers_empty_eq_ok_iff]
  | _ => simp [Draft.ofJson, read]

/-- The value is a spec, as an object or as an array. -/
inductive Describes : Json → Spec → Prop where
  | members {ms : List (Text × Json)} {s : Spec} (h : InMembers ms s) : Describes (.object ms) s
  | items {items : List Json} {s : Spec} (h : InItems items s) : Describes (.array items) s

/-! ## Normal forms -/
theorem holdsInputs_map_normal {x : Option Json} {ts : List Text} :
    HoldsInputs (x.map Json.normal) ts ↔ HoldsInputs x ts := by
  cases x with
  | none => rfl
  | some j =>
    rw [Option.map_some]
    constructor
    · intro h
      generalize hn : j.normal = i at h
      cases h
      rw [Json.normal_eq_texts_iff.1 hn]
      exact .texts ts
    · rintro ⟨⟩
      rw [Json.normal_eq_texts_iff.2 rfl]
      exact .texts ts

theorem holdsSeed_map_normal {x : Option Json} {seed : Option UInt16} :
    HoldsSeed (x.map Json.normal) seed ↔ HoldsSeed x seed := by
  cases x with
  | none => rfl
  | some j =>
    rw [Option.map_some]
    constructor
    · intro h
      generalize hn : j.normal = i at h
      cases h with
      | null => rw [Json.normal_eq_null_iff.1 hn]; exact .null
      | register seed => rw [Json.normal_eq_number_iff.1 hn]; exact .register seed
    · intro h
      cases h with
      | null => exact .null
      | register seed => exact .register seed

theorem inItems_map_normal {items : List Json} {s : Spec} : InItems (items.map Json.normal) s ↔ InItems items s := by
  have hexpression : (items.map Json.normal)[0]? = some (.string s.expression) ↔
      items[0]? = some (.string s.expression) := by
    rw [List.getElem?_map]
    cases items[0]? <;> simp [Json.normal_eq_string_iff]
  constructor
  · rintro ⟨he, hi, hr, hlength⟩
    rw [List.getElem?_map] at hi hr
    rw [List.length_map] at hlength
    exact ⟨hexpression.1 he, holdsInputs_map_normal.1 hi, holdsSeed_map_normal.1 hr, hlength⟩
  · rintro ⟨he, hi, hr, hlength⟩
    refine ⟨hexpression.2 he, ?_, ?_, by rwa [List.length_map]⟩
    · rw [List.getElem?_map]; exact holdsInputs_map_normal.2 hi
    · rw [List.getElem?_map]; exact holdsSeed_map_normal.2 hr

theorem inMembers_normal {ms : List (Text × Json)} {s : Spec} :
    InMembers (Catalog.ofList (Json.normalMembers ms)).entries s ↔ InMembers ms s := by
  have hexpression : (lastUnder? expressionField ms).map Json.normal = some (.string s.expression) ↔
      lastUnder? expressionField ms = some (.string s.expression) := by
    cases lastUnder? expressionField ms <;> simp [Json.normal_eq_string_iff]
  have hknown : ∀ es : List (Text × Json),
      (∀ m ∈ es, m.1 ∈ fieldNames) ↔ ∀ name ∈ es.map Prod.fst, name ∈ fieldNames := fun es => by
    rw [List.forall_mem_map]
  constructor
  · rintro ⟨he, hi, hr, hnames⟩
    rw [Json.lastUnder?_normal] at he hi hr
    refine ⟨hexpression.1 he, holdsInputs_map_normal.1 hi, holdsSeed_map_normal.1 hr, (hknown _).2 fun name hname => ?_⟩
    exact (hknown _).1 hnames name ((Json.mem_names_normal ms name).2 hname)
  · intro h
    refine ⟨?_, ?_, ?_, (hknown _).2 fun name hname => ?_⟩
    · rw [Json.lastUnder?_normal]; exact hexpression.2 h.expression_eq
    · rw [Json.lastUnder?_normal]; exact holdsInputs_map_normal.2 h.inputs
    · rw [Json.lastUnder?_normal]; exact holdsSeed_map_normal.2 h.seed
    · exact (hknown _).1 h.known name ((Json.mem_names_normal ms name).1 hname)

/-- **What a value is read as in its normal form.** -/
theorem ofJson_normal_eq_ok_iff {j : Json} {s : Spec} : ofJson j.normal = .ok s ↔ Describes j s := by
  rw [ofJson, read_eq_ok_iff]
  constructor
  · rintro (⟨items, hj, h⟩ | ⟨ms, hj, -, h⟩)
    · cases j with
      | array is =>
        rw [Json.normal, Json.array.injEq, Json.normalItems_eq_map] at hj
        exact .items (inItems_map_normal.1 (hj ▸ h))
      | _ => cases hj
    · cases j with
      | object is =>
        rw [Json.normal, Json.object.injEq] at hj
        exact .members (inMembers_normal.1 (hj ▸ h))
      | _ => cases hj
  · intro h
    cases h with
    | items h => exact .inl ⟨_, by rw [Json.normal, Json.normalItems_eq_map], inItems_map_normal.2 h⟩
    | members h => exact .inr ⟨_, by rw [Json.normal], (Catalog.increasing _).nodup, inMembers_normal.2 h⟩

end Spec
end SignalFormula
