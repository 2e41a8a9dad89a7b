import SignalFormula.Proofs.Json.RoundTrip
import SignalFormula.Proofs.Result
/-!
# Whole — the drafts of texts without a flaw

A draft that can be completed is the draft of the value (`Draft.complete_eq_ok_iff`).  So a text is parsed to a value exactly
if it is read to the draft of that value, with nothing but white space behind it (`parse_eq_ok_iff`).
-/
namespace SignalFormula
namespace Json

open Result (bind_eq_ok_iff map_eq_ok_iff)

namespace Draft

mutual
theorem eq_ofJson_of_complete : ∀ {d : Draft} {j : Json}, d.complete = .ok j → d = ofJson j
  | .null, _, h => by cases h; rfl
  | .bool _, _, h => by cases h; rfl
  | .number _, _, h => by cases h; rfl
  | .string _, _, h => by cases h; rfl
  | .array items flaw, j, h => by
    rw [complete] at h
    obtain ⟨js, hjs, rfl⟩ := map_eq_ok_iff.1 h
    obtain ⟨rfl, rfl⟩ := eq_ofItems_of_completeItems hjs
    rfl
  | .object members flaw, j, h => by
    rw [complete] at h
    obtain ⟨ms, hms, rfl⟩ := map_eq_ok_iff.1 h
    obtain ⟨rfl, rfl⟩ := eq_ofMembers_of_completeMembers hms
    rfl
  | .broken _, _, h => by cases h

theorem eq_ofItems_of_completeItems : ∀ {ds : List Draft} {flaw : Option Flaw} {js : List Json},
    completeItems ds flaw = .ok js → ds = ofItems js ∧ flaw = none
  | [], none, _, h => by cases h; exact ⟨rfl, rfl⟩
  | [], some _, _, h => by cases h
  | d :: ds, flaw, js, h => by
    rw [completeItems] at h
    obtain ⟨j, hj, h⟩ := bind_eq_ok_iff.1 h
    obtain ⟨is, his, heq⟩ := bind_eq_ok_iff.1 h
    cases heq
    obtain ⟨rfl, rfl⟩ := eq_ofItems_of_completeItems his
    rw [eq_ofJson_of_complete hj]
    exact ⟨rfl, rfl⟩

theorem eq_ofMembers_of_completeMembers : ∀ {ds : List (Text × Draft)} {flaw : Option Flaw} {ms : List (Text × Json)},
    completeMembers ds flaw = .ok ms → ds = ofMembers ms ∧ flaw = none
  | [], none, _, h => by cases h; exact ⟨rfl, rfl⟩
  | [], some _, _, h => by cases h
  | (name, d) :: ds, flaw, ms, h => by
    rw [completeMembers] at h
    obtain ⟨j, hj, h⟩ := bind_eq_ok_iff.1 h
    obtain ⟨ns, hns, heq⟩ := bind_eq_ok_iff.1 h
    cases heq
    obtain ⟨rfl, rfl⟩ := eq_ofMembers_of_completeMembers hns
    rw [eq_ofJson_of_complete hj]
    exact ⟨rfl, rfl⟩
end

/-- **A draft without a flaw is that of its value.** -/
theorem complete_eq_ok_iff {d : Draft} {j : Json} : d.complete = .ok j ↔ d = ofJson j :=
  ⟨eq_ofJson_of_complete, fun h => h ▸ complete_ofJson j⟩

end Draft

/-- **A text is a value** if it is read as that value, and has only white space behind it. -/
theorem parse_eq_ok_iff {t : Text} {j : Json} :
    parse t = .ok j ↔ (Draft.read t).1 = Draft.ofJson j ∧ Draft.flawAfter ((Draft.read t).2.getD []) = none := by
  rw [parse, bind_eq_ok_iff]
  simp only [Draft.complete_eq_ok_iff]
  constructor
  · rintro ⟨i, hi, h⟩
    split at h
    · cases h
    · rename_i hflaw
      cases h
      exact ⟨hi, hflaw⟩
  · rintro ⟨hj, hflaw⟩
    exact ⟨j, hj, by rw [hflaw]⟩

end Json
end SignalFormula
