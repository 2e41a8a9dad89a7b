import SignalFormula.Proofs.Json.Whole
import SignalFormula.Proofs.Spec.Format
/-!
# Readers — the two readers of a spec agree

One reader takes a spec out of a text as it goes and stops at the first thing that is wrong; the other one reads the whole
text to a value first, and takes the value in its normal form.  What the first one accepts has no flaw (`exists_of_read`), so
both accept texts that are values, and these by their shape: the first one a value with the fields, none of them twice
(`ofText_eq_ok_iff`), the second one an object with the fields (`SpecFile.ofText_eq_single_iff`).
-/
namespace SignalFormula
namespace Spec

open Json (Draft Flaw)
open Result (bind_eq_ok_iff)

/-! ## What is read has no flaw -/

theorem eq_of_ifWhole {α : Type} {flaw : Option Flaw} {a b : α} (h : ifWhole flaw a = .ok b) : flaw = none ∧ a = b := by
  cases flaw with
  | none => cases h; exact ⟨rfl, rfl⟩
  | some f => cases h

theorem eq_ofJson_of_readText {d : Draft} {t : Text} (h : readText d = .ok t) : d = Draft.ofJson (.string t) := by
  cases d <;> cases h
  rfl

theorem eq_ofItems_of_readTexts : ∀ {ds : List Draft} {flaw : Option Flaw} {ts : List Text},
    readTexts ds flaw = .ok ts → ds = Draft.ofItems (ts.map .string) ∧ flaw = none
  | [], flaw, ts, h => by
    obtain ⟨hflaw, rfl⟩ := eq_of_ifWhole h
    exact ⟨rfl, hflaw⟩
  | d :: ds, flaw, ts, h => by
    rw [readTexts] at h
    obtain ⟨t, ht, h⟩ := bind_eq_ok_iff.1 h
    obtain ⟨us, hus, heq⟩ := bind_eq_ok_iff.1 h
    cases heq
    obtain ⟨rfl, rfl⟩ := eq_ofItems_of_readTexts hus
    rw [eq_ofJson_of_readText ht]
    exact ⟨rfl, rfl⟩

theorem exists_of_readInputs {d : Draft} {ts : List Text} (h : readInputs d = .ok ts) : ∃ j, d = Draft.ofJson j := by
  cases d with
  | array items flaw =>
    obtain ⟨rfl, rfl⟩ := eq_ofItems_of_readTexts h
    exact ⟨.array (ts.map .string), rfl⟩
  | _ => cases h

theorem exists_of_readSeed {d : Draft} {seed : Option UInt16} (h : readSeed d = .ok seed) : ∃ j, d = Draft.ofJson j := by
  cases d with
  | null => exact ⟨.null, rfl⟩
  | number n => exact ⟨.number n, rfl⟩
  | _ => cases h

theorem exists_of_readItems {surplus : Nat → ReadError} {items : List Draft} {flaw : Option Flaw} {s : Spec}
    (h : readItems surplus items flaw = .ok s) : (∃ js, items = Draft.ofItems js) ∧ flaw = none := by
  match items with
  | [] =>
    obtain ⟨u, -, h⟩ := bind_eq_ok_iff.1 h
    cases h
  | [e] =>
    obtain ⟨t, ht, h⟩ := bind_eq_ok_iff.1 h
    rw [eq_ofJson_of_readText ht]
    exact ⟨⟨[.string t], rfl⟩, (eq_of_ifWhole h).1⟩
  | [e, i] =>
    obtain ⟨t, ht, h⟩ := bind_eq_ok_iff.1 h
    obtain ⟨ts, hts, hend⟩ := bind_eq_ok_iff.1 h
    obtain ⟨j, rfl⟩ := exists_of_readInputs hts
    rw [eq_ofJson_of_readText ht]
    exact ⟨⟨[.string t, j], rfl⟩, (eq_of_ifWhole hend).1⟩
  | e :: i :: r :: rest =>
    obtain ⟨t, ht, h⟩ := bind_eq_ok_iff.1 h
    obtain ⟨ts, hts, h⟩ := bind_eq_ok_iff.1 h
    obtain ⟨seed, hseed, hend⟩ := bind_eq_ok_iff.1 h
    obtain ⟨j, rfl⟩ := exists_of_readInputs hts
    obtain ⟨k, rfl⟩ := exists_of_readSeed hseed
    rw [eq_ofJson_of_readText ht]
    cases rest with
    | nil => exact ⟨⟨[.string t, j, k], rfl⟩, (eq_of_ifWhole hend).1⟩
    | cons d ds => cases hend

/-- A field that is read was free, and its member could be read. -/
theorem exists_of_field {α : Type} {filled : Bool} {e : ReadError} {r : Except ReadError α}
    {next : α → Except ReadError Spec} {s : Spec} (h : (if filled then .error e else r >>= next) = .ok s) :
    ∃ a, r = .ok a ∧ next a = .ok s := by
  cases filled with
  | true => cases h
  | false => exact bind_eq_ok_iff.1 h

theorem exists_of_readMembers {s : Spec} : ∀ {ds : List (Text × Draft)} {f : Fields} {flaw : Option Flaw},
    readMembers f ds flaw = .ok s → (∃ ms, ds = Draft.ofMembers ms) ∧ flaw = none
  | [], f, flaw, h => by
    rw [readMembers] at h
    obtain ⟨u, hu, -⟩ := bind_eq_ok_iff.1 h
    exact ⟨⟨[], rfl⟩, (eq_of_ifWhole hu).1⟩
  | (name, d) :: ds, f, flaw, h => by
    -- whichever field it is, its member is whole and the others are read after it
    have hmember : (∃ j, d = Draft.ofJson j) ∧ ∃ g, readMembers g ds flaw = .ok s := by
      rw [readMembers] at h
      split at h
      · obtain ⟨t, ht, h⟩ := exists_of_field h
        exact ⟨⟨_, eq_ofJson_of_readText ht⟩, _, h⟩
      · split at h
        · obtain ⟨ts, hts, h⟩ := exists_of_field h
          exact ⟨exists_of_readInputs hts, _, h⟩
        · split at h
          · obtain ⟨seed, hseed, h⟩ := exists_of_field h
            exact ⟨exists_of_readSeed hseed, _, h⟩
          · cases h
    obtain ⟨⟨j, rfl⟩, g, hg⟩ := hmember
    obtain ⟨⟨ms, rfl⟩, rfl⟩ := exists_of_readMembers hg
    exact ⟨⟨(name, j) :: ms, rfl⟩, rfl⟩

/-- **What is read to a spec has no flaw.** -/
theorem exists_of_read {surplus : Nat → ReadError} {d : Draft} {s : Spec} (h : read surplus d = .ok s) :
    ∃ j, d = Draft.ofJson j := by
  cases d with
  | array items flaw =>
    obtain ⟨⟨js, rfl⟩, rfl⟩ := exists_of_readItems h
    exact ⟨.array js, rfl⟩
  | object members flaw =>
    obtain ⟨⟨ms, rfl⟩, rfl⟩ := exists_of_readMembers h
    exact ⟨.object ms, rfl⟩
  | _ => cases h

/-- **The texts that are specs**: values with the fields in order or by name, and then no name comes twice. -/
theorem ofText_eq_ok_iff {t : Text} {s : Spec} : ofText t = .ok s ↔ ∃ j, Json.parse t = .ok j ∧
    ((∃ items, j = .array items ∧ InItems items s) ∨
      ∃ ms, j = .object ms ∧ (ms.map Prod.fst).Nodup ∧ InMembers ms s) := by
  simp only [Json.parse_eq_ok_iff, ← @read_eq_ok_iff fun _ => .flawed .malformed]
  rw [ofText, bind_eq_ok_iff]
  constructor
  · rintro ⟨s', hread, h⟩
    obtain ⟨hflaw, rfl⟩ := eq_of_ifWhole h
    obtain ⟨j, hj⟩ := exists_of_read hread
    exact ⟨j, ⟨hj, hflaw⟩, hj ▸ hread⟩
  · rintro ⟨j, ⟨hj, hflaw⟩, hread⟩
    exact ⟨s, by rw [hj]; exact hread, by rw [hflaw]; rfl⟩

end Spec

namespace SpecFile

open Spec (InMembers)

/-- **The texts that are one spec**: objects with the fields by name, of which the last one of each name counts. -/
theorem ofText_eq_single_iff {t : Text} {s : Spec} :
    ofText t = .ok (.single s) ↔ ∃ ms, Json.parse t = .ok (.object ms) ∧ InMembers ms s := by
  rw [ofText]
  cases hparse : Json.parse t with
  | error flaw => simp
  | ok j => simp [ofJson_normal_eq_single_iff]

/-- **The two readers of a spec agree** on every text of an object in which no name comes twice; and what the first one
accepts is such a text, or that of an array. -/
theorem ofText_agrees :
    (∀ (t : Text) (ms : List (Text × Json)) (s : Spec), Json.parse t = .ok (.object ms) → (ms.map Prod.fst).Nodup →
      (Spec.ofText t = .ok s ↔ ofText t = .ok (.single s))) ∧
    ∀ (t : Text) (s : Spec), Spec.ofText t = .ok s → ∃ j, Json.parse t = .ok j ∧
      ∀ ms, j = .object ms → (ms.map Prod.fst).Nodup ∧ ofText t = .ok (.single s) := by
  simp only [Spec.ofText_eq_ok_iff, ofText_eq_single_iff]
  refine ⟨fun t ms s hparse hnodup => ⟨?_, ?_⟩, ?_⟩
  · rintro ⟨j, hj, h⟩
    obtain rfl : .object ms = j := Except.ok.inj (hparse.symm.trans hj)
    obtain ⟨items, hitems, -⟩ | ⟨ns, hns, -, h⟩ := h
    · cases hitems
    · cases hns
      exact ⟨ms, hparse, h⟩
  · rintro ⟨ns, hns, h⟩
    obtain rfl : ms = ns := Json.object.inj (Except.ok.inj (hparse.symm.trans hns))
    exact ⟨_, hparse, .inr ⟨ms, rfl, hnodup, h⟩⟩
  · rintro t s ⟨j, hj, h⟩
    refine ⟨j, hj, ?_⟩
    rintro ms rfl
    obtain ⟨items, hitems, -⟩ | ⟨ns, hns, hnodup, h⟩ := h
    · cases hitems
    · cases hns
      exact ⟨hnodup, ms, hj, h⟩

/-- A spec whose members are in another order, with an escape in a name. -/
def reordered : Text :=
  "\x7b\"seed\": null, \"e\\u0078pression\": \"x\", \"inputs\": [\"x\"]\x7d".toList

def twoExpressions : Text := "\x7b\"expression\": \"y\", \"expression\": \"x\"\x7d".toList

/-- Where a name comes twice, the readers part. -/
theorem ofText_agrees_reordered :
    let members : List (Text × Json) :=
      [("seed".toList, .null), ("expression".toList, .string ['x']), ("inputs".toList, .array [.string ['x']])]
    let s : Spec := ⟨['x'], [['x']], none⟩
    Json.parse reordered = .ok (.object members) ∧ (members.map Prod.fst).Nodup ∧ Spec.ofText reordered = .ok s ∧
      ofText reordered = .ok (.single s) ∧
      Spec.ofText twoExpressions = .error (.duplicateField "expression".toList) ∧
      ofText twoExpressions = .ok (.single ⟨['x'], [], none⟩) := by
  intro members s
  have hparse : Json.parse reordered = .ok (.object members) := by cbv
  have hnodup : (members.map Prod.fst).Nodup := by decide
  have hspec : Spec.ofText reordered = .ok s := by decide +kernel
  have hfile : ofText reordered = .ok (.single s) := (ofText_agrees.1 reordered members s hparse hnodup).1 hspec
  obtain ⟨j, hj, hsingle⟩ := ofText_agrees.2 reordered s hspec
  obtain rfl : .object members = j := Except.ok.inj (hparse.symm.trans hj)
  have htwice : Json.parse twoExpressions =
      .ok (.object [("expression".toList, .string ['y']), ("expression".toList, .string ['x'])]) := by cbv
  exact ⟨hparse, (hsingle members rfl).1, hspec, hfile, by decide +kernel,
    ofText_eq_single_iff.2 ⟨_, htwice, rfl, .missing, .missing, by decide⟩⟩

end SpecFile
end SignalFormula
