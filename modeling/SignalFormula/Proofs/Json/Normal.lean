import SignalFormula.Json.Value
import SignalFormula.Proofs.Catalog
/-!
# Normal — what the normal form of a value keeps

The normal form of a value is that of its parts, and under each name of an object it has the last member
(`Json.lastUnder?_normal`).  A string, a number and an array of strings are the normal forms of themselves alone.
-/
namespace SignalFormula
namespace Json

theorem normalItems_eq_map : ∀ items : List Json, normalItems items = items.map normal
  | [] => rfl
  | j :: rest => by rw [normalItems, normalItems_eq_map rest, List.map_cons]

theorem normalMembers_eq_map : ∀ ms : List (Text × Json), normalMembers ms = ms.map fun m => (m.1, m.2.normal)
  | [] => rfl
  | (name, j) :: rest => by rw [normalMembers, normalMembers_eq_map rest, List.map_cons]

theorem normal_eq_string_iff {j : Json} {t : Text} : j.normal = .string t ↔ j = .string t := by
  cases j <;> simp [normal]

theorem normal_eq_null_iff {j : Json} : j.normal = .null ↔ j = .null := by
  cases j <;> simp [normal]

theorem normal_eq_number_iff {j : Json} {n : Number} : j.normal = .number n ↔ j = .number n := by
  cases j <;> simp [normal]

theorem map_normal_eq_map_string_iff : ∀ {items : List Json} {ts : List Text},
    items.map normal = ts.map .string ↔ items = ts.map .string
  | [], ts => by cases ts <;> simp
  | j :: items, ts => by
    cases ts with
    | nil => simp
    | cons t ts =>
      rw [List.map_cons, List.map_cons, List.cons.injEq, List.cons.injEq, normal_eq_string_iff,
        map_normal_eq_map_string_iff]

theorem normal_eq_texts_iff {j : Json} {ts : List Text} :
    j.normal = .array (ts.map .string) ↔ j = .array (ts.map .string) := by
  cases j <;> simp [normal, normalItems_eq_map, map_normal_eq_map_string_iff]

/-- **The normal form keeps the last member under a name.** -/
theorem lookup_normal (ms : List (Text × Json)) (name : Text) :
    (Catalog.ofList (normalMembers ms)).entries.lookup name = (lastUnder? name ms).map normal := by
  rw [← Catalog.find?, Catalog.find?_ofList, normalMembers_eq_map, lastUnder?_map]

theorem lastUnder?_normal (ms : List (Text × Json)) (name : Text) :
    lastUnder? name (Catalog.ofList (normalMembers ms)).entries = (lastUnder? name ms).map normal := by
  rw [lastUnder?_eq_lookup (Catalog.increasing _).nodup, lookup_normal]

theorem mem_names_normal (ms : List (Text × Json)) (name : Text) :
    name ∈ (Catalog.ofList (normalMembers ms)).entries.map Prod.fst ↔ name ∈ ms.map Prod.fst := by
  rw [← not_iff_not, ← lastUnder?_eq_none_iff, ← lastUnder?_eq_none_iff, lastUnder?_normal, Option.map_eq_none_iff]

end Json

end SignalFormula
