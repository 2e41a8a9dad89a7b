import SignalFormula.Text.Basic
/-!
# Catalog — entries under names, in the order of the names

Names are ordered character by character, by code point, which is also the order of their bytes in UTF-8.  A catalog
has at most one entry under a name; the entry that was put in last stands.
-/
namespace SignalFormula

def Increasing {α : Type} (entries : List (Text × α)) : Prop := entries.Pairwise fun a b => a.1 < b.1

structure Catalog (α : Type) where
  entries : List (Text × α)
  increasing : Increasing entries

namespace Catalog

variable {α : Type}

/-- The entries with one more put in its place; one under the same name goes. -/
def insertInto (name : Text) (value : α) : List (Text × α) → List (Text × α)
  | [] => [(name, value)]
  | (n, v) :: rest =>
    if name < n then (name, value) :: (n, v) :: rest
    else if name = n then (name, value) :: rest
    else (n, v) :: insertInto name value rest

theorem fst_of_mem_insertInto {name : Text} {value : α} {e : Text × α} :
    ∀ {entries : List (Text × α)}, e ∈ insertInto name value entries → e = (name, value) ∨ e ∈ entries
  | [], h => by simpa [insertInto] using h
  | (n, v) :: rest, h => by
    rw [insertInto] at h
    split at h
    · simpa using h
    · split at h
      · rcases List.mem_cons.1 h with h | h
        · exact .inl h
        · exact .inr (List.mem_cons_of_mem _ h)
      · rcases List.mem_cons.1 h with h | h
        · exact .inr (by simp [h])
        · exact (fst_of_mem_insertInto h).imp id (List.mem_cons_of_mem _)

/-- **Putting in keeps the order.** -/
theorem increasing_insertInto (name : Text) (value : α) :
    ∀ {entries : List (Text × α)}, Increasing entries → Increasing (insertInto name value entries)
  | [], _ => List.pairwise_singleton _ _
  | (n, v) :: rest, h => by
    obtain ⟨hn, hr⟩ := List.pairwise_cons.1 h
    rw [insertInto]
    split
    · rename_i hlt
      refine List.pairwise_cons.2 ⟨fun e he => ?_, h⟩
      rcases List.mem_cons.1 he with rfl | he
      · exact hlt
      · exact List.lt_trans hlt (hn e he)
    · split
      · rename_i heq
        subst heq
        exact List.pairwise_cons.2 ⟨hn, hr⟩
      · rename_i hnlt hne
        refine List.pairwise_cons.2 ⟨fun e he => ?_, increasing_insertInto name value hr⟩
        rcases fst_of_mem_insertInto he with rfl | he
        · exact (List.le_iff_lt_or_eq.1 (List.not_lt.1 hnlt)).resolve_right fun h => hne h.symm
        · exact hn e he

def empty : Catalog α := ⟨[], List.Pairwise.nil⟩

def insert (c : Catalog α) (name : Text) (value : α) : Catalog α :=
  ⟨insertInto name value c.entries, increasing_insertInto name value c.increasing⟩

/-- The catalog of entries that are put in one after the other. -/
def ofList (entries : List (Text × α)) : Catalog α := entries.foldl (fun c e => c.insert e.1 e.2) empty

def find? (c : Catalog α) (name : Text) : Option α := c.entries.lookup name

def size (c : Catalog α) : Nat := c.entries.length

end Catalog

end SignalFormula
