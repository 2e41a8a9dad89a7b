import Mathlib.Data.List.Forall2
import SignalFormula.Text.Catalog
/-!
# Catalog — what is found under a name

Of entries that are put in one after the other, the last one under a name is found there (`Catalog.find?_ofList`).  What is
found under each name makes the catalog: two rows of entries in the order of their names that have related values under
each name, or none, are related entry by entry (`Increasing.forall₂`).
-/
namespace SignalFormula

variable {α β : Type}

theorem lookup_cons (name n : Text) (v : α) (rest : List (Text × α)) :
    List.lookup name ((n, v) :: rest) = if name = n then some v else rest.lookup name := by
  rw [List.lookup_cons]
  by_cases h : name = n
  · simp [h]
  · rw [beq_false_of_ne h, if_neg h]

theorem lookup_eq_none_iff {name : Text} {entries : List (Text × α)} :
    entries.lookup name = none ↔ name ∉ entries.map Prod.fst := by
  rw [List.lookup_eq_none_iff]
  constructor
  · intro h hmem
    obtain ⟨e, he, rfl⟩ := List.mem_map.1 hmem
    simpa using h e he
  · intro h e he
    have hne : name ≠ e.1 := fun heq => h (heq ▸ List.mem_map_of_mem he)
    simpa using hne

/-- What the last entry under a name holds. -/
def lastUnder? (name : Text) (entries : List (Text × α)) : Option α := entries.reverse.lookup name

theorem lastUnder?_cons (name n : Text) (v : α) (rest : List (Text × α)) :
    lastUnder? name ((n, v) :: rest) = (lastUnder? name rest).or (if name = n then some v else none) := by
  rw [lastUnder?, List.reverse_cons, List.lookup_append, lookup_cons]
  rfl

theorem lastUnder?_map (f : α → β) (name : Text) : ∀ entries : List (Text × α),
    lastUnder? name (entries.map fun e => (e.1, f e.2)) = (lastUnder? name entries).map f
  | [] => rfl
  | (n, v) :: rest => by
    rw [List.map_cons, lastUnder?_cons, lastUnder?_cons, lastUnder?_map f name rest]
    cases lastUnder? name rest with
    | some w => rfl
    | none => split <;> rfl

theorem lastUnder?_eq_none_iff {name : Text} {entries : List (Text × α)} :
    lastUnder? name entries = none ↔ name ∉ entries.map Prod.fst := by
  rw [lastUnder?, lookup_eq_none_iff, List.map_reverse, List.mem_reverse]

/-- **If no name comes twice, the last entry under a name is the first.** -/
theorem lastUnder?_eq_lookup {name : Text} : ∀ {entries : List (Text × α)}, (entries.map Prod.fst).Nodup →
    lastUnder? name entries = entries.lookup name
  | [], _ => rfl
  | (n, v) :: rest, h => by
    obtain ⟨hn, hrest⟩ := List.nodup_cons.1 h
    rw [lastUnder?_cons, lookup_cons]
    by_cases hname : name = n
    · subst hname
      rw [lastUnder?_eq_none_iff.2 hn, if_pos rfl, if_pos rfl]
      rfl
    · rw [if_neg hname, if_neg hname, lastUnder?_eq_lookup hrest, Option.or_none]

namespace Increasing

theorem nodup {entries : List (Text × α)} (h : Increasing entries) : (entries.map Prod.fst).Nodup :=
  List.pairwise_map.2 (h.imp fun {a b} hab (heq : a.1 = b.1) => List.lt_irrefl b.1 (heq ▸ hab))

theorem tail {e : Text × α} {rest : List (Text × α)} (h : Increasing (e :: rest)) : Increasing rest :=
  (List.pairwise_cons.1 h).2

theorem lt_of_mem {n : Text} {v : α} {rest : List (Text × α)} (h : Increasing ((n, v) :: rest)) {e : Text × α}
    (he : e ∈ rest) : n < e.1 := (List.pairwise_cons.1 h).1 e he

/-- Nothing is found under a name in front of the first one. -/
theorem lookup_eq_none {name : Text} {entries : List (Text × α)} (h : ∀ e ∈ entries, name < e.1) :
    entries.lookup name = none :=
  List.lookup_eq_none_iff.2 fun e he => by
    have hne : name ≠ e.1 := fun heq => List.lt_irrefl e.1 (heq ▸ h e he)
    simpa using hne

theorem lookup_eq_none_of_lt {name n : Text} {v : α} {rest : List (Text × α)} (h : Increasing ((n, v) :: rest))
    (hlt : name < n) : ((n, v) :: rest).lookup name = none :=
  lookup_eq_none fun e he => by
    rcases List.mem_cons.1 he with rfl | he
    · exact hlt
    · exact List.lt_trans hlt (h.lt_of_mem he)

/-- **What stands in a row is found there.** -/
theorem lookup_eq_some_iff {name : Text} {v : α} {entries : List (Text × α)} (h : Increasing entries) :
    entries.lookup name = some v ↔ (name, v) ∈ entries := by
  rw [List.lookup_eq_some_iff]
  constructor
  · rintro ⟨pre, post, rfl, -⟩
    exact List.mem_append_right _ List.mem_cons_self
  · intro hmem
    obtain ⟨pre, post, rfl⟩ := List.append_of_mem hmem
    refine ⟨pre, post, rfl, fun e he => ?_⟩
    have hlt : e.1 < name := (List.pairwise_append.1 h).2.2 e he _ List.mem_cons_self
    have hne : name ≠ e.1 := fun heq => List.lt_irrefl name (heq ▸ hlt)
    simpa using hne

/-- **Related under each name, related entry by entry.** -/
theorem forall₂ {R : α → β → Prop} : ∀ {as : List (Text × α)} {bs : List (Text × β)}, Increasing as → Increasing bs →
    (∀ name, Option.Rel R (as.lookup name) (bs.lookup name)) →
      List.Forall₂ (fun a b => a.1 = b.1 ∧ R a.2 b.2) as bs
  | [], [], _, _, _ => .nil
  | [], (n, b) :: bs, _, _, h => by
    have hn := h n
    rw [List.lookup_cons_self] at hn
    cases hn
  | (n, a) :: as, [], _, _, h => by
    have hn := h n
    rw [List.lookup_cons_self] at hn
    cases hn
  | (n, a) :: as, (m, b) :: bs, ha, hb, h => by
    -- the lesser of two different first names would be found on its own side only
    have hle : ¬ n < m := fun hlt => by
      have hn := h n
      rw [List.lookup_cons_self, lookup_eq_none_of_lt hb hlt] at hn
      cases hn
    have hge : ¬ m < n := fun hlt => by
      have hm := h m
      rw [List.lookup_cons_self, lookup_eq_none_of_lt ha hlt] at hm
      cases hm
    obtain rfl : n = m := List.le_antisymm (List.not_lt.1 hge) (List.not_lt.1 hle)
    have hn := h n
    rw [List.lookup_cons_self, List.lookup_cons_self] at hn
    refine .cons ⟨rfl, Option.rel_some_some.1 hn⟩ (forall₂ ha.tail hb.tail fun name => ?_)
    by_cases hname : name = n
    · subst hname
      rw [lookup_eq_none fun e he => ha.lt_of_mem he, lookup_eq_none fun e he => hb.lt_of_mem he]
      exact .none
    · have hrest := h name
      rwa [lookup_cons, lookup_cons, if_neg hname, if_neg hname] at hrest

end Increasing

section rows

variable {R : α → β → Prop} {as : List (Text × α)} {bs : List (Text × β)}

/-- Related entry by entry, related under each name. -/
theorem rel_lookup_of_forall₂ (h : List.Forall₂ (fun a b => a.1 = b.1 ∧ R a.2 b.2) as bs) (name : Text) :
    Option.Rel R (as.lookup name) (bs.lookup name) := by
  induction h with
  | nil => exact .none
  | @cons a b as bs hab _ ih =>
    obtain ⟨n, v⟩ := a
    obtain ⟨m, w⟩ := b
    obtain ⟨rfl, hvw⟩ : n = m ∧ R v w := hab
    rw [lookup_cons, lookup_cons]
    split
    · exact .some hvw
    · exact ih

theorem names_eq_of_forall₂ (h : List.Forall₂ (fun a b => a.1 = b.1 ∧ R a.2 b.2) as bs) :
    as.map Prod.fst = bs.map Prod.fst := by
  rw [← List.forall₂_eq_eq_eq, List.forall₂_map_left_iff, List.forall₂_map_right_iff]
  exact h.imp fun a b hab => hab.1

theorem Increasing.of_forall₂ (h : List.Forall₂ (fun a b => a.1 = b.1 ∧ R a.2 b.2) as bs) (has : Increasing as) :
    Increasing bs := by
  rw [Increasing, ← List.pairwise_map (f := Prod.fst) (R := (· < ·))] at has ⊢
  rwa [← names_eq_of_forall₂ h]

end rows

namespace Catalog

theorem lookup_insertInto (name : Text) (value : α) (n : Text) : ∀ {entries : List (Text × α)}, Increasing entries →
    (insertInto name value entries).lookup n = if n = name then some value else entries.lookup n
  | [], _ => lookup_cons n name value []
  | (m, v) :: rest, h => by
    rw [insertInto]
    split
    · rw [lookup_cons]
    · rename_i hlt
      split
      · rename_i heq
        subst heq
        rw [lookup_cons, lookup_cons]
        split <;> rfl
      · rename_i hne
        rw [lookup_cons, lookup_insertInto name value n h.tail, lookup_cons]
        by_cases hn : n = m
        · have hmn : ¬ m = name := fun h => hne h.symm
          simp [hn, hmn]
        · simp [hn]

theorem find?_insert (c : Catalog α) (name : Text) (value : α) (n : Text) :
    (c.insert name value).find? n = if n = name then some value else c.find? n :=
  lookup_insertInto name value n c.increasing

/-- **The last entry under a name is found there.** -/
theorem find?_ofList (entries : List (Text × α)) (name : Text) :
    (ofList entries).find? name = lastUnder? name entries := by
  have hfold : ∀ (es : List (Text × α)) (c : Catalog α), (es.foldl (fun c e => c.insert e.1 e.2) c).find? name =
      (lastUnder? name es).or (c.find? name) := fun es => by
    induction es with
    | nil => exact fun c => rfl
    | cons e es ih =>
      intro c
      rw [List.foldl_cons, ih, find?_insert, lastUnder?_cons]
      cases lastUnder? name es with
      | some v => rfl
      | none => split <;> rfl
  rw [ofList, hfold]
  cases lastUnder? name entries <;> rfl

theorem ext_find? {c d : Catalog α} (h : ∀ name, c.find? name = d.find? name) : c = d := by
  have hrel : ∀ name, Option.Rel Eq (c.find? name) (d.find? name) := fun name => by
    rw [h name]
    cases d.find? name with
    | none => exact .none
    | some v => exact .some rfl
  have hentries : c.entries = d.entries := by
    have hall := Increasing.forall₂ c.increasing d.increasing hrel
    rw [← List.forall₂_eq_eq_eq]
    exact hall.imp fun a b hab => Prod.ext hab.1 hab.2
  cases c
  cases d
  cases hentries
  rfl

theorem ofList_entries {entries : List (Text × α)} (h : Increasing entries) : ofList entries = ⟨entries, h⟩ :=
  ext_find? fun name => by
    rw [find?_ofList, lastUnder?_eq_lookup h.nodup]
    rfl

end Catalog

end SignalFormula
