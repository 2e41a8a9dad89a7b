import SignalFormula.Proofs.Catalog
import SignalFormula.Proofs.Result
import SignalFormula.Spec.Reader
/-!
# Fields — what the fields of a spec are read from

A reader takes the fields of a spec one after the other, from the items of an array or the members of an object.  Here the
values are whole, and each field is what a certain value holds: the item in its place (`readItems_eq_ok_iff`) or the member
of its name, which comes once (`readMembers_eq_ok_iff`).
-/
namespace SignalFormula
namespace Spec

open Json (Draft)
open Result (bind_eq_ok_iff)

/-! ## The three fields -/

/-- The member or item for the inputs holds these texts; without it there are none. -/
inductive HoldsInputs : Option Json → List Text → Prop where
  | missing : HoldsInputs none []
  | texts (ts : List Text) : HoldsInputs (some (.array (ts.map .string))) ts

/-- The member or item for the seed holds this one, or none. -/
inductive HoldsSeed : Option Json → Option UInt16 → Prop where
  | missing : HoldsSeed none none
  | null : HoldsSeed (some .null) none
  | register (seed : UInt16) : HoldsSeed (some (.number (.integer seed.toNat))) (some seed)

theorem readText_eq_ok_iff {j : Json} {t : Text} : readText (Draft.ofJson j) = .ok t ↔ j = .string t := by
  cases j with
  | string u => simp [Draft.ofJson, readText]
  | _ => simp [Draft.ofJson, readText]

theorem readTexts_eq_ok_iff : ∀ {items : List Json} {ts : List Text},
    readTexts (Draft.ofItems items) none = .ok ts ↔ items = ts.map .string
  | [], ts => by
    cases ts <;> simp [Draft.ofItems, readTexts, ifWhole]
  | j :: js, ts => by
    rw [Draft.ofItems, readTexts, bind_eq_ok_iff]
    constructor
    · rintro ⟨t, ht, hts⟩
      obtain ⟨us, hus, heq⟩ := bind_eq_ok_iff.1 hts
      cases heq
      rw [readText_eq_ok_iff.1 ht, readTexts_eq_ok_iff.1 hus, List.map_cons]
    · intro h
      cases ts with
      | nil => cases h
      | cons t ts =>
        obtain ⟨hj, hjs⟩ := List.cons.inj h
        exact ⟨t, readText_eq_ok_iff.2 hj, bind_eq_ok_iff.2 ⟨ts, readTexts_eq_ok_iff.2 hjs, rfl⟩⟩

theorem readInputs_eq_ok_iff {j : Json} {ts : List Text} :
    readInputs (Draft.ofJson j) = .ok ts ↔ HoldsInputs (some j) ts := by
  have hholds : HoldsInputs (some j) ts ↔ j = .array (ts.map .string) :=
    ⟨fun h => by cases h; rfl, fun h => by rw [h]; exact .texts ts⟩
  rw [hholds]
  cases j with
  | array items => simp [Draft.ofJson, readInputs, readTexts_eq_ok_iff]
  | _ => simp [Draft.ofJson, readInputs]

theorem readSeed_eq_ok_iff {j : Json} {seed : Option UInt16} :
    readSeed (Draft.ofJson j) = .ok seed ↔ HoldsSeed (some j) seed := by
  constructor
  · intro h
    cases j with
    | null => cases h; exact .null
    | number n =>
      cases n with
      | integer i =>
        simp only [Draft.ofJson, readSeed, readRegister] at h
        split at h
        · rename_i hi
          cases h
          have hnat : ((UInt16.ofNat i.toNat).toNat : Int) = i := by
            rw [UInt16.toNat_ofNat_of_lt' (by simp only [UInt16.size]; omega)]
            omega
          have hholds := HoldsSeed.register (UInt16.ofNat i.toNat)
          rwa [hnat] at hholds
        · cases h
      | decimal x => cases h
    | _ => cases h
  · intro h
    cases h with
    | null => rfl
    | register seed =>
      have hlt : (seed.toNat : Int) < 65536 := Int.ofNat_lt.2 seed.toNat_lt
      simp only [Draft.ofJson, readSeed, readRegister]
      rw [if_pos ⟨Int.natCast_nonneg _, hlt⟩, Int.toNat_natCast, UInt16.ofNat_toNat]
      rfl

/-! ## Items -/

/-- The items are the fields in order, of which the last two can be missing. -/
structure InItems (items : List Json) (s : Spec) : Prop where
  expression_eq : items[0]? = some (.string s.expression)
  inputs : HoldsInputs items[1]? s.inputs
  seed : HoldsSeed items[2]? s.seed
  length_le : items.length ≤ 3

theorem readItems_eq_ok_iff {surplus : Nat → ReadError} {items : List Json} {s : Spec} :
    readItems surplus (Draft.ofItems items) none = .ok s ↔ InItems items s := by
  constructor
  · intro h
    match items with
    | [] => cases h
    | [e] =>
      obtain ⟨t, ht, heq⟩ := bind_eq_ok_iff.1 h
      cases heq
      exact ⟨congrArg some (readText_eq_ok_iff.1 ht), .missing, .missing, by simp⟩
    | [e, i] =>
      obtain ⟨t, ht, h⟩ := bind_eq_ok_iff.1 h
      obtain ⟨ts, hts, heq⟩ := bind_eq_ok_iff.1 h
      cases heq
      exact ⟨congrArg some (readText_eq_ok_iff.1 ht), readInputs_eq_ok_iff.1 hts, .missing, by simp⟩
    | e :: i :: r :: rest =>
      obtain ⟨t, ht, h⟩ := bind_eq_ok_iff.1 h
      obtain ⟨ts, hts, h⟩ := bind_eq_ok_iff.1 h
      obtain ⟨seed, hseed, h⟩ := bind_eq_ok_iff.1 h
      cases rest with
      | nil =>
        cases h
        exact ⟨congrArg some (readText_eq_ok_iff.1 ht), readInputs_eq_ok_iff.1 hts, readSeed_eq_ok_iff.1 hseed, by simp⟩
      | cons j js => cases h
  · rintro ⟨hexpression, hinputs, hseed, hlength⟩
    obtain ⟨expression, inputs, seed⟩ := s
    match items with
    | [] => cases hexpression
    | [e] =>
      cases hinputs
      cases hseed
      exact bind_eq_ok_iff.2 ⟨_, readText_eq_ok_iff.2 (Option.some.inj hexpression), rfl⟩
    | [e, i] =>
      cases hseed
      exact bind_eq_ok_iff.2 ⟨_, readText_eq_ok_iff.2 (Option.some.inj hexpression),
        bind_eq_ok_iff.2 ⟨_, readInputs_eq_ok_iff.2 hinputs, rfl⟩⟩
    | [e, i, r] =>
      exact bind_eq_ok_iff.2 ⟨_, readText_eq_ok_iff.2 (Option.some.inj hexpression),
        bind_eq_ok_iff.2 ⟨_, readInputs_eq_ok_iff.2 hinputs, bind_eq_ok_iff.2 ⟨_, readSeed_eq_ok_iff.2 hseed, rfl⟩⟩⟩
    | _ :: _ :: _ :: _ :: _ => simp only [List.length_cons] at hlength; omega

/-! ## Members -/

def fieldNames : List Text := [expressionField, inputsField, seedField]

section slots

variable {α : Type} (read : Json → Except ReadError α) {pre : List (Text × Json)} {name : Text} {j : Json}
  {slot : Option α}

/-- A field is what the member of its name holds, if there is one. -/
def Slot (ms : List (Text × Json)) (name : Text) (slot : Option α) : Prop :=
  Option.Rel (fun j a => read j = .ok a) (ms.lookup name) slot

variable {read}

theorem Slot.lookup_eq_none (h : Slot read pre name none) : pre.lookup name = none := by
  rw [Slot] at h
  cases hlookup : pre.lookup name with
  | none => rfl
  | some i => rw [hlookup] at h; cases h

theorem Slot.mem_names {a : α} (h : Slot read pre name (some a)) : name ∈ pre.map Prod.fst := by
  by_contra hmem
  rw [Slot, lookup_eq_none_iff.2 hmem] at h
  cases h

theorem Slot.unique {slot' : Option α} (h : Slot read pre name slot) (h' : Slot read pre name slot') : slot = slot' := by
  rw [Slot] at h h'
  cases hlookup : pre.lookup name with
  | none => rw [hlookup] at h h'; cases h; cases h'; rfl
  | some i =>
    rw [hlookup] at h h'
    cases h with
    | some h =>
      cases h' with
      | some h' => rw [Except.ok.inj (h.symm.trans h')]

theorem Slot.fill (h : Slot read pre name none) {a : α} (ha : read j = .ok a) :
    Slot read (pre ++ [(name, j)]) name (some a) := by
  rw [Slot, List.lookup_append, h.lookup_eq_none, List.lookup_cons_self]
  exact .some ha

theorem Slot.keep {n : Text} (h : Slot read pre n slot) (hn : n ≠ name) : Slot read (pre ++ [(name, j)]) n slot := by
  rwa [Slot, List.lookup_append, lookup_cons, if_neg hn, List.lookup_nil, Option.or_none]

/-- **One member**: it is an error if its field is filled already or it cannot be read, and then the names are not
different or the field is not what its member holds. -/
theorem Slot.eq_ok_iff (h : Slot read pre name slot) (post : List (Text × Json)) {next : α → Except ReadError Spec}
    {e : ReadError} {s : Spec} {P : Prop} (hwhole : P → ((pre ++ (name, j) :: post).map Prod.fst).Nodup ∧
      ∃ after, Slot read (pre ++ (name, j) :: post) name after)
    (hnext : Slot read pre name none → ∀ a, read j = .ok a → (next a = .ok s ↔ P)) :
    (if slot.isSome then .error e else do let a ← read j; next a) = .ok s ↔ P := by
  cases slot with
  | some b =>
    -- a member that filled the field has the same name
    have hnot : ¬ P := fun hP => by
      have hnodup := (hwhole hP).1
      rw [List.map_append, List.map_cons] at hnodup
      exact (List.nodup_append.1 hnodup).2.2 name h.mem_names name List.mem_cons_self rfl
    simp [hnot]
  | none =>
    simp only [Option.isSome_none, Bool.false_eq_true, if_false]
    rw [bind_eq_ok_iff]
    constructor
    · rintro ⟨a, ha, hs⟩
      exact (hnext h a ha).1 hs
    · intro hP
      obtain ⟨-, after, hafter⟩ := hwhole hP
      rw [Slot, List.lookup_append, h.lookup_eq_none, List.lookup_cons_self] at hafter
      cases hafter with
      | some ha => exact ⟨_, ha, (hnext h _ ha).2 hP⟩

end slots

/-- Members that have been read so far, and the fields that they gave: no name came twice or is unknown, and each field
is what the member of its name holds. -/
structure Gives (ms : List (Text × Json)) (f : Fields) : Prop where
  nodup : (ms.map Prod.fst).Nodup
  known : ∀ m ∈ ms, m.1 ∈ fieldNames
  expression : Slot (fun j => readText (Draft.ofJson j)) ms expressionField f.expression
  inputs : Slot (fun j => readInputs (Draft.ofJson j)) ms inputsField f.inputs
  seed : Slot (fun j => readSeed (Draft.ofJson j)) ms seedField f.seed

namespace Gives

theorem nil : Gives [] {} := ⟨List.nodup_nil, by simp, .none, .none, .none⟩

theorem unique {ms : List (Text × Json)} {f g : Fields} (hf : Gives ms f) (hg : Gives ms g) : f = g := by
  cases f
  cases g
  rw [Fields.mk.injEq]
  exact ⟨hf.expression.unique hg.expression, hf.inputs.unique hg.inputs, hf.seed.unique hg.seed⟩

section

variable {pre : List (Text × Json)} {f : Fields} {name : Text} (h : Gives pre f) (hnone : pre.lookup name = none)
  (j : Json)

include h

include hnone in
theorem nodup_append : ((pre ++ [(name, j)]).map Prod.fst).Nodup := by
  have hnew : name ∉ pre.map Prod.fst := lookup_eq_none_iff.1 hnone
  rw [List.map_append, List.map_singleton]
  refine List.nodup_append.2 ⟨h.nodup, List.pairwise_singleton _ _, fun a ha b hb hab => hnew ?_⟩
  have hname : a = name := hab.trans (List.mem_singleton.1 hb)
  exact hname ▸ ha

theorem known_append (hname : name ∈ fieldNames) : ∀ m ∈ pre ++ [(name, j)], m.1 ∈ fieldNames := by
  intro m hm
  rcases List.mem_append.1 hm with hm | hm
  · exact h.known m hm
  · rw [List.mem_singleton.1 hm]; exact hname

end

end Gives

/-- **What members are read as**, after those that gave the fields so far. -/
theorem readMembers_eq_ok_iff {s : Spec} : ∀ {ms pre : List (Text × Json)} {f : Fields}, Gives pre f →
    (readMembers f (Draft.ofMembers ms) none = .ok s ↔ ∃ g, Gives (pre ++ ms) g ∧ g.finish = .ok s)
  | [], pre, f, h => by
    rw [List.append_nil]
    constructor
    · intro hs
      exact ⟨f, h, hs⟩
    · rintro ⟨g, hg, hs⟩
      rw [h.unique hg]
      exact hs
  | (name, j) :: ms, pre, f, h => by
    rw [Draft.ofMembers, readMembers]
    split
    · rename_i hname
      subst hname
      refine h.expression.eq_ok_iff ms (fun h => h.elim fun g hg => ⟨hg.1.nodup, _, hg.1.expression⟩) fun hslot a ha => ?_
      have hstep : Gives (pre ++ [(expressionField, j)]) { f with expression := some a } :=
        ⟨h.nodup_append hslot.lookup_eq_none j, h.known_append j (by decide), hslot.fill ha, h.inputs.keep (by decide),
          h.seed.keep (by decide)⟩
      rw [readMembers_eq_ok_iff hstep, List.append_assoc, List.singleton_append]
    · split
      · rename_i hname
        subst hname
        refine h.inputs.eq_ok_iff ms (fun h => h.elim fun g hg => ⟨hg.1.nodup, _, hg.1.inputs⟩) fun hslot a ha => ?_
        have hstep : Gives (pre ++ [(inputsField, j)]) { f with inputs := some a } :=
          ⟨h.nodup_append hslot.lookup_eq_none j, h.known_append j (by decide), h.expression.keep (by decide),
            hslot.fill ha, h.seed.keep (by decide)⟩
        rw [readMembers_eq_ok_iff hstep, List.append_assoc, List.singleton_append]
      · split
        · rename_i hname
          subst hname
          refine h.seed.eq_ok_iff ms (fun h => h.elim fun g hg => ⟨hg.1.nodup, _, hg.1.seed⟩) fun hslot a ha => ?_
          have hstep : Gives (pre ++ [(seedField, j)]) { f with seed := some a } :=
            ⟨h.nodup_append hslot.lookup_eq_none j, h.known_append j (by decide), h.expression.keep (by decide),
              h.inputs.keep (by decide), hslot.fill ha⟩
          rw [readMembers_eq_ok_iff hstep, List.append_assoc, List.singleton_append]
        · rename_i hexpression hinputs hseed
          constructor
          · intro hs
            cases hs
          · rintro ⟨g, hg, _⟩
            have hname := hg.known (name, j) (by simp)
            simp [fieldNames, hexpression, hinputs, hseed] at hname

theorem finish_eq_ok_iff {f : Fields} {s : Spec} :
    f.finish = .ok s ↔ f.expression = some s.expression ∧ f.inputs.getD [] = s.inputs ∧ f.seed.getD none = s.seed := by
  obtain ⟨expression, inputs, seed⟩ := s
  rw [Fields.finish]
  cases f.expression <;> simp

/-- A field with a value for want of its member is what that member holds or the value. -/
theorem exists_slot_iff {α : Type} {read : Json → Except ReadError α} {holds : Option Json → α → Prop} {default : α}
    (hmissing : ∀ {a}, holds none a ↔ a = default) (hread : ∀ {j a}, read j = .ok a ↔ holds (some j) a)
    {ms : List (Text × Json)} {name : Text} {a : α} :
    (∃ slot, Slot read ms name slot ∧ slot.getD default = a) ↔ holds (ms.lookup name) a := by
  simp only [Slot]
  cases ms.lookup name with
  | none =>
    rw [hmissing]
    constructor
    · rintro ⟨slot, hslot, ha⟩
      cases hslot
      exact ha.symm
    · rintro rfl
      exact ⟨none, .none, rfl⟩
  | some j =>
    rw [← hread]
    constructor
    · rintro ⟨slot, hslot, ha⟩
      cases hslot with
      | some h => exact ha ▸ h
    · intro h
      exact ⟨some a, .some h, rfl⟩

end Spec
end SignalFormula
