import Mathlib.Algebra.Group.Int.Defs
import SignalFormula.Json.Draft
import SignalFormula.Proofs.Number.Positional
/-!
# RoundTrip — a JSON value read back from its compact text

A string is read back character by character, each as itself or from its escape (`readString_escape`), and an integer of
64 bits from its digits (`readNumber_ofInt`).  A value is read in front of whatever does not go on with a number
(`Draft.Reads`), and that carries over from the items of an array and the members of an object to the whole; the steps
that it takes are at most three for each character.  So a value whose numbers are such integers, and which is not nested
too deep, is what its text is parsed to (`parse_render`).
-/
namespace SignalFormula

theorem Text.head?_ofNat_ne_zero {n : Nat} (h : 0 < n) : (Text.ofNat n).head? ≠ some '0' := by
  induction n using Nat.strongRecOn with
  | ind n ih =>
    rw [Text.ofNat, Nat.toDigits_eq_if (by decide)]
    split
    · rename_i hlt
      have hdigit : ∀ k < 10, 0 < k → k.digitChar ≠ '0' := by decide
      simpa using hdigit n hlt h
    · rw [List.head?_append, List.head?_eq_some_head Nat.toDigits_ne_nil, Option.some_or,
        ← List.head?_eq_some_head Nat.toDigits_ne_nil]
      exact ih (n / 10) (by omega) (by omega)

namespace Json

theorem hexValues?_hexDigit : ∀ n < 32, hexValues? '0' '0' (hexDigit (n / 16)) (hexDigit (n % 16)) = some n := by
  decide

theorem readNumbered_hexDigit {c : Char} (h : c.toNat < 0x20) (rest : Text) :
    readNumbered ('0' :: '0' :: hexDigit (c.toNat / 16) :: hexDigit (c.toNat % 16) :: rest) = .ok (c, rest) := by
  have hhex := hexValues?_hexDigit c.toNat h
  have hlow : ¬ (0xDC00 ≤ c.toNat ∧ c.toNat ≤ 0xDFFF) := by omega
  have hhigh : ¬ (0xD800 ≤ c.toNat ∧ c.toNat ≤ 0xDBFF) := by omega
  rw [readNumbered, readHex, hhex]
  simp only [hlow, hhigh, if_false, Char.ofNat_toNat]

/-- **A character is written as itself or behind a backslash**, and then the escape reads back. -/
theorem escape_cases (c : Char) : (escape c = [c] ∧ c ≠ '"' ∧ c ≠ '\\' ∧ 0x20 ≤ c.toNat) ∨
    ∃ e, escape c = '\\' :: e ∧ ∀ rest, readEscape (e ++ rest) = .ok (c, rest) := by
  unfold escape
  iterate 7
    split
    · subst_vars; exact .inr ⟨_, rfl, fun _ => rfl⟩
  split
  · rename_i h
    exact .inr ⟨_, rfl, fun rest => readNumbered_hexDigit h rest⟩
  · rename_i hquote hbackslash _ _ _ _ _ h
    exact .inl ⟨rfl, hquote, hbackslash, Nat.le_of_not_lt h⟩

theorem readString_backslash {t rest : Text} {c : Char} (h : readEscape t = .ok (c, rest)) :
    readString ('\\' :: t) = (readString rest).map fun (s, rest) => (c :: s, rest) := by
  rw [readString]
  split
  · rename_i heq; rw [h] at heq; cases heq
  · rename_i heq; rw [h] at heq; cases heq; rfl

theorem readString_plain {c : Char} (hquote : c ≠ '"') (hbackslash : c ≠ '\\') (hcontrol : 0x20 ≤ c.toNat) (t : Text) :
    readString (c :: t) = (readString t).map fun (s, rest) => (c :: s, rest) := by
  rw [readString, if_neg (Nat.not_lt.2 hcontrol)]
  · exact fun h => hquote h
  · exact fun h => hbackslash h

theorem readString_escape (rest : Text) : ∀ t : Text, readString (t.flatMap escape ++ '"' :: rest) = .ok (t, rest)
  | [] => by rw [List.flatMap_nil, List.nil_append, readString]
  | c :: t => by
    have ih := readString_escape rest t
    rw [List.flatMap_cons, List.append_assoc]
    rcases escape_cases c with ⟨hself, hquote, hbackslash, hcontrol⟩ | ⟨e, hescape, hread⟩
    · rw [hself, List.singleton_append, readString_plain hquote hbackslash hcontrol, ih]
      rfl
    · rw [hescape, List.cons_append, readString_backslash (hread _), ih]
      rfl

/-- What follows is no part of a number. -/
def EndsNumber (rest : Text) : Prop := ∀ c ∈ rest.head?, c.isDigit = false ∧ c ≠ '.' ∧ c ≠ 'e' ∧ c ≠ 'E'

theorem readFraction_of_endsNumber {rest : Text} (h : EndsNumber rest) : readFraction rest = .ok ([], rest) := by
  unfold readFraction
  split
  · exact absurd rfl (h '.' rfl).2.1
  · rfl

theorem readPower_of_endsNumber {rest : Text} (h : EndsNumber rest) : readPower rest = .ok (none, rest) := by
  cases rest with
  | nil => rfl
  | cons c rest =>
    obtain ⟨-, -, he, hE⟩ := h c rfl
    simp [readPower, he, hE]

/-- The digits of a natural number, read after the sign. -/
theorem readNumber_digits {n : Nat} (negative : Bool) {rest : Text} (h : EndsNumber rest) {number : Number}
    (hnumber : Number.ofWhole negative (Text.ofNat n) = some number) :
    readNumber ((if negative then ['-'] else []) ++ (Text.ofNat n ++ rest)) = .ok (number, rest) := by
  have hsplit : Numeral.splitDigits (Text.ofNat n ++ rest) = (Text.ofNat n, rest) :=
    Numeral.splitDigits_append (fun _ => Text.isDigit_of_mem_ofNat) fun c hc => (h c hc).1
  obtain ⟨d, ds, hdigits⟩ : ∃ d ds, Text.ofNat n = d :: ds := List.exists_cons_of_ne_nil Nat.toDigits_ne_nil
  have hdigit : d.isDigit = true := Text.isDigit_of_mem_ofNat (n := n) (by rw [hdigits]; exact List.mem_cons_self)
  have hminus : d ≠ '-' := fun hd => by rw [hd] at hdigit; cases hdigit
  have hzero : ∀ c cs, d :: ds ≠ '0' :: c :: cs := fun c cs heq => by
    cases n with
    | zero => cases hdigits; cases heq
    | succ n => exact absurd (by rw [hdigits, heq]; rfl) (Text.head?_ofNat_ne_zero (Nat.succ_pos n))
  rw [hdigits] at hsplit hnumber ⊢
  rw [List.cons_append] at hsplit ⊢
  cases negative with
  | true =>
    simp [readNumber, hsplit, readFraction_of_endsNumber h, readPower_of_endsNumber h, hnumber, bind, Except.bind]
  | false =>
    simp [readNumber, hminus, hsplit, readFraction_of_endsNumber h, readPower_of_endsNumber h, hnumber, bind, Except.bind]

/-- The integers that are kept as such: those of 64 bits, with or without a sign. -/
def IsWide (i : Int) : Prop := -2 ^ 63 ≤ i ∧ i < 2 ^ 64

theorem readNumber_ofInt {i : Int} (hi : IsWide i) {rest : Text} (h : EndsNumber rest) :
    readNumber (Text.ofInt i ++ rest) = .ok (.integer i, rest) := by
  obtain ⟨hlow, hhigh⟩ := hi
  cases i with
  | ofNat n =>
    have hsize : n < UInt64.size := Int.ofNat_lt.1 hhigh
    refine readNumber_digits false h ?_
    simp [Number.ofWhole, Numeral.valueOfDigits_ofNat, hsize]
  | negSucc n =>
    have hsize : 2 * (n + 1) ≤ UInt64.size := by simp only [UInt64.size]; omega
    refine readNumber_digits true h ?_
    simp [Number.ofWhole, Numeral.valueOfDigits_ofNat, hsize]
    omega

/-- What a text keeps of a value: every number is a wide integer, and no more than `depth` arrays and objects are inside
each other. -/
inductive Fits : Nat → Json → Prop where
  | null {depth : Nat} : Fits depth .null
  | bool {depth : Nat} (b : Bool) : Fits depth (.bool b)
  | integer {depth : Nat} {i : Int} (h : IsWide i) : Fits depth (.number (.integer i))
  | string {depth : Nat} (t : Text) : Fits depth (.string t)
  | array {depth : Nat} {items : List Json} (h : ∀ j ∈ items, Fits depth j) : Fits (depth + 1) (.array items)
  | object {depth : Nat} {members : List (Text × Json)} (h : ∀ m ∈ members, Fits depth m.2) :
      Fits (depth + 1) (.object members)

theorem Fits.mono {d e : Nat} {j : Json} (h : Fits d j) (hde : d ≤ e) : Fits e j := by
  induction h generalizing e with
  | null => exact .null
  | bool b => exact .bool b
  | integer h => exact .integer h
  | string t => exact .string t
  | array h ih =>
    obtain ⟨e, rfl⟩ : ∃ k, e = k + 1 := ⟨e - 1, by omega⟩
    exact .array fun j hj => ih j hj (by omega)
  | object h ih =>
    obtain ⟨e, rfl⟩ : ∃ k, e = k + 1 := ⟨e - 1, by omega⟩
    exact .object fun m hm => ih m hm (by omega)

namespace Draft

/-- The text of the value is read as the value, whatever follows it. -/
def Reads (depth : Nat) (j : Json) : Prop :=
  ∀ (fuel : Nat) (rest : Text), 3 * (render j).length ≤ fuel → EndsNumber rest →
    value fuel depth (render j ++ rest) = (ofJson j, some rest)

theorem skipGap_cons {c : Char} (h : isGap c = false) (t : Text) : skipGap (c :: t) = c :: t := by
  simp [skipGap, h]

theorem exists_ofInt_eq (i : Int) : ∃ c cs, Text.ofInt i = c :: cs ∧ (c = '-' ∨ c.isDigit = true) := by
  cases i with
  | ofNat n =>
    obtain ⟨d, ds, hdigits⟩ : ∃ d ds, Text.ofNat n = d :: ds := List.exists_cons_of_ne_nil Nat.toDigits_ne_nil
    exact ⟨d, ds, hdigits, .inr (Text.isDigit_of_mem_ofNat (n := n) (by rw [hdigits]; exact List.mem_cons_self))⟩
  | negSucc n => exact ⟨'-', _, rfl, .inl rfl⟩

section starts

variable {c : Char} (hc : c = '-' ∨ c.isDigit = true)

include hc

/-- A number starts like nothing else. -/
theorem ne_of_startsNumber {d : Char} (hminus : d ≠ '-') (hdigit : d.isDigit = false) : c ≠ d := by
  rintro rfl
  rcases hc with hc | hc
  · exact hminus hc
  · rw [hc] at hdigit; cases hdigit

theorem isGap_of_startsNumber : isGap c = false := by
  have hne : ∀ d : Char, d ≠ '-' → d.isDigit = false → c ≠ d := fun _ => ne_of_startsNumber hc
  simp [isGap, hne ' ', hne '\n', hne '\t', hne '\r']

theorem value_number {t rest : Text} {n : Number} (h : readNumber (c :: t) = .ok (n, rest)) (fuel depth : Nat) :
    value (fuel + 1) depth (c :: t) = (.number n, some rest) := by
  have hne : ∀ d : Char, d ≠ '-' → d.isDigit = false → c ≠ d := fun _ => ne_of_startsNumber hc
  simp [value, skipGap_cons (isGap_of_startsNumber hc), hne 'n', hne 't', hne 'f', hne '"', hne '[', hne '\x7b', hc, h]

end starts

theorem reads_integer {depth : Nat} {i : Int} (hi : IsWide i) : Reads depth (.number (.integer i)) := by
  intro fuel rest hfuel hrest
  obtain ⟨c, cs, htext, hc⟩ := exists_ofInt_eq i
  have hread : readNumber (Text.ofInt i ++ rest) = .ok (.integer i, rest) := readNumber_ofInt hi hrest
  have hrender : render (.number (.integer i)) = c :: cs := htext
  rw [hrender, List.length_cons] at hfuel
  rw [htext, List.cons_append] at hread
  obtain ⟨fuel, rfl⟩ : ∃ k, fuel = k + 1 := ⟨fuel - 1, by omega⟩
  rw [hrender, List.cons_append, value_number hc hread]
  rfl

theorem reads_null {depth : Nat} : Reads depth .null := by
  intro fuel rest hfuel hrest
  obtain ⟨fuel, rfl⟩ : ∃ k, fuel = k + 1 := ⟨fuel - 1, by simp [render] at hfuel; omega⟩
  rw [value]
  rfl

theorem reads_bool {depth : Nat} (b : Bool) : Reads depth (.bool b) := by
  intro fuel rest hfuel hrest
  obtain ⟨fuel, rfl⟩ : ∃ k, fuel = k + 1 := ⟨fuel - 1, by cases b <;> simp [render] at hfuel <;> omega⟩
  cases b with
  | true => rw [value]; rfl
  | false => rw [value]; rfl

theorem reads_string {depth : Nat} (t : Text) : Reads depth (.string t) := by
  intro fuel rest hfuel hrest
  have hread : readString (t.flatMap escape ++ ['"'] ++ rest) = .ok (t, rest) := by
    rw [List.append_assoc]
    exact readString_escape rest t
  obtain ⟨fuel, rfl⟩ : ∃ k, fuel = k + 1 := ⟨fuel - 1, by simp [render, quote] at hfuel; omega⟩
  simp only [render, quote, List.cons_append]
  rw [value, skipGap_cons (by decide)]
  simp only [hread]
  rfl

/-! ## Arrays and objects -/

/-- A value does not start with a gap or the end of an array. -/
theorem exists_render_eq {depth : Nat} {j : Json} (h : Fits depth j) :
    ∃ c cs, render j = c :: cs ∧ isGap c = false ∧ c ≠ ']' := by
  cases h with
  | null => exact ⟨_, _, rfl, by decide, by decide⟩
  | bool b => cases b <;> exact ⟨_, _, rfl, by decide, by decide⟩
  | @integer _ i h =>
    obtain ⟨c, cs, htext, hc⟩ := exists_ofInt_eq i
    exact ⟨c, cs, htext, isGap_of_startsNumber hc, ne_of_startsNumber hc (by decide) (by decide)⟩
  | string t => exact ⟨_, _, rfl, by decide, by decide⟩
  | array h => exact ⟨_, _, rfl, by decide, by decide⟩
  | object h => exact ⟨_, _, rfl, by decide, by decide⟩

theorem endsNumber_cons {c : Char} (hdigit : c.isDigit = false) (hpoint : c ≠ '.') (he : c ≠ 'e') (hE : c ≠ 'E')
    (t : Text) : EndsNumber (c :: t) := fun d hd => by
  cases hd
  exact ⟨hdigit, hpoint, he, hE⟩

theorem exists_renderItems_eq {depth : Nat} {j : Json} (js : List Json) (rest : Text) (h : Fits depth j) :
    ∃ c cs, renderItems (j :: js) ++ rest = c :: cs ∧ isGap c = false ∧ c ≠ ']' := by
  obtain ⟨c, cs, htext, hgap, hne⟩ := exists_render_eq h
  cases js with
  | nil => exact ⟨c, _, by rw [renderItems, htext]; rfl, hgap, hne⟩
  | cons i js => exact ⟨c, _, by rw [renderItems, htext]; rfl, hgap, hne⟩

theorem exists_renderMembers_eq (m : Text × Json) (ms : List (Text × Json)) (rest : Text) :
    ∃ t, renderMembers (m :: ms) ++ rest = '"' :: t := by
  obtain ⟨name, j⟩ := m
  cases ms with
  | nil => exact ⟨_, rfl⟩
  | cons i ms => exact ⟨_, rfl⟩

section items

variable {depth : Nat} (rest : Text)

/-- The items that are left of an array, up to its bracket. -/
theorem item_renderItems : ∀ {items : List Json}, items ≠ [] → (∀ j ∈ items, Fits depth j) → (∀ j ∈ items, Reads depth j) →
    ∀ fuel : Nat, 3 * (renderItems items).length + 2 ≤ fuel →
      item fuel depth (renderItems items ++ ']' :: rest) = (ofItems items, none, some rest)
  | [j], _, _, hreads, fuel, hfuel => by
    rw [renderItems] at hfuel ⊢
    obtain ⟨fuel, rfl⟩ : ∃ k, fuel = k + 2 := ⟨fuel - 2, by omega⟩
    have hends : EndsNumber (']' :: rest) := endsNumber_cons (by decide) (by decide) (by decide) (by decide) rest
    rw [item, hreads j List.mem_cons_self (fuel + 1) _ (by omega) hends]
    simp only
    rw [items, skipGap_cons (by decide)]
    rfl
  | j :: k :: js, _, hfits, hreads, fuel, hfuel => by
    rw [renderItems, List.length_append, List.length_cons] at hfuel
    rw [renderItems, List.append_assoc, List.cons_append]
    obtain ⟨fuel, rfl⟩ : ∃ k, fuel = k + 2 := ⟨fuel - 2, by omega⟩
    have hends : ∀ t, EndsNumber (',' :: t) :=
      fun t => endsNumber_cons (by decide) (by decide) (by decide) (by decide) t
    have hrest := item_renderItems (List.cons_ne_nil k js) (fun i hi => hfits i (List.mem_cons_of_mem _ hi))
      (fun i hi => hreads i (List.mem_cons_of_mem _ hi)) fuel (by omega)
    obtain ⟨c, cs, htext, hgap, hne⟩ := exists_renderItems_eq js (']' :: rest) (hfits k (by simp))
    rw [item, hreads j List.mem_cons_self (fuel + 1) _ (by omega) (hends _)]
    simp only
    rw [items, skipGap_cons (by decide)]
    rw [htext] at hrest ⊢
    simp [skipGap_cons hgap, hne, hrest, ofItems]

theorem items_renderItems {items : List Json} (hfits : ∀ j ∈ items, Fits depth j) (hreads : ∀ j ∈ items, Reads depth j)
    (fuel : Nat) (hfuel : 3 * (renderItems items).length + 3 ≤ fuel) :
    Draft.items fuel depth true (renderItems items ++ ']' :: rest) = (ofItems items, none, some rest) := by
  obtain ⟨fuel, rfl⟩ : ∃ k, fuel = k + 1 := ⟨fuel - 1, by omega⟩
  cases items with
  | nil =>
    rw [renderItems, List.nil_append, Draft.items, skipGap_cons (by decide)]
    rfl
  | cons j js =>
    have hitem := item_renderItems rest (List.cons_ne_nil j js) hfits hreads fuel (by omega)
    obtain ⟨c, cs, htext, hgap, hne⟩ := exists_renderItems_eq js (']' :: rest) (hfits j List.mem_cons_self)
    rw [htext] at hitem ⊢
    simp [Draft.items, skipGap_cons hgap, hne, hitem]

theorem reads_array {items : List Json} (hfits : ∀ j ∈ items, Fits depth j) (hreads : ∀ j ∈ items, Reads depth j) :
    Reads (depth + 1) (.array items) := by
  intro fuel rest hfuel _
  rw [render, List.length_cons, List.length_append, List.length_singleton] at hfuel
  obtain ⟨fuel, rfl⟩ : ∃ k, fuel = k + 1 := ⟨fuel - 1, by omega⟩
  have hitems := items_renderItems rest hfits hreads fuel (by omega)
  rw [render, List.cons_append, List.append_assoc, List.singleton_append, value, skipGap_cons (by decide)]
  simp only [hitems]
  rfl

end items

section members

variable {depth : Nat} (rest : Text)

/-- A name, its colon and its value, with what follows. -/
theorem member_quote {name : Text} {j : Json} (hreads : Reads depth j) {fuel : Nat} (hfuel : 3 * (render j).length ≤ fuel)
    {tail : Text} (htail : EndsNumber tail) :
    member (fuel + 1) depth (quote name ++ ':' :: (render j ++ tail)) =
      let (ds, flaw, rest) := members fuel depth false tail; ((name, ofJson j) :: ds, flaw, rest) := by
  have hread : readString (name.flatMap escape ++ '"' :: ':' :: (render j ++ tail)) =
      .ok (name, ':' :: (render j ++ tail)) :=
    readString_escape _ name
  rw [quote, List.cons_append, List.append_assoc, List.singleton_append, member]
  simp only [hread, skipGap_cons (show isGap ':' = false by decide), hreads fuel tail hfuel htail]

/-- The members that are left of an object, up to its brace. -/
theorem member_renderMembers : ∀ {ms : List (Text × Json)}, ms ≠ [] → (∀ m ∈ ms, Reads depth m.2) →
    ∀ fuel : Nat, 3 * (renderMembers ms).length + 2 ≤ fuel →
      member fuel depth (renderMembers ms ++ '\x7d' :: rest) = (ofMembers ms, none, some rest)
  | [(name, j)], _, hreads, fuel, hfuel => by
    rw [renderMembers, List.length_append, List.length_cons] at hfuel
    obtain ⟨fuel, rfl⟩ : ∃ k, fuel = k + 2 := ⟨fuel - 2, by omega⟩
    have hj : Reads depth j := hreads _ List.mem_cons_self
    have hends : EndsNumber ('\x7d' :: rest) := endsNumber_cons (by decide) (by decide) (by decide) (by decide) rest
    rw [renderMembers, List.append_assoc, List.cons_append,
      member_quote hj (by omega) hends, members, skipGap_cons (by decide)]
    rfl
  | (name, j) :: m :: ms, _, hreads, fuel, hfuel => by
    rw [renderMembers, List.length_append, List.length_append, List.length_cons, List.length_cons] at hfuel
    obtain ⟨fuel, rfl⟩ : ∃ k, fuel = k + 2 := ⟨fuel - 2, by omega⟩
    have hends : ∀ t, EndsNumber (',' :: t) :=
      fun t => endsNumber_cons (by decide) (by decide) (by decide) (by decide) t
    have hj : Reads depth j := hreads _ List.mem_cons_self
    have hrest := member_renderMembers (List.cons_ne_nil m ms) (fun i hi => hreads i (List.mem_cons_of_mem _ hi)) fuel
      (by omega)
    obtain ⟨t, htext⟩ := exists_renderMembers_eq m ms ('\x7d' :: rest)
    rw [renderMembers, List.append_assoc, List.append_assoc, List.cons_append, List.cons_append,
      member_quote hj (by omega) (hends _), members, skipGap_cons (by decide)]
    rw [htext] at hrest ⊢
    simp [skipGap_cons (show isGap '"' = false by decide), hrest, ofMembers]

theorem members_renderMembers {ms : List (Text × Json)} (hreads : ∀ m ∈ ms, Reads depth m.2) (fuel : Nat)
    (hfuel : 3 * (renderMembers ms).length + 3 ≤ fuel) :
    members fuel depth true (renderMembers ms ++ '\x7d' :: rest) = (ofMembers ms, none, some rest) := by
  obtain ⟨fuel, rfl⟩ : ∃ k, fuel = k + 1 := ⟨fuel - 1, by omega⟩
  cases ms with
  | nil =>
    rw [renderMembers, List.nil_append, members, skipGap_cons (by decide)]
    rfl
  | cons m ms =>
    have hmember := member_renderMembers rest (List.cons_ne_nil m ms) hreads fuel (by omega)
    obtain ⟨t, htext⟩ := exists_renderMembers_eq m ms ('\x7d' :: rest)
    rw [htext] at hmember ⊢
    simp [members, skipGap_cons (show isGap '"' = false by decide), hmember]

theorem reads_object {ms : List (Text × Json)} (hreads : ∀ m ∈ ms, Reads depth m.2) :
    Reads (depth + 1) (.object ms) := by
  intro fuel rest hfuel _
  rw [render, List.length_cons, List.length_append, List.length_singleton] at hfuel
  obtain ⟨fuel, rfl⟩ : ∃ k, fuel = k + 1 := ⟨fuel - 1, by omega⟩
  have hmembers := members_renderMembers rest hreads fuel (by omega)
  rw [render, List.cons_append, List.append_assoc, List.singleton_append, value, skipGap_cons (by decide)]
  simp only [hmembers]
  rfl

end members

/-- **A value that fits is read back from its text**, whatever follows that does not go on with a number. -/
theorem reads_of_fits {depth : Nat} {j : Json} (h : Fits depth j) : Reads depth j := by
  induction h with
  | null => exact reads_null
  | bool b => exact reads_bool b
  | integer h => exact reads_integer h
  | string t => exact reads_string t
  | array h ih => exact reads_array h ih
  | object _ ih => exact reads_object ih

mutual
/-- **A value has no flaw.** -/
theorem complete_ofJson : ∀ j : Json, (ofJson j).complete = .ok j
  | .null => rfl
  | .bool _ => rfl
  | .number _ => rfl
  | .string _ => rfl
  | .array items => by rw [ofJson, complete, completeItems_ofItems items]; rfl
  | .object ms => by rw [ofJson, complete, completeMembers_ofMembers ms]; rfl

theorem completeItems_ofItems : ∀ js : List Json, completeItems (ofItems js) none = .ok js
  | [] => rfl
  | j :: js => by rw [ofItems, completeItems, complete_ofJson j, completeItems_ofItems js]; rfl

theorem completeMembers_ofMembers : ∀ ms : List (Text × Json), completeMembers (ofMembers ms) none = .ok ms
  | [] => rfl
  | (name, j) :: ms => by rw [ofMembers, completeMembers, complete_ofJson j, completeMembers_ofMembers ms]; rfl
end

theorem read_render {j : Json} (h : Fits nesting j) : read (render j) = (ofJson j, some []) := by
  have hread := reads_of_fits h (3 * (render j).length + 3) [] (by omega) (fun _ h => by cases h)
  rwa [List.append_nil] at hread

end Draft

/-- **A value that fits is what its text is parsed to.** -/
theorem parse_render {j : Json} (h : Fits nesting j) : parse (render j) = .ok j := by
  rw [parse, Draft.read_render h]
  simp only [Draft.complete_ofJson]
  rfl

end Json
end SignalFormula
