/-!
# Text — text as a list of characters

Every text of the library is a `List Char`, so that a statement about a text is a statement about a list.  `String`
appears where text enters or leaves the program, and in the fixed wordings, which are written as string literals and
turned into text on the spot.
-/
namespace SignalFormula

abbrev Text := List Char

namespace Text

/-- The parts in order, with `gap` between each two neighbours. -/
def joinWith (gap : Text) : List Text → Text
  | [] => []
  | [t] => t
  | t :: u :: rest => t ++ gap ++ joinWith gap (u :: rest)

def unwords (ws : List Text) : Text := joinWith [' '] ws

def ofNat (n : Nat) : Text := Nat.toDigits 10 n

/-- The digits of an integer in base ten, after its sign if it is negative. -/
def ofInt : Int → Text
  | .ofNat n => ofNat n
  | .negSucc n => '-' :: ofNat (n + 1)

def afterLead? : Text → Text → Option Text
  | [], t => some t
  | _ :: _, [] => none
  | p :: ps, c :: cs => if p = c then afterLead? ps cs else none

/-- **The lead and what follows it are the text.** -/
theorem afterLead?_eq_some_iff {lead t rest : Text} : afterLead? lead t = some rest ↔ t = lead ++ rest := by
  fun_induction afterLead? lead t with
  | case1 t => simp [eq_comm]
  | case2 => simp
  | case3 p ps cs ih => simp [ih]
  | case4 p ps c cs h => simp [Ne.symm h]

def splitAt? (mark : Char) : Text → Option (Text × Text)
  | [] => none
  | c :: cs => if c = mark then some ([], cs) else (splitAt? mark cs).map fun (l, r) => (c :: l, r)

/-- **A split loses only the mark**, and the left side has none. -/
theorem splitAt?_eq_some_iff {mark : Char} {t l r : Text} :
    splitAt? mark t = some (l, r) ↔ t = l ++ mark :: r ∧ mark ∉ l := by
  induction t generalizing l r with
  | nil => simp [splitAt?]
  | cons c cs ih =>
    by_cases h : c = mark
    · subst h
      simp only [splitAt?, ↓reduceIte, Option.some.injEq, Prod.mk.injEq]
      constructor
      · rintro ⟨rfl, rfl⟩; simp
      · rintro ⟨ht, hl⟩
        cases l with
        | nil => simpa using ht
        | cons d l => simp only [List.cons_append, List.cons.injEq] at ht; simp [ht.1] at hl
    · simp only [splitAt?, h, ↓reduceIte, Option.map_eq_some_iff, Prod.mk.injEq, Prod.exists]
      constructor
      · rintro ⟨l', r', hs, rfl, rfl⟩
        obtain ⟨rfl, hl'⟩ := ih.1 hs
        exact ⟨rfl, by simp [Ne.symm h, hl']⟩
      · rintro ⟨ht, hl⟩
        cases l with
        | nil => simp only [List.nil_append, List.cons.injEq] at ht; exact absurd ht.1 h
        | cons d l =>
          simp only [List.cons_append, List.cons.injEq] at ht
          obtain ⟨rfl, ht⟩ := ht
          simp only [List.mem_cons, not_or] at hl
          exact ⟨l, r, ih.2 ⟨ht, hl.2⟩, rfl, rfl⟩

end Text

end SignalFormula
