import SignalFormula.Text.Basic
/-!
# Blank — white space, and texts without it

White space is the Unicode property of that name, twenty-five characters.  A conventional expression is read with all
of them taken out (`compact`), a reversed one is cut into words at them (`words`), and names and values of the command
line lose them at both ends (`trim`).
-/
namespace SignalFormula
namespace Text

def blankRanges : List (Nat × Nat) :=
  [(0x9, 0xD), (0x20, 0x20), (0x85, 0x85), (0xA0, 0xA0), (0x1680, 0x1680), (0x2000, 0x200A), (0x2028, 0x2029),
   (0x202F, 0x202F), (0x205F, 0x205F), (0x3000, 0x3000)]

def isBlank (c : Char) : Bool :=
  blankRanges.any fun (lo, hi) => lo ≤ c.toNat && c.toNat ≤ hi

def compact (t : Text) : Text := t.filter fun c => !isBlank c

/-- **A compact text has no white space.** -/
theorem not_isBlank_of_mem_compact {t : Text} {c : Char} (h : c ∈ compact t) : isBlank c = false := by
  simpa using (List.mem_filter.1 h).2

theorem compact_eq_self {t : Text} (h : ∀ c ∈ t, isBlank c = false) : compact t = t :=
  List.filter_eq_self.2 fun c hc => by simp [h c hc]

theorem compact_append (s t : Text) : compact (s ++ t) = compact s ++ compact t := List.filter_append ..

/-- The words of a text: its longest stretches free of white space. -/
def words : Text → List Text
  | [] => []
  | c :: cs =>
    if isBlank c then words cs
    else match cs with
      | [] => [[c]]
      | d :: _ => if isBlank d then [c] :: words cs else
        match words cs with
        | [] => [[c]]
        | w :: ws => (c :: w) :: ws

theorem words_append_blank : ∀ (w : Text) (b : Char) (t : Text), w ≠ [] → (∀ c ∈ w, isBlank c = false) →
    isBlank b = true → words (w ++ b :: t) = w :: words t
  | [c], b, t, _, hw, hb => by
    have hc : isBlank c = false := hw c (by simp)
    rw [List.singleton_append, words, words.eq_def (b :: t)]
    simp [hc, hb]
  | c :: d :: w, b, t, _, hw, hb => by
    have hc : isBlank c = false := hw c (by simp)
    have hd : isBlank d = false := hw d (by simp)
    have ih := words_append_blank (d :: w) b t (by simp) (fun x hx => hw x (List.mem_cons_of_mem _ hx)) hb
    rw [List.cons_append] at ih
    rw [List.cons_append, List.cons_append, words]
    simp [hc, hd, ih]

theorem words_of_blankFree : ∀ (w : Text), w ≠ [] → (∀ c ∈ w, isBlank c = false) → words w = [w]
  | [c], _, hw => by
    have hc : isBlank c = false := hw c (by simp)
    simp [words, hc]
  | c :: d :: w, _, hw => by
    have hc : isBlank c = false := hw c (by simp)
    have hd : isBlank d = false := hw d (by simp)
    have ih := words_of_blankFree (d :: w) (by simp) (fun x hx => hw x (List.mem_cons_of_mem _ hx))
    rw [words]
    simp [hc, hd, ih]

/-- **Reading words back**: words that are not empty and have no white space survive being joined by single spaces. -/
theorem words_unwords : ∀ (ws : List Text), (∀ w ∈ ws, w ≠ [] ∧ ∀ c ∈ w, isBlank c = false) →
    words (unwords ws) = ws
  | [], _ => rfl
  | [w], h => by
    simpa [unwords, joinWith] using words_of_blankFree w (h w (by simp)).1 (h w (by simp)).2
  | w :: v :: ws, h => by
    have ih := words_unwords (v :: ws) (fun x hx => h x (List.mem_cons_of_mem _ hx))
    have hw := h w (by simp)
    have : unwords (w :: v :: ws) = w ++ ' ' :: unwords (v :: ws) := by simp [unwords, joinWith]
    rw [this, words_append_blank w ' ' _ hw.1 hw.2 (by decide), ih]

def trim (t : Text) : Text := ((t.dropWhile isBlank).reverse.dropWhile isBlank).reverse

end Text

end SignalFormula
