import SignalFormula.Token
/-!
# Matching — which closing bracket closes which opening one

An opening bracket is closed by the closing bracket behind the shortest balanced row of tokens that follows it.  Reading
from the left, what is read so far is balanced but for the brackets that are open (`Opened`).  These are closed by nothing
(`Opened.not_closedAt`), and every other opening bracket is closed (`Opened.closedAt`).
-/
namespace SignalFormula
namespace Token

/-- Every bracket that opens is closed, and no other bracket closes. -/
inductive Balanced : List Token → Prop where
  | nil : Balanced []
  | single {t : Token} (hopen : t ≠ .openParen) (hclose : t ≠ .closeParen) : Balanced [t]
  | bracket {ts : List Token} (held : Balanced ts) : Balanced (.openParen :: (ts ++ [.closeParen]))
  | append {ts us : List Token} (left : Balanced ts) (right : Balanced us) : Balanced (ts ++ us)

/-- The bracket that opens at place `k` is closed at place `m`. -/
def ClosedAt (tokens : List Token) (k m : Nat) : Prop :=
  ∃ before inner after, tokens = before ++ .openParen :: (inner ++ .closeParen :: after) ∧ Balanced inner ∧
    before.length = k ∧ k + inner.length + 1 = m

/-- Tokens read so far, with the places of the brackets that are open, the innermost first. -/
inductive Opened : List Token → List Nat → Prop where
  | closed {ts : List Token} (h : Balanced ts) : Opened ts []
  | opened {ts us : List Token} {bs : List Nat} (before : Opened ts bs) (held : Balanced us) :
      Opened (ts ++ .openParen :: us) (ts.length :: bs)

variable {ts us : List Token} {b k m n : Nat} {bs : List Nat}

theorem Balanced.cons {t : Token} (hopen : t ≠ .openParen) (hclose : t ≠ .closeParen) (h : Balanced ts) :
    Balanced (t :: ts) := .append (.single hopen hclose) h

/-! ## No more closing brackets than opening ones -/

/-- Read from the left, no bracket is closed that was not opened. -/
def Standing (ts : List Token) : Prop := ∀ vs, vs <+: ts → vs.count .closeParen ≤ vs.count .openParen

theorem Standing.append (h : Standing ts) (h' : Standing us) : Standing (ts ++ us) := by
  rintro vs ⟨rest, heq⟩
  rcases List.append_eq_append_iff.1 heq with ⟨more, hts, -⟩ | ⟨more, rfl, hus⟩
  · exact h vs ⟨more, hts.symm⟩
  · rw [List.count_append, List.count_append]
    exact Nat.add_le_add (h ts (List.prefix_refl _)) (h' more ⟨rest, hus.symm⟩)

theorem Standing.openParen (h : Standing ts) : Standing (.openParen :: ts) := by
  intro vs hvs
  rcases List.prefix_cons_iff.1 hvs with rfl | ⟨ws, rfl, hws⟩
  · exact Nat.le_refl _
  · have hle := h ws hws
    rw [List.count_cons_self, List.count_cons_of_ne (by decide)]
    omega

theorem Balanced.count (h : Balanced ts) : ts.count .closeParen = ts.count .openParen := by
  induction h with
  | nil => rfl
  | single hopen hclose => rw [List.count_singleton, List.count_singleton]; simp [hopen, hclose]
  | bracket held ih => simp [ih]
  | append left right ihl ihr => rw [List.count_append, List.count_append, ihl, ihr]

theorem Balanced.standing (h : Balanced ts) : Standing ts := by
  induction h with
  | nil => intro vs hvs; rw [List.prefix_nil.1 hvs]; exact Nat.le_refl _
  | @single t hopen hclose =>
    intro vs hvs
    rcases List.prefix_cons_iff.1 hvs with rfl | ⟨ws, rfl, hws⟩
    · exact Nat.le_refl _
    · rw [List.prefix_nil.1 hws]
      exact Nat.le_of_eq (Balanced.single hopen hclose).count
  | @bracket ts held ih =>
    intro vs hvs
    rw [← List.cons_append] at hvs
    rcases List.prefix_concat_iff.1 hvs with rfl | hvs
    · exact Nat.le_of_eq held.bracket.count
    · exact ih.openParen vs hvs
  | append left right ihl ihr => exact ihl.append ihr

/-- Behind a bracket that is open, no more brackets are closed than opened. -/
theorem Opened.standing (h : Opened ts bs) (hb : b ∈ bs) :
    ∃ before us, ts = before ++ .openParen :: us ∧ before.length = b ∧ Standing us := by
  induction h with
  | closed => cases hb
  | @opened ts us bs before held ih =>
    rcases List.mem_cons.1 hb with rfl | hb
    · exact ⟨ts, us, rfl, rfl, held.standing⟩
    · obtain ⟨outer, vs, rfl, hlen, hvs⟩ := ih hb
      exact ⟨outer, vs ++ .openParen :: us, by simp, hlen, hvs.append held.standing.openParen⟩

/-- **A bracket that is open is closed by nothing.** -/
theorem Opened.not_closedAt (h : Opened ts bs) (hb : b ∈ bs) : ¬ ClosedAt ts b m := by
  rintro ⟨before, inner, after, hts, hinner, hlen, -⟩
  obtain ⟨before', us, hts', hlen', hus⟩ := h.standing hb
  obtain ⟨-, heq⟩ := List.append_inj (hts.symm.trans hts') (hlen.trans hlen'.symm)
  have hle := hus (inner ++ [.closeParen]) ⟨after, by rw [← (List.cons.inj heq).2]; simp⟩
  rw [List.count_append, List.count_append, hinner.count] at hle
  exact absurd hle (by simp)

/-! ## Every other bracket is closed -/

theorem ClosedAt.lt (h : ClosedAt ts k m) : k < m := by
  obtain ⟨_, _, _, -, -, -, rfl⟩ := h
  omega

theorem ClosedAt.append (h : ClosedAt ts k m) (vs ws : List Token) :
    ClosedAt (vs ++ ts ++ ws) (vs.length + k) (vs.length + m) := by
  obtain ⟨before, inner, after, rfl, hinner, rfl, rfl⟩ := h
  exact ⟨vs ++ before, inner, after ++ ws, by simp, hinner, by simp, by omega⟩

theorem ClosedAt.append_right (h : ClosedAt ts k m) (ws : List Token) : ClosedAt (ts ++ ws) k m := by
  simpa using h.append [] ws

theorem ClosedAt.take (h : ClosedAt ts k m) (hm : m < n) : ClosedAt (ts.take n) k m := by
  obtain ⟨before, inner, after, rfl, hinner, rfl, rfl⟩ := h
  have hprefix : before ++ .openParen :: (inner ++ [.closeParen]) <+:
      (before ++ .openParen :: (inner ++ .closeParen :: after)).take n :=
    List.prefix_take_iff.2 ⟨⟨after, by simp⟩, by simp; omega⟩
  obtain ⟨rest, hrest⟩ := hprefix
  exact ⟨before, inner, rest, by rw [← hrest]; simp, hinner, rfl, rfl⟩

theorem Balanced.exists_closedAt (h : Balanced ts) (hk : ts[k]? = some .openParen) : ∃ m, ClosedAt ts k m := by
  induction h generalizing k with
  | nil => cases hk
  | @single t hopen hclose =>
    cases k with
    | zero => exact absurd (Option.some.inj hk) hopen
    | succ k => cases hk
  | @bracket ts held ih =>
    cases k with
    | zero => exact ⟨_, [], ts, [], rfl, held, rfl, rfl⟩
    | succ k =>
      rw [List.getElem?_cons_succ, List.getElem?_append] at hk
      split at hk
      · obtain ⟨m, hm⟩ := ih hk
        have hmore := hm.append [.openParen] [.closeParen]
        rw [List.length_singleton, Nat.add_comm 1 k] at hmore
        exact ⟨_, hmore⟩
      · rcases hzero : k - ts.length with _ | d <;> rw [hzero] at hk <;> cases hk
  | @append ts us left right ihl ihr =>
    rw [List.getElem?_append] at hk
    split at hk
    · obtain ⟨m, hm⟩ := ihl hk
      exact ⟨m, hm.append_right us⟩
    · obtain ⟨m, hm⟩ := ihr hk
      have hmore := hm.append ts []
      rw [List.append_nil, Nat.add_sub_cancel' (by omega)] at hmore
      exact ⟨_, hmore⟩

/-- **A bracket that opens and is not open is closed.** -/
theorem Opened.exists_closedAt (h : Opened ts bs) (hk : ts[k]? = some .openParen) : k ∈ bs ∨ ∃ m, ClosedAt ts k m := by
  induction h with
  | closed h => exact .inr (h.exists_closedAt hk)
  | @opened ts us bs before held ih =>
    rw [List.getElem?_append] at hk
    split at hk
    · rcases ih hk with hmem | ⟨m, hm⟩
      · exact .inl (List.mem_cons_of_mem _ hmem)
      · exact .inr ⟨m, hm.append_right _⟩
    · rcases hd : k - ts.length with _ | d
      · exact .inl (List.mem_cons.2 (.inl (by omega)))
      · rw [hd, List.getElem?_cons_succ] at hk
        obtain ⟨m, hm⟩ := held.exists_closedAt hk
        have hmore := hm.append (ts ++ [.openParen]) []
        have hplace : (ts ++ [Token.openParen]).length + d = k := by simp; omega
        rw [hplace, List.append_nil, List.append_assoc] at hmore
        exact .inr ⟨_, hmore⟩

/-! ## One token more -/

theorem Opened.append (h : Opened ts bs) (hus : Balanced us) : Opened (ts ++ us) bs := by
  cases h with
  | closed h => exact .closed (h.append hus)
  | opened before held =>
    rw [List.append_assoc, List.cons_append]
    exact .opened before (held.append hus)

theorem Opened.openParen (h : Opened ts bs) : Opened (ts ++ [.openParen]) (ts.length :: bs) := .opened h .nil

theorem Opened.closeParen (h : Opened ts (b :: bs)) : Opened (ts ++ [.closeParen]) bs := by
  cases h with
  | opened before held =>
    rw [List.append_assoc, List.cons_append]
    exact before.append held.bracket

theorem Opened.getElem? (h : Opened ts bs) (hb : b ∈ bs) : ts[b]? = some .openParen := by
  obtain ⟨before, us, rfl, rfl, -⟩ := h.standing hb
  simp

/-- **The brackets that are open are those that nothing closes.** -/
theorem Opened.mem_iff (h : Opened ts bs) : b ∈ bs ↔ ts[b]? = some .openParen ∧ ∀ m, ¬ ClosedAt ts b m := by
  constructor
  · exact fun hb => ⟨h.getElem? hb, fun m => h.not_closedAt hb⟩
  · rintro ⟨hopen, hnot⟩
    exact (h.exists_closedAt hopen).resolve_right fun ⟨m, hm⟩ => hnot m hm

theorem Opened.nodup (h : Opened ts bs) : bs.Nodup := by
  induction h with
  | closed => exact List.nodup_nil
  | @opened ts us bs before held ih =>
    refine List.nodup_cons.2 ⟨fun hmem => ?_, ih⟩
    obtain ⟨hlt, -⟩ := List.getElem?_eq_some_iff.1 (before.getElem? hmem)
    exact Nat.lt_irrefl _ hlt

end Token
end SignalFormula
