import Mathlib.Data.List.Forall2
/-!
# Result — computations that have a value or an error

A row of steps has a value if every step has one (`bind_eq_ok_iff`, `mapM_eq_ok_iff`), and what is true of the errors of
every step is true of the errors of the row (`FailsOnly.bind`, `FailsOnly.mapM`).
-/
namespace SignalFormula
namespace Result

variable {ε α β : Type}

theorem bind_eq_ok_iff {r : Except ε α} {f : α → Except ε β} {b : β} :
    r >>= f = .ok b ↔ ∃ a, r = .ok a ∧ f a = .ok b := by
  cases r with
  | error e =>
    constructor
    · intro h; cases h
    · rintro ⟨_, h, _⟩; cases h
  | ok a =>
    constructor
    · intro h; exact ⟨a, rfl, h⟩
    · rintro ⟨_, h, hf⟩; cases h; exact hf

theorem bind_eq_error_iff {r : Except ε α} {f : α → Except ε β} {e : ε} :
    r >>= f = .error e ↔ r = .error e ∨ ∃ a, r = .ok a ∧ f a = .error e := by
  cases r with
  | error e' =>
    constructor
    · intro h; cases h; exact .inl rfl
    · rintro (h | ⟨_, h, _⟩) <;> cases h; rfl
  | ok a =>
    constructor
    · intro h; exact .inr ⟨a, rfl, h⟩
    · rintro (h | ⟨_, h, hf⟩) <;> cases h; exact hf

theorem map_eq_ok_iff {r : Except ε α} {f : α → β} {b : β} : r.map f = .ok b ↔ ∃ a, r = .ok a ∧ f a = b := by
  cases r <;> simp [Except.map]

theorem map_eq_error_iff {r : Except ε α} {f : α → β} {e : ε} : r.map f = .error e ↔ r = .error e := by
  cases r <;> simp [Except.map]

theorem mapM_eq_ok_iff {f : α → Except ε β} : ∀ {as : List α} {bs : List β},
    as.mapM f = .ok bs ↔ List.Forall₂ (fun a b => f a = .ok b) as bs
  | [], bs => by
    rw [List.mapM_nil, List.forall₂_nil_left_iff]
    constructor
    · intro h; cases h; rfl
    · rintro rfl; rfl
  | a :: as, bs => by
    rw [List.mapM_cons, bind_eq_ok_iff]
    constructor
    · rintro ⟨b, hb, h⟩
      obtain ⟨cs, hcs, heq⟩ := bind_eq_ok_iff.1 h
      cases heq
      exact .cons hb (mapM_eq_ok_iff.1 hcs)
    · intro h
      cases h with
      | cons hb hbs => exact ⟨_, hb, bind_eq_ok_iff.2 ⟨_, mapM_eq_ok_iff.2 hbs, rfl⟩⟩

/-- The result is a value, or an error of this kind. -/
def FailsOnly (kind : ε → Prop) (r : Except ε α) : Prop := ∀ e, r = .error e → kind e

namespace FailsOnly

variable {kind : ε → Prop} {r : Except ε α}

theorem ok (a : α) : FailsOnly kind (.ok a : Except ε α) := fun _ h => by cases h

theorem error {e : ε} (h : kind e) : FailsOnly kind (.error e : Except ε α) := fun _ he => by cases he; exact h

theorem bind {f : α → Except ε β} (hr : FailsOnly kind r) (hf : ∀ a, r = .ok a → FailsOnly kind (f a)) :
    FailsOnly kind (r >>= f) := by
  cases r with
  | error e => exact error (hr e rfl)
  | ok a => exact hf a rfl

theorem map (f : α → β) (hr : FailsOnly kind r) : FailsOnly kind (r.map f) := by
  cases r with
  | error e => exact error (hr e rfl)
  | ok a => exact ok (f a)

theorem mapError {ε' : Type} {kind' : ε' → Prop} {f : ε → ε'} (hf : ∀ e, kind' (f e)) (r : Except ε α) :
    FailsOnly kind' (r.mapError f) := by
  cases r with
  | error e => exact error (hf e)
  | ok a => exact ok a

theorem mapM {f : α → Except ε β} (hf : ∀ a, FailsOnly kind (f a)) : ∀ as : List α, FailsOnly kind (as.mapM f)
  | [] => ok []
  | a :: as => by
    rw [List.mapM_cons]
    exact (hf a).bind fun b _ => (mapM hf as).bind fun bs _ => ok (b :: bs)

end FailsOnly

end Result
end SignalFormula
