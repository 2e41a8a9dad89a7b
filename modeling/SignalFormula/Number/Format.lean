/-!
# Format — binary floating-point formats

A format has significands of `precision` bits and units `2 ^ e` with `e` from `minExp` to `maxExp`.  A magnitude has
one canonical way of being written as `sig * 2 ^ exp`: the unit is as small as the format allows, so the significand
fills its bits unless the unit is the least one.
-/
namespace SignalFormula

/-- A binary format: the bits of a significand, and the least and the greatest exponent of its unit. -/
structure Format where
  precision : Nat
  minExp : Int
  maxExp : Int
  two_le_precision : 2 ≤ precision
  minExp_nonpos : minExp ≤ 0
  maxExp_nonneg : 0 ≤ maxExp

namespace Format

/-- Double precision: 53 bits, the least positive number is `2 ^ -1074`. -/
def double : Format := ⟨53, -1074, 971, by decide, by decide, by decide⟩

/-- Single precision: 24 bits, the least positive number is `2 ^ -149`. -/
def single : Format := ⟨24, -149, 104, by decide, by decide, by decide⟩

def sigBound (F : Format) : Nat := Nat.pow 2 F.precision

def sigFull (F : Format) : Nat := Nat.pow 2 (F.precision - 1)

/-- `sig * 2 ^ exp` is the format's own way of writing that magnitude. -/
structure Canonical (F : Format) (sig : Nat) (exp : Int) : Prop where
  sig_lt : sig < F.sigBound
  minExp_le : F.minExp ≤ exp
  le_maxExp : exp ≤ F.maxExp
  fills : F.sigFull ≤ sig ∨ exp = F.minExp

theorem canonical_iff (F : Format) (sig : Nat) (exp : Int) : F.Canonical sig exp ↔
    sig < F.sigBound ∧ F.minExp ≤ exp ∧ exp ≤ F.maxExp ∧ (F.sigFull ≤ sig ∨ exp = F.minExp) :=
  ⟨fun h => ⟨h.1, h.2, h.3, h.4⟩, fun h => ⟨h.1, h.2.1, h.2.2.1, h.2.2.2⟩⟩

instance (F : Format) (sig : Nat) (exp : Int) : Decidable (F.Canonical sig exp) :=
  decidable_of_iff _ (canonical_iff F sig exp).symm

theorem canonical_zero (F : Format) : F.Canonical 0 F.minExp :=
  ⟨Nat.two_pow_pos _, Int.le_refl _, Int.le_trans F.minExp_nonpos F.maxExp_nonneg, Or.inr rfl⟩

end Format

end SignalFormula
