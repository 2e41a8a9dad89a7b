import Mathlib.Tactic.SplitIfs
import SignalFormula.Text.Basic
/-!
# Bytes — the order of texts is that of their bytes

In UTF-8 a greater character has a greater first byte, or the same one and a greater byte behind it.  So texts are in the
order of their bytes, one byte after the other, exactly if they are in the order of their characters (`bytes_lt_bytes_iff`).
-/
namespace SignalFormula
namespace Text

/-- The bytes of a text in UTF-8. -/
def bytes (t : Text) : List UInt8 := t.flatMap String.utf8EncodeChar

theorem bytes_cons (c : Char) (t : Text) : bytes (c :: t) = String.utf8EncodeChar c ++ bytes t := List.flatMap_cons

/-- **The bytes of a greater character are greater**, whatever follows them. -/
theorem utf8EncodeChar_append_lt {c d : Char} (h : c < d) (x y : List UInt8) :
    String.utf8EncodeChar c ++ x < String.utf8EncodeChar d ++ y := by
  have hlt : c.val.toNat < d.val.toNat := UInt32.lt_iff_toNat_lt.1 h
  have hsize : d.val.toNat < 0x110000 := by
    have hvalid : d.val.toNat.isValidChar := d.valid
    rcases hvalid with hlow | ⟨-, hhigh⟩
    · omega
    · exact hhigh
  unfold String.utf8EncodeChar
  simp only
  generalize c.val.toNat = v at hlt
  generalize d.val.toNat = w at hlt hsize
  -- the first byte says how many there are, and of equally many they are the digits to the base 64
  split_ifs <;>
    simp only [List.cons_append, List.nil_append, List.cons_lt_cons_iff, UInt8.lt_iff_toNat_lt, ← UInt8.toNat_inj,
      UInt8.toNat_ofNat'] <;>
    simp (disch := omega) only [Nat.mod_eq_of_lt] <;>
    omega

theorem bytes_lt_bytes : ∀ {s t : Text}, s < t → bytes s < bytes t
  | [], d :: t, _ => by
    rw [bytes_cons, bytes, List.flatMap_nil]
    cases henc : String.utf8EncodeChar d with
    | nil => exact absurd henc String.utf8EncodeChar_ne_nil
    | cons b bs => exact List.nil_lt_cons _ _
  | c :: s, d :: t, h => by
    rw [bytes_cons, bytes_cons]
    rcases List.cons_lt_cons_iff.1 h with hlt | ⟨rfl, hlt⟩
    · exact utf8EncodeChar_append_lt hlt _ _
    · exact List.append_left_lt (bytes_lt_bytes hlt)

/-- **The order of texts is that of their bytes.** -/
theorem bytes_lt_bytes_iff {s t : Text} : bytes s < bytes t ↔ s < t := by
  constructor
  · intro h
    refine Decidable.byContradiction fun hnot => ?_
    rcases List.le_iff_lt_or_eq.1 (List.not_lt.1 hnot) with hlt | rfl
    · exact List.lt_asymm h (bytes_lt_bytes hlt)
    · exact List.lt_irrefl _ h
  · exact bytes_lt_bytes

end Text

end SignalFormula
