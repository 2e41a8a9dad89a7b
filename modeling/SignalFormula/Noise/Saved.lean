import SignalFormula.Spec.Reader
/-!
# Saved — a noise register kept as text

A host that keeps its state as JSON keeps a register as a plain number.
-/
namespace SignalFormula
namespace Noise

def save (n : Noise) : Text := Text.ofNat n.register.toNat

def restore (t : Text) : Except Spec.ReadError Noise := do
  let (draft, rest) := Json.Draft.read t
  let register ← Spec.readRegister draft
  Spec.ifWhole (Json.Draft.flawAfter (rest.getD [])) ⟨register⟩

end Noise

end SignalFormula
