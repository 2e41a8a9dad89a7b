import SignalFormula.Scalar
/-!
# Noise — the register behind `rand`

A 16-bit Galois shift register with taps at bits 15, 13, 12 and 10.  A step shifts it right by one and, if the bit
shifted out was set, flips the taps.  Every register but zero is met once in 65535 steps; zero stays zero.
-/
namespace SignalFormula

structure Noise where
  register : UInt16
deriving DecidableEq, Repr

namespace Noise

def defaultSeed : UInt16 := 0xACE1

def taps : UInt16 := 0xB400

instance : Inhabited Noise := ⟨⟨defaultSeed⟩⟩

def step (n : Noise) : Noise :=
  let shifted := n.register >>> 1
  ⟨if n.register &&& 1 = 0 then shifted else shifted ^^^ taps⟩

def steps : Nat → Noise → Noise
  | 0, n => n
  | k + 1, n => steps k n.step

/-- **Steps add up.** -/
theorem steps_add : ∀ (j k : Nat) (n : Noise), steps (j + k) n = steps k (steps j n)
  | 0, k, n => by rw [Nat.zero_add]; rfl
  | j + 1, k, n => by rw [Nat.succ_add]; exact steps_add j k n.step

/-- A draw: the register one step on, as a value, and the noise that is left. -/
def draw {V : Type} [Scalar V] (n : Noise) : V × Noise := (Scalar.ofRegister n.step.register, n.step)

end Noise

end SignalFormula
