/-!
What is asked of a source of randomness, and what is taken for granted of it.
-/
namespace StopAndWait

class RandomSource (γ : Type) where
  ofSeed : UInt64 → γ
  -- Whether an event of the given probability happens. What is no probability has no answer.
  event : Float → γ → Option (Bool × γ)
  -- A number below a bound that is not zero.
  below : Nat → γ → Nat × γ
  -- The place of a bit in a byte.
  bit : γ → UInt8 × γ

def IsProbability (p : Float) : Prop := p.isNaN = false ∧ ¬ p < 0 ∧ ¬ 1 < p

instance (p : Float) : Decidable (IsProbability p) :=
  inferInstanceAs (Decidable (_ ∧ ¬ _ ∧ ¬ _))

/-- Probabilities can be drawn from, and numbers are drawn in their range. -/
structure RandomSource.Laws (γ : Type) [RandomSource γ] : Prop where
  exists_event : ∀ p (g : γ), IsProbability p → ∃ happens g', event p g = some (happens, g')
  below_lt : ∀ bound (g : γ), 0 < bound → (below bound g).1 < bound
  bit_lt : ∀ g : γ, (bit g).1 < 8

end StopAndWait
