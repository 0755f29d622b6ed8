/-! # Time -/

namespace TimingProbes

class Clock (m : Type → Type) where
  /-- Nanoseconds since some moment that stays the same. -/
  nanoseconds : m Nat

end TimingProbes
