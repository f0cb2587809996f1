/-!
Doubles as the numbers of tensors: counts are read as doubles where a mean is taken.
-/

namespace GradientReplay

instance instNatCastFloat : NatCast Float := ⟨Float.ofNat⟩

end GradientReplay
