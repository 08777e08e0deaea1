/-
The modes that exist, each with the interpretation of its values and the one
that compiled code has. They differ only in how an interval choice is found.
-/
import ScalarField.Eval.Interp

namespace ScalarField

/-- The values of a mode. -/
structure Domain (α : Type) where
  mode : Mode
  interp : Interp α
  /-- What compiled code computes. -/
  compiled : Interp α

namespace Domain

def point : Domain Binary64 := ⟨.point, .point, .point⟩

def interval : Domain Interval := ⟨.interval, .interval, .compiledInterval⟩

def simd4 : Domain Lanes := ⟨.simd4, .simd4, .simd4⟩

def grad : Domain (Grad Binary32) := ⟨.grad, .grad, .grad⟩

end Domain

end ScalarField
