/-
Four independent singles, and the operators on each of them.
-/
import ScalarField.Eval.Scalar
import ScalarField.Fault

namespace ScalarField

/-- Four numbers. -/
abbrev Lanes := Vector Binary32 4

namespace Lanes

/-- One number in every lane. -/
def splat (v : Binary32) : Lanes := Vector.replicate 4 v

def unary (op : UnaryOp) (a : Lanes) : Lanes := a.map (Scalar.unary op)

def binary (op : BinaryOp) (a b : Lanes) : Lanes := Vector.zipWith (Scalar.binary op) a b

/-- Four points, given by their coordinates, as one value for each coordinate
of the first point. -/
def ofPoints (points : Vector (Array Binary32) 4) : Except Fault (List Lanes) :=
  (List.range points[0].size).mapM fun v => points.mapM fun p => lookup p v

end Lanes

end ScalarField
