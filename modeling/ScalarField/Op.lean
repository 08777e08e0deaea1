/-
The operators of an expression: two leaves, the unary and the binary
operators. Each has a code, the number that encodings and instructions hold;
other codes are no operator.
-/
import ScalarField.Bytes

namespace ScalarField

inductive UnaryOp where
  | neg | abs | recip | sqrt | square | floor | ceil
  /-- To the nearest integer, halfway to the even one. -/
  | round
  | sin | cos | tan | asin | acos | atan | exp | ln
  /-- One if the operand is zero, zero otherwise. -/
  | not
  deriving DecidableEq

inductive BinaryOp where
  | add | sub | mul | div | min | max
  /-- The euclidean remainder. -/
  | mod
  | atan2
  /-- Minus one, zero or one. -/
  | compare
  /-- The first operand if it is zero, the second otherwise. -/
  | and
  /-- The first operand if it is not zero, the second otherwise. -/
  | or
  deriving DecidableEq

namespace UnaryOp

/-- Every unary operator, in the order of the codes. -/
def all : List UnaryOp :=
  [.neg, .abs, .recip, .sqrt, .square, .floor, .ceil, .round, .sin, .cos, .tan, .asin, .acos,
    .atan, .exp, .ln, .not]

def code : UnaryOp → UInt8
  | .neg => 3 | .abs => 4 | .recip => 5 | .sqrt => 6 | .square => 7 | .floor => 8 | .ceil => 9
  | .round => 10 | .sin => 11 | .cos => 12 | .tan => 13 | .asin => 14 | .acos => 15
  | .atan => 16 | .exp => 17 | .ln => 18 | .not => 19

def name : UnaryOp → String
  | .neg => "neg" | .abs => "abs" | .recip => "recip" | .sqrt => "sqrt" | .square => "square"
  | .floor => "floor" | .ceil => "ceil" | .round => "round" | .sin => "sin" | .cos => "cos"
  | .tan => "tan" | .asin => "asin" | .acos => "acos" | .atan => "atan" | .exp => "exp"
  | .ln => "ln" | .not => "not"

/-- Whether the operator is an elementary function of the machine. -/
def isElementary : UnaryOp → Bool
  | .sin | .cos | .tan | .asin | .acos | .atan | .exp | .ln => true
  | _ => false

end UnaryOp

namespace BinaryOp

/-- Every binary operator, in the order of the codes. -/
def all : List BinaryOp :=
  [.add, .sub, .mul, .div, .min, .max, .mod, .atan2, .compare, .and, .or]

def code : BinaryOp → UInt8
  | .add => 20 | .sub => 21 | .mul => 22 | .div => 23 | .min => 24 | .max => 25 | .mod => 26
  | .atan2 => 27 | .compare => 28 | .and => 29 | .or => 30

def name : BinaryOp → String
  | .add => "add" | .sub => "sub" | .mul => "mul" | .div => "div" | .min => "min"
  | .max => "max" | .mod => "mod" | .atan2 => "atan2" | .compare => "compare" | .and => "and"
  | .or => "or"

/-- Whether the operands may be swapped. -/
def isCommutative : BinaryOp → Bool
  | .add | .mul | .min | .max => true
  | _ => false

/-- Whether the operator yields one of its operands, so that a region may
decide which. -/
def isChoice : BinaryOp → Bool
  | .min | .max | .and | .or => true
  | _ => false

end BinaryOp

inductive Op where
  /-- The value of a variable. -/
  | input
  | const
  | unary (u : UnaryOp)
  | binary (b : BinaryOp)
  deriving DecidableEq

namespace Op

/-- Every operator, in the order of the codes. -/
def all : List Op :=
  .input :: .const :: UnaryOp.all.map .unary ++ BinaryOp.all.map .binary

def code : Op → UInt8
  | .input => 1
  | .const => 2
  | .unary u => u.code
  | .binary b => b.code

/-- The operator with a given code. -/
def ofCode? (c : UInt8) : Option Op := all.find? (·.code == c)

def name : Op → String
  | .input => "input"
  | .const => "const"
  | .unary u => u.name
  | .binary b => b.name

/-- The number of operands. -/
def arity : Op → Nat
  | .input | .const => 0
  | .unary _ => 1
  | .binary _ => 2

def isCommutative : Op → Bool
  | .binary b => b.isCommutative
  | _ => false

def isChoice : Op → Bool
  | .binary b => b.isChoice
  | _ => false

/-- Whether the operator is an elementary function of the machine. -/
def isElementary : Op → Bool
  | .unary u => u.isElementary
  | .binary .atan2 => true
  | _ => false

/-- The unary or binary operator of a given name; the leaves have none. -/
def ofName? (s : Bytes) : Option Op := (all.drop 2).find? (utf8 ·.name == s)

/-- The name that stands for a code. -/
def nameOfCode (c : UInt8) : String :=
  match ofCode? c with
  | some op => op.name
  | none => "invalid"

/-- The number of operands that go with a code. -/
def arityOfCode (c : UInt8) : Nat :=
  match ofCode? c with
  | some op => op.arity
  | none => 0

end Op

end ScalarField
