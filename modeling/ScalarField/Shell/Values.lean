/-
The values of each mode as a user writes and reads them: a number, an interval
`lo:hi`, four lanes `a,b,c,d`, and a gradient as its value with its
derivatives. A single number stands for an interval or for four lanes too.
-/
import ScalarField.Shell.Error

namespace ScalarField

namespace Shell

def readNumber (f : Format) (w : Bytes) : Except ShellError (Binary f) :=
  (Binary.read f w).mapError (.number w)

def readInterval (w : Bytes) : Except ShellError Interval :=
  match w.cut (Bytes.ofChar ':') with
  | (_, none) => (readNumber .binary64 w).map .splat
  | (l, some h) => do
    let lo ← readNumber .binary64 l
    let hi ← readNumber .binary64 h
    if lo.le hi then return ⟨lo, hi⟩ else throw (.badInterval w)

def readLanes (w : Bytes) : Except ShellError Lanes :=
  match w.split (Bytes.ofChar ',') with
  | [_] => (readNumber .binary32 w).map .splat
  | [a, b, c, d] => do
    let a ← readNumber .binary32 a
    let b ← readNumber .binary32 b
    let c ← readNumber .binary32 c
    let d ← readNumber .binary32 d
    return #v[a, b, c, d]
  | _ => .error (.laneCount w)

/-- The values of words, up to the first that has none. -/
def readAll {α : Type} (read : Bytes → Except ShellError α) : List Bytes → Except ShellError (List α)
  | [] => .ok []
  | w :: rest =>
    match read w with
    | .error e => .error e
    | .ok v => (readAll read rest).map (v :: ·)

/-- A point with the derivatives of its first three coordinates. -/
def readGrads (words : List Bytes) : Except ShellError (List (Grad Binary32)) :=
  match readAll (readNumber .binary32) words with
  | .error e => .error e
  | .ok (x :: y :: z :: rest) => .ok (Grad.seed x y z rest)
  | .ok _ => .error .tooFewAxes

def printLanes (a : Lanes) : Bytes :=
  utf8 "[" ++ Bytes.join (utf8 " ") (a.toList.map Binary.print) ++ utf8 "]"

def printGrad (a : Grad Binary32) : Bytes :=
  a.v.print ++ utf8 " [" ++ Bytes.join (utf8 " ") ([a.dx, a.dy, a.dz].map Binary.print) ++
    utf8 "]"

end Shell

end ScalarField
