/-
Simplifying a tape over a region: interval evaluation finds the choices that
the region decides, and the tape is simplified by them.

Intervals do not say where a value is NaN. A choice is resolved even if the
operand that is passed over is NaN at a point of the region; there the
simplified tape yields the operand that is kept.
-/
import ScalarField.Eval.Interp

namespace ScalarField

/-- Why a tape cannot be simplified over a region, or choices do not belong to
it. -/
inductive RegionError where
  | eval (cause : EvalError)
  | tape (cause : TapeError)
  | choiceCount (given size : Nat)
  | mismatch (pos : Nat) (got want : Choice)
  deriving DecidableEq

def RegionError.message : RegionError → Bytes
  | .eval e => e.message
  | .tape e => e.message
  | .choiceCount given size =>
    utf8 "eval: " ++ Bytes.ofNat given ++ utf8 " choices for a tape of " ++ Bytes.ofNat size ++
      utf8 " instructions"
  | .mismatch pos got want =>
    utf8 "eval: choice at position " ++ Bytes.ofNat pos ++ utf8 " is " ++ want.name ++
      utf8 ", re-derived " ++ got.name

namespace Tape

/-- The results and the choices of a tape over a region. -/
def choicesOver (t : Tape) (region : Array Interval) :
    Except EvalError (List Interval × List Choice) :=
  match (Evaluator.new Interp.interval t).eval region t.outputs.size with
  | (.ok out, e) => .ok (out, e.choices)
  | (.error err, _) => .error err

/-- A tape that is equal to `t` in the region, and the choices that it was
simplified by. -/
def simplifyOver (t : Tape) (region : Array Interval) : Except RegionError (Tape × List Choice) :=
  match t.choicesOver region with
  | .error e => .error (.eval e)
  | .ok (_, cs) =>
    match t.simplify cs with
    | .error e => .error (.tape e)
    | .ok s => .ok (s, cs)

/-- The first resolved choice that is not found again; `pos` choices stand
before. -/
def mismatch? (pos : Nat) : List Choice → List Choice → Option RegionError
  | w :: want, g :: got =>
    if w.isResolved && g != w then some (.mismatch pos g w) else mismatch? (pos + 1) want got
  | _, _ => none

/-- Checks that every resolved choice is found again over the region. -/
def verifyChoices (t : Tape) (region : Array Interval) (want : List Choice) :
    Except RegionError Unit :=
  match t.choicesOver region with
  | .error e => .error (.eval e)
  | .ok (_, got) =>
    if want.length ≠ got.length then .error (.choiceCount want.length got.length)
    else
      match mismatch? 0 want got with
      | some e => .error e
      | none => .ok ()

end Tape

end ScalarField
