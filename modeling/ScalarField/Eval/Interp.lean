/-
Evaluating a tape under an interpretation of its operators.

An interpretation says what constants and operators mean for one type of
values; there is one for each mode. An evaluator keeps a slot for each
instruction from one evaluation to the next, and the choices of the latest
one. Evaluating a valid tape writes every slot before reading it, so nothing
of an earlier evaluation shows.
-/
import ScalarField.Eval.Grad
import ScalarField.Eval.Interval
import ScalarField.Eval.Lanes
import ScalarField.Eval.Mode
import ScalarField.Tape.Choice

namespace ScalarField

/-- What constants and operators mean for values of type `α`. -/
structure Interp (α : Type) where
  /-- What a slot holds before it is written. -/
  blank : α
  const : Binary64 → α
  unary : UnaryOp → α → α
  binary : BinaryOp → α → α → α
  /-- The choice that an operator makes. -/
  choice : BinaryOp → α → α → Choice

namespace Interp

/-- One point. -/
def point : Interp Binary64 where
  blank := .zero
  const := id
  unary := Scalar.unary
  binary := Scalar.binary
  choice _ _ _ := .unknown

/-- A region, as an interval for each variable. -/
def interval : Interp Interval where
  blank := .zero
  const := .splat
  unary := Interval.unary
  binary := Interval.binary
  choice := Interval.choice

/-- A region, the choices recorded as compiled code records them. -/
def compiledInterval : Interp Interval := { interval with choice := Interval.compiledChoice }

/-- Four points at once. -/
def simd4 : Interp Lanes where
  blank := .splat .zero
  const v := .splat v.convert
  unary := Lanes.unary
  binary := Lanes.binary
  choice _ _ _ := .unknown

/-- One point with derivatives, at any type of numbers; `reading` gives the
numbers that constants stand for. -/
def forward {α ω : Type} [Arith α] [Analytic ω] [Precision α ω] (reading : Binary64 → α) :
    Interp (Grad α) where
  blank := .const (Arith.ofInt 0)
  const v := .const (reading v)
  unary := Grad.unary
  binary := Grad.binary
  choice _ _ _ := .unknown

/-- One point with derivatives. -/
def grad : Interp (Grad Binary32) := forward Binary.convert

end Interp

/-- Why an evaluation gives no results. -/
inductive EvalError where
  | inputs (got want : Nat)
  | outputs (got want : Nat)
  | fault (cause : Fault)
  deriving DecidableEq

namespace EvalError

def arity (what : String) (got want : Nat) : Bytes :=
  utf8 "eval: got " ++ Bytes.ofNat got ++ utf8 " " ++ utf8 what ++ utf8 ", tape needs " ++
    Bytes.ofNat want

def message : EvalError → Bytes
  | .inputs got want => arity "inputs" got want
  | .outputs got want => arity "outputs" got want
  | .fault f => f.message.getD []

end EvalError

/-- Checks the number of inputs and of results asked for. -/
def Tape.checkArity (t : Tape) (inputs outputs : Nat) : Except EvalError Unit :=
  if inputs ≠ t.vars.size then .error (.inputs inputs t.vars.size)
  else if outputs ≠ t.outputs.size then .error (.outputs outputs t.outputs.size)
  else .ok ()

/-- The slots and choices of an evaluation. -/
structure Slots (α : Type) where
  values : Array α
  choices : Array Choice

namespace Slots

variable {α : Type}

/-- The slots before the first evaluation of a tape. -/
def blank (I : Interp α) (t : Tape) : Slots α :=
  ⟨Array.replicate t.size I.blank, Array.replicate t.size .unknown⟩

/-- The input of a variable. -/
def inputOf (inputs : Array α) (var : Int) : Except Fault α :=
  if var < 0 then .error .range else lookup inputs var.toNat

/-- The value of an instruction, and the choice it makes if it has two
operands. -/
def valueOf (I : Interp α) (inputs : Array α) (s : Slots α) (i : Instr) :
    Except Fault (α × Option Choice) :=
  match i.op? with
  | some .input => (inputOf inputs i.var).map (·, none)
  | some .const => .ok (I.const i.imm, none)
  | some (.unary u) => (lookup s.values i.left).map fun a => (I.unary u a, none)
  | some (.binary b) =>
    match lookup s.values i.left, lookup s.values i.right with
    | .ok x, .ok y => .ok (I.binary b x y, some (I.choice b x y))
    | .error e, _ => .error e
    | _, .error e => .error e
  | none =>
    match lookup s.values i.left with
    | .ok _ => .error (.unexpectedOp i.code)
    | .error e => .error e

/-- Writes a slot. -/
def write (s : Slots α) (slot : Nat) (v : α) (c : Option Choice) : Slots α where
  values := s.values.setIfInBounds slot v
  choices :=
    match c with
    | some c => s.choices.setIfInBounds slot c
    | none => s.choices

/-- Executes the instructions that start at `slot`; a fault leaves the slots
as they are then. -/
def exec (I : Interp α) (inputs : Array α) (s : Slots α) :
    Nat → List Instr → Slots α × Except Fault Unit
  | _, [] => (s, .ok ())
  | slot, i :: rest =>
    match valueOf I inputs s i with
    | .error e => (s, .error e)
    | .ok (v, c) => exec I inputs (s.write slot v c) (slot + 1) rest

end Slots

/-- An evaluator of one tape. -/
structure Evaluator (α : Type) where
  interp : Interp α
  tape : Tape
  slots : Slots α

namespace Evaluator

variable {α : Type}

/-- A fresh evaluator. -/
def new (I : Interp α) (t : Tape) : Evaluator α := ⟨I, t, .blank I t⟩

/-- The choices of the latest evaluation, one for each position. -/
def choices (e : Evaluator α) : List Choice := e.slots.choices.toList

/-- Evaluates the tape: one input for each variable, one result for each
output, `outputs` results being asked for. -/
def eval (e : Evaluator α) (inputs : Array α) (outputs : Nat) :
    Except EvalError (List α) × Evaluator α :=
  match e.tape.checkArity inputs.size outputs with
  | .error err => (.error err, e)
  | .ok () =>
    match e.slots.exec e.interp inputs 0 e.tape.instrs.toList with
    | (s, .error f) => (.error (.fault f), { e with slots := s })
    | (s, .ok ()) =>
      match lookupAll s.values e.tape.outputs.toList with
      | .error f => (.error (.fault f), { e with slots := s })
      | .ok out => (.ok out, { e with slots := s })

end Evaluator

/-- The results of a tape, evaluated once. -/
def Tape.eval {α : Type} (I : Interp α) (t : Tape) (inputs : Array α) :
    Except EvalError (List α) :=
  ((Evaluator.new I t).eval inputs t.outputs.size).1

end ScalarField
