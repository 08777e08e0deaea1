/-
What can go wrong with a tape, and the words for it.
-/
import ScalarField.Fault
import ScalarField.Text.Display

namespace ScalarField

/-- Why bytes are not the encoding of a tape. -/
inductive Corruption where
  | magic
  | version (found : UInt8)
  | truncated
  | count (n : Nat)
  | trailing (n : Nat)
  deriving DecidableEq

def Corruption.message : Corruption → Bytes
  | .magic => utf8 "bad magic"
  | .version v => utf8 "unknown version " ++ Bytes.ofNat v.toNat
  | .truncated => utf8 "truncated"
  | .count n => utf8 "count " ++ Bytes.ofNat n ++ utf8 " exceeds remaining data"
  | .trailing n => Bytes.ofNat n ++ utf8 " trailing bytes"

/-- Why a tape breaks the rules of tapes. -/
inductive Violation where
  | op (slot : Nat) (code : UInt8)
  | absentVar (slot : Nat) (index : Int)
  | operand (slot arg : Nat)
  | output (slot : Nat)
  deriving DecidableEq

def Violation.message : Violation → Bytes
  | .op slot c => utf8 "slot " ++ Bytes.ofNat slot ++ utf8 ": bad op " ++ Bytes.ofNat c.toNat
  | .absentVar slot i =>
    utf8 "slot " ++ Bytes.ofNat slot ++ utf8 ": variable " ++ Bytes.ofInt i ++
      utf8 " out of range"
  | .operand slot a =>
    utf8 "slot " ++ Bytes.ofNat slot ++ utf8 ": operand " ++ Bytes.ofNat a ++
      utf8 " does not precede it"
  | .output slot => utf8 "output slot " ++ Bytes.ofNat slot ++ utf8 " out of range"

inductive TapeError where
  | noOutputs
  /-- An output that is no node of the graph. -/
  | absentOutput (id size : Nat)
  | invalid (cause : Violation)
  /-- More instructions than slot numbers of 32 bits. -/
  | tooLarge
  | registerCount (n : Int)
  | corrupt (cause : Corruption)
  | longName (length : Nat)
  | choiceCount (given size : Nat)
  /-- The compressed form cannot be read. -/
  | undecompressible
  | fault (cause : Fault)
  deriving DecidableEq

def TapeError.message : TapeError → Bytes
  | .noOutputs => utf8 "tape: no outputs"
  | .absentOutput id size =>
    utf8 "tape: output node " ++ Bytes.ofNat id ++ utf8 " not present in graph of " ++
      Bytes.ofNat size ++ utf8 " nodes"
  | .invalid v => utf8 "tape: invalid tape: " ++ v.message
  | .tooLarge => utf8 "tape: too many instructions"
  | .registerCount n => utf8 "tape: register count out of range: " ++ Bytes.ofInt n
  | .corrupt c => utf8 "tape: corrupt encoding: " ++ c.message
  | .longName n => utf8 "tape: variable name of " ++ Bytes.ofNat n ++ utf8 " bytes too long"
  | .choiceCount given size =>
    utf8 "tape: " ++ Bytes.ofNat given ++ utf8 " choices for a tape of " ++ Bytes.ofNat size ++
      utf8 " instructions"
  | .undecompressible => utf8 "tape: decompressing"
  | .fault f => f.message.getD []

end ScalarField
