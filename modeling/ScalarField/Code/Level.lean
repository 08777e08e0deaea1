/-
Levels: which instructions compiled code may use. Higher levels allow more.

The level of a process is the one its processor has, unless a setting of the
environment lowers it.
-/
import ScalarField.Text.Display
import ScalarField.Text.Reading

namespace ScalarField

/-- A level, by its code. -/
structure Level where
  code : UInt32
  deriving DecidableEq

namespace Level

/-- Nothing is compiled. -/
def none : Level := ⟨0⟩
/-- The baseline, without rounding. -/
def sse2 : Level := ⟨1⟩
def sse41 : Level := ⟨2⟩
/-- The level of the process is to be found out. -/
def detect : Level := ⟨0xFFFFFFFF⟩

def name (l : Level) : Bytes :=
  if l = none then utf8 "none"
  else if l = sse2 then utf8 "sse2"
  else if l = sse41 then utf8 "sse41"
  else if l = detect then utf8 "detect"
  else utf8 "Level(" ++ Bytes.ofNat l.code.toNat ++ utf8 ")"

/-- Whether a level allows what another one does. -/
def allows (l m : Level) : Bool := m.code ≤ l.code

/-- The words that stand for levels. -/
def words : List (Bytes × Level) :=
  [([], detect), (utf8 "detect", detect), (utf8 "none", none), (utf8 "disabled", none),
    (utf8 "off", none), (utf8 "sse2", sse2), (utf8 "sse41", sse41), (utf8 "sse4.1", sse41)]

/-- The level of a word, in any case. -/
def ofName? (s : Bytes) : Option Level := words.lookup s.lower

/-- The words for a name that is no level's. -/
def unknown (s : Bytes) : Bytes := utf8 "jit: unknown level " ++ s.quoted

end Level

/-- What a process knows about levels. -/
structure Host where
  /-- The level of the processor. -/
  cpu : Level := .sse41
  /-- The setting of the environment; empty is no setting. -/
  setting : Bytes := []
  /-- The level in use. -/
  level : Level := .sse41

namespace Host

/-- The name of the setting. -/
def settingName : Bytes := utf8 "SHAPEVM_JIT_LEVEL"

/-- The level of the processor as lowered by the setting, and a warning if the
setting means nothing. -/
def detect (h : Host) : Level × List Bytes :=
  match Level.ofName? h.setting with
  | none =>
    (h.cpu, [utf8 "jit: ignoring " ++ settingName ++ utf8 "=" ++ h.setting.quoted ++ utf8 ": " ++
      Level.unknown h.setting])
  | some l => (if h.cpu.allows l then l else h.cpu, [])

/-- The level itself, or the one detected. -/
def resolve (h : Host) (l : Level) : Level × List Bytes :=
  if l = .detect then h.detect else (l, [])

/-- Changes the level in use. -/
def setLevel (h : Host) (l : Level) : Host × List Bytes :=
  let (l, warnings) := h.resolve l
  ({ h with level := l }, warnings)

/-- The processor with a setting of the environment. -/
def start (setting : Bytes) : Host × List Bytes := { setting : Host }.setLevel .detect

end Host

end ScalarField
