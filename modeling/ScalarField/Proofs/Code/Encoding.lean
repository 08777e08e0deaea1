/-
An instruction is read back as it was written.

Each part is: the prefixes, the byte of two operands, an address, a
displacement. The parts give the fields, and the fields the instruction. Of a
constant operand the distance is open, and whatever stands there the
instruction is the same.
-/
import ScalarField.Code.Encoding
import ScalarField.Proofs.Code.Decoding
import ScalarField.Proofs.Tape.Codec

namespace ScalarField

/-! ## Prefixes -/

/-- The bits of a REX prefix complete the numbers of two registers, and say
nothing else. -/
structure Rex.Names (r : Rex) (reg rm : UInt8) : Prop where
  wide : r.wide = false
  index : ∀ low, r.index low = low
  reg : r.reg (reg &&& 7) = reg
  base : r.base (rm &&& 7) = rm

namespace Encoding

variable {reg rm : UInt8}

theorem low_eq (r : UInt8) : ∃ n : Fin 8, r &&& 7 = UInt8.ofNat n := by
  have hlt : (r &&& 7).toNat < 8 := by
    rw [UInt8.toNat_and]
    exact Nat.lt_of_le_of_lt Nat.and_le_right (by decide)
  exact ⟨⟨_, hlt⟩, UInt8.ofNat_toNat.symm⟩

theorem low_add_high {r : UInt8} (hr : r < 16) :
    (if r &&& 8 = 0 then r &&& 7 else (r &&& 7) + 8) = r := by
  have key : ∀ n : Fin 16, (if UInt8.ofNat n &&& 8 = 0 then UInt8.ofNat n &&& 7
      else (UInt8.ofNat n &&& 7) + 8) = UInt8.ofNat n := by decide
  simpa using key ⟨r.toNat, hr⟩

theorem rex_cases (reg rm : UInt8) :
    (reg &&& 8 = 0 ∧ rm &&& 8 = 0 ∧ rex reg rm = []) ∨
    (reg &&& 8 = 0 ∧ rm &&& 8 ≠ 0 ∧ rex reg rm = [0x41]) ∨
    (reg &&& 8 ≠ 0 ∧ rm &&& 8 = 0 ∧ rex reg rm = [0x44]) ∨
    (reg &&& 8 ≠ 0 ∧ rm &&& 8 ≠ 0 ∧ rex reg rm = [0x45]) := by
  unfold rex
  by_cases hreg : reg &&& 8 = 0
  · by_cases hrm : rm &&& 8 = 0
    · exact .inl ⟨hreg, hrm, by rw [if_pos hreg, if_pos hrm]; rfl⟩
    · exact .inr (.inl ⟨hreg, hrm, by rw [if_pos hreg, if_neg hrm]; rfl⟩)
  · by_cases hrm : rm &&& 8 = 0
    · exact .inr (.inr (.inl ⟨hreg, hrm, by rw [if_neg hreg, if_pos hrm]; rfl⟩))
    · exact .inr (.inr (.inr ⟨hreg, hrm, by rw [if_neg hreg, if_neg hrm]; rfl⟩))

theorem rex_names (hreg : reg < 16) (hrm : rm < 16) : Rex.Names (rex reg rm).head? reg rm := by
  have hr := low_add_high hreg
  have hb := low_add_high hrm
  rcases rex_cases reg rm with ⟨h₁, h₂, h⟩ | ⟨h₁, h₂, h⟩ | ⟨h₁, h₂, h⟩ | ⟨h₁, h₂, h⟩
  · rw [if_pos h₁] at hr
    rw [if_pos h₂] at hb
    rw [h]
    exact ⟨rfl, fun _ => rfl, hr, hb⟩
  · rw [if_pos h₁] at hr
    rw [if_neg h₂] at hb
    rw [h]
    exact ⟨rfl, fun _ => rfl, hr, hb⟩
  · rw [if_neg h₁] at hr
    rw [if_pos h₂] at hb
    rw [h]
    exact ⟨rfl, fun _ => rfl, hr, hb⟩
  · rw [if_neg h₁] at hr
    rw [if_neg h₂] at hb
    rw [h]
    exact ⟨rfl, fun _ => rfl, hr, hb⟩

theorem modRM_fields (mode : Fin 4) (reg rm : UInt8) :
    let b := modRM (UInt8.ofNat mode <<< 6) reg rm
    b >>> 6 = UInt8.ofNat mode ∧ (b >>> 3) &&& 7 = reg &&& 7 ∧ b &&& 7 = rm &&& 7 := by
  have key : ∀ (m : Fin 4) (x y : Fin 8),
      let b := UInt8.ofNat m <<< 6 ||| UInt8.ofNat x <<< 3 ||| UInt8.ofNat y
      b >>> 6 = UInt8.ofNat m ∧ (b >>> 3) &&& 7 = UInt8.ofNat x ∧ b &&& 7 = UInt8.ofNat y := by
    decide +kernel
  obtain ⟨x, hx⟩ := low_eq reg
  obtain ⟨y, hy⟩ := low_eq rm
  rw [modRM, hx, hy]
  exact key mode x y

end Encoding

namespace Fields

open Encoding

variable {reg rm base code : UInt8} {op imm s w : Bytes} {map : OpcodeMap} {d : Int32}

/-! ## Displacements -/

theorem split?_append {t : Bytes} {n : Nat} (h : t.length = n) : split? n (t ++ s) = some (t, s) := by
  subst h
  simp [split?]

theorem readDisp32_disp32 (d : Int32) (s : Bytes) : readDisp32 (disp32 d ++ s) = some (d, s) := by
  have hlt : d.toUInt32.toNat < 256 ^ 4 := d.toUInt32.toNat_lt
  unfold readDisp32 disp32
  rw [split?_append (Bytes.length_littleEndian 4 _)]
  show some ((UInt32.ofNat (Bytes.ofLittleEndian _)).toInt32, s) = some (d, s)
  rw [Bytes.ofLittleEndian_littleEndian hlt, UInt32.ofNat_toNat, Int32.toInt32_toUInt32]

theorem toInt32_toInt8 (h : -128 ≤ d ∧ d ≤ 127) : d.toInt8.toUInt8.toInt8.toInt32 = d := by
  have hlo : -128 ≤ d.toInt := Int32.le_iff_toInt_le.1 h.1
  have hhi : d.toInt ≤ 127 := Int32.le_iff_toInt_le.1 h.2
  rw [← Int32.toInt_inj, Int8.toInt8_toUInt8, Int8.toInt_toInt32, Int32.toInt_toInt8,
    Int.bmod_eq_of_le (by omega) (by omega)]

/-- A displacement is read by the mode that stands before it. The mode without
one is left to bases that allow it. -/
theorem displacement_cases (base : Gpr) (d : Int32) :
    ∃ m : Fin 4, UInt8.ofNat m ≠ 3 ∧ (UInt8.ofNat m = 0 → base &&& 7 ≠ 5) ∧
      (displacement base d).1 = UInt8.ofNat m <<< 6 ∧
      ∀ s, readDisp (UInt8.ofNat m) ((displacement base d).2 ++ s) = some (d, s) := by
  unfold displacement
  by_cases hzero : d = 0 ∧ base &&& 7 ≠ 5
  · rw [if_pos hzero]
    exact ⟨0, by decide, fun _ => hzero.2, rfl, fun s => by rw [hzero.1]; rfl⟩
  · rw [if_neg hzero]
    by_cases hbyte : -128 ≤ d ∧ d ≤ 127
    · rw [if_pos hbyte]
      refine ⟨1, by decide, fun h => absurd h (by decide), rfl, fun s => ?_⟩
      show some (d.toInt8.toUInt8.toInt8.toInt32, s) = some (d, s)
      rw [toInt32_toInt8 hbyte]
    · rw [if_neg hbyte]
      exact ⟨2, by decide, fun h => absurd h (by decide), rfl, readDisp32_disp32 d⟩

/-! ## Operands -/

theorem readOperands_register {r : Rex} (hr : r.Names reg rm) (s : Bytes) :
    readOperands r (modRM 0xC0 reg rm :: s) = some ((reg, .register rm), s) := by
  obtain ⟨hmode, hreg, hrm⟩ := modRM_fields 3 reg rm
  simp only [readOperands]
  rw [show modRM 0xC0 reg rm >>> 6 = 3 from hmode,
    show (modRM 0xC0 reg rm >>> 3) &&& 7 = reg &&& 7 from hreg,
    show modRM 0xC0 reg rm &&& 7 = rm &&& 7 from hrm, hr.reg, hr.base]
  rfl

theorem readOperands_address {r : Rex} (hr : r.Names reg base) (d : Int32) (s : Bytes) :
    readOperands r (modRM (displacement base d).1 reg base ::
      (scaled base ++ ((displacement base d).2 ++ s))) =
        some ((reg, .address (some base) none d), s) := by
  obtain ⟨m, hne, hzero, hmode, hdisp⟩ := displacement_cases base d
  obtain ⟨hm, hreg, hlow⟩ := modRM_fields m reg base
  rw [hmode]
  simp only [readOperands, hm, hreg, hlow, hr.reg, if_neg hne]
  by_cases hscaled : base &&& 7 = 4
  · -- The byte of a scaled index names no index, and the base itself.
    have hbase : r.base 4 = base := hscaled ▸ hr.base
    rw [if_pos hscaled, scaled, if_pos hscaled]
    simp only [readScaled, List.singleton_append, hr.index, hdisp]
    rw [show (0x24 : UInt8) >>> 3 &&& 7 = 4 by decide, show (0x24 : UInt8) &&& 7 = 4 by decide, hbase]
    simp
  · have hdistance : ¬(UInt8.ofNat m = 0 ∧ base &&& 7 = 5) := fun h => hzero h.1 h.2
    rw [if_neg hscaled, if_neg hdistance, scaled, if_neg hscaled, List.nil_append, hdisp, hr.base]
    rfl

/-- A distance of four bytes, whatever they are. -/
theorem readOperands_relative {r : Rex} (hr : r.reg (reg &&& 7) = reg) (hw : w.length = 4)
    (s : Bytes) :
    ∃ d, readOperands r (modRM 0 reg 5 :: (w ++ s)) = some ((reg, .relative d), s) := by
  obtain ⟨hmode, hreg, hlow⟩ := modRM_fields 0 reg 5
  refine ⟨(UInt32.ofNat (Bytes.ofLittleEndian w)).toInt32, ?_⟩
  simp only [readOperands]
  rw [show modRM 0 reg 5 >>> 6 = 0 from hmode,
    show (modRM 0 reg 5 >>> 3) &&& 7 = reg &&& 7 from hreg,
    show modRM 0 reg 5 &&& 7 = 5 from hlow, hr, readDisp32, split?_append hw]
  rfl

/-! ## Fields -/

/-- Bytes that are an operation code, and cannot be taken for a prefix. -/
structure Opens (op : Bytes) (map : OpcodeMap) (code : UInt8) : Prop where
  read : ∀ s, readOpcode (op ++ s) = some (map, code, s)
  head : ∃ b t, op = b :: t ∧ Form.ofPrefix? b = none ∧ b &&& 0xF0 ≠ 0x40

theorem opens_secondary (h₁ : code ≠ 0x38) (h₂ : code ≠ 0x3A) :
    Opens [0x0F, code] .secondary code :=
  ⟨fun s => by simp [readOpcode, h₂], _, _, rfl, rfl, by decide⟩

theorem opens_tertiary (code : UInt8) : Opens [0x0F, 0x3A, code] .tertiary code :=
  ⟨fun s => rfl, _, _, rfl, rfl, by decide⟩

theorem readForm_ofForm (f : Form) {b : UInt8} (hb : Form.ofPrefix? b = none) (s : Bytes) :
    readForm (ofForm f ++ b :: s) = (f, b :: s) := by
  cases f with
  | ps => simp [ofForm, readForm, hb]
  | pd => rfl
  | ss => rfl
  | sd => rfl

theorem read_prefixes (f : Form) (reg rm : UInt8) (hop : Opens op map code) (s : Bytes) :
    readForm (ofForm f ++ (Encoding.rex reg rm ++ (op ++ s))) = (f, Encoding.rex reg rm ++ (op ++ s)) ∧
      readRex (Encoding.rex reg rm ++ (op ++ s)) = ((Encoding.rex reg rm).head?, op ++ s) := by
  obtain ⟨b, t, rfl, hform, hrex⟩ := hop.head
  rcases rex_cases reg rm with ⟨-, -, h⟩ | ⟨-, -, h⟩ | ⟨-, -, h⟩ | ⟨-, -, h⟩
  · rw [h]
    exact ⟨readForm_ofForm f hform _, if_neg hrex⟩
  · rw [h]
    exact ⟨readForm_ofForm f rfl _, rfl⟩
  · rw [h]
    exact ⟨readForm_ofForm f rfl _, rfl⟩
  · rw [h]
    exact ⟨readForm_ofForm f rfl _, rfl⟩

theorem read_eq (f : Form) (reg rm : UInt8) (tail imm : Bytes) {o : UInt8 × Operand}
    (hop : Opens op map code) (hlayout : layout? map code = some (true, imm.length))
    (ho : readOperands (Encoding.rex reg rm).head? (tail ++ (imm ++ s)) = some (o, imm ++ s)) :
    read (ofForm f ++ (Encoding.rex reg rm ++ (op ++ (tail ++ (imm ++ s))))) =
      some (⟨f, (Encoding.rex reg rm).head?, map, code, some o, imm⟩, s) := by
  obtain ⟨hform, hrex⟩ := read_prefixes f reg rm hop (tail ++ (imm ++ s))
  simp [read, hform, hrex, hop.read, hlayout, ho, split?_append]

theorem read_plain (f : Form) (reg rm : UInt8) (imm s : Bytes) (hop : Opens op map code)
    (hlayout : layout? map code = some (false, imm.length)) :
    read (ofForm f ++ (Encoding.rex reg rm ++ (op ++ (imm ++ s)))) =
      some (⟨f, (Encoding.rex reg rm).head?, map, code, none, imm⟩, s) := by
  obtain ⟨hform, hrex⟩ := read_prefixes f reg rm hop (imm ++ s)
  simp [read, hform, hrex, hop.read, hlayout, split?_append]

end Fields

/-! ## Instructions -/

namespace Encoding

/-- The number of bytes at the end of an instruction that are left open. -/
def gap (e : Encoding) : Nat :=
  match e.const with
  | none => 0
  | some _ => 4

/-- The bytes of an instruction with the open ones replaced by `w`. -/
def filled (e : Encoding) (w : Bytes) : Bytes := e.bytes.take (e.bytes.length - e.gap) ++ w

variable {e : Encoding} {w : Bytes}

theorem filled_of_gap_eq_zero (he : e.gap = 0) (hw : w.length = e.gap) : e.filled w = e.bytes := by
  rw [he, List.length_eq_zero_iff] at hw
  rw [filled, he, hw, Nat.sub_zero, List.take_length, List.append_nil]

theorem length_filled (he : e.gap ≤ e.bytes.length) (hw : w.length = e.gap) :
    (e.filled w).length = e.bytes.length := by
  rw [filled, List.length_append, List.length_take_of_le (Nat.sub_le _ _), hw]
  omega

theorem filled_append (t : Bytes) {z : Bytes} (hz : z.length = 4) (v : Vec128) (w : Bytes) :
    filled ⟨t ++ z, some v⟩ w = t ++ w := by
  simp [filled, gap, hz]

end Encoding

/-- A base that exists, or a constant. -/
def Mem.allowed : Mem → Bool
  | .ptr base _ => base < 16
  | .const _ => true

namespace Insn

/-- The codes of arithmetic. -/
def arithCodes : List UInt8 :=
  [ArithCode.sqrt, ArithCode.add, ArithCode.mul, ArithCode.sub, ArithCode.min, ArithCode.div,
    ArithCode.max]

/-- The codes of bitwise operations. -/
def bitCodes : List UInt8 := [BitCode.and, BitCode.andNot, BitCode.or, BitCode.xor]

/-- The registers exist, the operation is one of its kind, and has the form. -/
def allowed : Insn → Bool
  | .arith _ op d s => op ∈ arithCodes && d < 16 && s < 16
  | .bit f op d s => f = f.packed && op ∈ bitCodes && d < 16 && s < 16
  | .bitMem f op d m => f = f.packed && op ∈ bitCodes && d < 16 && m.allowed
  | .load _ d m => d < 16 && m.allowed
  | .store _ m s => s < 16 && m.allowed
  | .movLow f d s => f ≠ f.packed && d < 16 && s < 16
  | .shuf f d s _ => f = f.packed && d < 16 && s < 16
  | .movImm d _ => d < 16
  | .storeByte base _ s => base < 16 && s < 16 && !s.lacksLowByte
  | .ret => true
  | .cmp _ _ d s | .round _ _ d s | .movaps d s | .movq d s | .unpackLow d s | .unpackHigh d s
  | .moveMask d s | .test d s | .cmovz d s => d < 16 && s < 16

/-- What an instruction becomes: a register moved to itself is nothing, and
doubles are moved as singles are. -/
def executed : Insn → Option Insn
  | .movaps d s => if d = s then none else some (.movaps d s)
  | .load .pd d m => some (.load .ps d m)
  | .store .pd m s => some (.store .ps m s)
  | i => some i

/-- Bytes are an instruction, whatever stands behind them. -/
def Reads (constant : Int32 → Option Vec128) (t : Bytes) (i : Insn) : Prop :=
  ∀ s, ∃ f, Fields.read (t ++ s) = some (f, s) ∧ f.insn? constant = some i

open Encoding Fields

variable {constant : Int32 → Option Vec128} {reg rm code : UInt8} {op imm w : Bytes}
  {map : OpcodeMap} {i : Insn}

theorem reads_regs (f : Form) (hop : Opens op map code)
    (hlayout : layout? map code = some (true, imm.length)) (hreg : reg < 16) (hrm : rm < 16)
    (hw : w.length = (regs (ofForm f) op reg rm imm).gap)
    (hi : ∀ r, registers? ⟨f, r, map, code, some (reg, .register rm), imm⟩ reg rm = some i) :
    Reads constant ((regs (ofForm f) op reg rm imm).filled w) i := by
  intro s
  have hnames := rex_names hreg hrm
  have hread := read_eq f reg rm [modRM 0xC0 reg rm] imm hop hlayout
    (readOperands_register hnames (imm ++ s))
  rw [filled_of_gap_eq_zero rfl hw]
  refine ⟨_, by simpa [regs] using hread, ?_⟩
  simpa [insn?, hnames.wide] using hi _

theorem reads_mem (f : Form) (hop : Opens op map code) (hlayout : layout? map code = some (true, 0))
    (hreg : reg < 16) {m : Mem} (hm : m.allowed) (hw : w.length = (mem (ofForm f) op reg m).gap)
    (hconst : ∀ v d, (mem (ofForm f) op reg m).const = some v → constant d = some v)
    (hi : ∀ r o, r.reg (reg &&& 7) = reg →
      memory? ⟨f, r, map, code, some (reg, o), []⟩ reg m = some i) :
    Reads constant ((mem (ofForm f) op reg m).filled w) i := by
  intro s
  cases m with
  | ptr base d =>
    have hnames := rex_names hreg (of_decide_eq_true hm)
    have hread := read_eq f reg base (modRM (displacement base d).1 reg base ::
      (scaled base ++ (displacement base d).2)) [] hop hlayout
      (s := s) (by simpa using readOperands_address hnames d s)
    rw [filled_of_gap_eq_zero rfl hw]
    refine ⟨_, by simpa [mem, ptr] using hread, ?_⟩
    simpa [insn?, hnames.wide, Operand.mem?] using hi _ _ hnames.reg
  | const v =>
    have hnames := rex_names hreg (show (0 : UInt8) < 16 by decide)
    obtain ⟨d, hd⟩ := readOperands_relative hnames.reg hw s
    have hread := read_eq f reg 0 (modRM 0 reg 5 :: w) [] hop hlayout hd
    rw [mem, filled_append _ rfl]
    refine ⟨_, by simpa using hread, ?_⟩
    simpa [insn?, hnames.wide, Operand.mem?, hconst v d rfl] using hi _ _ hnames.reg

/-! ### Codes with variable parts -/

theorem arith_code {c : UInt8} (h : c ∈ arithCodes) :
    Opens [0x0F, c] .secondary c ∧ layout? .secondary c = some (true, 0) ∧
      ∀ f r o reg rm, registers? ⟨f, r, .secondary, c, o, []⟩ reg rm = some (.arith f c reg rm) := by
  simp only [arithCodes, List.mem_cons, List.not_mem_nil, or_false] at h
  rcases h with rfl | rfl | rfl | rfl | rfl | rfl | rfl <;>
    exact ⟨opens_secondary (by decide) (by decide), rfl, fun f _ _ _ _ => by cases f <;> rfl⟩

theorem bit_code {c : UInt8} {f : Form} (h : c ∈ bitCodes) (hf : f = f.packed) :
    Opens [0x0F, c] .secondary c ∧ layout? .secondary c = some (true, 0) ∧
      (∀ r o reg rm, registers? ⟨f, r, .secondary, c, o, []⟩ reg rm = some (.bit f c reg rm)) ∧
      ∀ r o reg m, memory? ⟨f, r, .secondary, c, o, []⟩ reg m = some (.bitMem f c reg m) := by
  simp only [bitCodes, List.mem_cons, List.not_mem_nil, or_false] at h
  rcases h with rfl | rfl | rfl | rfl <;>
    refine ⟨opens_secondary (by decide) (by decide), rfl, ?_⟩ <;>
    cases f with
    | ps => exact ⟨fun _ _ _ _ => rfl, fun _ _ _ _ => rfl⟩
    | pd => exact ⟨fun _ _ _ _ => rfl, fun _ _ _ _ => rfl⟩
    | ss => cases hf
    | sd => cases hf

theorem imm_code (d : Gpr) :
    Opens [0xB8 + (d &&& 7)] .primary (0xB8 + (d &&& 7)) ∧
      layout? .primary (0xB8 + (d &&& 7)) = some (false, 4) ∧
      0xB8 + (d &&& 7) ≠ 0xC3 ∧ (0xB8 + (d &&& 7)) &&& 7 = d &&& 7 := by
  have key : ∀ n : Fin 8,
      let c : UInt8 := 0xB8 + UInt8.ofNat n
      c ≠ 0x0F ∧ Form.ofPrefix? c = none ∧ c &&& 0xF0 ≠ 0x40 ∧
        layout? .primary c = some (false, 4) ∧ c ≠ 0xC3 ∧ c &&& 7 = UInt8.ofNat n := by
    decide
  obtain ⟨n, hn⟩ := low_eq d
  obtain ⟨hopen, hform, hrex, hrest⟩ := key n
  rw [hn]
  exact ⟨⟨fun s => by simp [readOpcode, hopen], _, _, rfl, hform, hrex⟩, hrest⟩

theorem reads_movImm {d : Gpr} (hd : d < 16) (imm : UInt32) :
    Reads constant (movImm d imm).encode.bytes (.movImm d imm) := by
  intro s
  obtain ⟨hopens, hlayout, hne, hlow⟩ := imm_code d
  have hlt : imm.toNat < 256 ^ 4 := imm.toNat_lt
  have hnames := rex_names (show (0 : UInt8) < 16 by decide) hd
  have hread := read_plain .ps 0 d (Bytes.littleEndian 4 imm.toNat) s hopens
    (by rw [hlayout, Bytes.length_littleEndian])
  refine ⟨_, by simpa [encode, ofForm] using hread, ?_⟩
  simp [insn?, hnames.wide, plain?, hne, hlow, hnames.base, Bytes.ofLittleEndian_littleEndian hlt]

theorem memory?_storeByte {r : Rex} {o : Option (UInt8 × Operand)} {src : Gpr}
    (hlow : src.lacksLowByte = false) (hr : r.reg (src &&& 7) = src) (base : Gpr) (d : Int32) :
    memory? ⟨.ps, r, .primary, 0x88, o, []⟩ src (.ptr base d) = some (.storeByte base d src) := by
  have hrex : ¬(r = none ∧ 4 ≤ src) := by
    rintro ⟨rfl, hge⟩
    have hseven : src ≤ 7 := by
      have : (src &&& 7).toNat ≤ 7 := by
        rw [UInt8.toNat_and]
        exact Nat.and_le_right
      rwa [show src &&& 7 = src from hr] at this
    simp [Gpr.lacksLowByte, hge, hseven] at hlow
  exact if_neg hrex

theorem executed_load (f : Form) (d : Xmm) (m : Mem) :
    (load f d m).executed = some (.load (moving f) d m) := by
  cases f <;> rfl

theorem executed_store (f : Form) (m : Mem) (s : Xmm) :
    (store f m s).executed = some (.store (moving f) m s) := by
  cases f <;> rfl

/-- An instruction is read back as what it becomes, whatever the distance to
its constant. -/
theorem reads_encode {j : Insn} (h : i.allowed) (hj : i.executed = some j)
    (hw : w.length = i.encode.gap)
    (hconst : ∀ v d, i.encode.const = some v → constant d = some v) :
    Reads constant (i.encode.filled w) j := by
  cases i <;> simp only [allowed, Bool.and_eq_true, decide_eq_true_eq, Bool.not_eq_true'] at h
  case arith f op d s =>
    obtain ⟨⟨hop, hd⟩, hs⟩ := h
    obtain ⟨hopens, hlayout, hinsn⟩ := arith_code hop
    cases hj
    exact reads_regs f hopens hlayout hd hs hw fun _ => hinsn _ _ _ _ _
  case bit f op d s =>
    obtain ⟨⟨⟨hf, hop⟩, hd⟩, hs⟩ := h
    obtain ⟨hopens, hlayout, hinsn, -⟩ := bit_code hop hf
    cases hj
    exact reads_regs f hopens hlayout hd hs hw fun _ => hinsn _ _ _ _
  case bitMem f op d m =>
    obtain ⟨⟨⟨hf, hop⟩, hd⟩, hm⟩ := h
    obtain ⟨hopens, hlayout, -, hinsn⟩ := bit_code hop hf
    cases hj
    exact reads_mem f hopens hlayout hd hm hw hconst fun _ _ _ => hinsn _ _ _ _
  case cmp f pred d s =>
    cases hj
    exact reads_regs f (opens_secondary (by decide) (by decide)) rfl h.1 h.2 hw fun _ => rfl
  case round f mode d s =>
    cases hj
    exact reads_regs .pd (opens_tertiary _) rfl h.1 h.2 hw fun _ => by cases f <;> rfl
  case movaps d s =>
    have hne : d ≠ s := fun heq => by simp [executed, heq] at hj
    rw [executed, if_neg hne] at hj
    cases hj
    rw [encode, if_neg hne] at hw ⊢
    exact reads_regs .ps (opens_secondary (by decide) (by decide)) rfl h.1 h.2 hw fun _ => rfl
  case load f d m =>
    rw [executed_load] at hj
    cases hj
    exact reads_mem (moving f) (opens_secondary (by decide) (by decide)) rfl h.1 h.2 hw hconst
      fun _ _ _ => rfl
  case store f m s =>
    rw [executed_store] at hj
    cases hj
    exact reads_mem (moving f) (opens_secondary (by decide) (by decide)) rfl h.1 h.2 hw hconst
      fun _ _ _ => rfl
  case movLow f d s =>
    obtain ⟨⟨hf, hd⟩, hs⟩ := h
    cases hj
    refine reads_regs f (opens_secondary (by decide) (by decide)) rfl hd hs hw fun _ => ?_
    cases f with
    | ps => exact absurd rfl hf
    | pd => exact absurd rfl hf
    | ss => rfl
    | sd => rfl
  case movq d s =>
    cases hj
    exact reads_regs .ss (opens_secondary (by decide) (by decide)) rfl h.1 h.2 hw fun _ => rfl
  case shuf f d s sel =>
    obtain ⟨⟨hf, hd⟩, hs⟩ := h
    cases hj
    refine reads_regs f (opens_secondary (by decide) (by decide)) rfl hd hs hw fun _ => ?_
    cases f with
    | ps => rfl
    | pd => rfl
    | ss => cases hf
    | sd => cases hf
  case unpackLow d s =>
    cases hj
    exact reads_regs .pd (opens_secondary (by decide) (by decide)) rfl h.1 h.2 hw fun _ => rfl
  case unpackHigh d s =>
    cases hj
    exact reads_regs .pd (opens_secondary (by decide) (by decide)) rfl h.1 h.2 hw fun _ => rfl
  case moveMask d s =>
    cases hj
    exact reads_regs .pd (opens_secondary (by decide) (by decide)) rfl h.1 h.2 hw fun _ => rfl
  case movImm d imm =>
    cases hj
    rw [filled_of_gap_eq_zero rfl hw]
    exact reads_movImm h imm
  case test x y =>
    cases hj
    exact reads_regs .ps ⟨fun _ => rfl, _, _, rfl, rfl, by decide⟩ rfl h.2 h.1 hw fun _ => rfl
  case cmovz d s =>
    cases hj
    exact reads_regs .ps (opens_secondary (by decide) (by decide)) rfl h.1 h.2 hw fun _ => rfl
  case storeByte base d s =>
    obtain ⟨⟨hbase, hs⟩, hlow⟩ := h
    cases hj
    exact reads_mem (m := .ptr base d) .ps ⟨fun _ => rfl, _, _, rfl, rfl, by decide⟩ rfl hs
      (decide_eq_true hbase) hw hconst fun _ _ hr => memory?_storeByte hlow hr base d
  case ret =>
    cases hj
    rw [filled_of_gap_eq_zero rfl hw]
    intro s
    exact ⟨_, read_plain .ps 0 0 [] s ⟨fun _ => rfl, _, _, rfl, rfl, by decide⟩ rfl, rfl⟩

-- A base with the low bits of `rbp` has a displacement even if it is zero.
example : (Fields.read [0x45, 0x0F, 0x10, 0x6D, 0x00, 0xC3]).map (fun (f, s) => (f.insn? constant, s)) =
    some (some (.load .ps 13 (.ptr 13 0)), [0xC3]) := by
  rfl

theorem encode_of_executed_eq_none (h : i.executed = none) : i.encode = ⟨[], none⟩ := by
  cases i with
  | movaps d s =>
    by_cases hds : d = s
    · rw [encode, if_pos hds]
    · rw [executed, if_neg hds] at h
      cases h
  | load f d m =>
    rw [executed_load] at h
    cases h
  | store f m s =>
    rw [executed_store] at h
    cases h
  | _ => cases h

/-- The open bytes stand behind others. -/
theorem encode_of_const {v : Vec128} (h : i.encode.const = some v) :
    i.encode.gap = 4 ∧ 4 < i.encode.bytes.length := by
  refine ⟨by rw [gap, h], ?_⟩
  have hmem {lead op : Bytes} {reg : UInt8} {m : Mem} (h : (mem lead op reg m).const = some v) :
      4 < (mem lead op reg m).bytes.length := by
    cases m with
    | ptr base d => cases h
    | const v =>
      simp only [mem, List.length_append, List.length_cons, List.length_nil]
      omega
  cases i with
  | bitMem f op d m => exact hmem h
  | load f d m => exact hmem h
  | store f m s => exact hmem h
  | movaps d s =>
    rw [encode] at h
    split at h <;> cases h
  | _ => cases h

theorem gap_le (i : Insn) : i.encode.gap ≤ i.encode.bytes.length := by
  cases hc : i.encode.const with
  | none =>
    rw [gap, hc]
    exact Nat.zero_le _
  | some v =>
    obtain ⟨hgap, hlen⟩ := encode_of_const hc
    omega

end Insn

end ScalarField
