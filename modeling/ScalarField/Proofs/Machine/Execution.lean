/-
Laws of execution: sequences run one after the other, a sequence leaves alone
what its instructions do not write, and memory gives back what was stored.
-/
import ScalarField.Proofs.Machine.Processor

namespace ScalarField

/-! ## Memory -/

/-- `size` bytes from `base` on; addresses wrap around. -/
structure Area where
  base : BitVec 64
  size : Nat

namespace Area

def Has (A : Area) (x : BitVec 64) : Prop := (x - A.base).toNat < A.size

/-- No byte lies in both areas. -/
def Disjoint (A B : Area) : Prop := ∀ x, A.Has x → ¬B.Has x

/-- The `n` bytes from `offset` on. -/
def part (A : Area) (offset n : Nat) : Area := ⟨A.base + .ofNat 64 offset, n⟩

theorem Has.of_part {A : Area} {offset n : Nat} {x : BitVec 64} (h : (A.part offset n).Has x)
    (hn : offset + n ≤ A.size) (hA : A.size ≤ 2 ^ 64) : A.Has x := by
  simp only [Has, part] at h ⊢
  bv_omega

theorem part_disjoint (A : Area) {i m j n : Nat} (hij : i + m ≤ j ∨ j + n ≤ i)
    (hi : i + m ≤ 2 ^ 64) (hj : j + n ≤ 2 ^ 64) : (A.part i m).Disjoint (A.part j n) := by
  intro x hx hx'
  simp only [Has, part] at hx hx'
  bv_omega

end Area

namespace Memory

variable {m m' : Memory} {φ : Form} {a x : BitVec 64} {v : Vec128}

theorem next_address (a : BitVec 64) (k : Nat) :
    a + BitVec.ofNat 64 (k + 1) = a + 1 + .ofNat 64 k := by
  bv_omega

theorem address_sub {k : Nat} (a : BitVec 64) (hk : k < 2 ^ 64) :
    (a + BitVec.ofNat 64 k - a).toNat = k := by
  bv_omega

theorem read_congr : ∀ {n : Nat} {a : BitVec 64},
    (∀ k < n, m (a + .ofNat 64 k) = m' (a + .ofNat 64 k)) → m.read a n = m'.read a n
  | 0, _, _ => rfl
  | n + 1, a, h => by
    have h0 : m a = m' a := by simpa using h 0 (Nat.succ_pos n)
    have ih := read_congr (n := n) (a := a + 1) fun k hk => by
      have hk' := h (k + 1) (Nat.succ_lt_succ hk)
      rwa [next_address] at hk'
    rw [read, read, h0, ih]

theorem read_eq : ∀ {n v : Nat} {a : BitVec 64},
    (∀ k < n, m (a + .ofNat 64 k) = .ofNat 8 (v / 256 ^ k)) → m.read a n = v % 256 ^ n
  | 0, v, _, _ => by simp [read, Nat.mod_one]
  | n + 1, v, a, h => by
    have h0 : m a = .ofNat 8 v := by simpa using h 0 (Nat.succ_pos n)
    have ih := read_eq (n := n) (v := v / 256) (a := a + 1) fun k hk => by
      have hk' := h (k + 1) (Nat.succ_lt_succ hk)
      rw [next_address] at hk'
      rw [hk', Nat.pow_succ', Nat.div_div_eq_div_mul]
    have hbyte : (BitVec.ofNat 8 v).toNat = v % 256 := BitVec.toNat_ofNat v 8
    rw [read, h0, ih, hbyte, show 256 ^ (n + 1) = 256 * 256 ^ n from Nat.pow_succ', Nat.mod_mul]

theorem bytes_le (φ : Form) : φ.bytes ≤ 16 := by cases φ <;> decide

theorem store_of_not_has (h : ¬(Area.mk a φ.bytes).Has x) : (m.store φ a v) x = m x := if_neg h

theorem load_store (m : Memory) (φ : Form) (a : BitVec 64) (v : Vec128) :
    (m.store φ a v).load φ a = φ.moved v := by
  have hread : (m.store φ a v).read a φ.bytes = v.toNat % 256 ^ φ.bytes := by
    refine read_eq fun k hk => ?_
    have hk' : k < 2 ^ 64 := by have := bytes_le φ; omega
    rw [store, write, address_sub a hk', if_pos hk]
  rw [load, hread, Form.moved, Nat.pow_mul]

theorem load_congr (h : ∀ x, (Area.mk a φ.bytes).Has x → m x = m' x) :
    m.load φ a = m'.load φ a := by
  rw [load, load, read_congr fun k hk => h _ ?_]
  have hk' : k < 2 ^ 64 := by have := bytes_le φ; omega
  rwa [Area.Has, address_sub a hk']

end Memory

/-! ## Sequences -/

/-- The vector register that an instruction writes. -/
def Insn.target? : Insn → Option Xmm
  | .arith _ _ d _ | .bit _ _ d _ | .bitMem _ _ d _ | .cmp _ _ d _ | .round _ _ d _ | .movaps d _
  | .load _ d _ | .movLow _ d _ | .movq d _ | .shuf _ d _ _ | .unpackLow d _ | .unpackHigh d _ =>
    some d
  | _ => none

namespace Cpu

variable {c : Cpu} {r r' : Xmm → Vec128} {s s' : State} {code rest : List Insn}

theorem vectors_append (h : c.vectors r code = some r') :
    c.vectors r (code ++ rest) = c.vectors r' rest := by
  induction code generalizing r with
  | nil =>
    obtain rfl : r = r' := by simpa [vectors] using h
    rfl
  | cons i code ih =>
    simp only [vectors, List.cons_append] at h ⊢
    split at h
    · exact ih h
    · simp at h

theorem execAll_append (h : c.execAll s code = some s') :
    c.execAll s (code ++ rest) = c.execAll s' rest := by
  induction code generalizing s with
  | nil =>
    obtain rfl : s = s' := by simpa [execAll] using h
    rfl
  | cons i code ih =>
    simp only [execAll, List.cons_append] at h ⊢
    split at h
    · exact ih h
    · simp at h

/-- Code that can be executed to its end goes on with what follows. -/
theorem run_append (h : c.execAll s code = some s') : c.run s (code ++ rest) = c.run s' rest := by
  induction code generalizing s with
  | nil =>
    obtain rfl : s = s' := by simpa [execAll] using h
    rfl
  | cons i code ih =>
    simp only [execAll] at h
    split at h
    · rename_i s₁ hs₁
      have hne : i ≠ .ret := fun hi => by simp [hi, exec, vector?, other?] at hs₁
      have hcons : c.run s (i :: (code ++ rest)) = c.run s₁ (code ++ rest) := by
        cases i <;> first | exact absurd rfl hne | simp only [run, hs₁]
      rw [List.cons_append, hcons, ih h]
    · simp at h

theorem execAll_of_vectors (h : c.vectors s.xmm code = some r') :
    c.execAll s code = some { s with xmm := r' } := by
  induction code generalizing s with
  | nil =>
    obtain rfl : s.xmm = r' := by simpa [vectors] using h
    rfl
  | cons i code ih =>
    simp only [vectors] at h
    split at h
    · rename_i d v hv
      simp only [execAll, exec, hv]
      exact ih (s := s.setXmm d v) h
    · simp at h

theorem vector?_target {i : Insn} {d : Xmm} {v : Vec128} (h : c.vector? r i = some (d, v)) :
    i.target? = some d := by
  unfold vector? at h
  split at h
  case h_13 => simp at h
  all_goals
    simp only [Option.map_eq_some_iff, Option.some.injEq, Prod.mk.injEq] at h
    first
    | obtain ⟨rfl, -⟩ := h; rfl
    | obtain ⟨_, -, rfl, -⟩ := h; rfl

/-- Registers that no instruction writes keep their values. -/
theorem vectors_frame {x : Xmm} (h : c.vectors r code = some r')
    (hx : ∀ i ∈ code, i.target? ≠ some x) : r' x = r x := by
  induction code generalizing r with
  | nil =>
    obtain rfl : r = r' := by simpa [vectors] using h
    rfl
  | cons i code ih =>
    simp only [vectors] at h
    split at h
    · rename_i d v hv
      have hne : x ≠ d := fun heq => hx i List.mem_cons_self (heq ▸ vector?_target hv)
      rw [ih h fun j hj => hx j (List.mem_cons_of_mem i hj), Function.update_of_ne hne]
    · simp at h

end Cpu

end ScalarField
