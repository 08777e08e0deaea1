/-
Numbers in digits: hexadecimal ones determine the number (`Bytes.hex_inj`), a
smaller number has no more of them (`Bytes.length_hex_mono`), and digits are
visible ASCII.
-/
import ScalarField.Proofs.Text.Blank

namespace ScalarField

namespace Bytes

theorem mem_toDigits {b n : Nat} (hb : 1 < b) {c : Char} (h : c ∈ Nat.toDigits b n) :
    ∃ d < b, c = d.digitChar := by
  induction n using Nat.strongRecOn with
  | _ n ih =>
  rw [Nat.toDigits_eq_if hb] at h
  split at h
  · rename_i hlt
    exact ⟨n, hlt, by simpa using h⟩
  · rename_i hle
    rcases List.mem_append.1 h with h | h
    · exact ih (n / b) (Nat.div_lt_self (by omega) hb) h
    · exact ⟨n % b, Nat.mod_lt _ (by omega), by simpa using h⟩

theorem isGraphic_digit : ∀ d < 16, isGraphic (ofChar (Nat.digitChar d)) = true := by decide

theorem hex_graphic (n : Nat) : ∀ b ∈ hex n, isGraphic b = true := by
  intro b hb
  obtain ⟨c, hc, rfl⟩ := List.mem_map.1 hb
  obtain ⟨d, hd, rfl⟩ := mem_toDigits (by decide) hc
  exact isGraphic_digit d hd

theorem digit_inj : ∀ d < 16, ∀ e < 16,
    ofChar (Nat.digitChar d) = ofChar (Nat.digitChar e) → d = e := by
  decide

theorem hex_eq (n : Nat) : hex n =
    if n < 16 then [ofChar n.digitChar] else hex (n / 16) ++ [ofChar (n % 16).digitChar] := by
  unfold hex
  rw [Nat.toDigits_eq_if (by decide)]
  split <;> simp

theorem hex_ne_nil (n : Nat) : hex n ≠ [] := by simp [hex]

theorem hex_inj {n m : Nat} (h : hex n = hex m) : n = m := by
  induction n using Nat.strongRecOn generalizing m with
  | _ n ih =>
  rw [hex_eq n, hex_eq m] at h
  split at h <;> split at h
  · rename_i hn hm
    exact digit_inj n hn m hm (by simpa using h)
  · have hlength := congrArg List.length h
    simp [hex_ne_nil] at hlength
  · have hlength := congrArg List.length h
    simp [hex_ne_nil] at hlength
  · rename_i hn hm
    obtain ⟨hfront, hlast⟩ := List.append_inj' h rfl
    have hdiv := ih (n / 16) (by omega) hfront
    have hmod := digit_inj (n % 16) (by omega) (m % 16) (by omega) (by simpa using hlast)
    omega

theorem length_hex_mono {n m : Nat} (h : n ≤ m) : (hex n).length ≤ (hex m).length := by
  simp only [hex, List.length_map]
  rw [Nat.length_toDigits_le_iff (by decide) Nat.length_toDigits_pos]
  exact Nat.lt_of_le_of_lt h
    ((Nat.length_toDigits_le_iff (by decide) Nat.length_toDigits_pos).1 (Nat.le_refl _))

theorem length_hex_le {n : Nat} (h : n < UInt32.size) : (hex n).length ≤ 8 := by
  simp only [hex, List.length_map]
  exact (Nat.length_toDigits_le_iff (by decide) (by decide)).2 h

end Bytes

end ScalarField
