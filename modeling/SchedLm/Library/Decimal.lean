import Mathlib.Tactic

/-!
The decimal digits of Unicode 15, in every script: runs of ten code points, from
a zero to a nine.
-/

namespace Decimal

/-- The code points of the zeros. -/
def zeros : List ℕ := [
  0x30, 0x660, 0x6f0, 0x7c0, 0x966, 0x9e6, 0xa66, 0xae6, 0xb66, 0xbe6, 0xc66, 0xce6, 0xd66, 0xde6,
  0xe50, 0xed0, 0xf20, 0x1040, 0x1090, 0x17e0, 0x1810, 0x1946, 0x19d0, 0x1a80, 0x1a90, 0x1b50,
  0x1bb0, 0x1c40, 0x1c50, 0xa620, 0xa8d0, 0xa900, 0xa9d0, 0xa9f0, 0xaa50, 0xabf0, 0xff10, 0x104a0,
  0x10d30, 0x11066, 0x110f0, 0x11136, 0x111d0, 0x112f0, 0x11450, 0x114d0, 0x11650, 0x116c0,
  0x11730, 0x118e0, 0x11950, 0x11c50, 0x11d50, 0x11da0, 0x11f50, 0x16a60, 0x16ac0, 0x16b50,
  0x1d7ce, 0x1d7d8, 0x1d7e2, 0x1d7ec, 0x1d7f6, 0x1e140, 0x1e2f0, 0x1e4f0, 0x1e950, 0x1fbf0]

def digits : List Char :=
  zeros.flatMap fun start => (List.range 10).map fun i => Char.ofNat (start + i)

def value (c : Char) : Option ℕ := (digits.idxOf? c).map (· % 10)

theorem mem_digits_iff {c : Char} :
    c ∈ digits ↔ ∃ start ∈ zeros, start ≤ c.toNat ∧ c.toNat < start + 10 := by
  have hvalid : ∀ start ∈ zeros, ∀ i < 10, (start + i).isValidChar := by decide +kernel
  rw [digits, List.mem_flatMap]
  constructor
  · rintro ⟨start, hstart, hc⟩
    obtain ⟨i, hi, rfl⟩ := List.mem_map.mp hc
    have hlt := List.mem_range.mp hi
    have hchar : (Char.ofNat (start + i)).toNat = start + i := by
      rw [Char.ofNat, dif_pos (hvalid start hstart i hlt)]
      rfl
    exact ⟨start, hstart, by omega, by omega⟩
  · rintro ⟨start, hstart, hlow, hhigh⟩
    refine ⟨start, hstart, List.mem_map.mpr ⟨c.toNat - start, List.mem_range.mpr (by omega), ?_⟩⟩
    rw [Nat.add_sub_cancel' hlow, Char.ofNat_toNat]

example : value '7' = some 7 ∧ value '\u0663' = some 3 ∧ value 'x' = none := by decide +kernel

end Decimal
