import Mathlib.Data.Nat.Basic
import Mathlib.Algebra.Group.Nat.Defs

/-! Numbers in words of a fixed width. -/

namespace Thunder.Core

/-- A value as a `uint16_t` holds it. -/
def u16 (n : Nat) : Nat := n % 65536

theorem u16_of_lt {n : Nat} (h : n < 65536) : u16 n = n := Nat.mod_eq_of_lt h

/-- A value as a `uint32_t` holds it. -/
def u32 (n : Nat) : Nat := n % 2 ^ 32

theorem u32_of_lt {n : Nat} (h : n < 2 ^ 32) : u32 n = n := Nat.mod_eq_of_lt h

/-- What holds of the first 256 numbers holds of bytes. -/
theorem forall_byte {P : UInt8 → Prop} (h : ∀ n < 256, P (UInt8.ofNat n)) (b : UInt8) : P b := by
  have hb := h b.toNat b.toNat_lt
  rwa [UInt8.ofNat_toNat] at hb

end Thunder.Core
