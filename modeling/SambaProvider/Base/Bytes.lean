import Mathlib.Data.Int.Notation

/-!
# Bytes

A Java `byte` is signed.
-/

namespace SambaProvider

/-- A Java `byte` as an `int`. -/
def signed (b : UInt8) : ℤ := b.toInt8.toInt

/-- Below 128 the sign makes no difference, and only there. -/
theorem signed_eq_toNat_iff {b : UInt8} : signed b = b.toNat ↔ b < 0x80 := by
  have hall : ∀ n < 256, signed (UInt8.ofNat n) = (n : ℤ) ↔ n < 128 := by decide +kernel
  have hb := hall b.toNat b.toNat_lt
  rw [UInt8.ofNat_toNat] at hb
  exact hb

end SambaProvider
