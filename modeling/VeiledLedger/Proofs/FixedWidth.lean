import Mathlib.Algebra.Group.Nat.Even
import VeiledLedger.Bytes

set_option autoImplicit false

/-! # Fixed-width numbers

A number survives its fixed-width layout exactly if it is below the bound of the width: reading back
what was written gives the number modulo that bound (`ofLE_leBytes`). -/

namespace VeiledLedger

/-- Reading back what was written gives the number modulo the width. -/
theorem ofLE_leBytes (width n : Nat) : ofLE (leBytes width n) = n % 256 ^ width := by
  induction width generalizing n with
  | zero => simp [leBytes, ofLE, Nat.mod_one]
  | succ width ih =>
    have hlow : (UInt8.ofNat n).toNat = n % 256 := UInt8.toNat_ofNat'
    simp only [leBytes, ofLE, ih, hlow]
    rw [Nat.pow_succ, Nat.mul_comm _ 256, Nat.mod_mul]

end VeiledLedger
