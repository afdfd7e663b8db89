import Mathlib.Algebra.Group.Nat.Even
import Mathlib.Order.Bounds.Defs
import VeiledLedger.TreeHeight

set_option autoImplicit false

/-! # Heights and leaves

A tree has room for a number of leaves exactly if its height is at least the `treeHeight` of that
number (`treeHeight_le_iff`). -/

namespace VeiledLedger

/-- The height is the least `h` with `n ≤ 2 ^ h`. -/
theorem treeHeight_le_iff (n h : Nat) : treeHeight n ≤ h ↔ n ≤ 2 ^ h := by
  unfold treeHeight
  split
  · next hn =>
    have : 1 ≤ 2 ^ h := Nat.one_le_two_pow
    constructor
    · intro _; omega
    · intro _; omega
  · next hn =>
    have hne : n - 1 ≠ 0 := by omega
    rw [Nat.succ_le_iff, Nat.log2_lt hne]
    omega

theorem le_two_pow_treeHeight (n : Nat) : n ≤ 2 ^ treeHeight n :=
  (treeHeight_le_iff n _).mp (Nat.le_refl _)

theorem isLeast_treeHeight (n : Nat) : IsLeast {h | n ≤ 2 ^ h} (treeHeight n) :=
  ⟨le_two_pow_treeHeight n, fun h hn => (treeHeight_le_iff n h).mpr hn⟩

theorem treeHeight_eq_zero_iff (n : Nat) : treeHeight n = 0 ↔ n ≤ 1 := by
  have h := treeHeight_le_iff n 0
  rw [Nat.pow_zero] at h
  rw [← h, Nat.le_zero]

/-- Going up a level takes one off the height, as long as there is a level above. -/
theorem treeHeight_half (n : Nat) : treeHeight ((n + 1) / 2) = treeHeight n - 1 := by
  rcases Nat.lt_or_ge 1 n with hmore | hone
  · rw [treeHeight_eq_succ hmore, Nat.add_sub_cancel]
  · rw [treeHeight_of_le_one hone, treeHeight_of_le_one (by omega)]

/-- One leaf more does not make the tree higher where it completes a level. -/
theorem treeHeight_succ_of_odd {n : Nat} (hodd : n % 2 = 1) (hthree : 3 ≤ n) :
    treeHeight (n + 1) = treeHeight n := by
  have hhalf : (n + 1 + 1) / 2 = (n + 1) / 2 := by omega
  rw [treeHeight_eq_succ (show 1 < n + 1 by omega), treeHeight_eq_succ (show 1 < n by omega), hhalf]

end VeiledLedger
