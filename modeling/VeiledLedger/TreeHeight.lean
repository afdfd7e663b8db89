set_option autoImplicit false

/-! # The height of a binary tree

`treeHeight n` is the number of levels above `n` leaves when neighbours are paired level by level,
so pairing one level takes one off the height (`treeHeight_eq_succ`). -/

namespace VeiledLedger

/-- The number of levels above `n` leaves: the least `h` with `n ≤ 2 ^ h`. -/
def treeHeight (n : Nat) : Nat := if n ≤ 1 then 0 else (n - 1).log2 + 1

theorem treeHeight_of_le_one {n : Nat} (h : n ≤ 1) : treeHeight n = 0 := if_pos h

/-- A level of more than one node is one higher than the level above it, which has half as many
nodes, rounded up. -/
theorem treeHeight_eq_succ {n : Nat} (h : 1 < n) :
    treeHeight n = treeHeight ((n + 1) / 2) + 1 := by
  have hhalf : (n + 1) / 2 - 1 = (n - 1) / 2 := by omega
  unfold treeHeight
  rw [if_neg (by omega), hhalf, Nat.log2_def]
  by_cases htwo : 2 ≤ n - 1
  · rw [if_pos htwo, if_neg (by omega)]
  · rw [if_neg htwo, if_pos (by omega)]

end VeiledLedger
