import VeiledLedger.Proofs.MerkleLevels

set_option autoImplicit false

/-! # Roots from the top down

The root of a list is computed from the leaves upwards, and every level of odd length is completed
with one sentinel. Seen from the top, the same tree is cut in two at a power of two, and the sentinel
stands for every half without leaves, however high (`splitRoot`). The two agree for every list
(`root_eq_splitRoot`), since cutting a level at an even position cuts the level above in two as
well. -/

namespace VeiledLedger.Merkle

variable (node : Hash → Hash → Hash)

/-- The root of a tree of a given height: the node over the roots of its two halves, of which the
first one is filled before the second one has leaves. -/
def splitRoot : Nat → List Hash → Hash
  | _, [] => Hash.sentinel
  | 0, x :: _ => x
  | height + 1, x :: rest =>
    node (splitRoot height ((x :: rest).take (2 ^ height)))
      (splitRoot height ((x :: rest).drop (2 ^ height)))

/-! ## Cutting a level -/

theorem nextLevel_take (n : Nat) (level : List Hash) :
    nextLevel node (level.take (2 * n)) = (nextLevel node level).take n := by
  fun_induction nextLevel node level generalizing n with
  | case1 a b rest ih =>
    cases n with
    | zero => rfl
    | succ n => simp [Nat.mul_succ, nextLevel, ih]
  | case2 a =>
    cases n with
    | zero => rfl
    | succ n => simp [Nat.mul_succ, nextLevel]
  | case3 => simp [nextLevel]

theorem nextLevel_drop (n : Nat) (level : List Hash) :
    nextLevel node (level.drop (2 * n)) = (nextLevel node level).drop n := by
  fun_induction nextLevel node level generalizing n with
  | case1 a b rest ih =>
    cases n with
    | zero => rfl
    | succ n => simp [Nat.mul_succ, ih]
  | case2 a =>
    cases n with
    | zero => rfl
    | succ n => simp [Nat.mul_succ, nextLevel]
  | case3 => simp [nextLevel]

/-! ## Cutting a tree -/

theorem rootAt_nil (height : Nat) : rootAt node height [] = Hash.sentinel := by
  induction height with
  | zero => rfl
  | succ height ih => exact ih

/-- The root of a tree is the node over the roots of its two halves. -/
theorem rootAt_succ_eq_node (height : Nat) {level : List Hash} (hne : level ≠ [])
    (hlen : level.length ≤ 2 ^ (height + 1)) :
    rootAt node (height + 1) level
      = node (rootAt node height (level.take (2 ^ height)))
          (rootAt node height (level.drop (2 ^ height))) := by
  induction height generalizing level with
  | zero =>
    match level, hne with
    | [a], _ => rfl
    | [a, b], _ => rfl
    | a :: b :: c :: rest, _ => simp at hlen
  | succ height ih =>
    have hpow : 2 ^ (height + 1) = 2 * 2 ^ height := Nat.pow_succ'
    calc rootAt node (height + 2) level
        = rootAt node (height + 1) (nextLevel node level) := rfl
      _ = node (rootAt node height ((nextLevel node level).take (2 ^ height)))
            (rootAt node height ((nextLevel node level).drop (2 ^ height))) :=
          ih (nextLevel_ne_nil node hne) (length_nextLevel_le node hlen)
      _ = node (rootAt node (height + 1) (level.take (2 ^ (height + 1))))
            (rootAt node (height + 1) (level.drop (2 ^ (height + 1)))) := by
          rw [hpow, ← nextLevel_take, ← nextLevel_drop]
          rfl

theorem rootAt_eq_splitRoot {height : Nat} {level : List Hash} (hlen : level.length ≤ 2 ^ height) :
    rootAt node height level = splitRoot node height level := by
  induction height generalizing level with
  | zero =>
    cases level with
    | nil => rfl
    | cons x rest => rfl
  | succ height ih =>
    cases level with
    | nil => exact rootAt_nil node (height + 1)
    | cons x rest =>
      have htake : ((x :: rest).take (2 ^ height)).length ≤ 2 ^ height := List.length_take_le _ _
      have hdrop : ((x :: rest).drop (2 ^ height)).length ≤ 2 ^ height := by
        rw [List.length_drop]
        rw [Nat.pow_succ] at hlen
        omega
      rw [rootAt_succ_eq_node node height (List.cons_ne_nil x rest) hlen, ih htake, ih hdrop,
        splitRoot]

/-- The levels of a list end with its root after the least height that has room for the leaves, and
this is the root of the tree that is cut in two from the top. -/
theorem root_eq_splitRoot (leaves : List Hash) :
    root node [] = Hash.sentinel ∧
      ∃ height, IsLeast {h | leaves.length ≤ 2 ^ h} height ∧
        root node leaves = splitRoot node height leaves ∧
        (∀ n, 1 < (levelAt node n leaves).length ↔ n < height) ∧
        (leaves ≠ [] → levelAt node height leaves = [root node leaves]) := by
  refine ⟨rfl, treeHeight leaves.length, isLeast_treeHeight _, ?_, ?_, ?_⟩
  · exact rootAt_eq_splitRoot node (le_two_pow_treeHeight _)
  · intro n
    exact one_lt_length_levelAt_iff node n leaves
  · intro hne
    exact levelAt_treeHeight node hne

/-- The last of five leaves has no neighbour on two levels. -/
example (a b c d e : Hash) : splitRoot node 3 [a, b, c, d, e]
    = node (node (node a b) (node c d)) (node (node e Hash.sentinel) Hash.sentinel) := rfl

end VeiledLedger.Merkle
