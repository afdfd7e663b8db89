import VeiledLedger.Digest
import VeiledLedger.Proofs.MerkleHashing

set_option autoImplicit false

/-! # Going up level by level

A root is what is left when a list is paired level by level for as long as there is more than one
node: this is so for `treeHeight` levels exactly (`one_lt_length_levelAt_iff`), and after these the
root stands alone (`levelAt_treeHeight`). A path takes one sibling from each of these levels. The
position that it has reached lies inside the level, and so does the node on the left of an odd
position, so a path never looks a node up outside (`isSiblingOf_sibling`).

The main statement (`path?_spec`) says when there is a path and what it does: from whatever stands at
its position it leads to the root of the list that has this entry there, and the position can be read
off it, also in a word of 64 bits (`toNat_indexWord`). -/

namespace VeiledLedger.Merkle

variable (node : Hash → Hash → Hash)

/-! ## The levels of a list -/

theorem treeHeight_length_levelAt (n : Nat) (level : List Hash) :
    treeHeight (levelAt node n level).length = treeHeight level.length - n := by
  induction n generalizing level with
  | zero => rfl
  | succ n ih =>
    rw [levelAt, ih, length_nextLevel, treeHeight_half]
    omega

/-- There is more than one node left exactly below the height of the tree. -/
theorem one_lt_length_levelAt_iff (n : Nat) (leaves : List Hash) :
    1 < (levelAt node n leaves).length ↔ n < treeHeight leaves.length := by
  have hheight := treeHeight_length_levelAt node n leaves
  have hzero := treeHeight_eq_zero_iff (levelAt node n leaves).length
  omega

/-- The last level is the root alone. -/
theorem levelAt_treeHeight {leaves : List Hash} (hne : leaves ≠ []) :
    levelAt node (treeHeight leaves.length) leaves = [root node leaves] := by
  have hshort : ¬ 1 < (levelAt node (treeHeight leaves.length) leaves).length := by
    rw [one_lt_length_levelAt_iff]
    exact Nat.lt_irrefl _
  have hpos := List.length_pos_iff.mpr (levelAt_ne_nil node (treeHeight leaves.length) hne)
  have hone : (levelAt node (treeHeight leaves.length) leaves).length = 1 := by omega
  obtain ⟨x, hx⟩ := List.length_eq_one_iff.mp hone
  have hroot : root node leaves = rootAt node 0 (levelAt node (treeHeight leaves.length) leaves) :=
    rootAt_add node (treeHeight leaves.length) 0 leaves
  rw [hroot, hx]
  rfl

/-! ## The siblings of a position -/

/-- A step is the one that a position of a level calls for: on the left of an odd position the level
has a node, and on the right of an even one stands the next node, or the sentinel where the level
ends. -/
def IsSiblingOf (level : List Hash) (i : Nat) (step : PathStep) : Prop :=
  if i % 2 = 0 then step.side = .right ∧ step.hash = level[i + 1]?.getD Hash.sentinel
  else step.side = .left ∧ level[i - 1]? = some step.hash

theorem isSiblingOf_sibling {level : List Hash} {i : Nat} (hi : i < level.length) :
    IsSiblingOf level i (sibling level i) := by
  unfold IsSiblingOf sibling
  split
  · exact ⟨rfl, List.getD_eq_getElem?_getD⟩
  · have hleft : i - 1 < level.length := by omega
    simp [List.getD_eq_getElem?_getD, List.getElem?_eq_getElem hleft]

theorem getElem_pathAt {height n : Nat} (level : List Hash) (i : Nat)
    (hn : n < (pathAt node height level i).length) :
    (pathAt node height level i)[n] = sibling (levelAt node n level) (i / 2 ^ n) := by
  induction n generalizing height level i with
  | zero =>
    cases height with
    | zero => simp at hn
    | succ height => simp [pathAt, levelAt]
  | succ n ih =>
    cases height with
    | zero => simp at hn
    | succ height =>
      have hdiv : i / 2 ^ (n + 1) = i / 2 / 2 ^ n := by
        rw [Nat.div_div_eq_div_mul, Nat.pow_succ, Nat.mul_comm]
      simp only [pathAt, List.getElem_cons_succ, levelAt, hdiv]
      exact ih _ _ _

/-- Inside the leaves, a position stays inside every level. -/
theorem div_lt_length_levelAt {leaves : List Hash} {i : Nat} (hi : i < leaves.length) (n : Nat) :
    i / 2 ^ n < (levelAt node n leaves).length :=
  lt_length_levelAt node ((Nat.mul_div_le i (2 ^ n)).trans_lt hi)

/-! ## The path of a position -/

/-- What the path of a position of a list is and does. -/
structure PathOf (leaves : List Hash) (i : Nat) (path : List PathStep) : Prop where
  /-- It is as long as the tree is high. -/
  height : IsLeast {h | leaves.length ≤ 2 ^ h} path.length
  /-- Every step is looked up inside its level, which has more than one node. -/
  inside : ∀ n (hn : n < path.length), 1 < (levelAt node n leaves).length ∧
    i / 2 ^ n < (levelAt node n leaves).length ∧
    IsSiblingOf (levelAt node n leaves) (i / 2 ^ n) path[n]
  /-- Above its last step the root stands alone. -/
  complete : levelAt node path.length leaves = [root node leaves]
  /-- Its sides spell the position out. -/
  index : pathIndex path = i
  /-- A word has a bit for every step. -/
  length_le : path.length ≤ 64
  /-- These bits are the position as well. -/
  word : (indexWord path).toNat = i
  /-- Whatever stands at the position, the path leads to the root of the list with that entry. -/
  replaced : ∀ x, rootFrom node x path = root node (leaves.set i x)
  /-- From the entry that the list has there, it leads to the root of the list. -/
  verified : ∀ x, leaves[i]? = some x → verifies node x path (root node leaves) = true

theorem pathOf_pathAt {leaves : List Hash} {i : Nat} (hi : i < leaves.length)
    (hcount : leaves.length ≤ 2 ^ 64) :
    PathOf node leaves i (pathAt node (treeHeight leaves.length) leaves i) := by
  have hle := le_two_pow_treeHeight leaves.length
  have hshort : treeHeight leaves.length ≤ 64 := (treeHeight_le_iff _ _).mpr hcount
  have hlen := length_pathAt node (treeHeight leaves.length) leaves i
  have hindex := pathIndex_pathAt node _ leaves i (hi.trans_le hle)
  exact
    { height := by rw [hlen]; exact isLeast_treeHeight _
      inside := by
        intro n hn
        rw [getElem_pathAt]
        have hinside := div_lt_length_levelAt node hi n
        refine ⟨?_, hinside, isSiblingOf_sibling hinside⟩
        rw [one_lt_length_levelAt_iff]
        rwa [hlen] at hn
      complete := by
        rw [hlen]
        exact levelAt_treeHeight node (List.ne_nil_of_length_pos (by omega))
      index := hindex
      length_le := by rwa [hlen]
      word := (toNat_indexWord (by rwa [hlen])).trans hindex
      replaced := by
        intro x
        rw [rootFrom_pathAt node _ leaves i x hi hle, root, List.length_set]
      verified := by
        intro x hx
        rw [verifies, rootFrom_pathAt_self node hx hle]
        exact beq_self_eq_true _ }

/-- There is a path from exactly the positions of a list, and it leads to the root also of every list
that has another entry there. -/
theorem path?_spec (leaves : List Hash) (i : Nat) (hcount : leaves.length ≤ 2 ^ 64) :
    (path? node leaves i = none ↔ leaves.length ≤ i) ∧
      (i < leaves.length → ∃ path, path? node leaves i = some path ∧ PathOf node leaves i path) := by
  unfold path?
  constructor
  · simp
  · intro hi
    exact ⟨_, if_pos hi, pathOf_pathAt node hi hcount⟩

/-- The last of five leaves is completed with the sentinel twice before it meets the others. -/
theorem path?_lastOfFive :
    let leaves := [Hash.fill 1, Hash.fill 2, Hash.fill 3, Hash.fill 4, Hash.fill 5]
    leaves.length ≤ 2 ^ 64 ∧ path? Digest.sha256.node leaves 5 = none ∧
      ∃ path, path? Digest.sha256.node leaves 4 = some path ∧
        path.map (·.side) = [.right, .right, .left] ∧ (indexWord path).toNat = 4 ∧
        path[0]?.map (·.hash) = some Hash.sentinel ∧
        rootFrom Digest.sha256.node (Hash.fill 9) path
          = root Digest.sha256.node [Hash.fill 1, Hash.fill 2, Hash.fill 3, Hash.fill 4,
            Hash.fill 9] := by
  intro leaves
  have hcount : leaves.length ≤ 2 ^ 64 := by decide
  have hheight : treeHeight leaves.length = 3 := by decide
  obtain ⟨-, hsome⟩ := path?_spec Digest.sha256.node leaves 4 hcount
  obtain ⟨path, hpath, hof⟩ := hsome (by decide)
  obtain rfl : pathAt Digest.sha256.node (treeHeight leaves.length) leaves 4 = path :=
    Option.some.inj hpath
  refine ⟨hcount, (path?_spec _ leaves 5 hcount).1.mpr (by decide), _, hpath, ?_, hof.word, ?_,
    hof.replaced (Hash.fill 9)⟩
  · rw [hheight]
    rfl
  · rw [hheight]
    rfl

end VeiledLedger.Merkle
