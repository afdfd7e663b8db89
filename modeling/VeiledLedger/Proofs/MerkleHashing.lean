import Mathlib.Data.List.GetD
import VeiledLedger.Proofs.MerklePaths

set_option autoImplicit false

/-! # What a Merkle tree hashes

The pairs of nodes that are hashed while a root is computed (`hashed`) and while a path is folded
(`hashedFrom`), listed beside the two computations. The path of a position hashes nothing that the
root does not hash as well (`hashedFrom_pathAt`), and every node above the leaves is the parent of a
listed pair (`exists_parent_of_mem_levelAt`). -/

namespace VeiledLedger.Merkle

variable (node : Hash → Hash → Hash)

/-! ## Listings -/

/-- The parent of a pair of nodes. -/
def parent (pair : Hash × Hash) : Hash := node pair.1 pair.2

/-- The pairs that are hashed into the level above. -/
def neighbours : List Hash → List (Hash × Hash)
  | a :: b :: rest => (a, b) :: neighbours rest
  | [a] => [(a, Hash.sentinel)]
  | [] => []

/-- The pairs that are hashed while going up a number of levels. -/
def hashedAt : Nat → List Hash → List (Hash × Hash)
  | 0, _ => []
  | height + 1, level => neighbours level ++ hashedAt height (nextLevel node level)

/-- The pairs that are hashed while the root of a list is computed. -/
def hashed (leaves : List Hash) : List (Hash × Hash) :=
  hashedAt node (treeHeight leaves.length) leaves

/-- The running node and its sibling in the order in which they are hashed. -/
def PathStep.pair (step : PathStep) (current : Hash) : Hash × Hash :=
  match step.side with
  | .left => (step.hash, current)
  | .right => (current, step.hash)

/-- The pairs that are hashed while a path is folded. -/
def hashedFrom : Hash → List PathStep → List (Hash × Hash)
  | _, [] => []
  | current, step :: rest => step.pair current :: hashedFrom (step.apply node current) rest

theorem nextLevel_eq_map (level : List Hash) :
    nextLevel node level = (neighbours level).map (parent node) := by
  fun_induction nextLevel node level with
  | case1 a b rest ih => simp only [neighbours, List.map_cons, ih, parent]
  | case2 a => rfl
  | case3 => rfl

theorem apply_eq_parent (step : PathStep) (current : Hash) :
    step.apply node current = parent node (step.pair current) := by
  cases hside : step.side <;> simp [PathStep.apply, PathStep.pair, parent, hside]

/-! ## Completed levels -/

/-- A level of odd length is completed with the sentinel, so it makes no difference if the sentinel
is written out. -/
theorem neighbours_append_sentinel {level : List Hash} (hodd : level.length % 2 = 1) :
    neighbours (level ++ [Hash.sentinel]) = neighbours level := by
  fun_induction neighbours level with
  | case1 a b rest ih =>
    have hrest : rest.length % 2 = 1 := by simp only [List.length_cons] at hodd; omega
    rw [List.cons_append, List.cons_append, neighbours, ih hrest]
  | case2 a => rfl
  | case3 => simp at hodd

/-- Nor does it make one for what is hashed above the level. -/
theorem hashedAt_succ_append_sentinel (height : Nat) {level : List Hash}
    (hodd : level.length % 2 = 1) :
    hashedAt node (height + 1) (level ++ [Hash.sentinel]) = hashedAt node (height + 1) level := by
  rw [hashedAt, hashedAt, nextLevel_eq_map, nextLevel_eq_map, neighbours_append_sentinel hodd]

/-- The same of the root, from three leaves on: of one leaf the root is the leaf itself. -/
theorem root_append_sentinel {leaves : List Hash} (hodd : leaves.length % 2 = 1)
    (hthree : 3 ≤ leaves.length) :
    root node (leaves ++ [Hash.sentinel]) = root node leaves := by
  have hheight := treeHeight_eq_succ (show 1 < leaves.length by omega)
  unfold root
  rw [List.length_append, List.length_singleton, treeHeight_succ_of_odd hodd hthree, hheight,
    rootAt, rootAt, nextLevel_eq_map, nextLevel_eq_map, neighbours_append_sentinel hodd]

theorem hashed_append_sentinel {leaves : List Hash} (hodd : leaves.length % 2 = 1)
    (hthree : 3 ≤ leaves.length) : hashed node (leaves ++ [Hash.sentinel]) = hashed node leaves := by
  have hheight := treeHeight_eq_succ (show 1 < leaves.length by omega)
  unfold hashed
  rw [List.length_append, List.length_singleton, treeHeight_succ_of_odd hodd hthree, hheight,
    hashedAt_succ_append_sentinel node _ hodd]

/-! ## Levels -/

/-- The level that is reached after going up a number of levels. -/
def levelAt : Nat → List Hash → List Hash
  | 0, level => level
  | n + 1, level => levelAt n (nextLevel node level)

theorem nextLevel_ne_nil {level : List Hash} (h : level ≠ []) : nextLevel node level ≠ [] := by
  have := List.length_pos_iff.mpr h
  apply List.ne_nil_of_length_pos
  rw [length_nextLevel]
  omega

theorem levelAt_ne_nil (n : Nat) {level : List Hash} (h : level ≠ []) :
    levelAt node n level ≠ [] := by
  induction n generalizing level with
  | zero => exact h
  | succ n ih => exact ih (nextLevel_ne_nil node h)

theorem length_levelAt_le {n height : Nat} {level : List Hash}
    (h : level.length ≤ 2 ^ (n + height)) : (levelAt node n level).length ≤ 2 ^ height := by
  induction n generalizing level with
  | zero => simpa [levelAt] using h
  | succ n ih => exact ih (length_nextLevel_le node (by rwa [Nat.add_right_comm] at h))

/-- Every node of a level has the leaves below it that fill the tree to its left. -/
theorem lt_length_levelAt {n i : Nat} {level : List Hash} (h : 2 ^ n * i < level.length) :
    i < (levelAt node n level).length := by
  induction n generalizing level with
  | zero => simpa [levelAt] using h
  | succ n ih =>
    refine ih ?_
    rw [length_nextLevel]
    have hdouble : 2 ^ (n + 1) * i = 2 * (2 ^ n * i) := by ring
    omega

/-- Going up can be interrupted at any level. -/
theorem rootAt_add (n height : Nat) (level : List Hash) :
    rootAt node (n + height) level = rootAt node height (levelAt node n level) := by
  induction n generalizing level with
  | zero => rw [Nat.zero_add]; rfl
  | succ n ih => rw [Nat.add_right_comm]; exact ih _

theorem hashedAt_levelAt_subset (n height : Nat) (level : List Hash) :
    hashedAt node height (levelAt node n level) ⊆ hashedAt node (n + height) level := by
  induction n generalizing level with
  | zero => rw [Nat.zero_add]; exact fun _ h => h
  | succ n ih =>
    rw [Nat.add_right_comm]
    exact fun q hq => List.mem_append_right _ (ih _ hq)

/-- A node above the leaves is the parent of a pair that was hashed on the way up to it. -/
theorem exists_parent_of_mem_levelAt {n : Nat} (height : Nat) {level : List Hash} {x : Hash}
    (hx : x ∈ levelAt node (n + 1) level) :
    ∃ q ∈ hashedAt node (n + 1 + height) level, x = parent node q := by
  induction n generalizing level with
  | zero =>
    rw [levelAt, levelAt, nextLevel_eq_map] at hx
    obtain ⟨q, hq, rfl⟩ := List.mem_map.mp hx
    refine ⟨q, ?_, rfl⟩
    rw [Nat.add_right_comm]
    exact List.mem_append_left _ hq
  | succ n ih =>
    obtain ⟨q, hq, rfl⟩ := ih hx
    refine ⟨q, ?_, rfl⟩
    rw [Nat.add_right_comm]
    exact List.mem_append_right _ hq

theorem exists_parent_getD_levelAt {n i : Nat} (height : Nat) {level : List Hash}
    (hi : i < (levelAt node (n + 1) level).length) :
    ∃ q ∈ hashedAt node (n + 1 + height) level,
      (levelAt node (n + 1) level).getD i Hash.sentinel = parent node q := by
  rw [List.getD_eq_getElem _ _ hi]
  exact exists_parent_of_mem_levelAt node height (List.getElem_mem hi)

/-- The root of two or more leaves is the parent of a pair that was hashed for it. -/
theorem exists_parent_of_two_le {leaves : List Hash} (h : 2 ≤ leaves.length) :
    ∃ q ∈ hashed node leaves, root node leaves = parent node q := by
  have hne : leaves ≠ [] := List.ne_nil_of_length_pos (by omega)
  have hheight := treeHeight_eq_succ (show 1 < leaves.length by omega)
  unfold hashed root
  rw [hheight]
  generalize treeHeight ((leaves.length + 1) / 2) = n
  refine exists_parent_of_mem_levelAt node 0 ?_
  -- the root is the head of the last level
  rw [← Nat.add_zero (n + 1), rootAt_add]
  obtain ⟨a, rest, hcons⟩ := List.exists_cons_of_ne_nil (levelAt_ne_nil node (n + 1) hne)
  rw [Nat.add_zero, hcons]
  exact List.mem_cons_self

/-! ## Paths -/

/-- A node and its sibling on the path are neighbours of the level. -/
theorem neighbours_getElem? {level : List Hash} {i : Nat} {x : Hash} (hx : level[i]? = some x) :
    (neighbours level)[i / 2]? = some ((sibling level i).pair x) := by
  fun_induction neighbours level generalizing i with
  | case1 a b rest ih =>
    match i with
    | 0 =>
      obtain rfl : a = x := by simpa using hx
      rfl
    | 1 =>
      obtain rfl : b = x := by simpa using hx
      rfl
    | i + 2 =>
      have hhalf : (i + 2) / 2 = i / 2 + 1 := by omega
      rw [hhalf, sibling_cons_cons, List.getElem?_cons_succ]
      exact ih (by simpa using hx)
  | case2 a =>
    obtain ⟨rfl, rfl⟩ : i = 0 ∧ a = x := by
      match i with
      | 0 => simpa using hx
      | i + 1 => simp at hx
    rfl
  | case3 => simp at hx

/-- The path of a position hashes only pairs that the root hashes. -/
theorem hashedFrom_pathAt {height : Nat} {level : List Hash} {i : Nat} {x : Hash}
    (hx : level[i]? = some x) :
    hashedFrom node x (pathAt node height level i) ⊆ hashedAt node height level := by
  induction height generalizing level i x with
  | zero => exact List.nil_subset _
  | succ height ih =>
    have hpair := neighbours_getElem? hx
    have hnext : (nextLevel node level)[i / 2]? = some ((sibling level i).apply node x) := by
      rw [nextLevel_eq_map, List.getElem?_map, hpair, apply_eq_parent]
      rfl
    rw [pathAt, hashedFrom]
    refine List.cons_subset.mpr ⟨?_, fun q hq => ?_⟩
    · exact List.mem_append_left _ (List.mem_of_getElem? hpair)
    · exact List.mem_append_right _ (ih hnext hq)

/-- The siblings of the first node of every level stand on the right. -/
theorem side_of_mem_pathAt_zero {height : Nat} {level : List Hash} {step : PathStep}
    (h : step ∈ pathAt node height level 0) : step.side = .right := by
  induction height generalizing level with
  | zero => simp [pathAt] at h
  | succ height ih =>
    rcases List.mem_cons.mp h with rfl | hrest
    · rfl
    · exact ih hrest

theorem hashedFrom_append (x : Hash) (p q : List PathStep) :
    hashedFrom node x (p ++ q) = hashedFrom node x p ++ hashedFrom node (rootFrom node x p) q := by
  induction p generalizing x with
  | nil => rfl
  | cons step rest ih => simp only [List.cons_append, hashedFrom, ih]; rfl

/-- Where a path with a step leads to is the parent of a pair that was hashed on it. -/
theorem exists_parent_of_rootFrom {x : Hash} {p : List PathStep} (hp : p ≠ []) :
    ∃ q ∈ hashedFrom node x p, rootFrom node x p = parent node q := by
  obtain ⟨front, last, rfl⟩ : ∃ front last, p = front ++ [last] :=
    ⟨p.dropLast, p.getLast hp, (List.dropLast_concat_getLast hp).symm⟩
  refine ⟨last.pair (rootFrom node x front), ?_, ?_⟩
  · rw [hashedFrom_append]
    exact List.mem_append_right _ List.mem_cons_self
  · rw [rootFrom_append, ← apply_eq_parent]
    rfl

end VeiledLedger.Merkle
