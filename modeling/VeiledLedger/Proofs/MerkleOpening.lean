import Mathlib.Order.Bounds.Basic
import VeiledLedger.Digest
import VeiledLedger.Proofs.MerkleBinding

set_option autoImplicit false

/-! # Openings at a position of a list

A path may have been made up, and every sibling on it with it. Where it has as many steps as the tree
is high and spells out a position that the list has, this does not help: it leads to the root only
from the leaf at that position, and only if it is the path of that position (`verifies_root_iff`). The
position is a number here; a path into a list of at most `2 ^ 64` leaves spells it out in a word as
well (`toNat_indexWord`).

The path is compared with the tree from the root downwards. A position inside the leaves stays inside
every level, so a node of the tree stands wherever the path comes past, and no hash has to differ from
the sentinel. A leaf that is the sentinel is a leaf like any other. -/

namespace VeiledLedger.Merkle

variable {node : Hash → Hash → Hash} {P : Hash × Hash → Prop}

/-- Going up from a position inside a level, a path comes to a position inside the level above. -/
theorem pathIndex_lt_length_nextLevel {level : List Hash} {step : PathStep} {rest : List PathStep}
    (h : pathIndex (step :: rest) < level.length) :
    pathIndex rest < (nextLevel node level).length := by
  rw [length_nextLevel, ← (pathIndex_cons step rest).1]
  omega

/-- A path to the root of a tree from a position inside it starts from the node that stands there, and
is the path of that position. -/
theorem getElem?_eq_of_rootFrom_eq (hfree : CollisionFreeOn node P) {level : List Hash} {x : Hash}
    {path : List PathStep} (hinside : pathIndex path < level.length)
    (hlevel : ∀ q ∈ hashedAt node path.length level, P q)
    (hpath : ∀ q ∈ hashedFrom node x path, P q)
    (h : rootFrom node x path = rootAt node path.length level) :
    level[pathIndex path]? = some x ∧ path = pathAt node path.length level (pathIndex path) := by
  induction path generalizing level x with
  | nil =>
    obtain ⟨a, rest, rfl⟩ := List.exists_cons_of_length_pos (Nat.zero_lt_of_lt hinside)
    exact ⟨congrArg some h.symm, rfl⟩
  | cons step rest ih =>
    obtain ⟨habove, hrest⟩ := ih (pathIndex_lt_length_nextLevel hinside)
      (fun q hq => hlevel q (List.mem_append_right _ hq))
      (fun q hq => hpath q (List.mem_cons_of_mem _ hq)) h
    obtain ⟨hx, hsibling⟩ := opening_step hfree (fun q hq => hlevel q (List.mem_append_left _ hq))
      (hpath _ List.mem_cons_self) habove
    rw [List.getD_eq_getElem _ _ hinside] at hx
    rw [← (pathIndex_cons step rest).1] at hrest
    exact ⟨List.getElem?_eq_some_iff.mpr ⟨hinside, hx⟩, congrArg₂ List.cons hsibling hrest⟩

/-- A path that has as many steps as the tree over a list is high, and spells out a position of the
list, is accepted for a hash exactly if the hash is the leaf at that position and the path is the one
that the list has for it. -/
theorem verifies_root_iff {leaves : List Hash} {i : Nat} {x : Hash} {path : List PathStep}
    (hi : i < leaves.length) (hheight : IsLeast {h | leaves.length ≤ 2 ^ h} path.length)
    (hindex : pathIndex path = i)
    (hfree : CollisionFreeOn node (· ∈ hashed node leaves ++ hashedFrom node x path)) :
    verifies node x path (root node leaves) = true ↔
      leaves[i]? = some x ∧ path? node leaves i = some path := by
  subst hindex
  have hlength : path.length = treeHeight leaves.length := hheight.unique (isLeast_treeHeight _)
  rw [verifies, beq_iff_eq, root, path?, if_pos hi, ← hlength, Option.some.injEq]
  constructor
  · intro hroot
    obtain ⟨hx, hpath⟩ := getElem?_eq_of_rootFrom_eq hfree hi
      (fun q hq => List.mem_append_left _ (by rwa [hashed, ← hlength]))
      (fun q hq => List.mem_append_right _ hq) hroot
    exact ⟨hx, hpath.symm⟩
  · rintro ⟨hx, hpath⟩
    have hself := rootFrom_pathAt_self node hx hheight.1
    rwa [hpath] at hself

/-- The last of three leaves is completed with the sentinel. Its own path is accepted, and no path
that pairs it with itself instead. -/
theorem verifies_root_iff_lastOfThree :
    let node := Digest.sha256.node
    let leaves := [Hash.fill 1, Hash.fill 2, Hash.fill 3]
    let others : PathStep := ⟨node (Hash.fill 1) (Hash.fill 2), .left⟩
    let own := [⟨Hash.sentinel, .right⟩, others]
    let repeated := [⟨Hash.fill 3, .right⟩, others]
    IsLeast {h | leaves.length ≤ 2 ^ h} 2 ∧ pathIndex own = 2 ∧ pathIndex repeated = 2 ∧
      CollisionFreeOn node (· ∈ hashed node leaves ++ hashedFrom node (Hash.fill 3) own) ∧
      CollisionFreeOn node (· ∈ hashed node leaves ++ hashedFrom node (Hash.fill 3) repeated) ∧
      verifies node (Hash.fill 3) own (root node leaves) = true ∧
      verifies node (Hash.fill 3) repeated (root node leaves) = false := by
  intro node leaves others own repeated
  have htree : treeHeight leaves.length = 2 := by decide
  have hheight : IsLeast {h | leaves.length ≤ 2 ^ h} 2 := htree ▸ isLeast_treeHeight leaves.length
  have hown : pathAt node 2 leaves 2 = own := rfl
  have hpath : path? node leaves 2 = some own := by rw [path?, if_pos (by decide), htree, hown]
  have hfree' :
      CollisionFreeOn node (· ∈ hashed node leaves ++ hashedFrom node (Hash.fill 3) repeated) := by
    decide +kernel
  have hfree :
      CollisionFreeOn node (· ∈ hashed node leaves ++ hashedFrom node (Hash.fill 3) own) := by
    -- its own path hashes nothing that the root does not hash
    have hsubset : hashedFrom node (Hash.fill 3) own ⊆ hashed node leaves := by
      have hlast : leaves[2]? = some (Hash.fill 3) := rfl
      rw [hashed, htree, ← hown]
      exact hashedFrom_pathAt node hlast
    have hmem (q : Hash × Hash)
        (hq : q ∈ hashed node leaves ++ hashedFrom node (Hash.fill 3) own) :
        q ∈ hashed node leaves ++ hashedFrom node (Hash.fill 3) repeated :=
      List.mem_append_left _ ((List.mem_append.mp hq).elim id fun hq => hsubset hq)
    exact fun a b ha hb => hfree' a b (hmem a ha) (hmem b hb)
  refine ⟨hheight, rfl, rfl, hfree, hfree', ?_, ?_⟩
  · exact (verifies_root_iff (i := 2) (by decide) hheight rfl hfree).mpr ⟨rfl, hpath⟩
  · rw [Bool.eq_false_iff]
    intro hverifies
    obtain ⟨-, hsame⟩ := (verifies_root_iff (i := 2) (by decide) hheight rfl hfree').mp hverifies
    have hsibling : Hash.sentinel = Hash.fill 3 :=
      congrArg (fun step => step.hash) (List.cons.inj (Option.some.inj (hpath.symm.trans hsame))).1
    exact absurd hsibling (by decide)

end VeiledLedger.Merkle
