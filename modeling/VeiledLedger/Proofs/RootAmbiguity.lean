import VeiledLedger.Digest
import VeiledLedger.Proofs.MerkleBinding

set_option autoImplicit false

/-! # What a root leaves open

Of lists under trees of one height, a root determines everything but one thing: whether a sentinel at
the end was written out. A list of odd length, from three leaves on, has the root of the list that is
completed by one sentinel, and no other two lists have one root (`root_eq_root_iff`), unless hashes
collide or are the sentinel themselves. In particular, a last leaf that is repeated changes the
root. -/

namespace VeiledLedger.Merkle

/-- A list of odd length, at least three, and the same list with a sentinel at its end. -/
def Completes (l₁ l₂ : List Hash) : Prop :=
  l₁.length % 2 = 1 ∧ 3 ≤ l₁.length ∧ l₂ = l₁ ++ [Hash.sentinel]

variable {node : Hash → Hash → Hash} {P : Hash × Hash → Prop}

theorem Completes.root_eq {l₁ l₂ : List Hash} (h : Completes l₁ l₂) : root node l₁ = root node l₂ := by
  obtain ⟨hodd, hthree, rfl⟩ := h
  exact (root_append_sentinel node hodd hthree).symm

/-- Of two lists with one root, the longer one is the other or completes it. -/
theorem eq_or_completes_of_root_eq (hfree : CollisionFreeOn node P)
    (havoid : AvoidsSentinelOn node P) {l₁ l₂ : List Hash} (hne : l₁ ≠ [])
    (hle : l₁.length ≤ l₂.length) (hheight : treeHeight l₁.length = treeHeight l₂.length)
    (hp₁ : ∀ q ∈ hashed node l₁, P q) (hp₂ : ∀ q ∈ hashed node l₂, P q)
    (h : root node l₁ = root node l₂) : l₁ = l₂ ∨ Completes l₁ l₂ := by
  rcases Nat.lt_or_ge 1 l₁.length with htwo | hone
  · rcases eq_or_eq_append_of_root_eq hfree havoid htwo hle hheight hp₁ hp₂ h with hsame | ⟨hodd, happ⟩
    · exact .inl hsame.symm
    · exact .inr ⟨hodd, by omega, happ⟩
  · -- a tree of height zero has one leaf, which is the root
    have hone₂ : l₂.length ≤ 1 := by
      rwa [← treeHeight_eq_zero_iff, ← hheight, treeHeight_eq_zero_iff]
    match l₁, l₂, hne with
    | [a], [b], _ => exact .inl (congrArg (fun x => [x]) h)
    | [a], [], _ => simp at hle
    | [a], b :: c :: rest, _ => simp at hone₂
    | a :: b :: rest, _, _ => simp at hone

/-- Two lists without a collision among the pairs that are hashed for their roots have one root
exactly if they are equal or one of them completes the other. -/
theorem root_eq_root_iff {l₁ l₂ : List Hash} (hne₁ : l₁ ≠ []) (hne₂ : l₂ ≠ [])
    (hheight : treeHeight l₁.length = treeHeight l₂.length)
    (hfree : CollisionFreeOn node (· ∈ hashed node l₁ ++ hashed node l₂))
    (havoid : AvoidsSentinelOn node (· ∈ hashed node l₁ ++ hashed node l₂)) :
    root node l₁ = root node l₂ ↔ l₁ = l₂ ∨ Completes l₁ l₂ ∨ Completes l₂ l₁ := by
  have hp₁ : ∀ q ∈ hashed node l₁, q ∈ hashed node l₁ ++ hashed node l₂ :=
    fun q hq => List.mem_append_left _ hq
  have hp₂ : ∀ q ∈ hashed node l₂, q ∈ hashed node l₁ ++ hashed node l₂ :=
    fun q hq => List.mem_append_right _ hq
  constructor
  · intro h
    rcases Nat.le_total l₁.length l₂.length with hle | hle
    · rcases eq_or_completes_of_root_eq hfree havoid hne₁ hle hheight hp₁ hp₂ h with hsame | hmore
      · exact .inl hsame
      · exact .inr (.inl hmore)
    · rcases eq_or_completes_of_root_eq hfree havoid hne₂ hle hheight.symm hp₂ hp₁ h.symm
        with hsame | hmore
      · exact .inl hsame.symm
      · exact .inr (.inr hmore)
  · rintro (rfl | hmore | hmore)
    · rfl
    · exact hmore.root_eq
    · exact hmore.root_eq.symm

/-- Three leaves, the last one repeated. -/
theorem root_ne_of_repeated :
    let node := Digest.sha256.node
    let l₁ := [Hash.fill 1, Hash.fill 2, Hash.fill 3]
    let l₂ := [Hash.fill 1, Hash.fill 2, Hash.fill 3, Hash.fill 3]
    l₁ ≠ [] ∧ l₂ ≠ [] ∧ treeHeight l₁.length = treeHeight l₂.length ∧
      CollisionFreeOn node (· ∈ hashed node l₁ ++ hashed node l₂) ∧
      AvoidsSentinelOn node (· ∈ hashed node l₁ ++ hashed node l₂) ∧
      root node l₁ ≠ root node l₂ := by
  intro node l₁ l₂
  have hheight : treeHeight l₁.length = treeHeight l₂.length := by decide
  have hpairs : (∀ a ∈ hashed node l₁ ++ hashed node l₂, ∀ b ∈ hashed node l₁ ++ hashed node l₂,
      parent node a = parent node b → a = b) ∧
      ∀ a ∈ hashed node l₁ ++ hashed node l₂, parent node a ≠ Hash.sentinel := by
    decide +kernel
  have hfree : CollisionFreeOn node (· ∈ hashed node l₁ ++ hashed node l₂) :=
    fun a b ha hb => hpairs.1 a ha b hb
  refine ⟨List.cons_ne_nil _ _, List.cons_ne_nil _ _, hheight, hfree, hpairs.2, fun h => ?_⟩
  rcases (root_eq_root_iff (List.cons_ne_nil _ _) (List.cons_ne_nil _ _) hheight hfree hpairs.2).mp h
    with hsame | ⟨-, -, hmore⟩ | ⟨hodd, -, -⟩
  · exact absurd hsame (by decide)
  · exact absurd hmore (by decide)
  · exact absurd hodd (by decide)

end VeiledLedger.Merkle
