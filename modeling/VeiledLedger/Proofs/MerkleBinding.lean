import Mathlib.Data.List.GetD
import Mathlib.Data.List.Induction
import VeiledLedger.Proofs.MerkleHashing

set_option autoImplicit false

/-! # What a Merkle root commits to

Two computations that end in the same root are compared from the root downwards. Where no two
different pairs among those hashed have the same parent, the pairs agree level by level; where, in
addition, no parent is the sentinel, neither can a completed level pass for a level with one node
more. Nothing is assumed about the hash function beyond the pairs that are hashed; `P` holds them.

* `getD_eq_of_rootAt_eq`: at one height, equal roots have equal entries everywhere, where a position
  beyond a list counts as the sentinel.
* `eq_of_rootAt_eq`: at one height, equal roots of lists of one length have equal lists, also where
  parents may be the sentinel.
* `eq_or_eq_append_of_root_eq`: under trees of one height, equal roots leave the lists equal or one
  of them completed with a sentinel.
* `eq_sentinel_or_parent_of_lt`: at different heights, the entries of the lower list are nodes of
  the higher tree.
* `leaves_eq_of_root_eq`: leaves that cannot be nodes are determined with their number.
* `exists_append_of_rootFrom_eq`: two paths to one root run together from the root downwards for as
  long as they turn to the same sides.
* `opening_unique`: a path to the root of a tree, with as many steps as the tree is high, is the path
  of the position that it spells out. The siblings may have been made up; beyond the leaves, such a
  path starts from the sentinel. -/

namespace VeiledLedger

/-! ## Lists -/

/-- A function that tells the items of two lists apart tells the lists apart. -/
theorem eq_of_map_eq_map {α β : Type} {f : α → β} {l₁ l₂ : List α}
    (hf : ∀ a ∈ l₁, ∀ b ∈ l₂, f a = f b → a = b) (h : l₁.map f = l₂.map f) : l₁ = l₂ := by
  induction l₁ generalizing l₂ with
  | nil => exact (List.map_eq_nil_iff.mp h.symm).symm
  | cons a rest ih =>
    cases l₂ with
    | nil => simp at h
    | cons b rest₂ =>
      obtain ⟨hhead, htail⟩ := List.cons.inj h
      have hab : a = b := hf a List.mem_cons_self b List.mem_cons_self hhead
      have hrest : rest = rest₂ :=
        ih (fun x hx y hy => hf x (List.mem_cons_of_mem _ hx) y (List.mem_cons_of_mem _ hy)) htail
      rw [hab, hrest]

/-- Lists that do not contain the value that stands for "beyond the end" are equal if they agree
everywhere. -/
theorem eq_of_getD_eq {α : Type} {d : α} {l₁ l₂ : List α} (h₁ : d ∉ l₁) (h₂ : d ∉ l₂)
    (h : ∀ i, l₁.getD i d = l₂.getD i d) : l₁ = l₂ := by
  refine List.ext_getElem? fun i => ?_
  have hi := h i
  rw [List.getD_eq_getElem?_getD, List.getD_eq_getElem?_getD] at hi
  cases hx : l₁[i]? with
  | none =>
    cases hy : l₂[i]? with
    | none => rfl
    | some y =>
      rw [hx, hy] at hi
      have hd : d = y := hi
      exact absurd (hd ▸ List.mem_of_getElem? hy) h₂
  | some x =>
    cases hy : l₂[i]? with
    | none =>
      rw [hx, hy] at hi
      have hd : x = d := hi
      exact absurd (hd ▸ List.mem_of_getElem? hx) h₁
    | some y =>
      rw [hx, hy] at hi
      exact congrArg some hi

namespace Merkle

variable {node : Hash → Hash → Hash} {P : Hash × Hash → Prop}

/-! ## Hypotheses about the hashed pairs -/

/-- No two different pairs have the same parent. -/
def CollisionFreeOn (node : Hash → Hash → Hash) (P : Hash × Hash → Prop) : Prop :=
  ∀ a b, P a → P b → parent node a = parent node b → a = b

instance (node : Hash → Hash → Hash) (pairs : List (Hash × Hash)) :
    Decidable (CollisionFreeOn node (· ∈ pairs)) :=
  decidable_of_iff (∀ a ∈ pairs, ∀ b ∈ pairs, parent node a = parent node b → a = b)
    ⟨fun h a b ha hb => h a ha b hb, fun h a ha b hb => h a b ha hb⟩

/-- No pair has the sentinel as its parent. -/
def AvoidsSentinelOn (node : Hash → Hash → Hash) (P : Hash × Hash → Prop) : Prop :=
  ∀ a, P a → parent node a ≠ Hash.sentinel

/-! ## Roots at one height -/

/-- A level can be read off its pairs of neighbours. -/
theorem getD_eq_getD_neighbours (level : List Hash) (i : Nat) :
    level.getD i Hash.sentinel
      = if i % 2 = 0 then ((neighbours level).getD (i / 2) (Hash.sentinel, Hash.sentinel)).1
        else ((neighbours level).getD (i / 2) (Hash.sentinel, Hash.sentinel)).2 := by
  fun_induction neighbours level generalizing i with
  | case1 a b rest ih =>
    rcases i with _ | _ | i
    · rfl
    · rfl
    · have hhalf : (i + 1 + 1) / 2 = i / 2 + 1 := by omega
      have hmod : (i + 1 + 1) % 2 = i % 2 := by omega
      rw [hhalf, hmod, List.getD_cons_succ, List.getD_cons_succ, List.getD_cons_succ]
      exact ih i
  | case2 a =>
    rcases i with _ | _ | i
    · rfl
    · rfl
    · have hhalf : (i + 1 + 1) / 2 = i / 2 + 1 := by omega
      rw [hhalf, List.getD_cons_succ, List.getD_cons_succ]
      simp
  | case3 => simp

theorem sentinel_notMem_nextLevel (havoid : AvoidsSentinelOn node P) {level : List Hash}
    (hp : ∀ q ∈ neighbours level, P q) : Hash.sentinel ∉ nextLevel node level := by
  rw [nextLevel_eq_map]
  intro hmem
  obtain ⟨q, hq, hsentinel⟩ := List.mem_map.mp hmem
  exact havoid q (hp q hq) hsentinel

/-- Levels below levels that agree everywhere have the same pairs of neighbours. -/
theorem neighbours_eq_of_getD_nextLevel_eq (hfree : CollisionFreeOn node P)
    (havoid : AvoidsSentinelOn node P) {l₁ l₂ : List Hash} (hp₁ : ∀ q ∈ neighbours l₁, P q)
    (hp₂ : ∀ q ∈ neighbours l₂, P q) (h : ∀ i, (nextLevel node l₁).getD i Hash.sentinel
      = (nextLevel node l₂).getD i Hash.sentinel) : neighbours l₁ = neighbours l₂ := by
  -- the levels above consist of parents, so they are equal lists
  have hnext : nextLevel node l₁ = nextLevel node l₂ :=
    eq_of_getD_eq (sentinel_notMem_nextLevel havoid hp₁) (sentinel_notMem_nextLevel havoid hp₂) h
  rw [nextLevel_eq_map, nextLevel_eq_map] at hnext
  exact eq_of_map_eq_map (fun a ha b hb => hfree a b (hp₁ a ha) (hp₂ b hb)) hnext

/-- Lists with the same root at one height agree everywhere, if positions beyond a list count as the
sentinel. -/
theorem getD_eq_of_rootAt_eq (hfree : CollisionFreeOn node P) (havoid : AvoidsSentinelOn node P)
    {height : Nat} {l₁ l₂ : List Hash}
    (hlen₁ : l₁.length ≤ 2 ^ height) (hlen₂ : l₂.length ≤ 2 ^ height)
    (hp₁ : ∀ q ∈ hashedAt node height l₁, P q) (hp₂ : ∀ q ∈ hashedAt node height l₂, P q)
    (h : rootAt node height l₁ = rootAt node height l₂) (i : Nat) :
    l₁.getD i Hash.sentinel = l₂.getD i Hash.sentinel := by
  induction height generalizing l₁ l₂ i with
  | zero =>
    cases i with
    | zero => simpa [rootAt, List.headD_eq_head?_getD, List.head?_eq_getElem?] using h
    | succ i =>
      rw [List.getD_eq_default _ _ (by omega), List.getD_eq_default _ _ (by omega)]
  | succ height ih =>
    have hnear₁ : ∀ q ∈ neighbours l₁, P q := fun q hq => hp₁ q (List.mem_append_left _ hq)
    have hnear₂ : ∀ q ∈ neighbours l₂, P q := fun q hq => hp₂ q (List.mem_append_left _ hq)
    have hnext := ih (length_nextLevel_le node hlen₁) (length_nextLevel_le node hlen₂)
      (fun q hq => hp₁ q (List.mem_append_right _ hq))
      (fun q hq => hp₂ q (List.mem_append_right _ hq)) h
    rw [getD_eq_getD_neighbours, getD_eq_getD_neighbours l₂,
      neighbours_eq_of_getD_nextLevel_eq hfree havoid hnear₁ hnear₂ hnext]

theorem neighbours_eq_nil {level : List Hash} (h : neighbours level = []) : level = [] := by
  match level with
  | [] => rfl
  | [a] => cases h
  | a :: b :: rest => cases h

/-- Of two levels with the same pairs of neighbours, the longer one is the other, or the other
completed with a sentinel. -/
theorem eq_or_eq_append_of_neighbours_eq {l₁ l₂ : List Hash} (hle : l₁.length ≤ l₂.length)
    (h : neighbours l₁ = neighbours l₂) :
    l₂ = l₁ ∨ l₁.length % 2 = 1 ∧ l₂ = l₁ ++ [Hash.sentinel] := by
  fun_induction neighbours l₁ generalizing l₂ with
  | case1 a b rest ih =>
    rcases l₂ with _ | ⟨c, _ | ⟨d, rest₂⟩⟩
    · simp at hle
    · simp at hle
    · obtain ⟨hpair, hrest⟩ := List.cons.inj h
      obtain ⟨rfl, rfl⟩ := Prod.mk.inj hpair
      rcases ih (by simpa using hle) hrest with rfl | ⟨hodd, rfl⟩
      · exact .inl rfl
      · exact .inr ⟨by simp only [List.length_cons]; omega, rfl⟩
  | case2 a =>
    rcases l₂ with _ | ⟨c, _ | ⟨d, rest₂⟩⟩
    · simp at hle
    · obtain rfl : a = c := congrArg Prod.fst (List.cons.inj h).1
      exact .inl rfl
    · obtain ⟨hpair, hrest⟩ := List.cons.inj h
      obtain ⟨rfl, rfl⟩ := Prod.mk.inj hpair
      obtain rfl := neighbours_eq_nil hrest.symm
      exact .inr ⟨rfl, rfl⟩
  | case3 => exact .inl (neighbours_eq_nil h.symm)

/-- Lists of one length with the same root at one height are equal. No parent has to differ from the
sentinel for this, since no level can pass for one with a node more. -/
theorem eq_of_rootAt_eq (hfree : CollisionFreeOn node P) {height : Nat} {l₁ l₂ : List Hash}
    (hlen : l₁.length = l₂.length) (hle : l₁.length ≤ 2 ^ height)
    (hp₁ : ∀ q ∈ hashedAt node height l₁, P q) (hp₂ : ∀ q ∈ hashedAt node height l₂, P q)
    (h : rootAt node height l₁ = rootAt node height l₂) : l₁ = l₂ := by
  induction height generalizing l₁ l₂ with
  | zero =>
    rcases l₁ with _ | ⟨a, _ | ⟨b, rest⟩⟩
    · exact (List.eq_nil_of_length_eq_zero hlen.symm).symm
    · obtain ⟨b, rfl⟩ : ∃ b, l₂ = [b] := List.length_eq_one_iff.mp hlen.symm
      exact congrArg (fun x => [x]) h
    · simp at hle
  | succ height ih =>
    have hnear₁ : ∀ q ∈ neighbours l₁, P q := fun q hq => hp₁ q (List.mem_append_left _ hq)
    have hnear₂ : ∀ q ∈ neighbours l₂, P q := fun q hq => hp₂ q (List.mem_append_left _ hq)
    have hnext : nextLevel node l₁ = nextLevel node l₂ := by
      refine ih ?_ (length_nextLevel_le node hle) (fun q hq => hp₁ q (List.mem_append_right _ hq))
        (fun q hq => hp₂ q (List.mem_append_right _ hq)) h
      rw [length_nextLevel, length_nextLevel, hlen]
    rw [nextLevel_eq_map, nextLevel_eq_map] at hnext
    have hpairs := eq_of_map_eq_map
      (fun a ha b hb => hfree a b (hnear₁ a ha) (hnear₂ b hb)) hnext
    rcases eq_or_eq_append_of_neighbours_eq hlen.le hpairs with rfl | ⟨-, rfl⟩
    · rfl
    · simp at hlen

/-- Of two lists with the same root under trees of one height, the longer one is the other, or the
other completed with a sentinel. -/
theorem eq_or_eq_append_of_root_eq (hfree : CollisionFreeOn node P)
    (havoid : AvoidsSentinelOn node P) {l₁ l₂ : List Hash} (htwo : 2 ≤ l₁.length)
    (hle : l₁.length ≤ l₂.length) (hheight : treeHeight l₁.length = treeHeight l₂.length)
    (hp₁ : ∀ q ∈ hashed node l₁, P q) (hp₂ : ∀ q ∈ hashed node l₂, P q)
    (h : root node l₁ = root node l₂) :
    l₂ = l₁ ∨ l₁.length % 2 = 1 ∧ l₂ = l₁ ++ [Hash.sentinel] := by
  have hlen₁ := le_two_pow_treeHeight l₁.length
  have hlen₂ := le_two_pow_treeHeight l₂.length
  unfold hashed at hp₁ hp₂
  unfold root at h
  rw [← hheight] at hlen₂ hp₂ h
  rw [treeHeight_eq_succ (show 1 < l₁.length by omega)] at hlen₁ hlen₂ hp₁ hp₂ h
  refine eq_or_eq_append_of_neighbours_eq hle
    (neighbours_eq_of_getD_nextLevel_eq hfree havoid
      (fun q hq => hp₁ q (List.mem_append_left _ hq))
      (fun q hq => hp₂ q (List.mem_append_left _ hq)) ?_)
  exact getD_eq_of_rootAt_eq hfree havoid (length_nextLevel_le node hlen₁)
    (length_nextLevel_le node hlen₂) (fun q hq => hp₁ q (List.mem_append_right _ hq))
    (fun q hq => hp₂ q (List.mem_append_right _ hq)) h

/-- Only the list without leaves has the sentinel as its root. -/
theorem root_ne_sentinel (havoid : AvoidsSentinelOn node P) {leaves : List Hash}
    (hne : leaves ≠ []) (hp : ∀ q ∈ hashed node leaves, P q) (hleaf : Hash.sentinel ∉ leaves) :
    root node leaves ≠ Hash.sentinel := by
  match leaves, hne with
  | [a], _ => exact fun h => hleaf (List.mem_singleton.mpr h.symm)
  | a :: b :: rest, _ =>
    obtain ⟨q, hq, hroot⟩ := exists_parent_of_two_le node (show 2 ≤ (a :: b :: rest).length by simp)
    rw [hroot]
    exact havoid q (hp q hq)

/-! ## Roots at different heights -/

/-- A lower tree with the root of a higher one has a level of that for its leaves. -/
theorem getD_eq_getD_levelAt (hfree : CollisionFreeOn node P) (havoid : AvoidsSentinelOn node P)
    {n height : Nat} {l₁ l₂ : List Hash} (hlen₁ : l₁.length ≤ 2 ^ height)
    (hlen₂ : l₂.length ≤ 2 ^ (n + height)) (hp₁ : ∀ q ∈ hashedAt node height l₁, P q)
    (hp₂ : ∀ q ∈ hashedAt node (n + height) l₂, P q)
    (h : rootAt node height l₁ = rootAt node (n + height) l₂) (i : Nat) :
    l₁.getD i Hash.sentinel = (levelAt node n l₂).getD i Hash.sentinel := by
  rw [rootAt_add] at h
  exact getD_eq_of_rootAt_eq hfree havoid hlen₁ (length_levelAt_le node hlen₂) hp₁
    (fun q hq => hp₂ q (hashedAt_levelAt_subset node _ _ _ hq)) h i

/-- In a lower tree with the root of a higher one, every entry is a node of the higher tree. -/
theorem eq_sentinel_or_parent_of_lt (hfree : CollisionFreeOn node P)
    (havoid : AvoidsSentinelOn node P) {height₁ height₂ : Nat} {l₁ l₂ : List Hash}
    (hlt : height₁ < height₂) (hlen₁ : l₁.length ≤ 2 ^ height₁) (hlen₂ : l₂.length ≤ 2 ^ height₂)
    (hp₁ : ∀ q ∈ hashedAt node height₁ l₁, P q) (hp₂ : ∀ q ∈ hashedAt node height₂ l₂, P q)
    (h : rootAt node height₁ l₁ = rootAt node height₂ l₂) (i : Nat) :
    l₁.getD i Hash.sentinel = Hash.sentinel ∨
      ∃ q, P q ∧ l₁.getD i Hash.sentinel = parent node q := by
  obtain ⟨n, rfl⟩ : ∃ n, height₂ = n + 1 + height₁ := ⟨height₂ - height₁ - 1, by omega⟩
  rw [getD_eq_getD_levelAt hfree havoid hlen₁ hlen₂ hp₁ hp₂ h]
  rcases Nat.lt_or_ge i (levelAt node (n + 1) l₂).length with hlt | hge
  · obtain ⟨q, hq, hparent⟩ := exists_parent_getD_levelAt node height₁ hlt
    exact .inr ⟨q, hp₂ q hq, hparent⟩
  · exact .inl (List.getD_eq_default _ _ hge)

/-- The same of the trees of two lists; in the first half, no entry can be missing above. -/
theorem exists_parent_of_treeHeight_lt (hfree : CollisionFreeOn node P)
    (havoid : AvoidsSentinelOn node P) {l₁ l₂ : List Hash}
    (hlt : treeHeight l₁.length < treeHeight l₂.length) (hp₁ : ∀ q ∈ hashed node l₁, P q)
    (hp₂ : ∀ q ∈ hashed node l₂, P q) (h : root node l₁ = root node l₂) {i : Nat}
    (hi : 2 * i < l₁.length) : ∃ q, P q ∧ l₁.getD i Hash.sentinel = parent node q := by
  obtain ⟨n, hheight⟩ : ∃ n, treeHeight l₂.length = n + 1 + treeHeight l₁.length :=
    ⟨treeHeight l₂.length - treeHeight l₁.length - 1, by omega⟩
  have hlen₁ := le_two_pow_treeHeight l₁.length
  have hlen₂ := le_two_pow_treeHeight l₂.length
  have hmore : 2 ^ (n + treeHeight l₁.length) < l₂.length := by
    rw [← not_le, ← treeHeight_le_iff]
    omega
  unfold hashed at hp₁ hp₂
  unfold root at h
  rw [hheight] at hlen₂ hp₂ h
  have hpresent : i < (levelAt node (n + 1) l₂).length := by
    refine lt_length_levelAt node ?_
    calc 2 ^ (n + 1) * i = 2 ^ n * (2 * i) := by ring
      _ ≤ 2 ^ n * 2 ^ treeHeight l₁.length := Nat.mul_le_mul_left _ (hi.le.trans hlen₁)
      _ = 2 ^ (n + treeHeight l₁.length) := (Nat.pow_add _ _ _).symm
      _ < l₂.length := hmore
  rw [getD_eq_getD_levelAt hfree havoid hlen₁ hlen₂ hp₁ hp₂ h]
  obtain ⟨q, hq, hparent⟩ := exists_parent_getD_levelAt node (treeHeight l₁.length) hpresent
  exact ⟨q, hp₂ q hq, hparent⟩

/-- Leaves that are neither the sentinel nor parents of hashed pairs are determined by the root of
their tree, and so is their number. -/
theorem leaves_eq_of_root_eq (hfree : CollisionFreeOn node P) (havoid : AvoidsSentinelOn node P)
    {l₁ l₂ : List Hash} (hp₁ : ∀ q ∈ hashed node l₁, P q) (hp₂ : ∀ q ∈ hashed node l₂, P q)
    (hleaf₁ : ∀ x ∈ l₁, x ≠ Hash.sentinel ∧ ∀ q, P q → x ≠ parent node q)
    (hleaf₂ : ∀ x ∈ l₂, x ≠ Hash.sentinel ∧ ∀ q, P q → x ≠ parent node q)
    (h : root node l₁ = root node l₂) : l₁ = l₂ := by
  -- a lower tree would have parents for leaves
  have not_lt {k₁ k₂ : List Hash} (hp₁ : ∀ q ∈ hashed node k₁, P q)
      (hp₂ : ∀ q ∈ hashed node k₂, P q)
      (hleaf : ∀ x ∈ k₁, x ≠ Hash.sentinel ∧ ∀ q, P q → x ≠ parent node q)
      (h : root node k₁ = root node k₂) : ¬ treeHeight k₁.length < treeHeight k₂.length := by
    intro hlt
    have htwo : 2 ≤ k₂.length := by
      by_contra hsmall
      rw [treeHeight_of_le_one (n := k₂.length) (by omega)] at hlt
      omega
    cases k₁ with
    | nil =>
      obtain ⟨q, hq, hroot⟩ := exists_parent_of_two_le node htwo
      exact havoid q (hp₂ q hq) (hroot.symm.trans h.symm)
    | cons a rest =>
      obtain ⟨hne, hnode⟩ := hleaf a List.mem_cons_self
      have hle := le_two_pow_treeHeight (a :: rest).length
      rcases eq_sentinel_or_parent_of_lt hfree havoid hlt hle (le_two_pow_treeHeight _) hp₁ hp₂ h 0
        with hs | ⟨q, hq, hparent⟩
      · exact hne hs
      · exact hnode q hq hparent
  have hheight : treeHeight l₁.length = treeHeight l₂.length :=
    Nat.le_antisymm (Nat.le_of_not_lt (not_lt hp₂ hp₁ hleaf₂ h.symm))
      (Nat.le_of_not_lt (not_lt hp₁ hp₂ hleaf₁ h))
  have hlen₁ : l₁.length ≤ 2 ^ treeHeight l₂.length := (treeHeight_le_iff _ _).mp hheight.le
  have hlen₂ : l₂.length ≤ 2 ^ treeHeight l₂.length := le_two_pow_treeHeight _
  unfold root at h
  unfold hashed at hp₁
  rw [hheight] at h hp₁
  exact eq_of_getD_eq (fun hmem => (hleaf₁ _ hmem).1 rfl) (fun hmem => (hleaf₂ _ hmem).1 rfl)
    (getD_eq_of_rootAt_eq hfree havoid hlen₁ hlen₂ hp₁ hp₂ h)

/-! ## Paths to one root -/

/-- Two paths to one root, of which one turns to the same sides as the end of the other: it is the
end of the other, and starts from a node that the other one passes. -/
theorem exists_append_of_rootFrom_eq (hfree : CollisionFreeOn node P) {x y : Hash}
    {p q : List PathStep} (hp : ∀ c ∈ hashedFrom node x p, P c)
    (hq : ∀ c ∈ hashedFrom node y q, P c) (hsides : p.map (·.side) <:+ q.map (·.side))
    (h : rootFrom node x p = rootFrom node y q) :
    ∃ front, q = front ++ p ∧ x = rootFrom node y front := by
  induction p using List.reverseRecOn generalizing q with
  | nil => exact ⟨q, (List.append_nil q).symm, h⟩
  | append_singleton p step ih =>
    have hne : q ≠ [] := by
      rintro rfl
      simp at hsides
    obtain ⟨q, last, rfl⟩ : ∃ front last, q = front ++ [last] :=
      ⟨q.dropLast, q.getLast hne, (List.dropLast_concat_getLast hne).symm⟩
    rw [List.map_append, List.map_append] at hsides
    obtain ⟨hfront, hside⟩ := (List.suffix_append_inj_of_length_eq (by simp)).mp hsides
    have hside : step.side = last.side := by simpa using hside
    rw [hashedFrom_append] at hp hq
    rw [rootFrom_append, rootFrom_append] at h
    -- the last step of both paths hashed one and the same pair
    have hpair : step.pair (rootFrom node x p) = last.pair (rootFrom node y q) := by
      refine hfree _ _ (hp _ (List.mem_append_right _ List.mem_cons_self))
        (hq _ (List.mem_append_right _ List.mem_cons_self)) ?_
      rw [← apply_eq_parent, ← apply_eq_parent]
      exact h
    obtain ⟨hhash, hrest⟩ : step.hash = last.hash ∧ rootFrom node x p = rootFrom node y q := by
      unfold PathStep.pair at hpair
      rw [hside] at hpair
      cases hlast : last.side <;> simp only [hlast, Prod.mk.injEq] at hpair
      · exact hpair
      · exact hpair.symm
    obtain ⟨front, rfl, hx⟩ := ih (fun c hc => hp c (List.mem_append_left _ hc))
      (fun c hc => hq c (List.mem_append_left _ hc)) hfront hrest
    have hstep : step = last := by
      cases step; cases last; simp_all
    exact ⟨front, by rw [hstep, List.append_assoc], hx⟩

/-- Two paths to one root, of which the one with fewer steps starts from what is no parent, are the
same path. -/
theorem eq_of_rootFrom_eq (hfree : CollisionFreeOn node P) {x y : Hash} {p q : List PathStep}
    (hp : ∀ c ∈ hashedFrom node x p, P c) (hq : ∀ c ∈ hashedFrom node y q, P c)
    (hsides : p.map (·.side) <:+ q.map (·.side)) (hx : ∀ c, P c → x ≠ parent node c)
    (h : rootFrom node x p = rootFrom node y q) : x = y ∧ p = q := by
  obtain ⟨front, rfl, hfront⟩ := exists_append_of_rootFrom_eq hfree hp hq hsides h
  by_cases hnil : front = []
  · subst hnil
    exact ⟨hfront, rfl⟩
  · obtain ⟨c, hc, hparent⟩ := exists_parent_of_rootFrom node (x := y) hnil
    rw [hashedFrom_append] at hq
    exact absurd (hfront.trans hparent) (hx c (hq c (List.mem_append_left _ hc)))

/-- Two paths to one root that turn left at every step, each from what is no parent, are the same
path. -/
theorem eq_of_rootFrom_eq_of_right (hfree : CollisionFreeOn node P) {x y : Hash}
    {p q : List PathStep} (hp : ∀ c ∈ hashedFrom node x p, P c)
    (hq : ∀ c ∈ hashedFrom node y q, P c) (hright₁ : ∀ step ∈ p, step.side = .right)
    (hright₂ : ∀ step ∈ q, step.side = .right) (hx : ∀ c, P c → x ≠ parent node c)
    (hy : ∀ c, P c → y ≠ parent node c) (h : rootFrom node x p = rootFrom node y q) :
    x = y ∧ p = q := by
  have hsides {path : List PathStep} (hright : ∀ step ∈ path, step.side = .right) :
      path.map (·.side) = List.replicate path.length .right :=
    List.eq_replicate_iff.mpr ⟨List.length_map _, List.forall_mem_map.mpr hright⟩
  rcases Nat.le_total p.length q.length with hle | hle
  · refine eq_of_rootFrom_eq hfree hp hq ?_ hx h
    rw [hsides hright₁, hsides hright₂]
    exact List.suffix_replicate_iff.mpr ⟨by simpa using hle, by simp⟩
  · have hyx := eq_of_rootFrom_eq hfree hq hp ?_ hy h.symm
    · exact ⟨hyx.1.symm, hyx.2.symm⟩
    · rw [hsides hright₁, hsides hright₂]
      exact List.suffix_replicate_iff.mpr ⟨by simpa using hle, by simp⟩

/-! ## Paths into a tree -/

/-- The lowest digit of a position says on which side the first sibling stands. -/
theorem pathIndex_cons (step : PathStep) (rest : List PathStep) :
    pathIndex (step :: rest) / 2 = pathIndex rest ∧
      (step.side = .left ↔ pathIndex (step :: rest) % 2 = 1) := by
  rw [pathIndex]
  cases step.side with
  | left => simp; omega
  | right => simp

/-- A step whose pair stands at a position is the step that the level has there. -/
theorem eq_sibling_of_pair_eq {level : List Hash} {i : Nat} {step : PathStep} {x : Hash}
    (hside : step.side = .left ↔ i % 2 = 1)
    (hpair : (neighbours level)[i / 2]? = some (step.pair x)) :
    level.getD i Hash.sentinel = x ∧ step = sibling level i := by
  obtain ⟨hash, side⟩ := step
  have hget (j : Nat) (hj : j / 2 = i / 2) := by
    have h := getD_eq_getD_neighbours level j
    rw [List.getD_eq_getElem?_getD (l := neighbours level), hj, hpair, Option.getD_some] at h
    exact h
  cases side with
  | left =>
    have hodd : i % 2 = 1 := hside.mp rfl
    have hself := hget i rfl
    have hleft := hget (i - 1) (by omega)
    rw [if_neg (by omega)] at hself
    rw [if_pos (by omega)] at hleft
    exact ⟨hself, by rw [sibling, if_neg (by omega), hleft]; rfl⟩
  | right =>
    have hodd : ¬ i % 2 = 1 := by
      intro h
      cases hside.mpr h
    have heven : i % 2 = 0 := by omega
    have hself := hget i rfl
    have hright := hget (i + 1) (by omega)
    rw [if_pos heven] at hself
    rw [if_neg (by omega)] at hright
    exact ⟨hself, by rw [sibling, if_pos heven, hright]; rfl⟩

/-- If the parent of the running node and its sibling stands in the level above, at the position where
the path goes on, then both stand in the level itself, at the position of the path. -/
theorem opening_step (hfree : CollisionFreeOn node P) {level : List Hash} {x : Hash}
    {step : PathStep} {rest : List PathStep} (hlevel : ∀ q ∈ neighbours level, P q)
    (hstep : P (step.pair x))
    (habove : (nextLevel node level)[pathIndex rest]? = some (step.apply node x)) :
    level.getD (pathIndex (step :: rest)) Hash.sentinel = x ∧
      step = sibling level (pathIndex (step :: rest)) := by
  obtain ⟨hhalf, hside⟩ := pathIndex_cons step rest
  rw [nextLevel_eq_map, List.getElem?_map, Option.map_eq_some_iff, apply_eq_parent] at habove
  obtain ⟨pair, hpair, hparent⟩ := habove
  obtain rfl : pair = step.pair x := hfree _ _ (hlevel _ (List.mem_of_getElem? hpair)) hstep hparent
  rw [← hhalf] at hpair
  exact eq_sibling_of_pair_eq hside hpair

/-- A path of the right length to the root of a tree starts from what stands at the position that it
spells out, and is the path of that position. -/
theorem opening_unique (hfree : CollisionFreeOn node P) (havoid : AvoidsSentinelOn node P)
    {level : List Hash} {x : Hash} {path : List PathStep}
    (hlevel : ∀ q ∈ hashedAt node path.length level, P q) (hpath : ∀ q ∈ hashedFrom node x path, P q)
    (h : rootFrom node x path = rootAt node path.length level) :
    level.getD (pathIndex path) Hash.sentinel = x ∧
      path = pathAt node path.length level (pathIndex path) := by
  induction path generalizing level x with
  | nil =>
    refine ⟨?_, rfl⟩
    simpa [rootAt, rootFrom, pathIndex, List.headD_eq_head?_getD, List.head?_eq_getElem?]
      using h.symm
  | cons step rest ih =>
    have hstep : P (step.pair x) := hpath _ List.mem_cons_self
    obtain ⟨habove, hrest⟩ := ih (fun q hq => hlevel q (List.mem_append_right _ hq))
      (fun q hq => hpath q (List.mem_cons_of_mem _ hq)) h
    -- the node above is a parent, so it stands in the level and not beyond its end
    have hpresent : (nextLevel node level)[pathIndex rest]? = some (step.apply node x) := by
      rw [List.getD_eq_getElem?_getD] at habove
      cases hnode : (nextLevel node level)[pathIndex rest]? with
      | none =>
        rw [hnode, apply_eq_parent] at habove
        exact absurd habove.symm (havoid _ hstep)
      | some y =>
        rw [hnode] at habove
        exact congrArg some habove
    obtain ⟨hx, hsibling⟩ :=
      opening_step hfree (fun q hq => hlevel q (List.mem_append_left _ hq)) hstep hpresent
    rw [← (pathIndex_cons step rest).1] at hrest
    exact ⟨hx, congrArg₂ List.cons hsibling hrest⟩

end Merkle

end VeiledLedger
