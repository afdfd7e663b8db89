import VeiledLedger.Proofs.FullView

set_option autoImplicit false

/-! # Changes are local

Two groupings that differ only in what their components say, under one salt and one pair of digests,
have the same nonces: a nonce depends on a position. So they have the same leaf wherever they have
the same component, and the same root and slot for every group that is the same. What a verifier
gets of the two transactions then differs only where a group was changed, and if this group is
hidden, only in its root, its slot and the id. -/

namespace VeiledLedger

namespace Grouping

/-- The component at a position, if there is one. -/
def component? (g : Grouping) (k : UInt32) (i : Nat) : Option Bytes :=
  (g.groups.get? k).bind fun components => components[i]?

/-- The same ordinals, and in each group the same number of components. -/
def SameLayout (g₁ g₂ : Grouping) : Prop :=
  ∀ k, (g₁.groups.get? k).map List.length = (g₂.groups.get? k).map List.length

variable {g : Grouping} {k j : UInt32} {components : List Bytes}

theorem get?_put (hne : components ≠ []) : (g.put k components hne).groups.get? j
    = if j = k then some components else g.groups.get? j :=
  GroupMap.get?_insert _ _ _ _

/-- Only the group that is put in place of another can differ from what was there. -/
theorem eq_of_get?_put_ne (hne : components ≠ [])
    (h : g.groups.get? j ≠ (g.put k components hne).groups.get? j) : j = k := by
  by_contra hj
  rw [get?_put, if_neg hj] at h
  exact h rfl

/-- A group can be replaced by any group of as many components. -/
theorem sameLayout_put (hne : components ≠ []) {old : List Bytes} (hk : g.groups.get? k = some old)
    (hlength : old.length = components.length) : g.SameLayout (g.put k components hne) := by
  intro j
  rw [get?_put]
  split_ifs with hj
  · rw [hj, hk, Option.map_some, Option.map_some, hlength]
  · rfl

end Grouping

/-! ## In the tree -/

namespace CommitmentTree

variable {g₁ g₂ : Grouping} {k : UInt32}

theorem nonces_build_get? (groups : Grouping) (salt : Salt) (digests : DigestPair) (k : UInt32) :
    (build groups salt digests).nonces.get? k = ((groups.groups.get? k).map List.length).map
      fun count => salt.nonces digests.leaf k (UInt32.ofNat count) := by
  rw [Option.map_map]
  exact GroupMap.get?_map _ _ _

/-- The nonces of a tree are those of its positions. -/
theorem nonces_eq_of_sameLayout (h : g₁.SameLayout g₂) (salt : Salt) (digests : DigestPair) :
    (build g₁ salt digests).nonces = (build g₂ salt digests).nonces := by
  refine GroupMap.ext_get? fun k => ?_
  rw [nonces_build_get?, nonces_build_get?, h k]

theorem noncesOf_eq_map {groups : Grouping} {components : List Bytes} (salt : Salt)
    (digests : DigestPair) (hk : groups.groups.get? k = some components)
    (hsmall : components.length < 2 ^ 32) :
    (build groups salt digests).noncesOf k
      = (List.range components.length).map fun i => salt.nonce digests.leaf k (UInt32.ofNat i) := by
  have hcount : (UInt32.ofNat components.length).toNat = components.length :=
    UInt32.toNat_ofNat_of_lt' hsmall
  rw [noncesOf_build salt digests hk, Salt.nonces, hcount]

/-- A leaf is hashed from the nonce and the component at its position. -/
theorem leavesOf_build_getElem? (groups : Grouping) (salt : Salt) (digests : DigestPair)
    (k : UInt32) (i : Nat) : ((build groups salt digests).leavesOf k)[i]?
      = ((build groups salt digests).noncesOf k)[i]?.bind fun nonce =>
          (groups.component? k i).map fun component => digests.leafHash nonce component := by
  unfold Grouping.component?
  cases hk : groups.groups.get? k with
  | none =>
    rw [leavesOf_build_of_absent salt digests hk, noncesOf_build_of_absent salt digests hk]
    rfl
  | some components =>
    rw [leavesOf_build salt digests hk, ← noncesOf_build salt digests hk, DigestPair.leafHashes,
      List.getElem?_zipWith, Option.bind_some]
    cases ((build groups salt digests).noncesOf k)[i]? <;> cases components[i]? <;> rfl

theorem leaf_eq_of_component_eq (h : g₁.SameLayout g₂) (salt : Salt) (digests : DigestPair) {i : Nat}
    (hcomponent : g₁.component? k i = g₂.component? k i) :
    ((build g₁ salt digests).leavesOf k)[i]? = ((build g₂ salt digests).leavesOf k)[i]? := by
  have hnonces : (build g₁ salt digests).noncesOf k = (build g₂ salt digests).noncesOf k := by
    rw [noncesOf, nonces_eq_of_sameLayout h]
    rfl
  rw [leavesOf_build_getElem?, leavesOf_build_getElem?, hnonces, hcomponent]

theorem leavesOf_eq_of_group_eq (salt : Salt) (digests : DigestPair)
    (hgroup : g₁.groups.get? k = g₂.groups.get? k) :
    (build g₁ salt digests).leavesOf k = (build g₂ salt digests).leavesOf k := by
  cases hk : g₂.groups.get? k with
  | none =>
    rw [leavesOf_build_of_absent salt digests hk,
      leavesOf_build_of_absent salt digests (hgroup.trans hk)]
  | some components =>
    rw [leavesOf_build salt digests hk, leavesOf_build salt digests (hgroup.trans hk)]

theorem root_eq_of_group_eq (salt : Salt) (digests : DigestPair)
    (hgroup : g₁.groups.get? k = g₂.groups.get? k) :
    (build g₁ salt digests).roots.get? k = (build g₂ salt digests).roots.get? k := by
  rw [roots_build_get?, roots_build_get?, hgroup, leavesOf_eq_of_group_eq salt digests hgroup]

theorem length_top_of_sameLayout (h : g₁.SameLayout g₂) (salt : Salt) (digests : DigestPair) :
    (build g₁ salt digests).top.length = (build g₂ salt digests).top.length := by
  rw [top_build, top_build, length_topLevel, length_topLevel]
  refine topSpan_congr fun k _ => ?_
  have hpresent := congrArg Option.isSome (h k)
  simpa [GroupMap.contains, roots_build_get?] using hpresent

/-- The slot of a group stays what it is, also if it is a slot for no group. -/
theorem slot_eq_of_group_eq (h : g₁.SameLayout g₂) (salt : Salt) (digests : DigestPair)
    (hgroup : g₁.groups.get? k = g₂.groups.get? k) :
    (build g₁ salt digests).top[k.toNat]? = (build g₂ salt digests).top[k.toNat]? := by
  have hlength := length_top_of_sameLayout h salt digests
  have hslot : (build g₁ salt digests).top.getD k.toNat Hash.sentinel
      = (build g₂ salt digests).top.getD k.toNat Hash.sentinel := by
    rw [top_build, top_build, getD_topLevel, getD_topLevel,
      root_eq_of_group_eq salt digests hgroup]
  by_cases hlt : k.toNat < (build g₁ salt digests).top.length
  · rw [List.getD_eq_getElem _ _ hlt, List.getD_eq_getElem _ _ (hlength ▸ hlt)] at hslot
    rw [List.getElem?_eq_getElem hlt, List.getElem?_eq_getElem (hlength ▸ hlt), hslot]
  · rw [List.getElem?_eq_none (Nat.not_lt.mp hlt),
      List.getElem?_eq_none (hlength ▸ Nat.not_lt.mp hlt)]

end CommitmentTree

/-! ## In the disclosure -/

/-- Two disclosures with the same digests and nonces differ only in their ids and in what belongs to
groups with given ordinals. -/
structure Disclosure.AgreesOutside (changed : UInt32 → Prop) (d₁ d₂ : Disclosure) : Prop where
  digests_eq : d₁.digests = d₂.digests
  nonces_eq : d₁.nonces = d₂.nonces
  components_eq : ∀ k, ¬ changed k → d₁.components.get? k = d₂.components.get? k
  hiddenRoots_eq : ∀ k, ¬ changed k → d₁.hiddenRoots.get? k = d₂.hiddenRoots.get? k
  outputLeaves_eq : ¬ changed Role.outputs.ordinal → d₁.outputLeaves = d₂.outputLeaves
  length_topRoots : d₁.topRoots.length = d₂.topRoots.length
  slot_eq : ∀ k : UInt32, ¬ changed k → d₁.topRoots[k.toNat]? = d₂.topRoots[k.toNat]?

namespace FullView

variable {v₁ v₂ : FullView}

theorem disclosure_agreesOutside (hlayout : v₁.groups.SameLayout v₂.groups)
    (hsalt : v₁.salt = v₂.salt) (hdigests : v₁.digests = v₂.digests) :
    Disclosure.AgreesOutside (fun k => v₁.groups.groups.get? k ≠ v₂.groups.groups.get? k)
      v₁.disclosure v₂.disclosure := by
  have htree₁ : v₁.tree = CommitmentTree.build v₁.groups v₂.salt v₂.digests := by
    rw [v₁.tree_eq_build, hsalt, hdigests]
  have htree₂ : v₂.tree = CommitmentTree.build v₂.groups v₂.salt v₂.digests := v₂.tree_eq_build
  have hnonces : v₁.tree.nonces = v₂.tree.nonces := by
    rw [htree₁, htree₂]
    exact CommitmentTree.nonces_eq_of_sameLayout hlayout _ _
  refine ⟨hdigests, ?_, fun k hk => ?_, fun k hk => ?_, fun hk => ?_, ?_, fun k hk => ?_⟩
  · refine GroupMap.ext_get? fun k => ?_
    rw [disclosure_nonces, disclosure_nonces, CommitmentTree.noncesOf, hnonces]
    rfl
  · rw [disclosure_components, disclosure_components, not_not.mp hk]
  · rw [disclosure_hiddenRoots, disclosure_hiddenRoots, htree₁, htree₂,
      CommitmentTree.root_eq_of_group_eq _ _ (not_not.mp hk)]
  · show v₁.tree.leavesOf _ = v₂.tree.leavesOf _
    rw [htree₁, htree₂, CommitmentTree.leavesOf_eq_of_group_eq _ _ (not_not.mp hk)]
  · show v₁.tree.top.length = v₂.tree.top.length
    rw [htree₁, htree₂, CommitmentTree.length_top_of_sameLayout hlayout]
  · show v₁.tree.top[k.toNat]? = v₂.tree.top[k.toNat]?
    rw [htree₁, htree₂, CommitmentTree.slot_eq_of_group_eq hlayout _ _ (not_not.mp hk)]

/-- Where only hidden groups are changed, all plaintext and all leaves are the same. -/
theorem disclosure_eq_of_hidden_changes
    (hagrees : Disclosure.AgreesOutside (fun k => v₁.groups.groups.get? k ≠ v₂.groups.groups.get? k)
      v₁.disclosure v₂.disclosure)
    (hhidden : ∀ k, v₁.groups.groups.get? k ≠ v₂.groups.groups.get? k →
      Visibility.ofOrdinal k = .hidden) :
    v₁.disclosure.components = v₂.disclosure.components ∧
      v₁.disclosure.outputLeaves = v₂.disclosure.outputLeaves := by
  constructor
  · refine GroupMap.ext_get? fun k => ?_
    by_cases hk : v₁.groups.groups.get? k = v₂.groups.groups.get? k
    · exact hagrees.components_eq k (not_not.mpr hk)
    · rw [disclosure_components, disclosure_components, hhidden k hk]
      rfl
  · refine hagrees.outputLeaves_eq fun hk => ?_
    have hvisible := hhidden _ hk
    rw [Visibility.ofOrdinal_ordinal] at hvisible
    cases hvisible

/-- Groupings of the same layout have the same nonces, one for each position, and the same leaf, root
and slot wherever they say the same. What is disclosed of them agrees outside the groups that are
changed, and if all of these are hidden, it differs only in their roots and slots, and in the id. -/
theorem changes_are_local {g₁ g₂ : Grouping} (hlayout : g₁.SameLayout g₂)
    (hsmall : ∀ k components, g₁.groups.get? k = some components → components.length < 2 ^ 32)
    (salt : Salt) (digests : DigestPair) :
    let t₁ := CommitmentTree.build g₁ salt digests
    let t₂ := CommitmentTree.build g₂ salt digests
    t₁.nonces = t₂.nonces ∧
    (∀ k components, g₁.groups.get? k = some components → t₁.noncesOf k
      = (List.range components.length).map fun i => salt.nonce digests.leaf k (UInt32.ofNat i)) ∧
    (∀ k i, g₁.component? k i = g₂.component? k i → (t₁.leavesOf k)[i]? = (t₂.leavesOf k)[i]?) ∧
    (∀ k, g₁.groups.get? k = g₂.groups.get? k →
      t₁.roots.get? k = t₂.roots.get? k ∧ t₁.top[k.toNat]? = t₂.top[k.toNat]?) ∧
    ∀ v₁ v₂ : FullView, (v₁.groups, v₁.salt, v₁.digests) = (g₁, salt, digests) →
      (v₂.groups, v₂.salt, v₂.digests) = (g₂, salt, digests) →
      Disclosure.AgreesOutside (fun k => g₁.groups.get? k ≠ g₂.groups.get? k)
        v₁.disclosure v₂.disclosure ∧
      ((∀ k, g₁.groups.get? k ≠ g₂.groups.get? k → Visibility.ofOrdinal k = .hidden) →
        v₁.disclosure.components = v₂.disclosure.components ∧
        v₁.disclosure.outputLeaves = v₂.disclosure.outputLeaves) := by
  refine ⟨CommitmentTree.nonces_eq_of_sameLayout hlayout salt digests,
    fun k components hk => CommitmentTree.noncesOf_eq_map salt digests hk (hsmall k components hk),
    fun k i => CommitmentTree.leaf_eq_of_component_eq hlayout salt digests,
    fun k hk => ⟨CommitmentTree.root_eq_of_group_eq salt digests hk,
      CommitmentTree.slot_eq_of_group_eq hlayout salt digests hk⟩, ?_⟩
  intro v₁ v₂ h₁ h₂
  simp only [Prod.mk.injEq] at h₁ h₂
  obtain ⟨rfl, rfl, rfl⟩ := h₁
  obtain ⟨rfl, hsalt, hdigests⟩ := h₂
  have hagrees := disclosure_agreesOutside hlayout hsalt.symm hdigests.symm
  exact ⟨hagrees, disclosure_eq_of_hidden_changes hagrees⟩

/-- Another command, longer than the one before, is noticed in no other group. -/
theorem changes_are_local_otherCommand : ∃ v₁ v₂,
    ofGroups withUnknownGroup.groups .sample .standard = .ok v₁ ∧
    ofGroups (withUnknownGroup.groups.put Role.commands.ordinal [[0xFF, 0xFF]] (by decide))
      .sample .standard = .ok v₂ ∧
    v₁.disclosure.nonces = v₂.disclosure.nonces ∧
    v₁.disclosure.components = v₂.disclosure.components ∧
    v₁.disclosure.outputLeaves = v₂.disclosure.outputLeaves ∧
    v₁.disclosure.hiddenRoots.get? 12 = v₂.disclosure.hiddenRoots.get? 12 := by
  let other := withUnknownGroup.groups.put Role.commands.ordinal [[0xFF, 0xFF]] (by decide)
  have hcommands : withUnknownGroup.groups.groups.get? Role.commands.ordinal = some [[1]] := by
    decide
  have hlayout : withUnknownGroup.groups.SameLayout other :=
    Grouping.sameLayout_put (by decide) hcommands rfl
  obtain ⟨-, -, -, -, hviews⟩ := changes_are_local hlayout
    (fun k components => length_withUnknownGroup) .sample .standard
  obtain ⟨hagrees, hhidden⟩ := hviews (assemble withUnknownGroup.groups .sample .standard [])
    (assemble other .sample .standard []) rfl rfl
  obtain ⟨hcomponents, hleaves⟩ := hhidden fun k hk => by
    rw [Grouping.eq_of_get?_put_ne _ hk]
    rfl
  exact ⟨_, _, rfl, rfl, hagrees.nonces_eq, hcomponents, hleaves,
    hagrees.hiddenRoots_eq 12 (by decide)⟩

end FullView

end VeiledLedger
