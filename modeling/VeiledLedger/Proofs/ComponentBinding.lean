import VeiledLedger.Proofs.ComponentProof
import VeiledLedger.Proofs.FullViewBinding

set_option autoImplicit false

/-! # Accepted proofs of components

Whoever makes a proof chooses the component, the nonce, both labels and every sibling. The two paths
are compared with the two trees of the view that has the id: the upper one first, which makes the
lower one lead to the root of a group, and then the lower one (`opening_unique` for both). A group
that is absent has the sentinel for its root and a position beyond the leaves has it for its leaf,
and neither can be reached while no hash is the sentinel. The proof is then the one that the view
gives for the position (`discloseComponent_of_verify`).

The labels are compared with words of 64 bits. A path as long as a tree of the view is high fits into
one, and its word is the position. The lower path of an absent group may be longer than any word, and
nothing is read off its word. -/

namespace VeiledLedger

/-! ## Proofs that the view gives -/

namespace FullView

variable {v : FullView} {g : UInt32} {i : Nat} {π : ComponentProof}

theorem Proves.discloseComponent_eq (h : v.Proves g i π) : v.discloseComponent g i = .ok π := by
  obtain rfl := h.group_eq
  obtain ⟨components, hg, hi⟩ := h.present
  have hleaf := (List.getElem?_eq_some_iff.mp h.leaf_eq).1
  have htop := (List.getElem?_eq_some_iff.mp (top_getElem? hg)).1
  unfold discloseComponent componentProof?
  simp only [hg, hi, h.nonce_eq, Merkle.path?, if_pos hleaf, if_pos htop, Option.bind_eq_bind,
    Option.bind_some, ← h.groupPath_eq, ← h.topPath_eq, ← h.index_eq]
  rfl

/-- The lower path is as long as the tree over the components is high, unless these outgrow the
numbering of nonces. -/
theorem Proves.length_groupPath_of_lt (h : v.Proves g i π) {components : List Bytes}
    (hg : v.groups.groups.get? g = some components) (hlt : components.length < 2 ^ 32) :
    π.groupPath.length = treeHeight components.length := by
  rw [h.length_groupPath, length_leavesOf hg, Nat.mod_eq_of_lt hlt]

/-- The leaf of a component is hashed when the view is made. -/
theorem Proves.leafCall_mem (h : v.Proves g i π) :
    v.digests.leafCall π.nonce π.component ∈ v.calls := by
  obtain ⟨components, hg, hi⟩ := h.present
  exact groupCalls_subset hg
    (List.mem_append_left _ (DigestPair.leafCall_mem_leafCalls h.nonce_eq hi))

end FullView

/-! ## The calls of a proof -/

namespace ComponentProof

/-- The leaf that a proof starts from. -/
def leaf (p : ComponentProof) (digests : DigestPair) : Hash :=
  digests.leafHash p.nonce p.component

/-- Where the first path of a proof leads to. -/
def groupRoot (p : ComponentProof) (digests : DigestPair) : Hash :=
  Merkle.rootFrom digests.nodeHash (p.leaf digests) p.groupPath

/-- The calls that are made when a proof is checked: for its leaf and along both paths. -/
def calls (p : ComponentProof) (digests : DigestPair) : List HashCall :=
  digests.leafCall p.nonce p.component ::
    (Merkle.hashedFrom digests.nodeHash (p.leaf digests) p.groupPath
      ++ Merkle.hashedFrom digests.nodeHash (p.groupRoot digests) p.topPath).map digests.nodeCall

variable {v : FullView} {p π : ComponentProof} {g : UInt32} {i : Nat} {calls : List HashCall}

/-- Checking a proof that the view gives makes no call that was not made for the view. -/
theorem calls_subset_of_proves (h : v.Proves g i π) : π.calls v.digests ⊆ v.calls := by
  obtain ⟨components, hg, -⟩ := h.present
  have hroot : v.tree.top[g.toNat]? = some (π.groupRoot v.digests) := by
    rw [FullView.top_getElem? hg, groupRoot, h.groupPath_eq]
    exact congrArg some (Merkle.rootFrom_pathAt_self _ h.leaf_eq (le_two_pow_treeHeight _)).symm
  refine List.cons_subset.mpr ⟨h.leafCall_mem, ?_⟩
  rw [List.map_append]
  refine List.append_subset.mpr ⟨?_, ?_⟩
  · rw [h.groupPath_eq]
    have htree := (List.append_subset.mp (FullView.groupCalls_subset hg)).2
    rw [← FullView.leavesOf_eq hg] at htree
    exact List.Subset.trans (List.map_subset _ (Merkle.hashedFrom_pathAt _ h.leaf_eq)) htree
  · rw [h.topPath_eq]
    exact List.Subset.trans (List.map_subset _ (Merkle.hashedFrom_pathAt _ hroot)) v.topCalls_subset

/-! ## From the id to the component -/

/-- A proof and a view, and calls among which are all those made for either. -/
structure Compared (calls : List HashCall) (v : FullView) (p : ComponentProof) : Prop where
  free : CollisionFree calls
  avoids : AvoidsSentinel calls
  view_subset : v.calls ⊆ calls
  proof_subset : p.calls v.digests ⊆ calls

namespace Compared

theorem leafCall_mem (h : Compared calls v p) : v.digests.leafCall p.nonce p.component ∈ calls :=
  h.proof_subset List.mem_cons_self

theorem nodeCall_mem_groupPath (h : Compared calls v p) :
    ∀ q ∈ Merkle.hashedFrom v.digests.nodeHash (p.leaf v.digests) p.groupPath,
      v.digests.nodeCall q ∈ calls := by
  intro q hq
  exact h.proof_subset (List.mem_cons_of_mem _ (List.mem_map_of_mem (List.mem_append_left _ hq)))

theorem nodeCall_mem_topPath (h : Compared calls v p) :
    ∀ q ∈ Merkle.hashedFrom v.digests.nodeHash (p.groupRoot v.digests) p.topPath,
      v.digests.nodeCall q ∈ calls := by
  intro q hq
  exact h.proof_subset (List.mem_cons_of_mem _ (List.mem_map_of_mem (List.mem_append_right _ hq)))

/-- No path leads from a leaf to the sentinel. -/
theorem groupRoot_ne_sentinel (h : Compared calls v p) :
    p.groupRoot v.digests ≠ Hash.sentinel := by
  by_cases hnil : p.groupPath = []
  · rw [groupRoot, hnil]
    exact h.avoids _ h.leafCall_mem
  · obtain ⟨q, hq, hparent⟩ := Merkle.exists_parent_of_rootFrom v.digests.nodeHash
      (x := p.leaf v.digests) hnil
    rw [groupRoot, hparent]
    exact h.avoids.on_nodes v.digests q (h.nodeCall_mem_groupPath q hq)

/-- The upper path is the one of the group that the proof names, and leads there from its root. -/
theorem topPath_eq (h : Compared calls v p) (hverify : p.verify v.id v.digests = .ok ())
    (hlen : p.topPath.length = treeHeight v.tree.top.length) :
    v.tree.rootOf p.group = p.groupRoot v.digests ∧ p.topPath =
      Merkle.pathAt v.digests.nodeHash (treeHeight v.tree.top.length) v.tree.top p.group.toNat := by
  obtain ⟨-, hword, hid⟩ := verify_eq_ok_iff.mp hverify
  have hshort : p.topPath.length ≤ 64 := by
    rw [hlen]
    exact v.treeHeight_top_le.trans (by decide)
  have hgroup := (Merkle.indexWord_eq_iff hshort).mp hword
  have hroot : Merkle.rootFrom v.digests.nodeHash (p.groupRoot v.digests) p.topPath
      = Merkle.rootAt v.digests.nodeHash p.topPath.length v.tree.top := by
    rw [hlen]
    exact hid.trans v.id_eq
  have htop : ∀ q ∈ Merkle.hashedAt v.digests.nodeHash p.topPath.length v.tree.top,
      v.digests.nodeCall q ∈ calls := by
    rw [hlen]
    exact nodeCall_mem_of_treeCalls_subset (List.Subset.trans v.topCalls_subset h.view_subset)
  obtain ⟨hslot, hpath⟩ := Merkle.opening_unique (h.free.on_nodes v.digests)
    (h.avoids.on_nodes v.digests) htop h.nodeCall_mem_topPath hroot
  rw [hgroup] at hslot hpath
  rw [hlen] at hpath
  exact ⟨(v.getD_top p.group).symm.trans hslot, hpath⟩

/-- The lower path is the one of the position that the proof names, and leads there from its leaf. -/
theorem groupPath_eq (h : Compared calls v p) {components : List Bytes}
    (hg : v.groups.groups.get? p.group = some components)
    (hroot : v.tree.rootOf p.group = p.groupRoot v.digests)
    (hindex : Merkle.pathIndex p.groupPath = p.index.toNat)
    (hlen : p.groupPath.length = treeHeight (v.tree.leavesOf p.group).length) :
    (v.tree.leavesOf p.group)[p.index.toNat]? = some (p.leaf v.digests) ∧ p.groupPath =
      Merkle.pathAt v.digests.nodeHash (treeHeight (v.tree.leavesOf p.group).length)
        (v.tree.leavesOf p.group) p.index.toNat := by
  have hfold : Merkle.rootFrom v.digests.nodeHash (p.leaf v.digests) p.groupPath
      = Merkle.rootAt v.digests.nodeHash p.groupPath.length (v.tree.leavesOf p.group) := by
    rw [hlen]
    exact hroot.symm.trans (v.rootOf_eq_merkleRoot p.group)
  have hleaves : ∀ q ∈ Merkle.hashedAt v.digests.nodeHash p.groupPath.length
      (v.tree.leavesOf p.group), v.digests.nodeCall q ∈ calls := by
    rw [hlen, FullView.leavesOf_eq hg]
    exact nodeCall_mem_of_treeCalls_subset (List.Subset.trans
      (List.append_subset.mp (FullView.groupCalls_subset hg)).2 h.view_subset)
  obtain ⟨hslot, hpath⟩ := Merkle.opening_unique (h.free.on_nodes v.digests)
    (h.avoids.on_nodes v.digests) hleaves h.nodeCall_mem_groupPath hfold
  rw [hindex] at hslot hpath
  rw [hlen] at hpath
  refine ⟨?_, hpath⟩
  -- beyond the leaves there would be the sentinel
  rw [List.getD_eq_getElem?_getD] at hslot
  cases hi : (v.tree.leavesOf p.group)[p.index.toNat]? with
  | none =>
    rw [hi] at hslot
    exact absurd hslot.symm (h.avoids _ h.leafCall_mem)
  | some x =>
    rw [hi] at hslot
    exact congrArg some hslot

/-- A leaf that is hashed like the one at a position is made of the same component and nonce. -/
theorem component_eq (h : Compared calls v p) {components : List Bytes}
    (hg : v.groups.groups.get? p.group = some components)
    (hleaf : (v.tree.leavesOf p.group)[i]? = some (p.leaf v.digests)) :
    components[i]? = some p.component ∧ (v.tree.noncesOf p.group)[i]? = some p.nonce := by
  rw [FullView.leavesOf_eq hg] at hleaf
  obtain ⟨nonce, component, hn, hc, hresult⟩ := List.getElem?_zipWith_eq_some.mp hleaf
  have hmem : v.digests.leafCall nonce component ∈ v.calls := FullView.groupCalls_subset hg
    (List.mem_append_left _ (DigestPair.leafCall_mem_leafCalls hn hc))
  obtain ⟨-, rfl, rfl⟩ := DigestPair.leafCall_inj
    (h.free _ (h.view_subset hmem) _ h.leafCall_mem hresult)
  exact ⟨hc, hn⟩

end Compared

/-- A proof that is accepted under the id of a view, with paths as long as the trees of the view are
high, is about a component of the view, and is the proof that the view gives for its position. -/
theorem discloseComponent_of_verify
    (hsmall : ∀ g components, v.groups.groups.get? g = some components →
      components.length < 2 ^ 32)
    (hverify : p.verify v.id v.digests = .ok ())
    (htop : p.topPath.length = treeHeight v.tree.top.length)
    (hgroup : ∀ components, v.groups.groups.get? p.group = some components →
      p.groupPath.length = treeHeight components.length)
    (hfree : CollisionFree (v.calls ++ p.calls v.digests))
    (havoid : AvoidsSentinel (v.calls ++ p.calls v.digests)) :
    (∃ components, v.groups.groups.get? p.group = some components ∧
      components[p.index.toNat]? = some p.component) ∧
    v.discloseComponent p.group p.index.toNat = .ok p := by
  have hcompared : Compared (v.calls ++ p.calls v.digests) v p :=
    ⟨hfree, havoid, List.subset_append_left _ _, List.subset_append_right _ _⟩
  obtain ⟨hroot, htopPath⟩ := hcompared.topPath_eq hverify htop
  cases hg : v.groups.groups.get? p.group with
  | none =>
    -- the slot of an absent group holds the sentinel
    rw [FullView.rootOf_of_absent hg] at hroot
    exact absurd hroot.symm hcompared.groupRoot_ne_sentinel
  | some components =>
    have hlen : p.groupPath.length = treeHeight (v.tree.leavesOf p.group).length := by
      rw [FullView.length_leavesOf hg, Nat.mod_eq_of_lt (hsmall _ _ hg)]
      exact hgroup components hg
    have hshort : p.groupPath.length ≤ 64 := by
      rw [hlen]
      exact (v.treeHeight_leavesOf_le p.group).trans (by decide)
    have hindex := (Merkle.indexWord_eq_iff hshort).mp (verify_eq_ok_iff.mp hverify).1
    obtain ⟨hleaf, hgroupPath⟩ := hcompared.groupPath_eq hg hroot hindex hlen
    obtain ⟨hcomponent, hnonce⟩ := hcompared.component_eq hg hleaf
    have hproves : v.Proves p.group p.index.toNat p :=
      { group_eq := rfl
        index_eq := (UInt32.ofNat_toNat).symm
        index_lt := p.index.toNat_lt
        present := ⟨components, hg, hcomponent⟩
        nonce_eq := hnonce
        groupPath_eq := hgroupPath
        topPath_eq := htopPath }
    exact ⟨⟨components, rfl, hcomponent⟩, hproves.discloseComponent_eq⟩

/-- A view of three attachments, under one digest for leaves and inner nodes. -/
def threeAttachments : FullView :=
  FullView.assemble ⟨.ofList [(Role.attachments.ordinal, [[3], [4], [5]])], by decide⟩ .sample
    ⟨.blake3, .blake3⟩ []

/-- The last of three attachments is completed with the sentinel on its way up, and what is accepted
for it with paths of the right length is the proof that the view gives. -/
theorem discloseComponent_lastAttachment :
    ∃ p : ComponentProof, p.verify threeAttachments.id ⟨.blake3, .blake3⟩ = .ok () ∧
      p.topPath.length = treeHeight threeAttachments.tree.top.length ∧ p.groupPath.length = 2 ∧
      CollisionFree (threeAttachments.calls ++ p.calls ⟨.blake3, .blake3⟩) ∧
      AvoidsSentinel (threeAttachments.calls ++ p.calls ⟨.blake3, .blake3⟩) ∧
      p.group = Role.attachments.ordinal ∧ p.index = 2 ∧ p.component = [5] ∧
      threeAttachments.discloseComponent Role.attachments.ordinal 2 = .ok p := by
  let v := threeAttachments
  have hg : v.groups.groups.get? Role.attachments.ordinal = some [[3], [4], [5]] := by decide
  have hentries : ∀ e ∈ v.groups.groups.entries, e.2.length < 2 ^ 32 := by decide
  have hsmall : ∀ g components, v.groups.groups.get? g = some components →
      components.length < 2 ^ 32 :=
    fun g components hg => hentries _ ((v.groups.groups.mem_entries_iff _ _).mpr hg)
  obtain ⟨p, hp⟩ := FullView.exists_discloseComponent (v := v) (i := 2) hg (by decide) (by decide)
  have hproves := FullView.proves_of_discloseComponent hp
  have hverify := verify_of_proves hproves
  have hgroup : ∀ components, v.groups.groups.get? p.group = some components →
      p.groupPath.length = treeHeight components.length := by
    intro components hcomponents
    rw [hproves.group_eq] at hcomponents
    exact hproves.length_groupPath_of_lt hcomponents (hsmall _ _ hcomponents)
  have hsame : v.calls ++ p.calls v.digests ⊆ v.calls :=
    List.append_subset.mpr ⟨List.Subset.refl _, calls_subset_of_proves hproves⟩
  obtain ⟨hfree, havoid⟩ : CollisionFree v.calls ∧ AvoidsSentinel v.calls := by decide +kernel
  have hfree := hfree.of_subset hsame
  have havoid := havoid.of_subset hsame
  obtain ⟨⟨components, hcomponents, hi⟩, hdisclose⟩ :=
    discloseComponent_of_verify hsmall hverify hproves.length_topPath hgroup hfree havoid
  have hlen : p.groupPath.length = 2 :=
    (hproves.length_groupPath_of_lt hg (by decide)).trans (by decide)
  rw [hproves.group_eq] at hcomponents hdisclose
  rw [hproves.toNat_index] at hi hdisclose
  obtain rfl := Option.some.inj (hg.symm.trans hcomponents)
  exact ⟨p, hverify, hproves.length_topPath, hlen, hfree, havoid, hproves.group_eq,
    hproves.index_eq, (Option.some.inj hi).symm, hdisclose⟩

end ComponentProof

end VeiledLedger
