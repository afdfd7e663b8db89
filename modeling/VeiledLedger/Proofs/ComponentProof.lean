import VeiledLedger.Proofs.FullView
import VeiledLedger.Proofs.MerklePaths

set_option autoImplicit false

/-! # What the proof of a component fixes

A view gives a proof for each of its components and for nothing else, and each of these proofs is
accepted (`discloseComponent_spec`).

A proof is checked by folding a leaf through both of its paths, one after the other, so the point at
which the siblings are divided between the two paths does not enter the id that they lead to
(`computedId_eq`). It enters the labels only: the position of a component in the whole tree is one
number, its place in the group below and the group above, and the division of the siblings cuts the
binary digits of that number (`verify_eq_ok_iff_of_recut`). A proof that is cut where the tree of the
group ends names the position that it was made for; cut elsewhere it may name another one.

The labels are compared with words of 64 bits. No tree of a view has more than 32 levels, so both
paths of a proof that it gives fit into a word even when they are joined, and the words are the
positions (`verify_eq_ok_iff_of_length_le`). -/

namespace VeiledLedger

/-! ## Proofs that a view gives -/

/-- What the proof that a view gives for a position consists of. -/
structure FullView.Proves (v : FullView) (g : UInt32) (i : Nat) (π : ComponentProof) : Prop where
  group_eq : π.group = g
  index_eq : π.index = UInt32.ofNat i
  index_lt : i < 2 ^ 32
  present : ∃ components, v.groups.groups.get? g = some components ∧
    components[i]? = some π.component
  nonce_eq : (v.tree.noncesOf g)[i]? = some π.nonce
  groupPath_eq : π.groupPath = Merkle.pathAt v.digests.nodeHash
    (treeHeight (v.tree.leavesOf g).length) (v.tree.leavesOf g) i
  topPath_eq : π.topPath = Merkle.pathAt v.digests.nodeHash
    (treeHeight v.tree.top.length) v.tree.top g.toNat

namespace FullView

variable {v : FullView} {g : UInt32} {i : Nat} {π : ComponentProof}

/-! ### Heights

Positions and ordinals have 32 bits, so no tree of a view is higher than that. -/

theorem treeHeight_leavesOf_le (v : FullView) (g : UInt32) :
    treeHeight (v.tree.leavesOf g).length ≤ 32 := by
  rw [treeHeight_le_iff]
  cases hg : v.groups.groups.get? g with
  | none =>
    rw [v.leavesOf_of_absent hg]
    exact Nat.zero_le _
  | some components =>
    rw [length_leavesOf hg]
    exact Nat.le_of_lt (Nat.mod_lt _ (Nat.two_pow_pos 32))

theorem treeHeight_top_le (v : FullView) : treeHeight v.tree.top.length ≤ 32 := by
  rw [treeHeight_le_iff, v.top_eq, length_topLevel]
  exact topSpan_le_size _

/-! ### Making a proof -/

theorem proves_of_discloseComponent (h : v.discloseComponent g i = .ok π) : v.Proves g i π := by
  unfold discloseComponent at h
  cases hπ : v.componentProof? g i with
  | none => rw [hπ] at h; simp at h
  | some proof =>
    rw [hπ] at h
    obtain rfl : proof = π := by simpa using h
    unfold componentProof? Merkle.path? at hπ
    simp only [Option.bind_eq_bind, Option.bind_eq_some_iff, Option.ite_none_right_eq_some,
      Option.pure_def, Option.some.injEq] at hπ
    obtain ⟨components, hg, component, hi, nonce, hnonce, _, ⟨_, rfl⟩, _, ⟨_, rfl⟩, rfl⟩ := hπ
    refine ⟨rfl, rfl, ?_, ⟨components, hg, hi⟩, hnonce, rfl, rfl⟩
    have hlt := (List.getElem?_eq_some_iff.mp hnonce).1
    rw [length_noncesOf hg] at hlt
    exact hlt.trans (Nat.mod_lt _ (by decide))

/-- A view gives a proof for every position that holds a component, as far as positions go. -/
theorem exists_discloseComponent {components : List Bytes}
    (hg : v.groups.groups.get? g = some components) (hi : i < components.length)
    (hlen : components.length < 2 ^ 32) : ∃ π, v.discloseComponent g i = .ok π := by
  have hnonces : (v.tree.noncesOf g).length = components.length := by
    rw [length_noncesOf hg, Nat.mod_eq_of_lt hlen]
  have hleaves : (v.tree.leavesOf g).length = components.length := by
    rw [length_leavesOf hg, Nat.mod_eq_of_lt hlen]
  have htop := (List.getElem?_eq_some_iff.mp (top_getElem? hg)).1
  refine ⟨⟨g, UInt32.ofNat i, components[i], (v.tree.noncesOf g)[i],
    Merkle.pathAt v.digests.nodeHash (treeHeight (v.tree.leavesOf g).length) (v.tree.leavesOf g) i,
    Merkle.pathAt v.digests.nodeHash (treeHeight v.tree.top.length) v.tree.top g.toNat⟩, ?_⟩
  unfold discloseComponent componentProof?
  rw [hg, Option.bind_eq_bind, Option.bind_some, List.getElem?_eq_getElem hi,
    List.getElem?_eq_getElem (by omega : i < (v.tree.noncesOf g).length)]
  simp only [Option.bind_eq_bind, Option.bind_some, Merkle.path?, if_pos htop,
    if_pos (by omega : i < (v.tree.leavesOf g).length)]
  rfl

namespace Proves

theorem leaf_eq (h : v.Proves g i π) :
    (v.tree.leavesOf g)[i]? = some (v.digests.leafHash π.nonce π.component) := by
  obtain ⟨components, hg, hi⟩ := h.present
  rw [leavesOf_eq hg, DigestPair.leafHashes, List.getElem?_zipWith, h.nonce_eq, hi]

theorem toNat_index (h : v.Proves g i π) : π.index.toNat = i := by
  rw [h.index_eq, UInt32.toNat_ofNat', Nat.mod_eq_of_lt h.index_lt]

theorem nonce_derived (h : v.Proves g i π) :
    π.nonce = v.salt.nonce v.digests.leaf g π.index := by
  obtain ⟨components, hg, -⟩ := h.present
  have hnonce := h.nonce_eq
  rw [noncesOf_eq hg] at hnonce
  rw [Salt.nonce_of_getElem? hnonce, h.index_eq]

theorem length_groupPath (h : v.Proves g i π) :
    π.groupPath.length = treeHeight (v.tree.leavesOf g).length := by
  rw [h.groupPath_eq, Merkle.length_pathAt]

theorem length_topPath (h : v.Proves g i π) :
    π.topPath.length = treeHeight v.tree.top.length := by
  rw [h.topPath_eq, Merkle.length_pathAt]

theorem length_groupPath_le (h : v.Proves g i π) : π.groupPath.length ≤ 32 := by
  rw [h.length_groupPath]
  exact v.treeHeight_leavesOf_le g

theorem length_topPath_le (h : v.Proves g i π) : π.topPath.length ≤ 32 := by
  rw [h.length_topPath]
  exact v.treeHeight_top_le

theorem pathIndex_groupPath (h : v.Proves g i π) : Merkle.pathIndex π.groupPath = i := by
  have hi := (List.getElem?_eq_some_iff.mp h.leaf_eq).1
  rw [h.groupPath_eq]
  exact Merkle.pathIndex_pathAt _ _ _ _ (Nat.lt_of_lt_of_le hi (le_two_pow_treeHeight _))

theorem pathIndex_topPath (h : v.Proves g i π) : Merkle.pathIndex π.topPath = g.toNat := by
  obtain ⟨components, hg, _⟩ := h.present
  have hlt := (List.getElem?_eq_some_iff.mp (top_getElem? hg)).1
  rw [h.topPath_eq]
  exact Merkle.pathIndex_pathAt _ _ _ _ (Nat.lt_of_lt_of_le hlt (le_two_pow_treeHeight _))

end Proves

end FullView

/-! ## Checking a proof -/

namespace ComponentProof

theorem verify_eq_ok_iff {p : ComponentProof} {id : Hash} {digests : DigestPair} :
    p.verify id digests = .ok () ↔ Merkle.indexWord p.groupPath = p.index.toUInt64 ∧
      Merkle.indexWord p.topPath = p.group.toUInt64 ∧ p.computedId digests = id := by
  unfold verify
  split_ifs <;> simp_all

/-- Paths that fit into a word are checked by the positions that they spell out. -/
theorem verify_eq_ok_iff_of_length_le {p : ComponentProof} {id : Hash} {digests : DigestPair}
    (hgroup : p.groupPath.length ≤ 64) (htop : p.topPath.length ≤ 64) :
    p.verify id digests = .ok () ↔ Merkle.pathIndex p.groupPath = p.index.toNat ∧
      Merkle.pathIndex p.topPath = p.group.toNat ∧ p.computedId digests = id := by
  rw [verify_eq_ok_iff, Merkle.indexWord_eq_iff hgroup, Merkle.indexWord_eq_iff htop]

/-- The id depends on the siblings in their order, and not on how the two paths divide them. -/
theorem computedId_eq (p : ComponentProof) (digests : DigestPair) :
    p.computedId digests = Merkle.rootFrom digests.nodeHash
      (digests.leafHash p.nonce p.component) (p.groupPath ++ p.topPath) :=
  (Merkle.rootFrom_append _ _ _ _).symm

/-- The proof that a view gives leads to the id of the view. -/
theorem computedId_of_proves {v : FullView} {g : UInt32} {i : Nat} {π : ComponentProof}
    (h : v.Proves g i π) : π.computedId v.digests = v.id := by
  obtain ⟨components, hg, _⟩ := h.present
  calc π.computedId v.digests
      = Merkle.rootFrom v.digests.nodeHash (Merkle.rootFrom v.digests.nodeHash
          (v.digests.leafHash π.nonce π.component) π.groupPath) π.topPath := rfl
    _ = Merkle.rootFrom v.digests.nodeHash (v.digests.merkleRoot (v.tree.leavesOf g))
          π.topPath := by
        rw [h.groupPath_eq, Merkle.rootFrom_pathAt_self _ h.leaf_eq (le_two_pow_treeHeight _)]
        rfl
    _ = v.digests.merkleRoot v.tree.top := by
        rw [h.topPath_eq, Merkle.rootFrom_pathAt_self _ (FullView.top_getElem? hg)
          (le_two_pow_treeHeight _)]
        rfl
    _ = v.id := v.id_eq.symm

/-- The proof that a view gives is accepted. -/
theorem verify_of_proves {v : FullView} {g : UInt32} {i : Nat} {π : ComponentProof}
    (h : v.Proves g i π) : π.verify v.id v.digests = .ok () := by
  have hgroup : Merkle.pathIndex π.topPath = π.group.toNat := by
    rw [h.pathIndex_topPath, h.group_eq]
  refine (verify_eq_ok_iff_of_length_le ?_ ?_).mpr
    ⟨h.pathIndex_groupPath.trans h.toNat_index.symm, hgroup, computedId_of_proves h⟩
  · exact h.length_groupPath_le.trans (by decide)
  · exact h.length_topPath_le.trans (by decide)

/-- Of a group that does not outgrow the numbering of nonces, a view gives a proof for exactly the
positions that hold a component. The proof is about that component under its nonce, and is
accepted. -/
theorem discloseComponent_spec {v : FullView} {g : UInt32}
    (hsmall : ∀ components, v.groups.groups.get? g = some components →
      components.length < 2 ^ 32) (i : Nat) :
    ((∃ π, v.discloseComponent g i = .ok π) ↔
      ∃ components, v.groups.groups.get? g = some components ∧ i < components.length) ∧
    (∀ π, v.discloseComponent g i = .ok π → π.group = g ∧ π.index.toNat = i ∧
      (∃ components, v.groups.groups.get? g = some components ∧
        components[i]? = some π.component) ∧
      (v.tree.noncesOf g)[i]? = some π.nonce ∧
      π.nonce = v.salt.nonce v.digests.leaf g π.index ∧ π.verify v.id v.digests = .ok ()) ∧
    ∀ e, v.discloseComponent g i = .error e → e = .componentNotFound g i := by
  refine ⟨⟨?_, ?_⟩, fun π hπ => ?_, fun e he => ?_⟩
  · rintro ⟨π, hπ⟩
    obtain ⟨components, hg, hi⟩ := (FullView.proves_of_discloseComponent hπ).present
    exact ⟨components, hg, (List.getElem?_eq_some_iff.mp hi).1⟩
  · rintro ⟨components, hg, hi⟩
    exact FullView.exists_discloseComponent hg hi (hsmall components hg)
  · have hproves := FullView.proves_of_discloseComponent hπ
    exact ⟨hproves.group_eq, hproves.toNat_index, hproves.present, hproves.nonce_eq,
      hproves.nonce_derived, verify_of_proves hproves⟩
  · unfold FullView.discloseComponent at he
    split at he
    · cases he
    · exact (Except.error.inj he).symm

/-- The last component of the group without a role has a proof, and nothing after it has. -/
theorem discloseComponent_unknownGroup :
    (∃ π, FullView.withUnknownGroup.discloseComponent 12 2 = .ok π ∧ π.component = [5] ∧
      π.verify FullView.withUnknownGroup.id .standard = .ok ()) ∧
    FullView.withUnknownGroup.discloseComponent 12 3 = .error (.componentNotFound 12 3) := by
  have hg : FullView.withUnknownGroup.groups.groups.get? 12 = some [[3], [4], [5]] := by decide
  have hsmall : ∀ components, FullView.withUnknownGroup.groups.groups.get? 12 = some components →
      components.length < 2 ^ 32 := fun components => FullView.length_withUnknownGroup
  constructor
  · obtain ⟨hiff, hproof, -⟩ := discloseComponent_spec hsmall 2
    obtain ⟨π, hπ⟩ := hiff.mpr ⟨_, hg, by decide⟩
    obtain ⟨-, -, ⟨components, hpresent, hi⟩, -, -, hverify⟩ := hproof π hπ
    obtain rfl := Option.some.inj (hg.symm.trans hpresent)
    exact ⟨π, hπ, (Option.some.inj hi).symm, hverify⟩
  · obtain ⟨hiff, -, herror⟩ := discloseComponent_spec hsmall 3
    cases hπ : FullView.withUnknownGroup.discloseComponent 12 3 with
    | ok π =>
      obtain ⟨components, hpresent, hi⟩ := hiff.mp ⟨π, hπ⟩
      obtain rfl := Option.some.inj (hg.symm.trans hpresent)
      exact absurd hi (by decide)
    | error e => rw [herror e hπ]

/-! ## Dividing the siblings elsewhere -/

/-- A proof with the component, the nonce and the siblings of another one; the labels and the
division of the siblings between the two paths may differ. -/
structure Recut (p π : ComponentProof) : Prop where
  component_eq : p.component = π.component
  nonce_eq : p.nonce = π.nonce
  siblings_eq : p.groupPath ++ p.topPath = π.groupPath ++ π.topPath

variable {v : FullView} {g : UInt32} {i : Nat} {p π : ComponentProof}

/-- Cutting the digits of a position where they were joined gives back both of its parts; cutting
them elsewhere does so only if nothing but zeros is moved. -/
theorem cut_digits_iff {i g height cut : Nat} (hi : i < 2 ^ height) :
    ((i + 2 ^ height * g) % 2 ^ cut = i ∧ (i + 2 ^ height * g) / 2 ^ cut = g) ↔
      cut = height ∨ g = 0 ∧ i < 2 ^ cut := by
  have hpos (n : Nat) : 0 < 2 ^ n := Nat.two_pow_pos n
  constructor
  · rintro ⟨hlow, hhigh⟩
    have hsum := Nat.mod_add_div (i + 2 ^ height * g) (2 ^ cut)
    rw [hlow, hhigh] at hsum
    rcases Nat.eq_zero_or_pos g with rfl | hg
    · exact .inr ⟨rfl, hlow ▸ Nat.mod_lt _ (hpos cut)⟩
    · have hpow : 2 ^ cut = 2 ^ height :=
        Nat.eq_of_mul_eq_mul_right hg (Nat.add_left_cancel hsum)
      exact .inl (Nat.pow_right_injective (Nat.le_refl 2) hpow)
  · rintro (rfl | ⟨rfl, hlt⟩)
    · exact ⟨by rw [Nat.add_mul_mod_self_left, Nat.mod_eq_of_lt hi],
        by rw [Nat.add_mul_div_left _ _ (hpos cut), Nat.div_eq_of_lt hi, Nat.zero_add]⟩
    · rw [Nat.mul_zero, Nat.add_zero]
      exact ⟨Nat.mod_eq_of_lt hlt, Nat.div_eq_of_lt hlt⟩

/-- Neither part is longer than all siblings together. -/
theorem Recut.length_le (hp : p.Recut π) (hπ : v.Proves g i π) :
    p.groupPath.length ≤ 64 ∧ p.topPath.length ≤ 64 := by
  have hgroup := hπ.length_groupPath_le
  have htop := hπ.length_topPath_le
  have hsum := congrArg List.length hp.siblings_eq
  rw [List.length_append, List.length_append] at hsum
  omega

/-- A proof cut elsewhere is accepted exactly for the labels that the cut makes of the position. -/
theorem verify_eq_ok_iff_of_recut (hπ : v.Proves g i π) (hp : p.Recut π) :
    p.verify v.id v.digests = .ok () ↔
      p.index.toNat = (i + 2 ^ π.groupPath.length * g.toNat) % 2 ^ p.groupPath.length ∧
      p.group.toNat = (i + 2 ^ π.groupPath.length * g.toNat) / 2 ^ p.groupPath.length := by
  have hid : p.computedId v.digests = v.id := by
    rw [computedId_eq, hp.component_eq, hp.nonce_eq, hp.siblings_eq, ← computedId_eq,
      computedId_of_proves hπ]
  have hposition : i + 2 ^ π.groupPath.length * g.toNat = Merkle.pathIndex p.groupPath
      + 2 ^ p.groupPath.length * Merkle.pathIndex p.topPath := by
    rw [← Merkle.pathIndex_append, hp.siblings_eq, Merkle.pathIndex_append,
      hπ.pathIndex_groupPath, hπ.pathIndex_topPath]
  have hlt := Merkle.pathIndex_lt p.groupPath
  obtain ⟨hlow, hhigh⟩ := hp.length_le hπ
  rw [verify_eq_ok_iff_of_length_le hlow hhigh, hposition, Nat.add_mul_mod_self_left,
    Nat.mod_eq_of_lt hlt, Nat.add_mul_div_left _ _ (Nat.two_pow_pos _), Nat.div_eq_of_lt hlt,
    Nat.zero_add]
  constructor
  · rintro ⟨hindex, hgroup, -⟩
    exact ⟨hindex.symm, hgroup.symm⟩
  · rintro ⟨hindex, hgroup⟩
    exact ⟨hindex.symm, hgroup.symm, hid⟩

/-- Siblings cut elsewhere are accepted for the labels that the cut makes of the position, and for
no others. These are the labels of the component itself exactly if the cut is where the tree of its
group ends, or the component is in group zero and none of its digits are cut off. -/
theorem recut_position_iff (hπ : v.discloseComponent g i = .ok π) (hp : p.Recut π) :
    (p.verify v.id v.digests = .ok () ↔
      p.index.toNat = (i + 2 ^ π.groupPath.length * g.toNat) % 2 ^ p.groupPath.length ∧
      p.group.toNat = (i + 2 ^ π.groupPath.length * g.toNat) / 2 ^ p.groupPath.length) ∧
    (p.verify v.id v.digests = .ok () →
      (p.group = g ∧ p.index.toNat = i ↔
        p.groupPath.length = π.groupPath.length ∨ g = 0 ∧ i < 2 ^ p.groupPath.length)) := by
  have hproves := FullView.proves_of_discloseComponent hπ
  have hiff := verify_eq_ok_iff_of_recut hproves hp
  refine ⟨hiff, fun hok => ?_⟩
  obtain ⟨hindex, hgroup⟩ := hiff.mp hok
  have hi : i < 2 ^ π.groupPath.length := by
    have hlt := Merkle.pathIndex_lt π.groupPath
    rwa [hproves.pathIndex_groupPath] at hlt
  have hzero : g = 0 ↔ g.toNat = 0 := UInt32.toNat_inj.symm
  rw [hzero, ← cut_digits_iff hi, ← hindex, ← hgroup, UInt32.toNat_inj]
  exact and_comm

/-! ## A command that passes as another component -/

/-- The proof with its siblings divided at another place and other labels. -/
def cutAt (π : ComponentProof) (cut : Nat) (group index : UInt32) : ComponentProof :=
  { π with
    group
    index
    groupPath := (π.groupPath ++ π.topPath).take cut
    topPath := (π.groupPath ++ π.topPath).drop cut }

theorem recut_cutAt (π : ComponentProof) (cut : Nat) (group index : UInt32) :
    (π.cutAt cut group index).Recut π :=
  ⟨rfl, rfl, List.take_append_drop _ _⟩

/-- A transaction of one command and a notary. -/
def commandAndNotary : Grouping :=
  ⟨.ofList [(Role.commands.ordinal, [[1]]), (Role.notary.ordinal, [[2]])], by decide⟩

theorem exists_commandAndNotary_proof :
    ∃ v π, FullView.ofGroups commandAndNotary .sample .standard = .ok v ∧
      v.digests.Separated ∧ v.discloseComponent Role.commands.ordinal 0 = .ok π ∧
      π.groupPath.length = 0 ∧ 4 ≤ π.topPath.length := by
  let v := FullView.assemble commandAndNotary .sample .standard []
  have hg : v.groups.groups.get? Role.commands.ordinal = some [[1]] := by decide
  obtain ⟨π, hπ⟩ := FullView.exists_discloseComponent (v := v) (i := 0) hg (by decide) (by decide)
  have hproves := FullView.proves_of_discloseComponent hπ
  have hleaves : (v.tree.leavesOf Role.commands.ordinal).length ≤ 1 := by
    rw [FullView.leavesOf_eq hg]
    simp [DigestPair.leafHashes]
  have htop : 8 < v.tree.top.length := by
    rw [FullView.top_eq, length_topLevel]
    exact roleCount_le_topSpan _
  refine ⟨v, π, rfl, by decide, hπ, ?_, ?_⟩
  · rw [hproves.length_groupPath, treeHeight_of_le_one hleaves]
  · rw [hproves.topPath_eq, Merkle.length_pathAt]
    by_contra hsmall
    have hle := (treeHeight_le_iff v.tree.top.length 3).mp (by omega)
    omega

/-- With one sibling in its first path, the only command passes as the first output. -/
theorem recut_command_as_output :
    ∃ v π, FullView.ofGroups commandAndNotary .sample .standard = .ok v ∧
      v.discloseComponent Role.commands.ordinal 0 = .ok π ∧
      (π.cutAt 1 Role.outputs.ordinal 0).Recut π ∧
      (π.cutAt 1 Role.outputs.ordinal 0).verify v.id v.digests = .ok () := by
  obtain ⟨v, π, hv, -, hπ, hgroup, htop⟩ := exists_commandAndNotary_proof
  have hcut := recut_cutAt π 1 Role.outputs.ordinal 0
  have hlen : (π.cutAt 1 Role.outputs.ordinal 0).groupPath.length = 1 := by
    simp only [cutAt, List.length_take, List.length_append]
    omega
  refine ⟨v, π, hv, hπ, hcut, (recut_position_iff hπ hcut).1.mpr ?_⟩
  rw [hlen, hgroup]
  exact ⟨rfl, rfl⟩

/-- With two siblings in its first path, the only command passes as the third input. -/
theorem exists_relabelled_command :
    ∃ v π, ∃ p : ComponentProof, FullView.ofGroups commandAndNotary .sample .standard = .ok v ∧
      v.digests.Separated ∧ v.discloseComponent Role.commands.ordinal 0 = .ok π ∧
      p.Recut π ∧ p.verify v.id v.digests = .ok () ∧
      p.group = Role.inputs.ordinal ∧ p.index = 2 := by
  obtain ⟨v, π, hv, hsep, hπ, hgroup, htop⟩ := exists_commandAndNotary_proof
  have hcut := recut_cutAt π 2 Role.inputs.ordinal 2
  have hlen : (π.cutAt 2 Role.inputs.ordinal 2).groupPath.length = 2 := by
    simp only [cutAt, List.length_take, List.length_append]
    omega
  refine ⟨v, π, _, hv, hsep, hπ, hcut, ?_, rfl, rfl⟩
  rw [verify_eq_ok_iff_of_recut (FullView.proves_of_discloseComponent hπ) hcut, hlen, hgroup]
  exact ⟨rfl, rfl⟩

end ComponentProof

end VeiledLedger
