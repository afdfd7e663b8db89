import Mathlib.Algebra.Group.Nat.Even
import VeiledLedger.FullView
import VeiledLedger.Proofs.Disclosure

set_option autoImplicit false

/-! # Reading a full view

The tree of a view is the tree of its groups, so what is known about a tree that was built is known
about the tree of every view. Its disclosure is read group by group, by the visibility of the ordinal,
and implies the root of every group of the tree (`impliedRoot_disclosure`). -/

namespace VeiledLedger

/-! ## Roles and ordinals -/

theorem Role.ordinal_eq_of_ofOrdinal? {g : UInt32} {role : Role}
    (h : Role.ofOrdinal? g = some role) : role.ordinal = g := by
  have hplaces : ∀ i < Role.count, Role.all[i]?.map (·.ordinal.toNat) = some i := by decide
  have hplace := hplaces g.toNat (List.getElem?_eq_some_iff.mp h).1
  unfold Role.ofOrdinal? at h
  rw [h] at hplace
  exact UInt32.toNat_inj.mp (Option.some.inj hplace)

theorem Role.ordinal_inj {r₁ r₂ : Role} (h : r₁.ordinal = r₂.ordinal) : r₁ = r₂ := by
  have hrole := Role.ofOrdinal?_ordinal r₁
  rw [h, Role.ofOrdinal?_ordinal] at hrole
  exact (Option.some.inj hrole).symm

theorem Visibility.ordinal_eq_of_leafHashes {g : UInt32} (h : ofOrdinal g = .leafHashes) :
    g = Role.outputs.ordinal := by
  unfold ofOrdinal at h
  cases hrole : Role.ofOrdinal? g with
  | none =>
    rw [hrole] at h
    cases h
  | some role =>
    rw [hrole] at h
    rw [← Role.ordinal_eq_of_ofOrdinal? hrole]
    cases role <;> first | rfl | cases h

theorem Visibility.ofOrdinal_ordinal (role : Role) : ofOrdinal role.ordinal = role.visibility := by
  rw [ofOrdinal, Role.ofOrdinal?_ordinal]

namespace FullView

variable {v : FullView} {g : UInt32} {components : List Bytes}

theorem tree_eq_build (v : FullView) : v.tree = CommitmentTree.build v.groups v.salt v.digests :=
  v.tree_eq

theorem id_eq (v : FullView) : v.id = v.digests.merkleRoot v.tree.top := by
  have h := CommitmentTree.root_build v.groups v.salt v.digests
  rwa [← v.tree_eq_build] at h

theorem top_eq (v : FullView) : v.tree.top = topLevel v.tree.roots := by
  have h := CommitmentTree.top_build v.groups v.salt v.digests
  rwa [← v.tree_eq_build] at h

theorem roots_get? (v : FullView) (g : UInt32) : v.tree.roots.get? g =
    (v.groups.groups.get? g).map fun _ => v.digests.merkleRoot (v.tree.leavesOf g) := by
  have h := @CommitmentTree.roots_build_get? v.groups v.salt v.digests g
  rwa [← v.tree_eq_build] at h

theorem noncesOf_eq (hg : v.groups.groups.get? g = some components) : v.tree.noncesOf g =
    v.salt.nonces v.digests.leaf g (UInt32.ofNat components.length) := by
  have h := CommitmentTree.noncesOf_build v.salt v.digests hg
  rwa [← v.tree_eq_build] at h

theorem noncesOf_of_absent (v : FullView) {g : UInt32} (hg : v.groups.groups.get? g = none) :
    v.tree.noncesOf g = [] := by
  have h := CommitmentTree.noncesOf_build_of_absent v.salt v.digests hg
  rwa [← v.tree_eq_build] at h

theorem leavesOf_eq (hg : v.groups.groups.get? g = some components) : v.tree.leavesOf g =
    v.digests.leafHashes (v.tree.noncesOf g) components := by
  have h := CommitmentTree.leavesOf_build v.salt v.digests hg
  rwa [← v.tree_eq_build, ← noncesOf_eq hg] at h

theorem length_noncesOf (hg : v.groups.groups.get? g = some components) :
    (v.tree.noncesOf g).length = components.length % 2 ^ 32 := by
  rw [noncesOf_eq hg, Salt.length_nonces]
  exact UInt32.toNat_ofNat'

theorem length_leavesOf (hg : v.groups.groups.get? g = some components) :
    (v.tree.leavesOf g).length = components.length % 2 ^ 32 := by
  rw [leavesOf_eq hg, DigestPair.leafHashes, List.length_zipWith, length_noncesOf hg]
  exact Nat.min_eq_left (Nat.mod_le _ _)

theorem leavesOf_of_absent (v : FullView) {g : UInt32} (hg : v.groups.groups.get? g = none) :
    v.tree.leavesOf g = [] := by
  have h := CommitmentTree.leavesOf_build_of_absent v.salt v.digests hg
  rwa [← v.tree_eq_build] at h

/-- The root of a group is that of its leaves, also if it is absent and has none. -/
theorem rootOf_eq_merkleRoot (v : FullView) (g : UInt32) :
    v.tree.rootOf g = v.digests.merkleRoot (v.tree.leavesOf g) := by
  have h := @CommitmentTree.rootOf_build v.groups v.salt v.digests g
  rwa [← v.tree_eq_build] at h

theorem rootOf_eq (hg : v.groups.groups.get? g = some components) :
    v.tree.rootOf g
      = v.digests.merkleRoot (v.digests.leafHashes (v.tree.noncesOf g) components) := by
  rw [v.rootOf_eq_merkleRoot, leavesOf_eq hg]

theorem rootOf_of_absent (hg : v.groups.groups.get? g = none) :
    v.tree.rootOf g = Hash.sentinel := by
  rw [CommitmentTree.rootOf, v.roots_get?, hg]
  rfl

/-- The slot of every ordinal holds the root of its group. -/
theorem getD_top (v : FullView) (g : UInt32) :
    v.tree.top.getD g.toNat Hash.sentinel = v.tree.rootOf g := by
  rw [v.top_eq, getD_topLevel]
  rfl

theorem getElem?_top_role (v : FullView) (role : Role) :
    v.tree.top[role.ordinal.toNat]? = some (v.groupRoot role) := by
  rw [v.top_eq, getElem?_topLevel_role]
  rfl

/-- The root of a group that is present stands in its slot of the top-level list. -/
theorem top_getElem? (hg : v.groups.groups.get? g = some components) :
    v.tree.top[g.toNat]? = some (v.digests.merkleRoot (v.tree.leavesOf g)) := by
  rw [top_eq]
  refine getElem?_topLevel ?_
  rw [roots_get?, hg]
  rfl

/-! ## The disclosure of a view -/

theorem mem_disclosedRoles_iff {role : Role} :
    role ∈ disclosedRoles ↔ role.visibility = .disclosed := by
  simp [disclosedRoles, Role.mem_all]

theorem disclosed_of_mandatory : ∀ role ∈ Role.mandatory, role.visibility = .disclosed := by
  decide

theorem exists_disclosedRole_iff {g : UInt32} :
    (∃ role ∈ disclosedRoles, role.ordinal = g) ↔ Visibility.ofOrdinal g = .disclosed := by
  constructor
  · rintro ⟨role, hrole, rfl⟩
    rw [Visibility.ofOrdinal_ordinal]
    exact mem_disclosedRoles_iff.mp hrole
  · intro h
    unfold Visibility.ofOrdinal at h
    cases hrole : Role.ofOrdinal? g with
    | none =>
      rw [hrole] at h
      cases h
    | some role =>
      rw [hrole] at h
      exact ⟨role, mem_disclosedRoles_iff.mpr h, Role.ordinal_eq_of_ofOrdinal? hrole⟩

/-- A map of the disclosed roles has a value for exactly their ordinals. -/
theorem get?_ofList_disclosedRoles {α : Type} (f : UInt32 → α) (g : UInt32) :
    (GroupMap.ofList (disclosedRoles.map fun role => (role.ordinal, f role.ordinal))).get? g
      = if Visibility.ofOrdinal g = .disclosed then some (f g) else none := by
  have hlookup (roles : List Role) :
      (roles.map fun role => (role.ordinal, f role.ordinal)).lookup g
        = if ∃ role ∈ roles, role.ordinal = g then some (f g) else none := by
    induction roles with
    | nil => simp
    | cons role rest ih =>
      rw [List.map_cons, GroupMap.lookup_cons_eq, ih]
      by_cases h : g = role.ordinal
      · simp [h]
      · simp [h, Ne.symm h]
  rw [GroupMap.get?_ofList, ← List.map_reverse, hlookup]
  simp only [List.mem_reverse, exists_disclosedRole_iff]

theorem disclosure_components (v : FullView) (g : UInt32) : v.disclosure.components.get? g
    = if Visibility.ofOrdinal g = .disclosed then some ((v.groups.groups.get? g).getD [])
      else none :=
  get?_ofList_disclosedRoles (fun g => (v.groups.groups.get? g).getD []) g

theorem disclosure_components_role (v : FullView) {role : Role}
    (h : role.visibility = .disclosed) :
    v.disclosure.components.get? role.ordinal = some (v.groups.components role) := by
  rw [disclosure_components, Visibility.ofOrdinal_ordinal, if_pos h]
  rfl

theorem contains_disclosure_components (v : FullView) (g : UInt32) :
    v.disclosure.components.contains g = true ↔ Visibility.ofOrdinal g = .disclosed := by
  rw [GroupMap.contains, disclosure_components]
  split_ifs with h
  · exact iff_of_true rfl h
  · exact iff_of_false (by simp) h

/-- What a verifier cannot do without is disclosed, also where it is empty. -/
theorem contains_of_mandatory (v : FullView) {role : Role} (h : role ∈ Role.mandatory) :
    v.disclosure.components.contains role.ordinal = true := by
  rw [v.contains_disclosure_components, Visibility.ofOrdinal_ordinal]
  exact disclosed_of_mandatory role h

theorem disclosure_nonces (v : FullView) (g : UInt32) : v.disclosure.nonces.get? g
    = if Visibility.ofOrdinal g = .disclosed then some (v.tree.noncesOf g) else none :=
  get?_ofList_disclosedRoles v.tree.noncesOf g

theorem disclosure_hiddenRoots (v : FullView) (g : UInt32) : v.disclosure.hiddenRoots.get? g
    = if Visibility.ofOrdinal g = .hidden then v.tree.roots.get? g else none := by
  show (v.tree.roots.filter _).get? g = _
  rw [GroupMap.get?_filter]
  by_cases h : Visibility.ofOrdinal g = .hidden
  · cases v.tree.roots.get? g <;> simp [h]
  · simp [h]

/-- The disclosure of a view under another leaf digest. -/
def withLeafDigest (v : FullView) (leaf : Digest) : Disclosure :=
  { v.disclosure with digests := ⟨leaf, v.digests.node⟩ }

/-- A group keeps its root unless its leaves are hashed by another digest. -/
theorem impliedRoot_withLeafDigest (v : FullView) (leaf : Digest)
    (hg : Visibility.ofOrdinal g = .disclosed → ∀ components,
      v.groups.groups.get? g = some components → leaf = v.digests.leaf) :
    (v.withLeafDigest leaf).impliedRoot g = v.tree.rootOf g := by
  by_cases houtputs : g = Role.outputs.ordinal
  · rw [houtputs, Disclosure.impliedRoot_outputs, rootOf_eq_merkleRoot]
    rfl
  have hcomponents : (v.withLeafDigest leaf).components.get? g = _ := v.disclosure_components g
  have hnonces : (v.withLeafDigest leaf).nonces.get? g = _ := v.disclosure_nonces g
  have hhidden : (v.withLeafDigest leaf).hiddenRoots.get? g = _ := v.disclosure_hiddenRoots g
  unfold Disclosure.impliedRoot Disclosure.leavesOf
  rw [if_neg houtputs, hcomponents, hnonces, hhidden]
  cases hvisibility : Visibility.ofOrdinal g with
  | leafHashes => exact absurd (Visibility.ordinal_eq_of_leafHashes hvisibility) houtputs
  | disclosed =>
    cases hgroup : v.groups.groups.get? g with
    | none =>
      rw [rootOf_of_absent hgroup, v.noncesOf_of_absent hgroup]
      rfl
    | some components =>
      obtain rfl := hg hvisibility components hgroup
      exact (rootOf_eq hgroup).symm
  | hidden =>
    rw [if_neg (by decide), if_pos rfl, CommitmentTree.rootOf]
    cases v.tree.roots.get? g <;> rfl

/-- What the disclosure of a view implies for a group is the root of the group. -/
theorem impliedRoot_disclosure (v : FullView) (g : UInt32) :
    v.disclosure.impliedRoot g = v.tree.rootOf g :=
  v.impliedRoot_withLeafDigest v.digests.leaf fun _ _ _ => rfl

/-- Beyond the known ordinals, the disclosure has what the view has. -/
theorem contains_disclosure_beyond (v : FullView) {g : UInt32} (hg : Role.count ≤ g.toNat) :
    (v.disclosure.components.contains g || v.disclosure.hiddenRoots.contains g)
      = v.tree.roots.contains g := by
  have hhidden : Visibility.ofOrdinal g = .hidden := by
    have hnone : Role.ofOrdinal? g = none := List.getElem?_eq_none hg
    rw [Visibility.ofOrdinal, hnone]
  simp only [GroupMap.contains, disclosure_components, disclosure_hiddenRoots, hhidden]
  rfl

/-- A view of which no disclosed group outgrows the numbering of nonces has a well-formed
disclosure. -/
theorem wellFormed_disclosure {v : FullView} (hsmall : ∀ g components,
    v.disclosure.components.get? g = some components → components.length < 2 ^ 32) :
    v.disclosure.WellFormed := by
  have houtputs : Visibility.ofOrdinal Role.outputs.ordinal = .leafHashes := by decide
  refine ⟨fun g => ?_, fun g components nonces hg hn => ?_, fun g hg => ?_, ?_, ?_⟩
  · unfold GroupMap.contains
    rw [disclosure_components, disclosure_nonces]
    split_ifs <;> rfl
  · have hlt := hsmall g components hg
    rw [disclosure_components] at hg
    rw [disclosure_nonces] at hn
    split_ifs at hg hn
    obtain rfl := Option.some.inj hg
    obtain rfl := Option.some.inj hn
    cases hgroup : v.groups.groups.get? g with
    | none => rw [v.noncesOf_of_absent hgroup]; rfl
    | some components =>
      rw [hgroup] at hlt
      rw [length_noncesOf hgroup]
      exact (Nat.mod_eq_of_lt hlt).symm
  · have hdisclosed := (contains_disclosure_components v g).mp hg
    rw [GroupMap.contains, disclosure_hiddenRoots, hdisclosed]
    rfl
  · rw [GroupMap.contains, disclosure_components, houtputs]
    rfl
  · rw [GroupMap.contains, disclosure_hiddenRoots, houtputs]
    rfl

theorem wellFormed_disclosure_of_roles {v : FullView} (hsmall : ∀ role : Role,
    role.visibility = .disclosed → (v.groups.components role).length < 2 ^ 32) :
    v.disclosure.WellFormed := by
  refine wellFormed_disclosure fun g components hg => ?_
  have hdisclosed : Visibility.ofOrdinal g = .disclosed :=
    (v.contains_disclosure_components g).mp (GroupMap.contains_iff.mpr ⟨_, hg⟩)
  obtain ⟨role, hrole, rfl⟩ := exists_disclosedRole_iff.mpr hdisclosed
  rw [Visibility.ofOrdinal_ordinal] at hdisclosed
  rw [v.disclosure_components_role hdisclosed] at hg
  obtain rfl := Option.some.inj hg
  exact hsmall role hdisclosed

/-- A view with outputs, and with a group that has no role. -/
def withUnknownGroup : FullView :=
  FullView.assemble ⟨.ofList [(Role.outputs.ordinal, [[8], [9]]), (Role.commands.ordinal, [[1]]),
    (Role.notary.ordinal, [[2]]), (12, [[3], [4], [5]])], by decide⟩ .sample .standard []

theorem length_withUnknownGroup {g : UInt32} {components : List Bytes}
    (h : withUnknownGroup.groups.groups.get? g = some components) :
    components.length < 2 ^ 32 := by
  have hmem := (GroupMap.mem_entries_iff _ g components).mpr h
  have hall : ∀ e ∈ withUnknownGroup.groups.groups.entries, e.2.length < 2 ^ 32 := by decide
  exact hall _ hmem

end FullView

end VeiledLedger
