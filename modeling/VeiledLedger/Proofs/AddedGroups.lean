import VeiledLedger.Proofs.Building
import VeiledLedger.Proofs.HashCalls

set_option autoImplicit false

/-! # Groups that are added

The top-level list has a slot for every ordinal that is present, so a group beyond the known ordinals
makes the list longer. The list of a transaction that was built has the nine known slots, a level of
odd length, which is completed with the sentinel before it is hashed. So there is one longer list
that is hashed in the same way: the one in which this sentinel is written out, as the root of a group
at the next ordinal (`SentinelAdded.verifyAgainst`).

Every other list with the same root comes with a hash that should not exist: two different pairs of
nodes with one hash, or a pair that is hashed to the sentinel or to the leaf of the command
(`verifyAgainst_addsGroups`). -/

namespace VeiledLedger

/-! ## Disclosures with more groups -/

namespace Disclosure

variable {d base : Disclosure} {g : UInt32}

/-- A disclosure that differs from another one by groups beyond the known ordinals, at least one, and
by its list of roots. -/
structure AddsGroups (d base : Disclosure) : Prop where
  digests_eq : d.digests = base.digests
  outputLeaves_eq : d.outputLeaves = base.outputLeaves
  id_eq : d.id = base.id
  known : ∀ g : UInt32, g.toNat < Role.count → d.components.get? g = base.components.get? g ∧
    d.nonces.get? g = base.nonces.get? g ∧ d.hiddenRoots.get? g = base.hiddenRoots.get? g
  added : ∃ g : UInt32, Role.count ≤ g.toNat ∧ d.groupRoots.contains g = true

theorem AddsGroups.impliedRoot_eq (h : d.AddsGroups base) (hg : g.toNat < Role.count) :
    d.impliedRoot g = base.impliedRoot g := by
  obtain ⟨hcomponents, hnonces, hhidden⟩ := h.known g hg
  unfold impliedRoot leavesOf
  rw [h.digests_eq, h.outputLeaves_eq, hcomponents, hnonces, hhidden]

end Disclosure

namespace FullView

variable {v : FullView} {d : Disclosure} {body : Body} {padding : Padding} {salt : Salt}
  {digests : DigestPair} {z : Serializer}

/-- The list of a transaction that was built has the known slots and no others. -/
theorem length_top_of_build (h : build body padding salt digests z = .ok v) :
    v.tree.top.length = Role.count := by
  obtain ⟨-, -, hroles⟩ := build_spec h
  rw [v.top_eq, length_topLevel]
  refine Nat.le_antisymm (topSpan_le_iff.mpr ⟨Nat.le_refl _, fun g hg => ?_⟩)
    (roleCount_le_topSpan _)
  by_contra hbeyond
  have hnone : v.groups.groups.get? g = none := by
    refine hroles g fun role hrole => hbeyond ?_
    rw [hrole]
    cases role <;> decide
  rw [GroupMap.contains, v.roots_get?, hnone] at hg
  cases hg

/-- The only group that was added is at the first ordinal without a role, and the sentinel stands for
it: as its root, and at the end of the list. -/
structure SentinelAdded (v : FullView) (d : Disclosure) : Prop where
  wellFormed : d.WellFormed
  only : ∀ g : UInt32, Role.count ≤ g.toNat → d.groupRoots.contains g = true →
    g.toNat = Role.count
  impliedRoot_eq : d.impliedRoot (UInt32.ofNat Role.count) = Hash.sentinel
  topRoots_eq : d.topRoots = v.tree.top ++ [Hash.sentinel]

/-- The calls that hash the top-level lists of a view and of a disclosure. -/
def listCalls (v : FullView) (d : Disclosure) : List HashCall :=
  v.digests.treeCalls v.tree.top ++ d.digests.treeCalls (topLevel d.groupRoots)

theorem SentinelAdded.impliedTop_eq (h : v.SentinelAdded d) (hadds : d.AddsGroups v.disclosure)
    (hlength : v.tree.top.length = Role.count) : d.impliedTop = v.tree.top ++ [Hash.sentinel] := by
  obtain ⟨g, hbeyond, hg⟩ := hadds.added
  have hspan : topSpan d.groupRoots = Role.count + 1 := by
    refine Nat.le_antisymm (topSpan_le_iff.mpr ⟨Nat.le_succ _, fun k hk => ?_⟩) ?_
    · rcases Nat.lt_or_ge k.toNat Role.count with hlt | hge
      · exact Nat.lt_succ_of_lt hlt
      · exact Nat.lt_succ_of_le (h.only k hge hk).le
    · exact Nat.lt_of_le_of_lt hbeyond (toNat_lt_topSpan hg)
  have hknown : (List.range Role.count).map (fun i => d.impliedRoot (UInt32.ofNat i))
      = v.tree.top := by
    rw [v.top_eq, length_topLevel] at hlength
    rw [v.top_eq, topLevel, hlength]
    refine List.map_congr_left fun i hi => ?_
    have hlt : (UInt32.ofNat i).toNat < Role.count :=
      Nat.lt_of_le_of_lt (UInt32.toNat_ofNat'.trans_le (Nat.mod_le _ _)) (List.mem_range.mp hi)
    rw [hadds.impliedRoot_eq hlt, v.impliedRoot_disclosure]
    rfl
  rw [Disclosure.topSpan_groupRoots] at hspan
  rw [Disclosure.impliedTop, hspan, List.range_succ, List.map_append, hknown, List.map_singleton,
    h.impliedRoot_eq]

theorem SentinelAdded.verifyAgainst (h : v.SentinelAdded d) (hadds : d.AddsGroups v.disclosure)
    (hlength : v.tree.top.length = Role.count) :
    (PartialView.reconstruct d >>= fun w => w.verifyAgainst v.id) = .ok () := by
  have htop := h.impliedTop_eq hadds hlength
  have hid : d.id = v.id := hadds.id_eq
  refine PartialView.reconstruct_verifyAgainst_eq_ok_iff.mpr
    ⟨h.wellFormed, h.topRoots_eq.trans htop.symm, ?_, hid⟩
  have hodd : v.tree.top.length % 2 = 1 := by rw [hlength]; decide
  have hthree : 3 ≤ v.tree.top.length := by rw [hlength]; decide
  rw [htop, hid, v.id_eq, hadds.digests_eq]
  exact Merkle.root_append_sentinel _ hodd hthree

/-- Nothing is hashed for the longer list that is not hashed for the list of the view. -/
theorem SentinelAdded.listCalls_subset (h : v.SentinelAdded d) (hadds : d.AddsGroups v.disclosure)
    (hlength : v.tree.top.length = Role.count) :
    v.listCalls d ⊆ v.digests.treeCalls v.tree.top := by
  have hdigests : d.digests = v.digests := hadds.digests_eq
  have hodd : v.tree.top.length % 2 = 1 := by rw [hlength]; decide
  have hthree : 3 ≤ v.tree.top.length := by rw [hlength]; decide
  rw [listCalls, hdigests, h.wellFormed.topLevel_groupRoots, h.impliedTop_eq hadds hlength]
  refine List.append_subset.mpr ⟨List.Subset.refl _, ?_⟩
  unfold DigestPair.treeCalls
  rw [Merkle.hashed_append_sentinel _ hodd hthree]
  exact List.Subset.refl _

/-- What was added makes the list longer. -/
theorem length_top_lt_impliedTop (hadds : d.AddsGroups v.disclosure)
    (hlength : v.tree.top.length = Role.count) : v.tree.top.length < d.impliedTop.length := by
  obtain ⟨g, hbeyond, hg⟩ := hadds.added
  exact hlength.trans_lt (Nat.lt_of_le_of_lt hbeyond (d.toNat_lt_length_impliedTop hg))

theorem nodeCall_mem_listCalls (hdigests : d.digests = v.digests) (hwell : d.WellFormed) :
    (∀ pair ∈ Merkle.hashed v.digests.nodeHash v.tree.top,
      v.digests.nodeCall pair ∈ v.listCalls d) ∧
    ∀ pair ∈ Merkle.hashed v.digests.nodeHash d.impliedTop,
      v.digests.nodeCall pair ∈ v.listCalls d := by
  constructor
  · exact nodeCall_mem_of_treeCalls_subset (List.subset_append_left _ _)
  · refine nodeCall_mem_of_treeCalls_subset ?_
    rw [listCalls, hdigests, hwell.topLevel_groupRoots]
    exact List.subset_append_right _ _

/-- The longer list is not hashed in a higher tree: there, the leaf of the command would be the hash
of two nodes. -/
theorem treeHeight_impliedTop (hadds : d.AddsGroups v.disclosure)
    (hlength : v.tree.top.length = Role.count) (hwell : d.WellFormed)
    (hfree : CollisionFree (v.listCalls d)) (havoid : AvoidsSentinel (v.listCalls d))
    (hcommand : ∀ call ∈ v.listCalls d, call.result ≠ v.groupRoot .commands)
    (hroots : Merkle.root v.digests.nodeHash v.tree.top
      = Merkle.root v.digests.nodeHash d.impliedTop) :
    treeHeight v.tree.top.length = treeHeight d.impliedTop.length := by
  have hmore := length_top_lt_impliedTop hadds hlength
  obtain ⟨hp₁, hp₂⟩ := nodeCall_mem_listCalls hadds.digests_eq hwell
  refine Nat.le_antisymm
    ((treeHeight_le_iff _ _).mpr (hmore.le.trans (le_two_pow_treeHeight _))) ?_
  by_contra hlower
  have hhalf : 2 * Role.commands.ordinal.toNat < v.tree.top.length := by rw [hlength]; decide
  obtain ⟨pair, hpair, hslot⟩ := Merkle.exists_parent_of_treeHeight_lt (hfree.on_nodes v.digests)
    (havoid.on_nodes v.digests) (Nat.lt_of_not_le hlower) hp₁ hp₂ hroots hhalf
  rw [v.getD_top] at hslot
  exact hcommand _ hpair hslot.symm

theorem sentinelAdded_of_verifyAgainst (hbuild : build body padding salt digests z = .ok v)
    (hadds : d.AddsGroups v.disclosure) (hfree : CollisionFree (v.listCalls d))
    (havoid : AvoidsSentinel (v.listCalls d))
    (hcommand : ∀ call ∈ v.listCalls d, call.result ≠ v.groupRoot .commands)
    (h : (PartialView.reconstruct d >>= fun w => w.verifyAgainst v.id) = .ok ()) :
    v.SentinelAdded d := by
  obtain ⟨hwell, htop, hroot, hid⟩ := PartialView.reconstruct_verifyAgainst_eq_ok_iff.mp h
  have hdigests : d.digests = v.digests := hadds.digests_eq
  have hlength := length_top_of_build hbuild
  have hmore := length_top_lt_impliedTop hadds hlength
  have hroots : Merkle.root v.digests.nodeHash v.tree.top
      = Merkle.root v.digests.nodeHash d.impliedTop := by
    rw [hid, v.id_eq, hdigests] at hroot
    exact hroot.symm
  have hheight := treeHeight_impliedTop hadds hlength hwell hfree havoid hcommand hroots
  obtain ⟨hp₁, hp₂⟩ := nodeCall_mem_listCalls hdigests hwell
  have htwo : 2 ≤ v.tree.top.length := by rw [hlength]; decide
  rcases Merkle.eq_or_eq_append_of_root_eq (hfree.on_nodes v.digests) (havoid.on_nodes v.digests)
    htwo hmore.le hheight hp₁ hp₂ hroots with hsame | ⟨-, happend⟩
  · rw [hsame] at hmore
    exact absurd hmore (Nat.lt_irrefl _)
  refine ⟨hwell, fun k hge hk => ?_, ?_, htop.trans happend⟩
  · have hlt := d.toNat_lt_length_impliedTop hk
    rw [happend, List.length_append, hlength] at hlt
    exact Nat.le_antisymm (Nat.le_of_lt_succ hlt) hge
  · rw [← hwell.getD_impliedTop, happend]
    show (v.tree.top ++ [Hash.sentinel]).getD Role.count Hash.sentinel = _
    rw [← hlength, List.getD_append_right _ _ _ _ (Nat.le_refl _), Nat.sub_self]
    rfl

/-- Adding groups to a disclosure of a built transaction, and changing its list, fails unless nothing
but the sentinel was added, or a hash turned up that should not: barring two different pairs with one
hash, one that is the sentinel or the leaf of the command. -/
theorem verifyAgainst_addsGroups (hbuild : build body padding salt digests z = .ok v)
    (hadds : d.AddsGroups v.disclosure) (hfree : CollisionFree (v.listCalls d)) :
    (v.SentinelAdded d →
      (PartialView.reconstruct d >>= fun w => w.verifyAgainst v.id) = .ok ()) ∧
    ((PartialView.reconstruct d >>= fun w => w.verifyAgainst v.id) = .ok () →
      v.SentinelAdded d ∨ ∃ call ∈ v.listCalls d,
        call.result = Hash.sentinel ∨ call.result = v.groupRoot .commands) := by
  refine ⟨fun h => h.verifyAgainst hadds (length_top_of_build hbuild), fun h => ?_⟩
  by_cases hbad : ∃ call ∈ v.listCalls d,
      call.result = Hash.sentinel ∨ call.result = v.groupRoot .commands
  · exact .inr hbad
  · refine .inl (sentinelAdded_of_verifyAgainst hbuild hadds hfree
      (fun call hcall hresult => hbad ⟨call, hcall, .inl hresult⟩)
      (fun call hcall hresult => hbad ⟨call, hcall, .inr hresult⟩) h)

/-! ## One group more -/

/-- The disclosure of a view with a root for the first ordinal without a role, and another list. -/
def withNinth (v : FullView) (root : Hash) (topRoots : List Hash) : Disclosure :=
  { v.disclosure with
    hiddenRoots := v.disclosure.hiddenRoots.insert (UInt32.ofNat Role.count) root
    topRoots := topRoots }

theorem hiddenRoots_withNinth (v : FullView) (root : Hash) (topRoots : List Hash) (g : UInt32) :
    (v.withNinth root topRoots).hiddenRoots.get? g
      = if g = UInt32.ofNat Role.count then some root else v.disclosure.hiddenRoots.get? g :=
  GroupMap.get?_insert _ _ _ _

theorem addsGroups_withNinth (v : FullView) (root : Hash) (topRoots : List Hash) :
    (v.withNinth root topRoots).AddsGroups v.disclosure := by
  refine ⟨rfl, rfl, rfl, fun g hg => ⟨rfl, rfl, ?_⟩, UInt32.ofNat Role.count, Nat.le_refl _, ?_⟩
  · have hne : g ≠ UInt32.ofNat Role.count := by
      rintro rfl
      exact absurd hg (by decide)
    rw [hiddenRoots_withNinth, if_neg hne]
  · refine Disclosure.contains_groupRoots_iff.mpr (.inr (List.mem_append_right _ ?_))
    rw [GroupMap.mem_keys_iff, GroupMap.contains, hiddenRoots_withNinth, if_pos rfl]
    rfl

theorem components_ninth (v : FullView) :
    v.disclosure.components.get? (UInt32.ofNat Role.count) = none := by
  rw [v.disclosure_components]
  exact if_neg (by decide)

theorem wellFormed_withNinth (h : v.disclosure.WellFormed) (root : Hash) (topRoots : List Hash) :
    (v.withNinth root topRoots).WellFormed := by
  refine ⟨h.same_groups, h.same_length, fun g hg => ?_, h.outputs_not_disclosed, ?_⟩
  · have hne : g ≠ UInt32.ofNat Role.count := by
      rintro rfl
      have hg : v.disclosure.components.contains (UInt32.ofNat Role.count) = true := hg
      rw [GroupMap.contains, v.components_ninth] at hg
      cases hg
    rw [GroupMap.contains, hiddenRoots_withNinth, if_neg hne]
    exact h.not_hidden g hg
  · rw [GroupMap.contains, hiddenRoots_withNinth, if_neg (by decide)]
    exact h.outputs_not_hidden

theorem impliedRoot_withNinth (v : FullView) (root : Hash) (topRoots : List Hash) :
    (v.withNinth root topRoots).impliedRoot (UInt32.ofNat Role.count) = root := by
  have hcomponents : (v.withNinth root topRoots).components.get? (UInt32.ofNat Role.count) = none :=
    v.components_ninth
  rw [Disclosure.impliedRoot, if_neg (by decide), hcomponents, hiddenRoots_withNinth, if_pos rfl]

/-- Every transaction that was built can be disclosed with the sentinel as one group more. -/
theorem sentinelAdded_withNinth (hbuild : build body padding salt digests z = .ok v)
    (hwell : v.disclosure.WellFormed) :
    v.SentinelAdded (v.withNinth Hash.sentinel (v.tree.top ++ [Hash.sentinel])) := by
  refine ⟨wellFormed_withNinth hwell _ _, fun g hbeyond hg => ?_, v.impliedRoot_withNinth _ _, rfl⟩
  by_contra hne
  have hother : g ≠ UInt32.ofNat Role.count := by
    rintro rfl
    exact hne rfl
  -- any other ordinal beyond the known ones would have a slot in the view
  have hroots : v.tree.roots.contains g = true := by
    rw [← v.contains_disclosure_beyond hbeyond, Bool.or_eq_true]
    rcases Disclosure.contains_groupRoots_iff.mp hg with rfl | hkeys
    · exact absurd hbeyond (by decide)
    · rw [List.mem_append, GroupMap.mem_keys_iff, GroupMap.mem_keys_iff] at hkeys
      refine hkeys.imp_right fun hhidden => ?_
      rwa [GroupMap.contains, hiddenRoots_withNinth, if_neg hother] at hhidden
  have hlt := toNat_lt_topSpan hroots
  rw [← length_topLevel, ← v.top_eq, length_top_of_build hbuild] at hlt
  omega

/-! ### The small transaction with one group more -/

theorem wellFormed_plain (signers : List Bytes) :
    (assemble plainGroups .sample ⟨.sha256, .blake3⟩ signers).disclosure.WellFormed := by
  refine Disclosure.fault?_eq_none_iff.mp ?_
  show (assemble plainGroups .sample ⟨.sha256, .blake3⟩ []).disclosure.fault? = none
  decide +kernel

theorem listCalls_plain :
    let v := assemble plainGroups .sample ⟨.sha256, .blake3⟩ []
    let calls := v.listCalls (v.withNinth (Hash.fill 0x66) [])
    CollisionFree calls ∧
      ∀ call ∈ calls, call.result ≠ Hash.sentinel ∧ call.result ≠ v.groupRoot .commands := by
  decide +kernel

/-- A group with another root is noticed, also if the list is changed with it. -/
theorem not_verifyAgainst_withNinth : ∃ v,
    build plainBody plainPadding .sample ⟨.sha256, .blake3⟩ .binary = .ok v ∧
    (v.withNinth (Hash.fill 0x66) (v.tree.top ++ [Hash.fill 0x66])).AddsGroups v.disclosure ∧
    CollisionFree (v.listCalls (v.withNinth (Hash.fill 0x66) (v.tree.top ++ [Hash.fill 0x66]))) ∧
    (PartialView.reconstruct (v.withNinth (Hash.fill 0x66) (v.tree.top ++ [Hash.fill 0x66]))
      >>= fun w => w.verifyAgainst v.id) ≠ .ok () := by
  obtain ⟨signers, hbuild⟩ := exists_build_plainBody ⟨.sha256, .blake3⟩
  obtain ⟨hfree, hresults⟩ := listCalls_plain
  let v := assemble plainGroups .sample ⟨.sha256, .blake3⟩ signers
  let d := v.withNinth (Hash.fill 0x66) (v.tree.top ++ [Hash.fill 0x66])
  have hadds : d.AddsGroups v.disclosure := v.addsGroups_withNinth _ _
  refine ⟨v, hbuild, hadds, hfree, fun hverify => ?_⟩
  rcases (verifyAgainst_addsGroups hbuild hadds hfree).2 hverify with hadded | ⟨call, hcall, hresult⟩
  · have hroot : Hash.fill 0x66 = Hash.sentinel :=
      (v.impliedRoot_withNinth _ _).symm.trans hadded.impliedRoot_eq
    exact absurd hroot (by decide)
  · exact hresult.elim (hresults call hcall).1 (hresults call hcall).2

/-- The sentinel is not. -/
theorem exists_verifyAgainst_addsGroups : ∃ v d,
    build plainBody plainPadding .sample ⟨.sha256, .blake3⟩ .binary = .ok v ∧
    v.digests.Separated ∧ d.AddsGroups v.disclosure ∧ CollisionFree (v.listCalls d) ∧
    (PartialView.reconstruct d >>= fun w => w.verifyAgainst v.id) = .ok () := by
  obtain ⟨signers, hbuild⟩ := exists_build_plainBody ⟨.sha256, .blake3⟩
  let v := assemble plainGroups .sample ⟨.sha256, .blake3⟩ signers
  have hadds := v.addsGroups_withNinth Hash.sentinel (v.tree.top ++ [Hash.sentinel])
  have hadded := sentinelAdded_withNinth hbuild (wellFormed_plain signers)
  have hlength := length_top_of_build hbuild
  have hfree : CollisionFree (v.digests.treeCalls v.tree.top) :=
    listCalls_plain.1.of_subset (List.subset_append_left _ _)
  have hsep : v.digests.Separated := show Digest.sha256 ≠ .blake3 by decide
  exact ⟨v, _, hbuild, hsep, hadds, hfree.of_subset (hadded.listCalls_subset hadds hlength),
    hadded.verifyAgainst hadds hlength⟩

end FullView

end VeiledLedger
