import VeiledLedger.Proofs.Building
import VeiledLedger.Proofs.HashCalls

set_option autoImplicit false

/-! # What the id of a transaction commits to

Two views with one id are compared from the id downwards. What fixes the height of the top-level
tree is the slot of the commands: there is exactly one command, so this slot holds a leaf, which can
be neither the sentinel nor an inner node of a higher tree. With the heights equal, the slots agree;
a group is absent exactly if its slot holds the sentinel, and a group that is present is determined
by its root, down to the nonces of its components. The nonce of the command fixes the salt. -/

namespace VeiledLedger

/-! ## The calls of a view -/

/-- The calls that derive the nonces of a group. -/
def Salt.nonceCalls (salt : Salt) (digest : Digest) (g count : UInt32) : List HashCall :=
  (List.range count.toNat).map fun i => ⟨digest, salt.nonceInput g (UInt32.ofNat i)⟩

theorem Salt.nonces_eq_map (salt : Salt) (digest : Digest) (g count : UInt32) :
    salt.nonces digest g count = (salt.nonceCalls digest g count).map HashCall.result := by
  rw [nonces, nonceCalls, List.map_map]
  rfl

/-- The input that a nonce is derived from determines the salt. -/
theorem Salt.nonceInput_inj {salt₁ salt₂ : Salt} {g₁ g₂ i₁ i₂ : UInt32}
    (h : salt₁.nonceInput g₁ i₁ = salt₂.nonceInput g₂ i₂) : salt₁ = salt₂ := by
  unfold nonceInput at h
  rw [List.append_assoc, List.append_assoc] at h
  have hbytes := (List.append_inj h (salt₁.hash.length_eq.trans salt₂.hash.length_eq.symm)).1
  have hhash : salt₁.hash = salt₂.hash := Hash.ext hbytes
  cases salt₁; cases salt₂; cases hhash; rfl

namespace FullView

/-- The calls that are made when a view is made: for the nonces, the leaves and the inner nodes. -/
def calls (v : FullView) : List HashCall :=
  v.groups.groups.entries.flatMap (fun e =>
    v.salt.nonceCalls v.digests.leaf e.1 (UInt32.ofNat e.2.length)
      ++ v.digests.groupCalls (v.tree.noncesOf e.1) e.2)
    ++ v.digests.treeCalls v.tree.top

variable {v v₁ v₂ : FullView} {g : UInt32} {components : List Bytes} {calls : List HashCall}

theorem nonceCalls_subset (hg : v.groups.groups.get? g = some components) :
    v.salt.nonceCalls v.digests.leaf g (UInt32.ofNat components.length) ⊆ v.calls :=
  fun _ hcall => List.mem_append_left _ (List.mem_flatMap.mpr
    ⟨(g, components), (v.groups.groups.mem_entries_iff _ _).mpr hg, List.mem_append_left _ hcall⟩)

theorem groupCalls_subset (hg : v.groups.groups.get? g = some components) :
    v.digests.groupCalls (v.tree.noncesOf g) components ⊆ v.calls :=
  fun _ hcall => List.mem_append_left _ (List.mem_flatMap.mpr
    ⟨(g, components), (v.groups.groups.mem_entries_iff _ _).mpr hg, List.mem_append_right _ hcall⟩)

theorem topCalls_subset (v : FullView) : v.digests.treeCalls v.tree.top ⊆ v.calls :=
  fun _ hcall => List.mem_append_right _ hcall

/-! ## Present and absent groups -/

/-- What a view needs in order to be bound by its id: positions that have their own nonces, and
leaves that differ from inner nodes. -/
structure Bindable (v : FullView) : Prop where
  made : v.Made
  separated : v.digests.Separated
  small : ∀ g components, v.groups.groups.get? g = some components → components.length < 2 ^ 32

theorem Bindable.length_noncesOf (h : v.Bindable)
    (hg : v.groups.groups.get? g = some components) :
    (v.tree.noncesOf g).length = components.length := by
  rw [FullView.length_noncesOf hg, Nat.mod_eq_of_lt (h.small g components hg)]

/-- The root of a group that is present is not the sentinel. -/
theorem Bindable.rootOf_ne_sentinel (h : v.Bindable) (havoid : AvoidsSentinel calls)
    (hsub : v.calls ⊆ calls) (hg : v.groups.groups.get? g = some components) :
    v.tree.rootOf g ≠ Hash.sentinel := by
  obtain ⟨hleaf, htree⟩ := List.append_subset.mp (List.Subset.trans (groupCalls_subset hg) hsub)
  have hnonempty : components ≠ [] :=
    v.groups.nonempty _ ((v.groups.groups.mem_entries_iff _ _).mpr hg)
  have hlen : (v.digests.leafHashes (v.tree.noncesOf g) components).length = components.length := by
    simp [DigestPair.leafHashes, h.length_noncesOf hg]
  have hsentinel : Hash.sentinel ∉ v.digests.leafHashes (v.tree.noncesOf g) components := by
    rw [DigestPair.leafHashes_eq_map]
    intro hmem
    obtain ⟨call, hcall, hresult⟩ := List.mem_map.mp hmem
    exact havoid _ (hleaf hcall) hresult
  rw [rootOf_eq hg, ne_eq, havoid.merkleRoot_eq_sentinel_iff htree hsentinel,
    ← List.length_eq_zero_iff, hlen, List.length_eq_zero_iff]
  exact hnonempty

/-- The slot of the commands holds the leaf of the only command. -/
theorem Bindable.exists_command_leaf (h : v.Bindable) :
    ∃ value nonce, v.groups.groups.get? Role.commands.ordinal = some [value] ∧
      v.tree.noncesOf Role.commands.ordinal = [nonce] ∧
      v.tree.rootOf Role.commands.ordinal = (v.digests.leafCall nonce value).result ∧
      v.digests.leafCall nonce value ∈ v.calls := by
  obtain ⟨value, hg⟩ := h.made.exists_command
  obtain ⟨nonce, hnonce⟩ := List.length_eq_one_iff.mp (h.length_noncesOf hg)
  have hroot := rootOf_eq hg
  have hmem := (List.append_subset.mp (groupCalls_subset hg)).1
  rw [hnonce] at hroot hmem
  exact ⟨value, nonce, hg, hnonce, hroot, hmem List.mem_cons_self⟩

/-! ## Two views with one id -/

/-- Two views with one id, and calls among which are all those made for them. -/
structure Paired (calls : List HashCall) (v₁ v₂ : FullView) : Prop where
  free : CollisionFree calls
  avoids : AvoidsSentinel calls
  bindable₁ : v₁.Bindable
  bindable₂ : v₂.Bindable
  subset₁ : v₁.calls ⊆ calls
  subset₂ : v₂.calls ⊆ calls
  id_eq : v₁.id = v₂.id

namespace Paired

theorem symm (h : Paired calls v₁ v₂) : Paired calls v₂ v₁ :=
  ⟨h.free, h.avoids, h.bindable₂, h.bindable₁, h.subset₂, h.subset₁, h.id_eq.symm⟩

theorem top_subset (h : Paired calls v₁ v₂) : v₁.digests.treeCalls v₁.tree.top ⊆ calls :=
  List.Subset.trans v₁.topCalls_subset h.subset₁

theorem merkleRoot_top_eq (h : Paired calls v₁ v₂) :
    v₁.digests.merkleRoot v₁.tree.top = v₂.digests.merkleRoot v₂.tree.top := by
  rw [← v₁.id_eq, ← v₂.id_eq, h.id_eq]

theorem node_eq (h : Paired calls v₁ v₂) : v₁.digests.node = v₂.digests.node := by
  have htwo (v : FullView) : 2 ≤ v.tree.top.length := by
    have := roleCount_le_topSpan v.tree.roots
    rw [v.top_eq, length_topLevel]
    simp only [Role.count] at this
    omega
  exact h.free.node_eq_of_merkleRoot_eq (htwo v₁) (htwo v₂) h.top_subset h.symm.top_subset
    h.merkleRoot_top_eq

/-- In a lower tree the leaf of the command would be an inner node of the higher one. -/
theorem not_treeHeight_top_lt (h : Paired calls v₁ v₂) :
    ¬ treeHeight v₁.tree.top.length < treeHeight v₂.tree.top.length := by
  intro hlt
  obtain ⟨value, nonce, -, -, hroot, hmem⟩ := h.bindable₁.exists_command_leaf
  have hslot := eq_sentinel_or_parent_of_merkleRoot_eq h.free h.avoids h.node_eq hlt h.top_subset
    h.symm.top_subset h.merkleRoot_top_eq Role.commands.ordinal.toNat
  rw [v₁.getD_top, hroot] at hslot
  rcases hslot with hsentinel | ⟨pair, hpair, hparent⟩
  · exact h.avoids _ (h.subset₁ hmem) hsentinel
  · exact h.free.leaf_ne_parent h.bindable₁.separated (h.subset₁ hmem) rfl hpair hparent

theorem rootOf_eq (h : Paired calls v₁ v₂) (g : UInt32) : v₁.tree.rootOf g = v₂.tree.rootOf g := by
  have hheight : treeHeight v₁.tree.top.length = treeHeight v₂.tree.top.length :=
    Nat.le_antisymm (Nat.le_of_not_lt h.symm.not_treeHeight_top_lt)
      (Nat.le_of_not_lt h.not_treeHeight_top_lt)
  rw [← v₁.getD_top, ← v₂.getD_top]
  exact getD_eq_of_merkleRoot_eq h.free h.avoids h.node_eq hheight h.top_subset
    h.symm.top_subset h.merkleRoot_top_eq _

theorem get?_of_present (h : Paired calls v₁ v₂) {components : List Bytes}
    (hg : v₁.groups.groups.get? g = some components) :
    ∃ others, v₂.groups.groups.get? g = some others := by
  refine Option.ne_none_iff_exists'.mp fun hnone => ?_
  refine h.bindable₁.rootOf_ne_sentinel h.avoids h.subset₁ hg ?_
  rw [h.rootOf_eq, rootOf_of_absent hnone]

/-- A group that is present in both views was hashed by the same calls. -/
theorem leafCalls_eq (h : Paired calls v₁ v₂) {components₁ components₂ : List Bytes}
    (hg₁ : v₁.groups.groups.get? g = some components₁)
    (hg₂ : v₂.groups.groups.get? g = some components₂) :
    v₁.digests.leafCalls (v₁.tree.noncesOf g) components₁
      = v₂.digests.leafCalls (v₂.tree.noncesOf g) components₂ := by
  refine leafCalls_eq_of_merkleRoot_eq h.free h.avoids h.node_eq h.bindable₁.separated
    h.bindable₂.separated (List.Subset.trans (groupCalls_subset hg₁) h.subset₁)
    (List.Subset.trans (groupCalls_subset hg₂) h.subset₂) ?_
  rw [← FullView.rootOf_eq hg₁, ← FullView.rootOf_eq hg₂, h.rootOf_eq]

theorem components_eq (h : Paired calls v₁ v₂) {components₁ components₂ : List Bytes}
    (hg₁ : v₁.groups.groups.get? g = some components₁)
    (hg₂ : v₂.groups.groups.get? g = some components₂) : components₁ = components₂ :=
  (DigestPair.leafCalls_inj (h.bindable₁.length_noncesOf hg₁) (h.bindable₂.length_noncesOf hg₂)
    (h.leafCalls_eq hg₁ hg₂)).2

theorem groups_eq (h : Paired calls v₁ v₂) : v₁.groups = v₂.groups := by
  refine Grouping.ext_groups (GroupMap.ext_get? fun g => ?_)
  cases hg₁ : v₁.groups.groups.get? g with
  | some components₁ =>
    obtain ⟨components₂, hg₂⟩ := h.get?_of_present hg₁
    rw [hg₂, h.components_eq hg₁ hg₂]
  | none =>
    cases hg₂ : v₂.groups.groups.get? g with
    | none => rfl
    | some components₂ =>
      obtain ⟨components₁, hsome⟩ := h.symm.get?_of_present hg₂
      rw [hg₁] at hsome
      simp at hsome

theorem digests_eq (h : Paired calls v₁ v₂) : v₁.digests = v₂.digests := by
  obtain ⟨value₁, nonce₁, hg₁, hn₁, -⟩ := h.bindable₁.exists_command_leaf
  obtain ⟨value₂, nonce₂, hg₂, hn₂, -⟩ := h.bindable₂.exists_command_leaf
  have hcalls := h.leafCalls_eq hg₁ hg₂
  rw [hn₁, hn₂] at hcalls
  have hleaf := (DigestPair.leafCall_inj (List.cons.inj hcalls).1).1
  exact congrArg₂ DigestPair.mk hleaf h.node_eq

/-- The nonce of the command was derived from one salt in both views. -/
theorem salt_eq (h : Paired calls v₁ v₂) : v₁.salt = v₂.salt := by
  obtain ⟨value₁, nonce₁, hg₁, hn₁, -⟩ := h.bindable₁.exists_command_leaf
  obtain ⟨value₂, nonce₂, hg₂, hn₂, -⟩ := h.bindable₂.exists_command_leaf
  have hcalls := h.leafCalls_eq hg₁ hg₂
  have hnonces := (DigestPair.leafCalls_inj (h.bindable₁.length_noncesOf hg₁)
    (h.bindable₂.length_noncesOf hg₂) hcalls).1
  rw [noncesOf_eq hg₁, noncesOf_eq hg₂, Salt.nonces_eq_map, Salt.nonces_eq_map] at hnonces
  have hsub₁ := List.Subset.trans (nonceCalls_subset hg₁) h.subset₁
  have hsub₂ := List.Subset.trans (nonceCalls_subset hg₂) h.subset₂
  -- equal nonces come from equal calls, and a call for a nonce starts with the salt
  have heq := eq_of_map_eq_map (fun a ha b hb => h.free a (hsub₁ ha) b (hsub₂ hb)) hnonces
  have hinput : v₁.salt.nonceInput Role.commands.ordinal 0
      = v₂.salt.nonceInput Role.commands.ordinal 0 :=
    congrArg HashCall.input (List.cons.inj heq).1
  exact Salt.nonceInput_inj hinput

end Paired

/-- Views that compare as equal are views of the same transaction: their digests, their salts and
their groups are the same. -/
theorem parts_eq_of_beq {v₁ v₂ : FullView} (hmade₁ : v₁.Made) (hmade₂ : v₂.Made)
    (hsep₁ : v₁.digests.Separated) (hsep₂ : v₂.digests.Separated)
    (hsmall₁ : ∀ g components, v₁.groups.groups.get? g = some components →
      components.length < 2 ^ 32)
    (hsmall₂ : ∀ g components, v₂.groups.groups.get? g = some components →
      components.length < 2 ^ 32)
    (hfree : CollisionFree (v₁.calls ++ v₂.calls)) (havoid : AvoidsSentinel (v₁.calls ++ v₂.calls))
    (h : (v₁ == v₂) = true) :
    v₁.digests = v₂.digests ∧ v₁.salt = v₂.salt ∧ v₁.groups = v₂.groups := by
  have hid : v₁.id = v₂.id := eq_of_beq h
  have hpair : Paired (v₁.calls ++ v₂.calls) v₁ v₂ :=
    ⟨hfree, havoid, ⟨hmade₁, hsep₁, hsmall₁⟩, ⟨hmade₂, hsep₂, hsmall₂⟩,
      List.subset_append_left _ _, List.subset_append_right _ _, hid⟩
  exact ⟨hpair.digests_eq, hpair.salt_eq, hpair.groups_eq⟩

/-! ## One transaction made in two ways -/

/-- Built from the body or from its groups, the views compare as equal and have equal parts. -/
theorem built_from_body_or_groups :
    ∃ v₁ v₂, build plainBody plainPadding .sample ⟨.sha256, .blake3⟩ .binary = .ok v₁ ∧
      ofGroups plainGroups .sample ⟨.sha256, .blake3⟩ = .ok v₂ ∧
      CollisionFree (v₁.calls ++ v₂.calls) ∧ AvoidsSentinel (v₁.calls ++ v₂.calls) ∧
      (v₁ == v₂) = true ∧ v₁.digests = v₂.digests ∧ v₁.salt = v₂.salt ∧ v₁.groups = v₂.groups := by
  obtain ⟨signers, hbuild⟩ : ∃ signers,
      build plainBody plainPadding .sample ⟨.sha256, .blake3⟩ .binary
        = .ok (assemble plainGroups .sample ⟨.sha256, .blake3⟩ signers) := ⟨_, rfl⟩
  let v := assemble plainGroups .sample ⟨.sha256, .blake3⟩ signers
  let w := assemble plainGroups .sample ⟨.sha256, .blake3⟩ []
  have hgroups : ofGroups plainGroups .sample ⟨.sha256, .blake3⟩ = .ok w := rfl
  have hsep : DigestPair.Separated ⟨.sha256, .blake3⟩ := by decide
  have hentries : ∀ e ∈ plainGroups.groups.entries, e.2.length < 2 ^ 32 := by decide
  have hsmall : ∀ g components, plainGroups.groups.get? g = some components →
      components.length < 2 ^ 32 :=
    fun g components hg => hentries _ ((plainGroups.groups.mem_entries_iff _ _).mpr hg)
  have hsame : v.calls ++ w.calls ⊆ w.calls :=
    List.append_subset.mpr ⟨List.Subset.refl _, List.Subset.refl _⟩
  obtain ⟨hfree, havoid⟩ : CollisionFree w.calls ∧ AvoidsSentinel w.calls := by decide +kernel
  have hfree := hfree.of_subset hsame
  have havoid := havoid.of_subset hsame
  have hbeq : (v == w) = true := beq_self_eq_true w.id
  exact ⟨v, w, hbuild, hgroups, hfree, havoid, hbeq, parts_eq_of_beq (.build hbuild)
    (.ofGroups hgroups) hsep hsep hsmall hsmall hfree havoid hbeq⟩

end FullView

end VeiledLedger
