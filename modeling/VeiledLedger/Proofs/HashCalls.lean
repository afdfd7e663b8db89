import VeiledLedger.CommitmentTree
import VeiledLedger.Proofs.MerkleBinding

set_option autoImplicit false

/-! # Calls of the hash functions

A digest cannot be injective, so what a hash commits to is stated over the calls that were made: a
computation lists the digests it used with their inputs, and binds its input as far as no two
different calls among those listed have the same result. Calls of different digests are different
calls, which is what separates the leaves of a tree from its inner nodes. -/

namespace VeiledLedger

/-- One use of a digest. -/
structure HashCall where
  digest : Digest
  input : Bytes
  deriving DecidableEq

def HashCall.result (call : HashCall) : Hash := call.digest.hash call.input

/-- No two different calls have the same result. -/
def CollisionFree (calls : List HashCall) : Prop :=
  ∀ a ∈ calls, ∀ b ∈ calls, a.result = b.result → a = b

/-- No call has the sentinel as its result. -/
def AvoidsSentinel (calls : List HashCall) : Prop :=
  ∀ a ∈ calls, a.result ≠ Hash.sentinel

instance (calls : List HashCall) : Decidable (CollisionFree calls) :=
  inferInstanceAs (Decidable (∀ a ∈ calls, ∀ b ∈ calls, a.result = b.result → a = b))

instance (calls : List HashCall) : Decidable (AvoidsSentinel calls) :=
  inferInstanceAs (Decidable (∀ a ∈ calls, a.result ≠ Hash.sentinel))

theorem CollisionFree.of_subset {calls more : List HashCall} (h : CollisionFree more)
    (hsub : calls ⊆ more) : CollisionFree calls :=
  fun a ha b hb => h a (hsub ha) b (hsub hb)

theorem AvoidsSentinel.of_subset {calls more : List HashCall} (h : AvoidsSentinel more)
    (hsub : calls ⊆ more) : AvoidsSentinel calls :=
  fun a ha => h a (hsub ha)

/-! ## The calls of a tree -/

namespace DigestPair

def leafCall (p : DigestPair) (nonce : Hash) (component : Bytes) : HashCall :=
  ⟨p.leaf, nonce.bytes ++ component⟩

def nodeCall (p : DigestPair) (pair : Hash × Hash) : HashCall :=
  ⟨p.node, pair.1.bytes ++ pair.2.bytes⟩

/-- The calls that make the leaves of components, position by position. -/
def leafCalls (p : DigestPair) (nonces : List Hash) (components : List Bytes) : List HashCall :=
  List.zipWith p.leafCall nonces components

/-- The calls that make the root of a list of leaves. -/
def treeCalls (p : DigestPair) (leaves : List Hash) : List HashCall :=
  (Merkle.hashed p.nodeHash leaves).map p.nodeCall

/-- The calls that make the root of a group of components. -/
def groupCalls (p : DigestPair) (nonces : List Hash) (components : List Bytes) : List HashCall :=
  p.leafCalls nonces components ++ p.treeCalls (p.leafHashes nonces components)

variable {p p₁ p₂ : DigestPair}

theorem leafHashes_eq_map (p : DigestPair) (nonces : List Hash) (components : List Bytes) :
    p.leafHashes nonces components = (p.leafCalls nonces components).map HashCall.result := by
  rw [leafHashes, leafCalls, List.map_zipWith]
  rfl

theorem digest_of_mem_leafCalls {nonces : List Hash} {components : List Bytes} {call : HashCall}
    (h : call ∈ p.leafCalls nonces components) : call.digest = p.leaf := by
  obtain ⟨i, hi, rfl⟩ := List.getElem_of_mem h
  simp only [leafCalls, List.getElem_zipWith]
  rfl

theorem leafCall_mem_leafCalls {nonces : List Hash} {components : List Bytes} {i : Nat}
    {nonce : Hash} {component : Bytes} (hn : nonces[i]? = some nonce)
    (hc : components[i]? = some component) :
    p.leafCall nonce component ∈ p.leafCalls nonces components :=
  List.mem_of_getElem? (List.getElem?_zipWith_eq_some.mpr ⟨nonce, component, hn, hc, rfl⟩)

theorem leafCall_inj {nonce₁ nonce₂ : Hash} {component₁ component₂ : Bytes}
    (h : p₁.leafCall nonce₁ component₁ = p₂.leafCall nonce₂ component₂) :
    p₁.leaf = p₂.leaf ∧ nonce₁ = nonce₂ ∧ component₁ = component₂ := by
  obtain ⟨hdigest, hinput⟩ := HashCall.mk.inj h
  obtain ⟨hnonce, hcomponent⟩ :=
    List.append_inj hinput (nonce₁.length_eq.trans nonce₂.length_eq.symm)
  exact ⟨hdigest, Hash.ext hnonce, hcomponent⟩

/-- The calls of a group determine its nonces and its components. -/
theorem leafCalls_inj {nonces₁ nonces₂ : List Hash} {components₁ components₂ : List Bytes}
    (hlen₁ : nonces₁.length = components₁.length) (hlen₂ : nonces₂.length = components₂.length)
    (h : p₁.leafCalls nonces₁ components₁ = p₂.leafCalls nonces₂ components₂) :
    nonces₁ = nonces₂ ∧ components₁ = components₂ := by
  induction nonces₁ generalizing nonces₂ components₁ components₂ with
  | nil =>
    obtain rfl : components₁ = [] := List.eq_nil_of_length_eq_zero hlen₁.symm
    cases nonces₂ with
    | nil => exact ⟨rfl, (List.eq_nil_of_length_eq_zero hlen₂.symm).symm⟩
    | cons nonce rest =>
      obtain ⟨component, tail, rfl⟩ := List.exists_cons_of_length_eq_add_one hlen₂.symm
      simp [leafCalls] at h
  | cons nonce rest ih =>
    obtain ⟨component, tail, rfl⟩ := List.exists_cons_of_length_eq_add_one hlen₁.symm
    cases nonces₂ with
    | nil => simp [leafCalls] at h
    | cons nonce₂ rest₂ =>
      obtain ⟨component₂, tail₂, rfl⟩ := List.exists_cons_of_length_eq_add_one hlen₂.symm
      obtain ⟨hhead, htail⟩ := List.cons.inj h
      obtain ⟨-, hnonce, hcomponent⟩ := leafCall_inj hhead
      obtain ⟨hrest, htails⟩ := ih (by simpa using hlen₁) (by simpa using hlen₂) htail
      exact ⟨by rw [hnonce, hrest], by rw [hcomponent, htails]⟩

theorem nodeCall_inj {pair₁ pair₂ : Hash × Hash} (h : p₁.nodeCall pair₁ = p₂.nodeCall pair₂) :
    p₁.node = p₂.node ∧ pair₁ = pair₂ := by
  obtain ⟨hdigest, hinput⟩ := HashCall.mk.inj h
  obtain ⟨hleft, hright⟩ := Hash.append_inj hinput
  exact ⟨hdigest, Prod.ext hleft hright⟩

/-- Only the digest of the inner nodes enters the hashing of inner nodes. -/
theorem nodeHash_congr (h : p₁.node = p₂.node) : p₂.nodeHash = p₁.nodeHash := by
  unfold nodeHash
  rw [h]

theorem nodeCall_congr (h : p₁.node = p₂.node) : p₂.nodeCall = p₁.nodeCall := by
  unfold nodeCall
  rw [h]

end DigestPair

/-! ## Calls without collisions -/

variable {calls : List HashCall} {p p₁ p₂ : DigestPair}

theorem CollisionFree.on_nodes (hfree : CollisionFree calls) (p : DigestPair) :
    Merkle.CollisionFreeOn p.nodeHash fun pair => p.nodeCall pair ∈ calls :=
  fun _ _ ha hb h => (DigestPair.nodeCall_inj (hfree _ ha _ hb h)).2

theorem AvoidsSentinel.on_nodes (havoid : AvoidsSentinel calls) (p : DigestPair) :
    Merkle.AvoidsSentinelOn p.nodeHash fun pair => p.nodeCall pair ∈ calls :=
  fun _ ha => havoid _ ha

theorem nodeCall_mem_of_treeCalls_subset {leaves : List Hash} (h : p.treeCalls leaves ⊆ calls) :
    ∀ pair ∈ Merkle.hashed p.nodeHash leaves, p.nodeCall pair ∈ calls :=
  fun _ hpair => h (List.mem_map_of_mem hpair)

/-- A result of the leaf digest is no inner node. -/
theorem CollisionFree.leaf_ne_parent (hfree : CollisionFree calls) (hsep : p.Separated)
    {call : HashCall} (hcall : call ∈ calls) (hdigest : call.digest = p.leaf)
    {pair : Hash × Hash} (hpair : p.nodeCall pair ∈ calls) :
    call.result ≠ Merkle.parent p.nodeHash pair := by
  intro h
  have hsame : call = p.nodeCall pair := hfree _ hcall _ hpair h
  exact hsep (hdigest.symm.trans (congrArg HashCall.digest hsame))

/-- The root of two or more leaves names the digest of the inner nodes. -/
theorem CollisionFree.node_eq_of_merkleRoot_eq (hfree : CollisionFree calls)
    {leaves₁ leaves₂ : List Hash} (htwo₁ : 2 ≤ leaves₁.length) (htwo₂ : 2 ≤ leaves₂.length)
    (hsub₁ : p₁.treeCalls leaves₁ ⊆ calls) (hsub₂ : p₂.treeCalls leaves₂ ⊆ calls)
    (h : p₁.merkleRoot leaves₁ = p₂.merkleRoot leaves₂) : p₁.node = p₂.node := by
  obtain ⟨pair₁, hpair₁, hroot₁⟩ := Merkle.exists_parent_of_two_le p₁.nodeHash htwo₁
  obtain ⟨pair₂, hpair₂, hroot₂⟩ := Merkle.exists_parent_of_two_le p₂.nodeHash htwo₂
  have hresult : (p₁.nodeCall pair₁).result = (p₂.nodeCall pair₂).result :=
    hroot₁.symm.trans (h.trans hroot₂)
  exact (DigestPair.nodeCall_inj (hfree _ (nodeCall_mem_of_treeCalls_subset hsub₁ _ hpair₁)
    _ (nodeCall_mem_of_treeCalls_subset hsub₂ _ hpair₂) hresult)).1

/-- Lists under trees of one height agree everywhere if their roots do. -/
theorem getD_eq_of_merkleRoot_eq (hfree : CollisionFree calls) (havoid : AvoidsSentinel calls)
    (hnode : p₁.node = p₂.node) {leaves₁ leaves₂ : List Hash}
    (hheight : treeHeight leaves₁.length = treeHeight leaves₂.length)
    (hsub₁ : p₁.treeCalls leaves₁ ⊆ calls) (hsub₂ : p₂.treeCalls leaves₂ ⊆ calls)
    (h : p₁.merkleRoot leaves₁ = p₂.merkleRoot leaves₂) (i : Nat) :
    leaves₁.getD i Hash.sentinel = leaves₂.getD i Hash.sentinel := by
  have hp₁ := nodeCall_mem_of_treeCalls_subset hsub₁
  have hp₂ := nodeCall_mem_of_treeCalls_subset hsub₂
  unfold DigestPair.merkleRoot Merkle.root at h
  rw [DigestPair.nodeHash_congr hnode, hheight] at h
  rw [DigestPair.nodeHash_congr hnode, DigestPair.nodeCall_congr hnode] at hp₂
  unfold Merkle.hashed at hp₁ hp₂
  rw [hheight] at hp₁
  exact Merkle.getD_eq_of_rootAt_eq (hfree.on_nodes p₁) (havoid.on_nodes p₁)
    ((treeHeight_le_iff _ _).mp hheight.le) (le_two_pow_treeHeight _) hp₁ hp₂ h i

/-- In a lower tree with the root of a higher one, every leaf is the sentinel or an inner node. -/
theorem eq_sentinel_or_parent_of_merkleRoot_eq (hfree : CollisionFree calls)
    (havoid : AvoidsSentinel calls) (hnode : p₁.node = p₂.node) {leaves₁ leaves₂ : List Hash}
    (hlt : treeHeight leaves₁.length < treeHeight leaves₂.length)
    (hsub₁ : p₁.treeCalls leaves₁ ⊆ calls) (hsub₂ : p₂.treeCalls leaves₂ ⊆ calls)
    (h : p₁.merkleRoot leaves₁ = p₂.merkleRoot leaves₂) (i : Nat) :
    leaves₁.getD i Hash.sentinel = Hash.sentinel ∨ ∃ pair, p₁.nodeCall pair ∈ calls ∧
      leaves₁.getD i Hash.sentinel = Merkle.parent p₁.nodeHash pair := by
  have hp₁ := nodeCall_mem_of_treeCalls_subset hsub₁
  have hp₂ := nodeCall_mem_of_treeCalls_subset hsub₂
  unfold DigestPair.merkleRoot at h
  rw [DigestPair.nodeHash_congr hnode] at h
  rw [DigestPair.nodeHash_congr hnode, DigestPair.nodeCall_congr hnode] at hp₂
  exact Merkle.eq_sentinel_or_parent_of_lt (hfree.on_nodes p₁) (havoid.on_nodes p₁) hlt
    (le_two_pow_treeHeight _) (le_two_pow_treeHeight _) hp₁ hp₂ h i

/-- The sentinel is the root of the list without leaves, and of no other list. -/
theorem AvoidsSentinel.merkleRoot_eq_sentinel_iff (havoid : AvoidsSentinel calls)
    {leaves : List Hash} (hsub : p.treeCalls leaves ⊆ calls) (hleaf : Hash.sentinel ∉ leaves) :
    p.merkleRoot leaves = Hash.sentinel ↔ leaves = [] := by
  constructor
  · intro hroot
    by_contra hne
    exact Merkle.root_ne_sentinel (havoid.on_nodes p) hne (nodeCall_mem_of_treeCalls_subset hsub)
      hleaf hroot
  · rintro rfl
    rfl

/-- Lists of one length have the same leaves if they have the same root. -/
theorem leaves_eq_of_merkleRoot_eq (hfree : CollisionFree calls) {leaves₁ leaves₂ : List Hash}
    (hlen : leaves₁.length = leaves₂.length) (hsub₁ : p.treeCalls leaves₁ ⊆ calls)
    (hsub₂ : p.treeCalls leaves₂ ⊆ calls) (h : p.merkleRoot leaves₁ = p.merkleRoot leaves₂) :
    leaves₁ = leaves₂ := by
  have hp₁ := nodeCall_mem_of_treeCalls_subset hsub₁
  have hp₂ := nodeCall_mem_of_treeCalls_subset hsub₂
  unfold DigestPair.merkleRoot Merkle.root at h
  unfold Merkle.hashed at hp₁ hp₂
  rw [← hlen] at h hp₂
  exact Merkle.eq_of_rootAt_eq (hfree.on_nodes p) hlen (le_two_pow_treeHeight _) hp₁ hp₂ h

/-- The leaves of a group determine the calls that made them. -/
theorem leafCalls_eq_of_leafHashes_eq (hfree : CollisionFree calls)
    {nonces₁ nonces₂ : List Hash} {components₁ components₂ : List Bytes}
    (hsub₁ : p₁.leafCalls nonces₁ components₁ ⊆ calls)
    (hsub₂ : p₂.leafCalls nonces₂ components₂ ⊆ calls)
    (h : p₁.leafHashes nonces₁ components₁ = p₂.leafHashes nonces₂ components₂) :
    p₁.leafCalls nonces₁ components₁ = p₂.leafCalls nonces₂ components₂ := by
  rw [DigestPair.leafHashes_eq_map, DigestPair.leafHashes_eq_map] at h
  exact eq_of_map_eq_map (fun a ha b hb => hfree a (hsub₁ ha) b (hsub₂ hb)) h

/-- The root of a group determines the calls that made its leaves, and with them their number. -/
theorem leafCalls_eq_of_merkleRoot_eq (hfree : CollisionFree calls) (havoid : AvoidsSentinel calls)
    (hnode : p₁.node = p₂.node) (hsep₁ : p₁.Separated) (hsep₂ : p₂.Separated)
    {nonces₁ nonces₂ : List Hash} {components₁ components₂ : List Bytes}
    (hsub₁ : p₁.groupCalls nonces₁ components₁ ⊆ calls)
    (hsub₂ : p₂.groupCalls nonces₂ components₂ ⊆ calls)
    (h : p₁.merkleRoot (p₁.leafHashes nonces₁ components₁)
      = p₂.merkleRoot (p₂.leafHashes nonces₂ components₂)) :
    p₁.leafCalls nonces₁ components₁ = p₂.leafCalls nonces₂ components₂ := by
  have hhash := DigestPair.nodeHash_congr hnode
  have hcall := DigestPair.nodeCall_congr hnode
  obtain ⟨hleaf₁, htree₁⟩ := List.append_subset.mp hsub₁
  obtain ⟨hleaf₂, htree₂⟩ := List.append_subset.mp hsub₂
  have hp₁ := nodeCall_mem_of_treeCalls_subset htree₁
  have hp₂ := nodeCall_mem_of_treeCalls_subset htree₂
  rw [hhash, hcall] at hp₂
  have hleaves : p₁.leafHashes nonces₁ components₁ = p₂.leafHashes nonces₂ components₂ := by
    refine Merkle.leaves_eq_of_root_eq (hfree.on_nodes p₁) (havoid.on_nodes p₁) hp₁ hp₂ ?_ ?_ ?_
    · intro x hx
      rw [DigestPair.leafHashes_eq_map] at hx
      obtain ⟨call, hmem, rfl⟩ := List.mem_map.mp hx
      exact ⟨havoid _ (hleaf₁ hmem), fun pair hpair => hfree.leaf_ne_parent hsep₁ (hleaf₁ hmem)
        (DigestPair.digest_of_mem_leafCalls hmem) hpair⟩
    · intro x hx
      rw [DigestPair.leafHashes_eq_map] at hx
      obtain ⟨call, hmem, rfl⟩ := List.mem_map.mp hx
      refine ⟨havoid _ (hleaf₂ hmem), fun pair hpair => ?_⟩
      rw [← hhash]
      exact hfree.leaf_ne_parent hsep₂ (hleaf₂ hmem) (DigestPair.digest_of_mem_leafCalls hmem)
        (by rwa [hcall])
    · unfold DigestPair.merkleRoot at h
      rwa [hhash] at h
  exact leafCalls_eq_of_leafHashes_eq hfree hleaf₁ hleaf₂ hleaves

end VeiledLedger
