import Mathlib.Data.List.GetD
import VeiledLedger.CommitmentTree

set_option autoImplicit false

/-! # Reading the tree of a transaction

The top-level list is read through the roots that it lists (`getD_topLevel`), and the tree of a
transaction through its groups: the leaves of a group are those of its components under their nonces
(`leavesOf_build`), and a group that is present has the root of its leaves (`roots_build_get?`). -/

namespace VeiledLedger

/-! ## The ordinals that are present -/

namespace GroupMap

variable {α : Type}

theorem contains_iff {m : GroupMap α} {g : UInt32} :
    m.contains g = true ↔ ∃ a, m.get? g = some a := Option.isSome_iff_exists

theorem contains_eq_false_iff {m : GroupMap α} {g : UInt32} :
    m.contains g = false ↔ m.get? g = none := by
  rw [contains, Option.isSome_eq_false_iff, Option.isNone_iff_eq_none]

theorem mem_keys_iff {m : GroupMap α} {g : UInt32} : g ∈ m.keys ↔ m.contains g = true := by
  rw [contains_iff, keys, List.mem_map]
  constructor
  · rintro ⟨⟨k, a⟩, hmem, rfl⟩
    exact ⟨a, (m.mem_entries_iff k a).mp hmem⟩
  · rintro ⟨a, ha⟩
    exact ⟨(g, a), (m.mem_entries_iff g a).mpr ha, rfl⟩

theorem le_of_maxKey?_eq {m : GroupMap α} {g highest : UInt32} {a : α}
    (hmax : m.maxKey? = some highest) (hg : m.get? g = some a) : g ≤ highest := by
  obtain ⟨last, hlast, rfl⟩ := Option.map_eq_some_iff.mp hmax
  obtain ⟨front, hentries⟩ := List.getLast?_eq_some_iff.mp hlast
  have hmem : (g, a) ∈ front ++ [last] := hentries ▸ (m.mem_entries_iff g a).mpr hg
  have hsorted := hentries ▸ m.sorted
  rcases List.mem_append.mp hmem with hfront | hend
  · exact UInt32.le_of_lt ((List.pairwise_append.mp hsorted).2.2 _ hfront _ List.mem_cons_self)
  · rw [← List.mem_singleton.mp hend]
    exact UInt32.le_refl _

theorem maxKey?_ne_none {m : GroupMap α} {g : UInt32} {a : α} (hg : m.get? g = some a) :
    m.maxKey? ≠ none := by
  intro hnone
  have hmem := (m.mem_entries_iff g a).mpr hg
  have hempty : m.entries = [] := by simpa [maxKey?] using hnone
  rw [hempty] at hmem
  exact List.not_mem_nil hmem

end GroupMap

/-! ## The top-level list -/

theorem length_topLevel (roots : GroupMap Hash) : (topLevel roots).length = topSpan roots := by
  simp [topLevel]

theorem roleCount_le_topSpan (roots : GroupMap Hash) : Role.count ≤ topSpan roots := by
  unfold topSpan
  split
  · exact Nat.le_max_left _ _
  · exact Nat.le_refl _

theorem topSpan_le_size (roots : GroupMap Hash) : topSpan roots ≤ UInt32.size := by
  unfold topSpan
  split
  · next highest _ => exact Nat.max_le.mpr ⟨by decide, highest.toNat_lt_size⟩
  · decide

/-- Every ordinal that is present has a slot. -/
theorem toNat_lt_topSpan {roots : GroupMap Hash} {g : UInt32} (h : roots.contains g = true) :
    g.toNat < topSpan roots := by
  obtain ⟨r, hg⟩ := GroupMap.contains_iff.mp h
  unfold topSpan
  cases hmax : roots.maxKey? with
  | none => exact absurd hmax (GroupMap.maxKey?_ne_none hg)
  | some highest =>
    have hle : g.toNat ≤ highest.toNat :=
      UInt32.le_iff_toNat_le.mp (GroupMap.le_of_maxKey?_eq hmax hg)
    show g.toNat < max Role.count (highest.toNat + 1)
    omega

/-- The slot of every ordinal holds its root, or the sentinel if it has none. -/
theorem getD_topLevel (roots : GroupMap Hash) (g : UInt32) :
    (topLevel roots).getD g.toNat Hash.sentinel = (roots.get? g).getD Hash.sentinel := by
  by_cases hlt : g.toNat < topSpan roots
  · rw [List.getD_eq_getElem _ _ (by rwa [length_topLevel])]
    simp [topLevel]
  · rw [List.getD_eq_default _ _ (by rw [length_topLevel]; omega)]
    cases hg : roots.get? g with
    | none => rfl
    | some r => exact absurd (toNat_lt_topSpan (GroupMap.contains_iff.mpr ⟨r, hg⟩)) hlt

/-- Every known role has a slot. -/
theorem getElem?_topLevel_role (roots : GroupMap Hash) (role : Role) :
    (topLevel roots)[role.ordinal.toNat]?
      = some ((roots.get? role.ordinal).getD Hash.sentinel) := by
  have hlt : role.ordinal.toNat < (topLevel roots).length := by
    rw [length_topLevel]
    exact Nat.lt_of_lt_of_le (by cases role <;> decide) (roleCount_le_topSpan roots)
  have hslot := getD_topLevel roots role.ordinal
  rw [List.getD_eq_getElem _ _ hlt] at hslot
  rw [List.getElem?_eq_getElem hlt, hslot]

theorem getElem?_topLevel {roots : GroupMap Hash} {g : UInt32} {r : Hash}
    (hg : roots.get? g = some r) : (topLevel roots)[g.toNat]? = some r := by
  have hlt : g.toNat < (topLevel roots).length := by
    rw [length_topLevel]
    exact toNat_lt_topSpan (GroupMap.contains_iff.mpr ⟨r, hg⟩)
  have hslot := getD_topLevel roots g
  rw [List.getD_eq_getElem _ _ hlt, hg] at hslot
  rw [List.getElem?_eq_getElem hlt, hslot]
  rfl

/-! ## Nonces -/

@[simp] theorem Salt.length_nonces (salt : Salt) (digest : Digest) (g count : UInt32) :
    (salt.nonces digest g count).length = count.toNat := by
  simp [Salt.nonces]

theorem Salt.nonce_of_getElem? {salt : Salt} {digest : Digest} {g count : UInt32} {i : Nat}
    {nonce : Hash} (h : (salt.nonces digest g count)[i]? = some nonce) :
    nonce = salt.nonce digest g (UInt32.ofNat i) := by
  rw [Salt.nonces, List.getElem?_map, Option.map_eq_some_iff] at h
  obtain ⟨j, hj, rfl⟩ := h
  obtain ⟨-, rfl⟩ := List.getElem?_eq_some_iff.mp hj
  rw [List.getElem_range]

/-- A salt for examples. -/
def Salt.sample : Salt := ⟨Hash.fill 7, by decide⟩

/-! ## The tree -/

namespace CommitmentTree

variable (groups : Grouping) (salt : Salt) (digests : DigestPair)

theorem top_build : (build groups salt digests).top = topLevel (build groups salt digests).roots :=
  rfl

theorem root_build :
    (build groups salt digests).root = digests.merkleRoot (build groups salt digests).top := rfl

variable {groups}

theorem noncesOf_build {g : UInt32} {components : List Bytes}
    (hg : groups.groups.get? g = some components) :
    (build groups salt digests).noncesOf g
      = salt.nonces digests.leaf g (UInt32.ofNat components.length) := by
  simp [noncesOf, build, GroupMap.get?_map, hg]

theorem noncesOf_build_of_absent {g : UInt32} (hg : groups.groups.get? g = none) :
    (build groups salt digests).noncesOf g = [] := by
  simp [noncesOf, build, GroupMap.get?_map, hg]

theorem leavesOf_build {g : UInt32} {components : List Bytes}
    (hg : groups.groups.get? g = some components) :
    (build groups salt digests).leavesOf g = digests.leafHashes
      (salt.nonces digests.leaf g (UInt32.ofNat components.length)) components := by
  simp [leavesOf, build, GroupMap.get?_map, hg]

theorem leavesOf_build_of_absent {g : UInt32} (hg : groups.groups.get? g = none) :
    (build groups salt digests).leavesOf g = [] := by
  simp [leavesOf, build, GroupMap.get?_map, hg]

theorem roots_build_get? (g : UInt32) :
    (build groups salt digests).roots.get? g
      = (groups.groups.get? g).map
          fun _ => digests.merkleRoot ((build groups salt digests).leavesOf g) := by
  cases hg : groups.groups.get? g <;> simp [leavesOf, build, GroupMap.get?_map, hg]

theorem rootOf_build (g : UInt32) : (build groups salt digests).rootOf g
    = digests.merkleRoot ((build groups salt digests).leavesOf g) := by
  unfold rootOf
  rw [roots_build_get?]
  cases hg : groups.groups.get? g with
  | none =>
    rw [leavesOf_build_of_absent salt digests hg]
    rfl
  | some components => rfl

end CommitmentTree

end VeiledLedger
