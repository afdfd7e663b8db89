import VeiledLedger.Proofs.Building
import VeiledLedger.Proofs.Participant

set_option autoImplicit false

/-! # Groups that are withheld

A group that is disclosed can be sent as its root instead. The material stays well-formed, keeps its
ordinals and implies the same roots as before, except that the roots of the withheld groups are now
those that were sent (`impliedRoot_withhold`).

What is sent as a root is not hashed again, so it tells nothing about the leaf digest. The second
part of the module applies this to the disclosure of a view under another leaf digest: it is
verified exactly if nothing is left of it that has leaves (`exists_verifyPartial_relabelled_iff`). -/

namespace VeiledLedger

namespace Disclosure

variable {d : Disclosure} {withheld : UInt32 → Bool} {root : UInt32 → Hash} {g : UInt32}

/-- Some of the disclosed groups sent as roots instead of plaintext. -/
def withhold (d : Disclosure) (withheld : UInt32 → Bool) (root : UInt32 → Hash) : Disclosure :=
  { d with
    components := d.components.filter fun g _ => !withheld g
    nonces := d.nonces.filter fun g _ => !withheld g
    hiddenRoots := d.hiddenRoots.union
      ((d.components.filter fun g _ => withheld g).map fun g _ => root g) }

/-- Nothing is changed about a group that is not withheld. -/
theorem get?_withhold_of_kept (d : Disclosure) (root : UInt32 → Hash) (hg : withheld g = false) :
    (d.withhold withheld root).components.get? g = d.components.get? g ∧
      (d.withhold withheld root).nonces.get? g = d.nonces.get? g ∧
      (d.withhold withheld root).hiddenRoots.get? g = d.hiddenRoots.get? g := by
  simp only [withhold, GroupMap.get?_filter, GroupMap.get?_union, GroupMap.get?_map, hg]
  cases d.components.get? g <;> cases d.nonces.get? g <;> simp

/-- A group that is withheld has its root in place of what was disclosed of it. -/
theorem get?_withhold_of_withheld (d : Disclosure) (root : UInt32 → Hash)
    (hg : withheld g = true) :
    (d.withhold withheld root).components.get? g = none ∧
      (d.withhold withheld root).nonces.get? g = none ∧
      (d.withhold withheld root).hiddenRoots.get? g
        = ((d.components.get? g).map fun _ => root g).or (d.hiddenRoots.get? g) := by
  simp only [withhold, GroupMap.get?_filter, GroupMap.get?_union, GroupMap.get?_map, hg]
  cases d.components.get? g <;> cases d.nonces.get? g <;> simp

theorem contains_components_withhold (d : Disclosure) (withheld : UInt32 → Bool)
    (root : UInt32 → Hash) (g : UInt32) : (d.withhold withheld root).components.contains g
      = (!withheld g && d.components.contains g) := by
  unfold GroupMap.contains
  cases hg : withheld g with
  | false => rw [(get?_withhold_of_kept d root hg).1]; rfl
  | true => rw [(get?_withhold_of_withheld d root hg).1]; rfl

theorem contains_nonces_withhold (d : Disclosure) (withheld : UInt32 → Bool)
    (root : UInt32 → Hash) (g : UInt32) : (d.withhold withheld root).nonces.contains g
      = (!withheld g && d.nonces.contains g) := by
  unfold GroupMap.contains
  cases hg : withheld g with
  | false => rw [(get?_withhold_of_kept d root hg).2.1]; rfl
  | true => rw [(get?_withhold_of_withheld d root hg).2.1]; rfl

/-- No ordinal is lost or gained. -/
theorem contains_withhold (d : Disclosure) (withheld : UInt32 → Bool) (root : UInt32 → Hash)
    (g : UInt32) :
    ((d.withhold withheld root).components.contains g
      || (d.withhold withheld root).hiddenRoots.contains g)
      = (d.components.contains g || d.hiddenRoots.contains g) := by
  unfold GroupMap.contains
  cases hg : withheld g with
  | false =>
    obtain ⟨hcomponents, -, hhidden⟩ := get?_withhold_of_kept d root hg
    rw [hcomponents, hhidden]
  | true =>
    obtain ⟨hcomponents, -, hhidden⟩ := get?_withhold_of_withheld d root hg
    rw [hcomponents, hhidden]
    cases d.components.get? g <;> rfl

theorem WellFormed.withhold (h : d.WellFormed) (withheld : UInt32 → Bool) (root : UInt32 → Hash) :
    (d.withhold withheld root).WellFormed := by
  refine ⟨fun g => ?_, fun g components nonces hcomponents hnonces => ?_, fun g hg => ?_, ?_, ?_⟩
  · rw [contains_components_withhold, contains_nonces_withhold, h.same_groups g]
  · cases hg : withheld g with
    | false =>
      obtain ⟨hsame₁, hsame₂, -⟩ := get?_withhold_of_kept d root hg
      rw [hsame₁] at hcomponents
      rw [hsame₂] at hnonces
      exact h.same_length g components nonces hcomponents hnonces
    | true =>
      rw [(get?_withhold_of_withheld d root hg).1] at hcomponents
      cases hcomponents
  · rw [contains_components_withhold, Bool.and_eq_true, Bool.not_eq_true'] at hg
    rw [GroupMap.contains, (get?_withhold_of_kept d root hg.1).2.2]
    exact h.not_hidden g hg.2
  · rw [contains_components_withhold, h.outputs_not_disclosed, Bool.and_false]
  · have hboth := d.contains_withhold withheld root Role.outputs.ordinal
    rw [h.outputs_not_disclosed, h.outputs_not_hidden, Bool.or_false, Bool.or_eq_false_iff] at hboth
    exact hboth.2

/-- The roots that are sent stand for the groups that are withheld, and nothing else changes. -/
theorem WellFormed.impliedRoot_withhold (h : d.WellFormed) (withheld : UInt32 → Bool)
    (root : UInt32 → Hash) (g : UInt32) : (d.withhold withheld root).impliedRoot g
      = if withheld g && d.components.contains g then root g else d.impliedRoot g := by
  by_cases houtputs : g = Role.outputs.ordinal
  · subst houtputs
    rw [h.outputs_not_disclosed, Bool.and_false]
    rfl
  · unfold impliedRoot GroupMap.contains leavesOf
    rw [if_neg houtputs, if_neg houtputs]
    cases hg : withheld g with
    | false =>
      obtain ⟨hcomponents, hnonces, hhidden⟩ := get?_withhold_of_kept d root hg
      rw [hcomponents, hnonces, hhidden]
      rfl
    | true =>
      obtain ⟨hcomponents, -, hhidden⟩ := get?_withhold_of_withheld d root hg
      rw [hcomponents, hhidden]
      cases d.components.get? g with
      | some components => rfl
      | none => cases d.hiddenRoots.get? g <;> rfl

end Disclosure

/-! ## Another leaf digest -/

namespace FullView

variable {v : FullView} {leaf : Digest} {withheld : UInt32 → Bool} {g : UInt32}

/-- The disclosure of a view under another leaf digest, with some of the disclosed groups sent as the
roots that they have in the view. -/
def relabelled (v : FullView) (leaf : Digest) (withheld : UInt32 → Bool) : Disclosure :=
  (v.withLeafDigest leaf).withhold withheld v.tree.rootOf

/-- Every root that is recomputed from components differs from that of the view. -/
def RootsDiffer (v : FullView) (d : Disclosure) : Prop :=
  ∀ g components nonces, d.components.get? g = some components →
    d.nonces.get? g = some nonces → components ≠ [] →
    d.digests.merkleRoot (d.digests.leafHashes nonces components) ≠ v.tree.rootOf g

/-- Nothing of the view is left to be hashed under the leaf digest: the notary is withheld, and the
mandatory groups, which are shown, have no components. -/
structure Unhashed (v : FullView) (withheld : UInt32 → Bool) : Prop where
  notary : withheld Role.notary.ordinal = true
  shown : ∀ role ∈ Role.mandatory, withheld role.ordinal = false
  absent : ∀ role ∈ Role.mandatory, v.groups.components role = []

theorem mandatory_or_notary : ∀ role ∈ disclosedRoles, role ∈ Role.mandatory ∨ role = .notary := by
  decide

theorem components_relabelled (v : FullView) (leaf : Digest) {role : Role}
    (hrole : role.visibility = .disclosed) (hkept : withheld role.ordinal = false) :
    (v.relabelled leaf withheld).components.get? role.ordinal = some (v.groups.components role) :=
  (Disclosure.get?_withhold_of_kept (v.withLeafDigest leaf) v.tree.rootOf hkept).1.trans
    (v.disclosure_components_role hrole)

theorem exists_role_of_components_relabelled {components : List Bytes}
    (hg : (v.relabelled leaf withheld).components.get? g = some components) :
    ∃ role ∈ disclosedRoles, role.ordinal = g ∧ withheld g = false ∧
      components = v.groups.components role := by
  cases hwithheld : withheld g with
  | true =>
    have hnone := (Disclosure.get?_withhold_of_withheld (v.withLeafDigest leaf) v.tree.rootOf
      hwithheld).1
    cases hnone.symm.trans hg
  | false =>
    have hsame := (Disclosure.get?_withhold_of_kept (v.withLeafDigest leaf) v.tree.rootOf
      hwithheld).1
    have hshown : v.disclosure.components.get? g = some components := hsame.symm.trans hg
    have hdisclosed := (v.contains_disclosure_components g).mp (GroupMap.contains_iff.mpr ⟨_, hshown⟩)
    obtain ⟨role, hrole, rfl⟩ := exists_disclosedRole_iff.mpr hdisclosed
    rw [v.disclosure_components, if_pos hdisclosed] at hshown
    exact ⟨role, hrole, rfl, rfl, (Option.some.inj hshown).symm⟩

namespace Unhashed

theorem get?_eq_none (h : v.Unhashed withheld) (hg : Visibility.ofOrdinal g = .disclosed)
    (hkept : withheld g = false) : v.groups.groups.get? g = none := by
  obtain ⟨role, hrole, rfl⟩ := exists_disclosedRole_iff.mpr hg
  rcases mandatory_or_notary role hrole with hmandatory | rfl
  · exact Grouping.components_eq_nil_iff.mp (h.absent role hmandatory)
  · rw [h.notary] at hkept
    cases hkept

theorem impliedRoot_relabelled (h : v.Unhashed withheld)
    (hwell : (v.withLeafDigest leaf).WellFormed) (g : UInt32) :
    (v.relabelled leaf withheld).impliedRoot g = v.tree.rootOf g := by
  rw [relabelled, hwell.impliedRoot_withhold]
  split_ifs with hwithheld
  · rfl
  · refine v.impliedRoot_withLeafDigest leaf fun hg components hgroup => ?_
    have hcontains : (v.withLeafDigest leaf).components.contains g = true :=
      (v.contains_disclosure_components g).mpr hg
    rw [hcontains, Bool.and_true] at hwithheld
    cases (h.get?_eq_none hg (Bool.eq_false_iff.mpr hwithheld)).symm.trans hgroup

theorem wellFormed (h : v.Unhashed withheld) (leaf : Digest) {party : Bytes}
    (hnotary : v.groups.groups.get? Role.notary.ordinal = some [party]) :
    (v.withLeafDigest leaf).WellFormed := by
  have hsmall : ∀ role : Role, role.visibility = .disclosed →
      (v.groups.components role).length < 2 ^ 32 := by
    intro role hdisclosed
    rcases mandatory_or_notary role (mem_disclosedRoles_iff.mpr hdisclosed) with hmandatory | rfl
    · rw [h.absent role hmandatory]
      decide
    · rw [Grouping.components, hnotary]
      show 1 < 2 ^ 32
      decide
  obtain ⟨hgroups, hlength, hhidden, hnot₁, hnot₂⟩ := wellFormed_disclosure_of_roles hsmall
  exact ⟨hgroups, hlength, hhidden, hnot₁, hnot₂⟩

theorem verifiable (h : v.Unhashed withheld) {p : Participant} {party : Bytes}
    (hnotary : v.groups.groups.get? Role.notary.ordinal = some [party])
    (hleaf : leaf ≠ v.digests.node)
    (houtputs : v.outputLeaves.length = 0 ∨
      v.outputLeaves.length = p.padding.outputs.size.toNat) :
    p.Verifiable (v.relabelled leaf withheld) := by
  have hwell := h.wellFormed leaf hnotary
  have hshown {role : Role} (hrole : role ∈ Role.mandatory) :
      (v.relabelled leaf withheld).components.get? role.ordinal = some [] := by
    rw [components_relabelled v leaf (disclosed_of_mandatory role hrole) (h.shown role hrole),
      h.absent role hrole]
  have hcount {role : Role} (hrole : role ∈ Role.mandatory) :
      (v.relabelled leaf withheld).count role = 0 := by
    rw [Disclosure.count, hshown hrole]
    rfl
  have htop : (v.relabelled leaf withheld).impliedTop = v.tree.top := by
    rw [v.top_eq]
    refine (hwell.withhold withheld _).impliedTop_eq_topLevel (h.impliedRoot_relabelled hwell)
      fun g hg => ?_
    rw [← v.contains_disclosure_beyond hg]
    exact Disclosure.contains_withhold _ _ _ _
  refine ⟨hwell.withhold withheld _, htop.symm, ?_, fun role hrole => ?_, hleaf, ?_⟩
  · rw [htop]
    exact v.id_eq.symm
  · exact GroupMap.contains_iff.mpr ⟨_, hshown hrole⟩
  · exact ⟨.inl (hcount (by decide)), houtputs, .inl (hcount (by decide))⟩

end Unhashed

/-- A group that is shown in verified material has no components: its recomputed root would be that
of the view. -/
theorem components_eq_nil_of_verifiable {p : Participant} {role : Role}
    (hroots : v.RootsDiffer (v.relabelled leaf withheld))
    (h : p.Verifiable (v.relabelled leaf withheld)) (hrole : role.visibility = .disclosed)
    (hkept : withheld role.ordinal = false) : v.groups.components role = [] := by
  by_contra hne
  have hg := components_relabelled v leaf hrole hkept
  obtain ⟨nonces, hn, -⟩ := Disclosure.exists_nonces h.wellFormed hg
  refine hroots _ _ _ hg hn hne ?_
  rw [← Disclosure.impliedRoot_of_disclosed h.wellFormed hg hn, ← h.wellFormed.getD_impliedTop,
    ← h.topRoots_eq]
  exact v.getD_top _

theorem unhashed_of_verifiable {p : Participant} {party : Bytes}
    (hroots : v.RootsDiffer (v.relabelled leaf withheld))
    (hnotary : v.groups.groups.get? Role.notary.ordinal = some [party])
    (h : p.Verifiable (v.relabelled leaf withheld)) : v.Unhashed withheld := by
  have hshown : ∀ role ∈ Role.mandatory, withheld role.ordinal = false := by
    intro role hrole
    obtain ⟨components, hg⟩ := GroupMap.contains_iff.mp (h.mandatory role hrole)
    obtain ⟨-, -, -, hkept, -⟩ := exists_role_of_components_relabelled hg
    exact hkept
  refine ⟨?_, hshown, fun role hrole => components_eq_nil_of_verifiable hroots h
    (disclosed_of_mandatory role hrole) (hshown role hrole)⟩
  by_contra hkept
  have hdisclosed : Role.notary.visibility = .disclosed := rfl
  have hnil := components_eq_nil_of_verifiable hroots h hdisclosed (eq_false_of_ne_true hkept)
  rw [Grouping.components_eq_nil_iff, hnotary] at hnil
  cases hnil

/-- If another leaf digest changes every root that is recomputed from components, then it goes
unnoticed exactly where no root is recomputed from components. -/
theorem exists_verifyPartial_relabelled_iff {p : Participant} {body : Body} {salt : Salt}
    {v : FullView} {leaf : Digest} {withheld : UInt32 → Bool} (hbuild : p.build body salt = .ok v)
    (hroots : v.RootsDiffer (v.relabelled leaf withheld)) :
    (∃ w, p.verifyPartial (v.relabelled leaf withheld) = .ok w) ↔
      leaf ≠ v.digests.node ∧ v.Unhashed withheld ∧ (v.outputLeaves.length = 0 ∨
        v.outputLeaves.length = p.padding.outputs.size.toNat) := by
  obtain ⟨-, ⟨party, hnotary⟩, -⟩ := build_spec hbuild
  rw [Participant.exists_verifyPartial_iff]
  constructor
  · intro h
    exact ⟨h.separated, unhashed_of_verifiable hroots hnotary h, h.sizes.outputs⟩
  · rintro ⟨hleaf, hunhashed, houtputs⟩
    exact hunhashed.verifiable hnotary hleaf houtputs

/-! ### A notary that is shown or withheld -/

/-- With the notary shown, another leaf digest is noticed. -/
theorem relabelled_notary_shown : ∃ v, Participant.standard.build plainBody .sample = .ok v ∧
    v.RootsDiffer (v.relabelled .sha3 fun _ => false) ∧
    ¬ ∃ w, Participant.standard.verifyPartial (v.relabelled .sha3 fun _ => false) = .ok w := by
  obtain ⟨signers, hbuild⟩ := exists_build_plainBody .standard
  let v := assemble plainGroups .sample .standard signers
  have hroots : v.RootsDiffer (v.relabelled .sha3 fun _ => false) := by
    intro g components nonces hg hn hne
    obtain ⟨role, hrole, rfl, -, rfl⟩ := exists_role_of_components_relabelled hg
    have hempty : ∀ role ∈ Role.mandatory, plainGroups.components role = [] := by decide
    rcases mandatory_or_notary role hrole with hmandatory | rfl
    · exact absurd (hempty role hmandatory) hne
    · have hnonces : v.disclosure.nonces.get? Role.notary.ordinal = some nonces := hn
      rw [v.disclosure_nonces] at hnonces
      obtain rfl := Option.some.inj hnonces
      let tree := CommitmentTree.build plainGroups .sample .standard
      show DigestPair.merkleRoot ⟨.sha3, .sha256⟩ (DigestPair.leafHashes ⟨.sha3, .sha256⟩
        (tree.noncesOf Role.notary.ordinal) (plainGroups.components .notary))
          ≠ tree.rootOf Role.notary.ordinal
      decide +kernel
  refine ⟨v, hbuild, hroots, fun hverified => ?_⟩
  have hiff := exists_verifyPartial_relabelled_iff (p := Participant.standard) hbuild hroots
  obtain ⟨-, hunhashed, -⟩ := hiff.mp hverified
  cases hunhashed.notary

/-- With the notary withheld, it is not. -/
theorem exists_relabelled_verifyPartial : ∃ v w,
    Participant.standard.build plainBody .sample = .ok v ∧
    v.RootsDiffer (v.relabelled .sha3 (· == Role.notary.ordinal)) ∧
    Participant.standard.verifyPartial (v.relabelled .sha3 (· == Role.notary.ordinal)) = .ok w ∧
    w.id = v.id ∧ w.digests.leaf ≠ v.digests.leaf := by
  obtain ⟨signers, hbuild⟩ := exists_build_plainBody .standard
  let v := assemble plainGroups .sample .standard signers
  have hempty : ∀ role ∈ Role.mandatory, plainGroups.components role = [] := by decide
  have hunhashed : v.Unhashed (· == Role.notary.ordinal) := ⟨rfl, by decide, hempty⟩
  have hroots : v.RootsDiffer (v.relabelled .sha3 (· == Role.notary.ordinal)) := by
    intro g components nonces hg hn hne
    obtain ⟨role, hrole, rfl, hkept, rfl⟩ := exists_role_of_components_relabelled hg
    rcases mandatory_or_notary role hrole with hmandatory | rfl
    · exact absurd (hempty role hmandatory) hne
    · cases hkept
  have hverifiable : Participant.standard.Verifiable
      (v.relabelled .sha3 (· == Role.notary.ordinal)) :=
    hunhashed.verifiable rfl (show Digest.sha3 ≠ .sha256 by decide) (.inl rfl)
  obtain ⟨w, hw⟩ := Participant.exists_verifyPartial_iff.mpr hverifiable
  obtain ⟨hdisclosure, -⟩ := Participant.verifyPartial_eq_ok_iff.mp hw
  refine ⟨v, w, hbuild, hroots, hw, congrArg Disclosure.id hdisclosure, ?_⟩
  rw [PartialView.digests, hdisclosure]
  show Digest.sha3 ≠ .blake3
  decide

end FullView

end VeiledLedger
