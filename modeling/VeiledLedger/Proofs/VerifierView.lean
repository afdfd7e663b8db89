import VeiledLedger.Proofs.FullView
import VeiledLedger.Proofs.PartialView

set_option autoImplicit false

/-! # The two views of one transaction

The disclosure of a full view implies the root of every group of the view, so the view that a verifier
rebuilds from it has the same roots and the same list, and passes every check (`toPartial_spec`). What
the verifier is shown on the way is decided by the role of a group alone. -/

namespace VeiledLedger

theorem Visibility.ofOrdinal_eq_hidden_iff {g : UInt32} :
    ofOrdinal g = .hidden ↔ ∀ role : Role, role.ordinal = g → role.visibility = .hidden := by
  constructor
  · rintro h role rfl
    rwa [ofOrdinal_ordinal] at h
  · intro h
    unfold ofOrdinal
    cases hrole : Role.ofOrdinal? g with
    | none => rfl
    | some role => exact h role (Role.ordinal_eq_of_ofOrdinal? hrole)

namespace FullView

variable {v : FullView} {w : PartialView}

/-- A verifier has computed for a transaction what its author has computed. -/
structure AgreesWith (v : FullView) (w : PartialView) : Prop where
  rootOf_eq : ∀ g, (w.roots.get? g).getD Hash.sentinel = v.tree.rootOf g
  top_eq : w.top = v.tree.top
  root_eq : w.root = v.tree.root
  id_eq : w.id = v.id
  digests_eq : w.digests = v.digests
  outputLeaves_eq : w.outputLeaves = v.outputLeaves

/-- A disclosure has components and nonces of the disclosed roles and of no other group, and the roots
of those groups that are present and either hidden or without a role. -/
structure Shows (v : FullView) (d : Disclosure) : Prop where
  disclosed : ∀ role : Role, role.visibility = .disclosed →
    d.components.get? role.ordinal = some (v.groups.components role) ∧
      d.nonces.get? role.ordinal = some (v.tree.noncesOf role.ordinal)
  withheld : ∀ g, (∀ role : Role, role.ordinal = g → role.visibility ≠ .disclosed) →
    d.components.get? g = none ∧ d.nonces.get? g = none
  hidden : ∀ g root, d.hiddenRoots.get? g = some root ↔
    v.groups.groups.contains g = true ∧ root = v.tree.rootOf g ∧
      ∀ role : Role, role.ordinal = g → role.visibility = .hidden

/-! ## What is shown -/

theorem roots_get?_eq_some_iff (v : FullView) {g : UInt32} {root : Hash} :
    v.tree.roots.get? g = some root ↔
      v.groups.groups.contains g = true ∧ root = v.tree.rootOf g := by
  rw [CommitmentTree.rootOf, GroupMap.contains, v.roots_get?]
  cases v.groups.groups.get? g with
  | none => simp
  | some components => simp [eq_comm]

theorem shows_disclosure (v : FullView) : v.Shows v.disclosure := by
  refine ⟨fun role hrole => ⟨v.disclosure_components_role hrole, ?_⟩, fun g hg => ?_,
    fun g root => ?_⟩
  · rw [v.disclosure_nonces, Visibility.ofOrdinal_ordinal, if_pos hrole]
  · have hne : Visibility.ofOrdinal g ≠ .disclosed := by
      intro hdisclosed
      obtain ⟨role, hrole, hordinal⟩ := exists_disclosedRole_iff.mpr hdisclosed
      exact hg role hordinal (mem_disclosedRoles_iff.mp hrole)
    rw [v.disclosure_components, v.disclosure_nonces, if_neg hne, if_neg hne]
    exact ⟨rfl, rfl⟩
  · rw [v.disclosure_hiddenRoots, ← and_assoc, ← v.roots_get?_eq_some_iff,
      ← Visibility.ofOrdinal_eq_hidden_iff]
    split_ifs with h <;> simp [h]

/-! ## What is recomputed -/

theorem impliedTop_disclosure (h : v.disclosure.WellFormed) :
    v.disclosure.impliedTop = v.tree.top := by
  rw [h.impliedTop_eq_topLevel v.impliedRoot_disclosure fun g hg =>
    v.contains_disclosure_beyond hg, v.top_eq]

theorem sound_disclosure (h : v.disclosure.WellFormed) : v.disclosure.Sound := by
  have htop := impliedTop_disclosure h
  refine ⟨h, htop.symm, ?_⟩
  rw [htop]
  exact v.id_eq.symm

theorem agreesWith_of_disclosure_eq (h : w.disclosure = v.disclosure) : v.AgreesWith w := by
  have hwell : v.disclosure.WellFormed := h ▸ w.wellFormed
  have hsound := sound_disclosure hwell
  have htop : w.top = v.tree.top := by
    rw [w.top_eq_impliedTop, h, impliedTop_disclosure hwell]
  have hroot : w.root = v.id := by
    rw [w.root_eq_merkleRoot, h]
    exact hsound.root_eq
  refine ⟨fun g => ?_, htop, hroot, ?_, ?_, ?_⟩
  · rw [w.roots_eq, h, hwell.getD_groupRoots, v.impliedRoot_disclosure]
  · rw [PartialView.id, h]
    rfl
  · rw [PartialView.digests, h]
    rfl
  · rw [PartialView.outputLeaves, h]
    rfl

/-- A full view of which no group outgrows the numbering of nonces has a partial view. This has the
same roots, list, id, digests and output leaves, passes every check, and comes from a disclosure that
shows the disclosed roles and nothing of any other group but its root. -/
theorem toPartial_spec (hsmall : ∀ g components, v.groups.groups.get? g = some components →
    components.length < 2 ^ 32) :
    ∃ w, v.toPartial = .ok w ∧ v.AgreesWith w ∧ v.Shows w.disclosure ∧ w.verify = .ok () ∧
      w.verifyAgainst v.id = .ok () ∧ w.verifyForValidation = .ok () := by
  have hwell : v.disclosure.WellFormed := by
    refine wellFormed_disclosure_of_roles fun role _ => ?_
    unfold Grouping.components
    cases hgroup : v.groups.groups.get? role.ordinal with
    | none => exact Nat.two_pow_pos 32
    | some components => exact hsmall _ components hgroup
  obtain ⟨w, hw⟩ := PartialView.exists_of_wellFormed hwell
  have hagrees := agreesWith_of_disclosure_eq hw
  have hverify : w.verify = .ok () := by
    rw [PartialView.verify_eq_ok_iff_sound, hw]
    exact sound_disclosure hwell
  refine ⟨w, PartialView.reconstruct_eq_ok_iff.mpr hw, hagrees, hw ▸ v.shows_disclosure, hverify,
    ?_, ?_⟩
  · exact PartialView.verifyAgainst_eq_ok_iff.mpr ⟨hverify, hagrees.root_eq⟩
  · refine PartialView.verifyForValidation_eq_ok_iff.mpr ⟨hverify, fun role hrole => ?_⟩
    rw [hw]
    exact v.contains_of_mandatory hrole

/-- The group without a role reaches the verifier as its root, and its components do not. -/
theorem toPartial_unknownGroup : ∃ w, withUnknownGroup.toPartial = .ok w ∧
    w.verifyForValidation = .ok () ∧ w.top.length = 13 ∧
    w.disclosure.hiddenRoots.get? 12 = some (withUnknownGroup.tree.rootOf 12) ∧
    w.disclosure.components.get? 12 = none ∧ w.disclosure.nonces.get? 12 = none := by
  obtain ⟨w, hw, hagrees, hshows, -, -, hvalid⟩ :=
    toPartial_spec (v := withUnknownGroup) fun g components => length_withUnknownGroup
  have hnone (role : Role) : role.ordinal ≠ 12 := by
    cases role <;> decide
  have hhidden : w.disclosure.hiddenRoots.get? 12 = some (withUnknownGroup.tree.rootOf 12) :=
    (hshows.hidden 12 _).mpr ⟨by decide, rfl, fun role h => absurd h (hnone role)⟩
  refine ⟨w, hw, hvalid, ?_, hhidden, hshows.withheld 12 fun role h => absurd h (hnone role)⟩
  rw [hagrees.top_eq, top_eq, length_topLevel]
  rfl

end FullView

end VeiledLedger
