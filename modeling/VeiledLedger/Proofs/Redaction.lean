import VeiledLedger.Proofs.VerifierView
import VeiledLedger.Proofs.Withholding

set_option autoImplicit false

/-! # Redaction

A verified disclosure can be passed on with less in it: groups that were disclosed are sent as the
roots that were recomputed from them. Whoever receives it recomputes the same roots, some from
plaintext and some taken over, and so the same list and the same id. What a receiver can validate
shrinks by the mandatory groups that are withheld, and by nothing else. -/

namespace VeiledLedger

namespace Disclosure

variable {d : Disclosure} {withheld : UInt32 → Bool} {root : UInt32 → Hash}

/-- The roots that were recomputed before some groups are withheld are found again afterwards, if what
is sent for a group is what was recomputed from it. -/
theorem WellFormed.groupRoots_withhold (h : d.WellFormed)
    (hroot : ∀ g, d.components.contains g = true → d.groupRoots.get? g = some (root g)) :
    (d.withhold withheld root).groupRoots = d.groupRoots := by
  refine GroupMap.ext_get? fun g => ?_
  by_cases houtputs : g = Role.outputs.ordinal
  · simp only [get?_groupRoots, houtputs, if_true]
    rfl
  cases hg : withheld g with
  | false =>
    obtain ⟨hcomponents, hnonces, hhidden⟩ := get?_withhold_of_kept d root hg
    simp only [get?_groupRoots, leavesOf, hcomponents, hnonces, hhidden]
    rfl
  | true =>
    obtain ⟨hcomponents, -, hhidden⟩ := get?_withhold_of_withheld d root hg
    cases hdisclosed : d.components.get? g with
    | none => simp [get?_groupRoots, houtputs, hcomponents, hhidden, hdisclosed]
    | some components =>
      have hcontains : d.components.contains g = true := GroupMap.contains_iff.mpr ⟨_, hdisclosed⟩
      have hplain := GroupMap.contains_eq_false_iff.mp (h.not_hidden g hcontains)
      rw [hroot g hcontains]
      simp [get?_groupRoots, houtputs, hcomponents, hhidden, hdisclosed]

end Disclosure

namespace PartialView

variable {v : PartialView} {d : Disclosure} {withheld : UInt32 → Bool}

/-- The disclosure of a view with some of its groups withheld, each of them sent as the root that was
recomputed from it. -/
def redacted (v : PartialView) (withheld : UInt32 → Bool) : Disclosure :=
  v.disclosure.withhold withheld fun g => (v.roots.get? g).getD Hash.sentinel

theorem roots_redacted {w : PartialView} (hw : w.disclosure = v.redacted withheld) :
    w.roots = v.roots := by
  rw [w.roots_eq, hw, v.roots_eq]
  refine v.wellFormed.groupRoots_withhold fun g hg => ?_
  have hpresent : v.disclosure.groupRoots.contains g = true := by
    rw [Disclosure.contains_groupRoots_iff, List.mem_append, GroupMap.mem_keys_iff]
    exact .inr (.inl hg)
  obtain ⟨r, hr⟩ := GroupMap.contains_iff.mp hpresent
  rw [v.roots_eq, hr]
  rfl

/-- A verified disclosure stays verified when groups are withheld, with the same roots, list and id.
It is fit for validation exactly if all mandatory groups are still disclosed, and otherwise the
first of them that is not is named. -/
theorem verify_redacted (hd : reconstruct d = .ok v) (hverify : v.verify = .ok ())
    (withheld : UInt32 → Bool) :
    ∃ w, reconstruct (v.redacted withheld) = .ok w ∧
      w.roots = v.roots ∧ w.top = v.top ∧ w.root = v.root ∧ w.verify = .ok () ∧
      (w.verifyForValidation = .ok () ↔ ∀ role ∈ Role.mandatory,
        d.components.contains role.ordinal = true ∧ withheld role.ordinal = false) ∧
      ∀ before role after, Role.mandatory = before ++ role :: after →
        (∀ r ∈ before, d.components.contains r.ordinal = true ∧ withheld r.ordinal = false) →
        ¬ (d.components.contains role.ordinal = true ∧ withheld role.ordinal = false) →
        w.verifyForValidation = .error (.undisclosedGroup role) := by
  obtain rfl := reconstruct_eq_ok_iff.mp hd
  obtain ⟨w, hw⟩ : ∃ w : PartialView, w.disclosure = v.redacted withheld :=
    exists_of_wellFormed (v.wellFormed.withhold withheld _)
  have hroots : w.roots = v.roots := roots_redacted hw
  have htop : w.top = v.top := by
    rw [w.top_eq, v.top_eq, hroots]
  have hroot : w.root = v.root := by
    rw [w.root_eq, v.root_eq, htop, hw]
    rfl
  have hverified : w.verify = .ok () := by
    rw [verify_eq_ok_iff] at hverify ⊢
    rw [htop, hroot, hw]
    exact hverify
  have hshown (role : Role) : w.disclosure.components.contains role.ordinal = true ↔
      v.disclosure.components.contains role.ordinal = true ∧ withheld role.ordinal = false := by
    rw [hw, redacted, Disclosure.contains_components_withhold]
    simp [and_comm]
  refine ⟨w, reconstruct_eq_ok_iff.mpr hw, hroots, htop, hroot, hverified, ?_, ?_⟩
  · rw [verifyForValidation_eq_ok_iff, and_iff_right hverified]
    simp only [hshown]
  · intro before role after hmandatory hbefore hrole
    refine verifyForValidation_eq_error hverified hmandatory (fun r hr => ?_) ?_
    · exact (hshown r).mpr (hbefore r hr)
    · rwa [← Bool.not_eq_true, hshown]

/-- The disclosure of a transaction without its notary and its references: it is verified, and what
is missed in it are the references. -/
theorem verify_redacted_withUnknownGroup : ∃ v w,
    reconstruct FullView.withUnknownGroup.disclosure = .ok v ∧ v.verify = .ok () ∧
    reconstruct (v.redacted fun g => g = Role.notary.ordinal || g = Role.references.ordinal)
      = .ok w ∧ w.root = FullView.withUnknownGroup.id ∧ w.verify = .ok () ∧
    w.verifyForValidation = .error (.undisclosedGroup .references) := by
  have hwell : FullView.withUnknownGroup.disclosure.WellFormed :=
    FullView.wellFormed_disclosure_of_roles fun role _ => by cases role <;> decide
  obtain ⟨v, hv⟩ := exists_of_wellFormed hwell
  have hsound : v.disclosure.Sound := hv ▸ FullView.sound_disclosure hwell
  have hverify := verify_eq_ok_iff_sound.mpr hsound
  have hd := reconstruct_eq_ok_iff.mpr hv
  obtain ⟨w, hw, -, -, hroot, hverified, -, hmissed⟩ := verify_redacted hd hverify
    fun g => g = Role.notary.ordinal || g = Role.references.ordinal
  have hshown (role : Role) (h : role ∈ Role.mandatory) :
      FullView.withUnknownGroup.disclosure.components.contains role.ordinal = true :=
    FullView.withUnknownGroup.contains_of_mandatory h
  refine ⟨v, w, hd, hverify, hw, ?_, hverified, ?_⟩
  · exact hroot.trans (FullView.agreesWith_of_disclosure_eq hv).root_eq
  · refine hmissed [.inputs, .timeWindow] .references [.parameters] rfl ?_ (by decide)
    intro r hr
    have hkept : r ∈ Role.mandatory ∧ (r.ordinal = Role.notary.ordinal
        || r.ordinal = Role.references.ordinal : Bool) = false := by
      revert r
      decide
    exact ⟨hshown r hkept.1, hkept.2⟩

end PartialView

end VeiledLedger
