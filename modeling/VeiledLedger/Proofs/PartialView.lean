import VeiledLedger.PartialView
import VeiledLedger.Proofs.Disclosure

set_option autoImplicit false

/-! # When the checks on a partial view pass

Each check passes exactly if a condition on the disclosure and on the recomputed roots holds. -/

namespace VeiledLedger

/-- A computation of two parts succeeds exactly if both parts do. -/
theorem bind_eq_ok_iff {ε α β : Type} {x : Except ε α} {f : α → Except ε β} {b : β} :
    (x >>= f) = .ok b ↔ ∃ a, x = .ok a ∧ f a = .ok b := by
  cases x with
  | error e => simp [bind, Except.bind]
  | ok a => simp [bind, Except.bind]

theorem bind_unit_eq_ok_iff {ε β : Type} {x : Except ε Unit} {f : Unit → Except ε β} {b : β} :
    (x >>= f) = .ok b ↔ x = .ok () ∧ f () = .ok b := by
  rw [bind_eq_ok_iff]
  constructor
  · rintro ⟨⟨⟩, hx, hf⟩
    exact ⟨hx, hf⟩
  · rintro ⟨hx, hf⟩
    exact ⟨(), hx, hf⟩

theorem firstMismatch_eq_none_iff {i : Nat} {as bs : List Hash} (hlen : as.length = bs.length) :
    firstMismatch i as bs = none ↔ as = bs := by
  induction as generalizing i bs with
  | nil =>
    obtain rfl : bs = [] := List.eq_nil_of_length_eq_zero hlen.symm
    simp [firstMismatch]
  | cons a as ih =>
    obtain ⟨b, bs, rfl⟩ := List.exists_cons_of_length_eq_add_one hlen.symm
    rw [firstMismatch]
    split_ifs with hab
    · rw [ih (by simpa using hlen), hab, List.cons.injEq, and_iff_right rfl]
    · simp [hab]

namespace Disclosure

/-- The number of components of a role, none if it is not disclosed. -/
def count (d : Disclosure) (role : Role) : Nat := ((d.components.get? role.ordinal).getD []).length

/-- Inputs, outputs and references are empty or have their padded size. -/
structure SizesFit (d : Disclosure) (padding : Padding) : Prop where
  inputs : d.count .inputs = 0 ∨ d.count .inputs = padding.inputs.size.toNat
  outputs : d.outputLeaves.length = 0 ∨ d.outputLeaves.length = padding.outputs.size.toNat
  references : d.count .references = 0 ∨ d.count .references = padding.references.size.toNat

/-- The parts of a disclosure fit together, and the roots that they imply are those of its list and
lead to its id. -/
structure Sound (d : Disclosure) : Prop where
  wellFormed : d.WellFormed
  topRoots_eq : d.topRoots = d.impliedTop
  root_eq : d.digests.merkleRoot d.impliedTop = d.id

end Disclosure

namespace PartialView

variable {v : PartialView}

/-- A view is the one reconstructed from its disclosure, and from no other. -/
theorem reconstruct_eq_ok_iff {d : Disclosure} : reconstruct d = .ok v ↔ v.disclosure = d := by
  unfold reconstruct
  constructor
  · intro h
    split at h
    · simp at h
    · obtain rfl := Except.ok.inj h
      rfl
  · rintro rfl
    obtain ⟨d, roots, top, root, hfault, rfl, rfl, rfl⟩ := v
    split
    · next fault hsome =>
      rw [hfault] at hsome
      simp at hsome
    · rfl

theorem wellFormed (v : PartialView) : v.disclosure.WellFormed :=
  Disclosure.fault?_eq_none_iff.mp v.fault_eq

theorem top_eq_impliedTop (v : PartialView) : v.top = v.disclosure.impliedTop := by
  rw [v.top_eq, v.roots_eq, v.wellFormed.topLevel_groupRoots]

theorem root_eq_merkleRoot (v : PartialView) :
    v.root = v.disclosure.digests.merkleRoot v.disclosure.impliedTop := by
  rw [v.root_eq, v.top_eq_impliedTop]

/-- Every well-formed disclosure has a view. -/
theorem exists_of_wellFormed {d : Disclosure} (h : d.WellFormed) :
    ∃ v : PartialView, v.disclosure = d :=
  ⟨⟨d, d.groupRoots, topLevel d.groupRoots, d.digests.merkleRoot (topLevel d.groupRoots),
    Disclosure.fault?_eq_none_iff.mpr h, rfl, rfl, rfl⟩, rfl⟩

/-- The slot of every ordinal holds what the disclosure implies for it. -/
theorem getD_top (v : PartialView) (g : UInt32) :
    v.top.getD g.toNat Hash.sentinel = v.disclosure.impliedRoot g := by
  rw [v.top_eq_impliedTop, v.wellFormed.getD_impliedTop]

theorem getElem?_top_role (v : PartialView) (role : Role) :
    v.top[role.ordinal.toNat]? = some (v.disclosure.impliedRoot role.ordinal) := by
  rw [v.top_eq, getElem?_topLevel_role, v.roots_eq, v.wellFormed.getD_groupRoots]

theorem roleCount_le_length_top (v : PartialView) : Role.count ≤ v.top.length := by
  rw [v.top_eq, length_topLevel]
  exact roleCount_le_topSpan _

theorem verify_eq_ok_iff :
    v.verify = .ok () ↔ v.disclosure.topRoots = v.top ∧ v.root = v.disclosure.id := by
  unfold verify
  by_cases hlen : v.disclosure.topRoots.length = v.top.length
  · simp only [hlen, ne_eq, not_true_eq_false, if_false]
    rw [← firstMismatch_eq_none_iff (i := 0) hlen]
    cases firstMismatch 0 v.disclosure.topRoots v.top with
    | none => by_cases hid : v.root = v.disclosure.id <;> simp [PartialView.id, hid]
    | some mismatch => simp
  · simp only [ne_eq, hlen, not_false_eq_true, if_true, reduceCtorEq, false_iff, not_and]
    intro h
    exact absurd (congrArg List.length h) hlen

theorem verify_eq_ok_iff_sound : v.verify = .ok () ↔ v.disclosure.Sound := by
  rw [verify_eq_ok_iff, v.top_eq_impliedTop, v.root_eq_merkleRoot]
  exact ⟨fun ⟨htop, hroot⟩ => ⟨v.wellFormed, htop, hroot⟩, fun h => ⟨h.topRoots_eq, h.root_eq⟩⟩

theorem verifyAgainst_eq_ok_iff {expected : Hash} :
    v.verifyAgainst expected = .ok () ↔ v.verify = .ok () ∧ v.root = expected := by
  unfold verifyAgainst
  rw [bind_unit_eq_ok_iff]
  by_cases h : v.root = expected <;> simp [h]

/-- A disclosure leads to an id that is expected of it exactly if its parts fit together, and the
roots that they imply are those of its list and lead to its own id, which is the expected one. -/
theorem reconstruct_verifyAgainst_eq_ok_iff {d : Disclosure} {expected : Hash} :
    (reconstruct d >>= fun w => w.verifyAgainst expected) = .ok () ↔
      d.WellFormed ∧ d.topRoots = d.impliedTop ∧ d.digests.merkleRoot d.impliedTop = d.id ∧
        d.id = expected := by
  simp only [bind_eq_ok_iff, reconstruct_eq_ok_iff, verifyAgainst_eq_ok_iff, verify_eq_ok_iff]
  constructor
  · rintro ⟨w, rfl, ⟨htop, hroot⟩, hexpected⟩
    rw [w.top_eq_impliedTop] at htop
    rw [← w.root_eq_merkleRoot]
    exact ⟨w.wellFormed, htop, hroot, hroot.symm.trans hexpected⟩
  · rintro ⟨hd, htop, hroot, hexpected⟩
    obtain ⟨w, rfl⟩ := exists_of_wellFormed hd
    rw [← w.root_eq_merkleRoot] at hroot
    exact ⟨w, rfl, ⟨htop.trans w.top_eq_impliedTop.symm, hroot⟩, hroot.trans hexpected⟩

theorem verifyForValidation_eq_ok_iff :
    v.verifyForValidation = .ok () ↔ v.verify = .ok () ∧
      ∀ role ∈ Role.mandatory, v.disclosure.components.contains role.ordinal = true := by
  have hfind : (Role.mandatory.find? fun role => !v.isDisclosed role) = none ↔
      ∀ role ∈ Role.mandatory, v.disclosure.components.contains role.ordinal = true := by
    rw [List.find?_eq_none]
    simp [isDisclosed]
  unfold verifyForValidation
  rw [bind_unit_eq_ok_iff, ← hfind]
  cases Role.mandatory.find? fun role => !v.isDisclosed role <;> simp

/-- The first mandatory group that is not disclosed is the error. -/
theorem verifyForValidation_eq_error {before after : List Role} {role : Role}
    (hverify : v.verify = .ok ()) (hmandatory : Role.mandatory = before ++ role :: after)
    (hbefore : ∀ r ∈ before, v.disclosure.components.contains r.ordinal = true)
    (hrole : v.disclosure.components.contains role.ordinal = false) :
    v.verifyForValidation = .error (.undisclosedGroup role) := by
  have hfind : (Role.mandatory.find? fun role => !v.isDisclosed role) = some role := by
    rw [hmandatory, List.find?_append, List.find?_cons_of_pos (by simp [isDisclosed, hrole]),
      List.find?_eq_none.mpr (by simpa [isDisclosed] using hbefore), Option.none_or]
  rw [verifyForValidation, hverify]
  simp only [bind, Except.bind, hfind]

theorem sizeFault?_eq_none_iff {padding : Padding} (role : Role) {target count : Nat}
    (htarget : padding.target? role = some target) :
    sizeFault? padding role count = none ↔ count = 0 ∨ count = target := by
  unfold sizeFault?
  rw [htarget]
  by_cases h : count = 0 <;> simp [h]

theorem verifySizes_eq_ok_iff {padding : Padding} :
    v.verifySizes padding = .ok () ↔
      v.disclosure.digests.Separated ∧ v.disclosure.SizesFit padding := by
  unfold verifySizes
  by_cases hsep : v.disclosure.digests.Separated
  · have hfind : ([(Role.inputs, v.disclosedCount .inputs), (.outputs, v.outputLeaves.length),
        (.references, v.disclosedCount .references)].findSome? fun e =>
          sizeFault? padding e.1 e.2) = none ↔ v.disclosure.SizesFit padding := by
      simp only [List.findSome?_eq_none_iff, List.mem_cons, List.not_mem_nil, or_false,
        forall_eq_or_imp, forall_eq, sizeFault?_eq_none_iff .inputs rfl,
        sizeFault?_eq_none_iff .outputs rfl, sizeFault?_eq_none_iff .references rfl]
      exact ⟨fun ⟨hi, ho, hr⟩ => ⟨hi, ho, hr⟩, fun h => ⟨h.inputs, h.outputs, h.references⟩⟩
    rw [← hfind]
    simp only [digests, hsep, not_true_eq_false, if_false, true_and]
    split <;> simp_all
  · simp [digests, hsep]

end PartialView

end VeiledLedger
