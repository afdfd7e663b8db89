import VeiledLedger.Proofs.HashCalls
import VeiledLedger.Proofs.Settlement

set_option autoImplicit false

/-! # Claims about the outputs of a transaction

What is answered to a claim depends on the transaction alone, and not on where it is looked up or on
whether it is found in full or as a verifier sees it: both have the id, the digests and the output
leaves that a claim is compared with. The claims that a view gives are those about its outputs. They
are accepted, and another claim is accepted for the same output only where the two leaves that are
claimed collide (`verify_spec`). -/

namespace VeiledLedger

/-! ## The claims that a view gives -/

namespace FullView

variable {v : FullView} {i : UInt32}

theorem length_components_lt
    (hsmall : ∀ g components, v.groups.groups.get? g = some components →
      components.length < 2 ^ 32) (role : Role) :
    (v.groups.components role).length < 2 ^ 32 := by
  unfold Grouping.components
  cases hg : v.groups.groups.get? role.ordinal with
  | none => exact Nat.two_pow_pos 32
  | some components => exact hsmall _ components hg

/-- Every output has a nonce, unless outputs outgrow the numbering of nonces. -/
theorem length_noncesOf_outputs (h : (v.groups.components .outputs).length < 2 ^ 32) :
    (v.tree.noncesOf Role.outputs.ordinal).length = (v.groups.components .outputs).length := by
  unfold Grouping.components at *
  cases hg : v.groups.groups.get? Role.outputs.ordinal with
  | none => rw [v.noncesOf_of_absent hg]; rfl
  | some components =>
    rw [hg] at h
    rw [length_noncesOf hg]
    exact Nat.mod_eq_of_lt h

/-- There is a claim about every output, fillers included, and about nothing else. -/
theorem exists_stateClaim_iff (h : (v.groups.components .outputs).length < 2 ^ 32) :
    (∃ claim, v.stateClaim i = .ok claim) ↔ i.toNat < (v.groups.components .outputs).length := by
  constructor
  · rintro ⟨claim, hclaim⟩
    rw [← length_outputLeaves h]
    exact (List.getElem?_eq_some_iff.mp (outputLeaf_of_stateClaim hclaim)).1
  · intro hi
    have hnonce : i.toNat < (v.tree.noncesOf Role.outputs.ordinal).length := by
      rwa [length_noncesOf_outputs h]
    refine ⟨⟨⟨v.id, i⟩, (v.groups.components .outputs)[i.toNat],
      (v.tree.noncesOf Role.outputs.ordinal)[i.toNat]⟩, stateClaim_eq_ok_iff.mpr ⟨rfl, ?_, ?_⟩⟩
    · exact List.getElem?_eq_getElem hi
    · exact List.getElem?_eq_getElem hnonce

end FullView

/-! ## What is answered to a claim -/

namespace StateClaim

variable {σ : Type} {resolve : Resolver σ} {s : σ} {v : FullView} {t : KnownTransaction}
  {c claim : StateClaim} {i : UInt32}

/-- The answer to a claim about the output at an index of a view. -/
structure Answered (c : StateClaim) (v : FullView) (i : UInt32) (answer : Except Error Unit) :
    Prop where
  accepted_iff : answer = .ok () ↔ i.toNat < (v.groups.components .outputs).length ∧
    v.outputLeaves[i.toNat]? = some (c.leafHash v.digests)
  notFound : (v.groups.components .outputs).length ≤ i.toNat →
    answer = .error (.outputNotFound v.id i)
  mismatch : i.toNat < (v.groups.components .outputs).length →
    v.outputLeaves[i.toNat]? ≠ some (c.leafHash v.digests) →
    ∃ leaf, v.outputLeaves[i.toNat]? = some leaf ∧
      answer = .error (.hashMismatch (.outputLeaf i) leaf (c.leafHash v.digests))

/-- A claim is compared with what both views of a transaction have in common. -/
theorem verifyAgainst_of_knownAs (hknown : v.KnownAs t) :
    c.verifyAgainst t = c.verifyAgainst (.full v) := by
  obtain ⟨hid, hdigests, hleaves⟩ := hknown.agrees
  unfold verifyAgainst
  rw [hid, hdigests, hleaves]
  rfl

theorem run_verify_of_knownAs (hfound : ((resolve v.id).run s).1 = .ok (some t))
    (hknown : v.KnownAs t) (href : c.stateRef = ⟨v.id, i⟩) :
    ((c.verify resolve).run.run s).1 = c.verifyAgainst (.full v) := by
  rw [run_verify, href, hfound]
  exact verifyAgainst_of_knownAs hknown

theorem verifyAgainst_full (href : c.stateRef = ⟨v.id, i⟩) : c.verifyAgainst (.full v) =
    match v.outputLeaves[i.toNat]? with
    | none => .error (.outputNotFound v.id i)
    | some leaf =>
      if c.leafHash v.digests = leaf then .ok ()
      else .error (.hashMismatch (.outputLeaf i) leaf (c.leafHash v.digests)) := by
  rw [verifyAgainst, href]
  exact if_neg (not_not.mpr rfl)

theorem answered_verifyAgainst (hsmall : (v.groups.components .outputs).length < 2 ^ 32)
    (href : c.stateRef = ⟨v.id, i⟩) : c.Answered v i (c.verifyAgainst (.full v)) := by
  have hlen := FullView.length_outputLeaves hsmall
  rw [verifyAgainst_full href]
  cases hleaf : v.outputLeaves[i.toNat]? with
  | none =>
    have hbeyond : v.outputLeaves.length ≤ i.toNat := List.getElem?_eq_none_iff.mp hleaf
    refine ⟨?_, fun _ => rfl, fun hi => absurd hi (by omega)⟩
    simp [hleaf]
  | some leaf =>
    have hi : i.toNat < v.outputLeaves.length := (List.getElem?_eq_some_iff.mp hleaf).1
    refine ⟨?_, fun hbeyond => absurd hi (by omega), fun _ hne => ⟨leaf, hleaf, ?_⟩⟩
    · rw [hleaf, Option.some.injEq, eq_comm (a := leaf)]
      by_cases hclaimed : c.leafHash v.digests = leaf
      · simp [hclaimed, ← hlen, hi]
      · simp [hclaimed]
    · have hdiffers : ¬ c.leafHash v.digests = leaf := by
        rintro rfl
        exact hne hleaf
      exact if_neg hdiffers

/-- The leaves of two claims are hashed from different inputs to one hash. -/
def Collides (c claim : StateClaim) (digests : DigestPair) : Prop :=
  digests.leafCall c.nonce c.content ≠ digests.leafCall claim.nonce claim.content ∧
    (digests.leafCall c.nonce c.content).result
      = (digests.leafCall claim.nonce claim.content).result

/-- Claims about one output that are hashed to its leaf are the same, or their leaves collide. -/
theorem eq_or_collides (href : c.stateRef = claim.stateRef) {digests : DigestPair}
    (h : c.leafHash digests = claim.leafHash digests) :
    c = claim ∨ c.Collides claim digests := by
  by_cases hcall : digests.leafCall c.nonce c.content = digests.leafCall claim.nonce claim.content
  · obtain ⟨-, hnonce, hcontent⟩ := DigestPair.leafCall_inj hcall
    cases c
    cases claim
    simp_all
  · exact .inr ⟨hcall, h⟩

/-- A claim about an output of a transaction is answered in the same way wherever the transaction is
found, in full or as its partial view: accepted exactly if the output exists and has the claimed
leaf. There is a claim of the transaction itself about each of its outputs, it is accepted, and no
other claim about the output is, unless the leaves of the two collide. -/
theorem verify_spec
    (hsmall : ∀ g components, v.groups.groups.get? g = some components →
      components.length < 2 ^ 32)
    (hfound : ((resolve v.id).run s).1 = .ok (some t)) (hknown : v.KnownAs t) (i : UInt32) :
    (∃ w, v.toPartial = .ok w) ∧
    (∀ c : StateClaim, c.stateRef = ⟨v.id, i⟩ →
      c.Answered v i ((c.verify resolve).run.run s).1 ∧
      ∀ (τ : Type) (other : Resolver τ) (s' : τ) (t' : KnownTransaction),
        ((other v.id).run s').1 = .ok (some t') → v.KnownAs t' →
        ((c.verify other).run.run s').1 = ((c.verify resolve).run.run s).1) ∧
    ((∃ claim, v.stateClaim i = .ok claim) ↔
      i.toNat < (v.groups.components .outputs).length) ∧
    ∀ claim, v.stateClaim i = .ok claim →
      ((claim.verify resolve).run.run s).1 = .ok () ∧
      ∀ c : StateClaim, c.stateRef = ⟨v.id, i⟩ → ((c.verify resolve).run.run s).1 = .ok () →
        c = claim ∨ c.Collides claim v.digests := by
  have houtputs := FullView.length_components_lt hsmall .outputs
  have hanswer {c : StateClaim} (href : c.stateRef = ⟨v.id, i⟩) :
      c.Answered v i ((c.verify resolve).run.run s).1 := by
    rw [run_verify_of_knownAs hfound hknown href]
    exact answered_verifyAgainst houtputs href
  obtain ⟨w, hw, -⟩ := FullView.toPartial_spec hsmall
  refine ⟨⟨w, hw⟩, fun c href => ⟨hanswer href, ?_⟩, FullView.exists_stateClaim_iff houtputs,
    fun claim hclaim => ?_⟩
  · intro τ other s' t' hfound' hknown'
    rw [run_verify_of_knownAs hfound hknown href, run_verify_of_knownAs hfound' hknown' href]
  · have href := (FullView.stateClaim_eq_ok_iff.mp hclaim).1
    have hleaf := FullView.outputLeaf_of_stateClaim hclaim
    have hi := (FullView.exists_stateClaim_iff houtputs).mp ⟨claim, hclaim⟩
    refine ⟨(hanswer href).accepted_iff.mpr ⟨hi, hleaf⟩, fun c hc hok => ?_⟩
    have hsame := (((hanswer hc).accepted_iff.mp hok).2).symm.trans hleaf
    exact eq_or_collides (hc.trans href.symm) (Option.some.inj hsame)

/-- The partial view of a transaction is found; its second output is claimed, and a third one. -/
theorem verify_unknownGroup :
    ∃ w claim, FullView.withUnknownGroup.toPartial = .ok w ∧
      FullView.withUnknownGroup.stateClaim 1 = .ok claim ∧
      let archive := (Archive.empty 1).insert (.part w)
      ((claim.verify Archive.resolver).run.run archive).1 = .ok () ∧
      let third : StateClaim := ⟨⟨FullView.withUnknownGroup.id, 2⟩, claim.content, claim.nonce⟩
      ((third.verify Archive.resolver).run.run archive).1
        = .error (.outputNotFound FullView.withUnknownGroup.id 2) := by
  let v := FullView.withUnknownGroup
  have hsmall : ∀ g components, v.groups.groups.get? g = some components →
      components.length < 2 ^ 32 := fun g components => FullView.length_withUnknownGroup
  obtain ⟨w, hw, hagrees, -⟩ := FullView.toPartial_spec hsmall
  have hfound : ((Archive.resolver v.id).run ((Archive.empty 1).insert (.part w))).1
      = .ok (some (.part w)) := by
    rw [Archive.run_resolver_fst, ← hagrees.id_eq]
    exact congrArg Except.ok (Archive.peek?_insert_self (.empty 1) (.part w))
  obtain ⟨-, -, hclaims, haccepted⟩ := verify_spec hsmall hfound (.part hw) 1
  obtain ⟨-, hanswer, -⟩ := verify_spec hsmall hfound (.part hw) 2
  obtain ⟨claim, hclaim⟩ := hclaims.mpr (by decide)
  exact ⟨w, claim, hw, hclaim, (haccepted claim hclaim).1,
    (hanswer ⟨⟨v.id, 2⟩, claim.content, claim.nonce⟩ rfl).1.notFound (by decide)⟩

end StateClaim

end VeiledLedger
