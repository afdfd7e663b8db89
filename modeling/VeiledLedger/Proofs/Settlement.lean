import Mathlib.Data.List.Basic
import VeiledLedger.Proofs.BodyContents
import VeiledLedger.Proofs.Participant
import VeiledLedger.Proofs.VerifierView

set_option autoImplicit false

/-! # Honest transactions are accepted

What an author builds, discloses and backs with the claims of earlier authors is accepted by every
participant of the same policy (`accept_disclose`). The sizes are those that padding gave
(`FullView.BuiltFrom`), the roots those that the author computed (`FullView.AgreesWith`), and each
component that is no filler is the binary form of a state of the body, for which the claim that is
found is an honest one. Look-ups have to be steady for the states of the body only: claims that nobody
asks for are not followed up. -/

namespace VeiledLedger

/-! ## What an author claims and discloses -/

/-- A transaction as its author sees it is known: in full, or as a verifier sees it. -/
inductive FullView.KnownAs (v : FullView) : KnownTransaction → Prop where
  | full : KnownAs v (.full v)
  | part {w : PartialView} (h : v.toPartial = .ok w) : KnownAs v (.part w)

namespace FullView

variable {v : FullView} {t : KnownTransaction}

theorem KnownAs.agrees (h : v.KnownAs t) :
    t.id = v.id ∧ t.digests = v.digests ∧ t.outputLeaves = v.outputLeaves := by
  cases h with
  | full => exact ⟨rfl, rfl, rfl⟩
  | part h =>
    have hagrees := agreesWith_of_disclosure_eq (PartialView.reconstruct_eq_ok_iff.mp h)
    exact ⟨hagrees.id_eq, hagrees.digests_eq, hagrees.outputLeaves_eq⟩

/-- The claim that a view gives has the component and the nonce at the position it names. -/
theorem stateClaim_eq_ok_iff {i : UInt32} {c : StateClaim} : v.stateClaim i = .ok c ↔
    c.stateRef = ⟨v.id, i⟩ ∧ (v.groups.components .outputs)[i.toNat]? = some c.content ∧
      (v.tree.noncesOf Role.outputs.ordinal)[i.toNat]? = some c.nonce := by
  obtain ⟨ref, content, nonce⟩ := c
  unfold stateClaim stateClaim?
  cases hcontent : (v.groups.components .outputs)[i.toNat]? with
  | none => simp
  | some given =>
    cases hnonce : (v.tree.noncesOf Role.outputs.ordinal)[i.toNat]? with
    | none => simp
    | some derived => simp [eq_comm]

/-- The claim that a view gives about an output is hashed to the leaf of that output. -/
theorem outputLeaf_of_stateClaim {i : UInt32} {c : StateClaim} (h : v.stateClaim i = .ok c) :
    v.outputLeaves[i.toNat]? = some (c.leafHash v.digests) := by
  obtain ⟨-, hcontent, hnonce⟩ := stateClaim_eq_ok_iff.mp h
  cases hg : v.groups.groups.get? Role.outputs.ordinal with
  | none =>
    rw [v.noncesOf_of_absent hg] at hnonce
    cases hnonce
  | some components =>
    have hcomponents : v.groups.components .outputs = components := by
      rw [Grouping.components, hg]
      rfl
    rw [hcomponents] at hcontent
    rw [outputLeaves, leavesOf_eq hg, DigestPair.leafHashes, List.getElem?_zipWith, hnonce,
      hcontent]
    rfl

/-- Outputs have a leaf each, unless they outgrow the numbering of nonces. -/
theorem length_outputLeaves (h : (v.groups.components .outputs).length < 2 ^ 32) :
    v.outputLeaves.length = (v.groups.components .outputs).length := by
  unfold outputLeaves Grouping.components at *
  cases hg : v.groups.groups.get? Role.outputs.ordinal with
  | none => rw [v.leavesOf_of_absent hg]; rfl
  | some components =>
    rw [hg] at h
    rw [length_leavesOf hg]
    exact Nat.mod_eq_of_lt h

namespace BuiltFrom

variable {body : Body} {padding : Padding}

/-- Positions suffice for whatever a verifier gets to see, if they suffice for the target sizes. -/
theorem length_lt (h : v.BuiltFrom body padding)
    (htargets : ∀ role target, padding.target? role = some target → target < 2 ^ 32) {role : Role}
    (hrole : role.visibility ≠ .hidden) : (v.groups.components role).length < 2 ^ 32 := by
  have hpadded {role : Role} {target : Nat} (hpaddable : role.isPaddable = true)
      (htarget : padding.target? role = some target) :
      (v.groups.components role).length < 2 ^ 32 := by
    have hlt := htargets role target htarget
    rcases h.padded role target hpaddable htarget with hzero | hfull
    · omega
    · omega
  cases role with
  | inputs => exact hpadded rfl rfl
  | outputs => exact hpadded rfl rfl
  | references => exact hpadded rfl rfl
  | notary | timeWindow | parameters =>
    exact Nat.lt_of_le_of_lt (h.single _ rfl rfl) (by decide)
  | commands | attachments | signers => exact absurd rfl hrole

theorem sizesFit (h : v.BuiltFrom body padding)
    (htargets : ∀ role target, padding.target? role = some target → target < 2 ^ 32) :
    v.disclosure.SizesFit padding := by
  have hcount {role : Role} (hdisclosed : role.visibility = .disclosed) :
      v.disclosure.count role = (v.groups.components role).length := by
    rw [Disclosure.count, v.disclosure_components_role hdisclosed]
    rfl
  have houtputs : v.disclosure.outputLeaves.length = (v.groups.components .outputs).length :=
    length_outputLeaves (h.length_lt htargets (by decide))
  refine ⟨?_, ?_, ?_⟩
  · rw [hcount rfl]
    exact h.padded .inputs _ rfl rfl
  · rw [houtputs]
    exact h.padded .outputs _ rfl rfl
  · rw [hcount rfl]
    exact h.padded .references _ rfl rfl

end BuiltFrom

end FullView

/-- For every state that is needed there is a claim, and the claims about these states are the claims
of transactions that look-ups find. Other claims do not matter. -/
structure HonestClaims (answers : Hash → Option KnownTransaction) (needed : List StateRef)
    (claims : List StateClaim) : Prop where
  complete : ∀ r ∈ needed, ∃ c ∈ claims, c.stateRef = r
  honest : ∀ c ∈ claims, c.stateRef ∈ needed → ∃ (prior : FullView) (t : KnownTransaction),
    answers c.stateRef.txId = some t ∧ prior.KnownAs t ∧ prior.id = c.stateRef.txId ∧
      prior.stateClaim c.stateRef.index = .ok c

theorem HonestClaims.holds {answers : Hash → Option KnownTransaction} {needed : List StateRef}
    {claims : List StateClaim} (h : HonestClaims answers needed claims) {c : StateClaim}
    (hc : c ∈ claims) (hneeded : c.stateRef ∈ needed) : c.Holds answers := by
  obtain ⟨prior, t, hanswer, hknown, hid, hclaim⟩ := h.honest c hc hneeded
  obtain ⟨hid', hdigests, hleaves⟩ := hknown.agrees
  have hleaf := FullView.outputLeaf_of_stateClaim hclaim
  refine ⟨t, hanswer, hid'.trans hid, ?_⟩
  rw [hleaves, hdigests]
  exact hleaf

namespace Participant

variable {p : Participant} {body : Body} {salt : Salt} {v : FullView} {claims : List StateClaim}
  {answers : Hash → Option KnownTransaction}

/-- The states of a body that have to be backed: those that do not look like filler. -/
def needed (p : Participant) (body : Body) : List StateRef :=
  body.inputs.filter (· ≠ p.padding.inputs.filler)
    ++ body.references.filter (· ≠ p.padding.references.filler)

/-! ## Components that ask for a claim -/

theorem filler_inputs (hbinary : p.serializer = .binary) :
    p.filler .inputs = (Field.stateRef p.padding.inputs.filler).bytes := by
  have h := p.inputFiller_eq
  rw [hbinary] at h
  exact (Except.ok.inj h).symm

theorem filler_references (hbinary : p.serializer = .binary) :
    p.filler .references = (Field.stateRef p.padding.references.filler).bytes := by
  have h := p.referenceFiller_eq
  rw [hbinary] at h
  exact (Except.ok.inj h).symm

theorem builtFrom (hbinary : p.serializer = .binary) (hbuild : p.build body salt = .ok v) :
    v.BuiltFrom body p.padding ∧ v.digests = p.policy.digests := by
  unfold build at hbuild
  rw [hbinary] at hbuild
  exact FullView.builtFrom_of_build hbuild

/-- A component that is no filler is a state that the body needs. -/
theorem exists_needed (hbinary : p.serializer = .binary) (hbuilt : v.BuiltFrom body p.padding)
    {role : Role} (hrole : role ∈ [Role.inputs, .references]) {component : Bytes}
    (hmem : component ∈ v.groups.components role) (hne : component ≠ p.filler role) :
    ∃ r ∈ p.needed body, (Field.stateRef r).bytes = component := by
  have hkeep {states : List StateRef} {filler r : StateRef} (hr : r ∈ states)
      (hr' : (Field.stateRef r).bytes ≠ (Field.stateRef filler).bytes) :
      r ∈ states.filter (· ≠ filler) := by
    refine List.mem_filter.mpr ⟨hr, decide_eq_true fun heq => hr' ?_⟩
    rw [heq]
  rcases List.mem_pair.mp hrole with rfl | rfl
  · rw [filler_inputs hbinary] at hne
    obtain ⟨r, hr, rfl⟩ := (hbuilt.inputs component hmem).resolve_left hne
    exact ⟨r, List.mem_append_left _ (hkeep hr hne), rfl⟩
  · rw [filler_references hbinary] at hne
    obtain ⟨r, hr, rfl⟩ := (hbuilt.references component hmem).resolve_left hne
    exact ⟨r, List.mem_append_right _ (hkeep hr hne), rfl⟩

/-- Only claims about needed states are asked for. -/
theorem coversAll_needed (hbinary : p.serializer = .binary) (hbuilt : v.BuiltFrom body p.padding) :
    p.CoversAll ((p.needed body).map (·.txId)) claims v.disclosure := by
  intro keyed hkeyed role hrole components hcomponents component hmem hne claim hlookup
  have hdisclosed : ∀ role ∈ [Role.inputs, .references], role.visibility = .disclosed := by decide
  rw [v.disclosure_components_role (hdisclosed role hrole)] at hcomponents
  obtain rfl := Option.some.inj hcomponents
  obtain ⟨r, hr, rfl⟩ := exists_needed hbinary hbuilt hrole hmem hne
  obtain ⟨-, hbytes⟩ := mem_of_keyedClaims hkeyed (mem_of_lookup_eq_some hlookup)
  rw [hbinary] at hbytes
  rw [stateRef_eq_of_bytes_eq (Except.ok.inj hbytes)]
  exact List.mem_map_of_mem hr

/-- Honest claims back both roles. -/
theorem roleBacked_of_honest (hbinary : p.serializer = .binary)
    (hbuilt : v.BuiltFrom body p.padding) (hclaims : HonestClaims answers (p.needed body) claims)
    {role : Role} (hrole : role ∈ [Role.inputs, .references]) :
    p.RoleBacked answers claims v.disclosure role := by
  have hdisclosed : ∀ role ∈ [Role.inputs, .references], role.visibility = .disclosed := by decide
  refine ⟨_, v.disclosure_components_role (hdisclosed role hrole), fun component hmem => ?_⟩
  by_cases hne : component = p.filler role
  · exact .inl hne
  obtain ⟨r, hr, rfl⟩ := exists_needed hbinary hbuilt hrole hmem hne
  obtain ⟨c, hc, rfl⟩ := hclaims.complete r hr
  -- the claim that is found need not be this one, but it is about the same state
  have hfound : (claims.find? fun c' => (Field.stateRef c'.stateRef).bytes
      = (Field.stateRef c.stateRef).bytes).isSome = true :=
    List.find?_isSome.mpr ⟨c, hc, decide_eq_true rfl⟩
  obtain ⟨first, hfirst⟩ := Option.isSome_iff_exists.mp hfound
  have hbytes := List.find?_some hfirst
  have hsame : first.stateRef = c.stateRef := stateRef_eq_of_bytes_eq (of_decide_eq_true hbytes)
  exact .inr ⟨first, hfirst, hclaims.holds (List.mem_of_find?_eq_some hfirst) (hsame ▸ hr)⟩

/-! ## Acceptance -/

/-- What was built under a policy is verified under it, if positions suffice for the sizes that it
asks for. -/
theorem verifiable_of_built (hbuilt : v.BuiltFrom body p.padding)
    (hdigests : v.digests = p.policy.digests)
    (htargets : ∀ role target, p.padding.target? role = some target → target < 2 ^ 32) :
    p.Verifiable v.disclosure := by
  have hsmall : ∀ role : Role, role.visibility = .disclosed →
      (v.groups.components role).length < 2 ^ 32 := by
    intro role hdisclosed
    exact hbuilt.length_lt htargets (by simp [hdisclosed])
  obtain ⟨hwell, htop, hroot⟩ := FullView.sound_disclosure
    (FullView.wellFormed_disclosure_of_roles hsmall)
  have hseparated : v.disclosure.digests.Separated := by
    show v.digests.Separated
    rw [hdigests]
    exact p.separated
  exact ⟨hwell, htop, hroot, fun role hrole => v.contains_of_mandatory hrole, hseparated,
    hbuilt.sizesFit htargets⟩

/-- A transaction that was built under a policy, and is disclosed with honest claims about the states
that it needs, is accepted under this policy: as a view with the id, the digests and the output leaves
that its author computed. -/
theorem accept_disclose {σ : Type} {resolve : Resolver σ} {s : σ}
    (hbinary : p.serializer = .binary)
    (htargets : ∀ role target, p.padding.target? role = some target → target < 2 ^ 32)
    (hbuild : p.build body salt = .ok v)
    (hsteady : resolve.Steady ((p.needed body).map (·.txId)) s answers)
    (hclaims : HonestClaims answers (p.needed body) claims) :
    ∃ w, ((p.accept resolve (disclose v claims)).run.run s).1 = .ok w ∧ w.id = v.id ∧
      w.root = v.id ∧ w.digests = v.digests ∧ w.outputLeaves = v.outputLeaves := by
  obtain ⟨hbuilt, hdigests⟩ := builtFrom hbinary hbuild
  obtain ⟨w, hw⟩ := exists_verifyPartial_iff.mpr (verifiable_of_built hbuilt hdigests htargets)
  obtain ⟨hdisclosure, -⟩ := verifyPartial_eq_ok_iff.mp hw
  have hagrees := FullView.agreesWith_of_disclosure_eq hdisclosure
  have hspec := accept_spec (x := disclose v claims) (coversAll_needed hbinary hbuilt) hsteady
  refine ⟨w, (hspec.2 w).mpr ⟨hw, keyed claims, keyedClaims_eq hbinary claims, ?_, ?_⟩,
    hagrees.id_eq, hagrees.root_eq, hagrees.digests_eq, hagrees.outputLeaves_eq⟩
  · rw [hdisclosure, roleBackedByKey_keyed_iff]
    exact roleBacked_of_honest hbinary hbuilt hclaims (by decide)
  · rw [hdisclosure, roleBackedByKey_keyed_iff]
    exact roleBacked_of_honest hbinary hbuilt hclaims (by decide)

/-! ### An output that is spent and referred to -/

/-- A body that spends a state and refers to it, and produces another one. -/
def spendingBody (r : StateRef) : Body :=
  ⟨[r], [⟨1, [3]⟩], [r], [⟨1, [], []⟩], [], some ⟨"", [5]⟩, none, none⟩

theorem exists_build_spendingBody (r : StateRef) :
    ∃ v, standard.build (spendingBody r) .sample = .ok v := ⟨_, rfl⟩

theorem mem_needed_spendingBody {r r' : StateRef} (h : r' ∈ standard.needed (spendingBody r)) :
    r' = r := by
  rcases List.mem_append.mp h with h | h
  · exact List.mem_singleton.mp (List.mem_filter.mp h).1
  · exact List.mem_singleton.mp (List.mem_filter.mp h).1

theorem stateClaim_twoOutputs : twoOutputs.stateClaim 1 = .ok secondOutput := rfl

/-- The second output of a transaction that is found in the archive is spent. -/
theorem accept_spendingBody : ∃ v w,
    standard.build (spendingBody secondOutput.stateRef) .sample = .ok v ∧
    secondOutput.stateRef ∈ standard.needed (spendingBody secondOutput.stateRef) ∧
    ((standard.accept Archive.resolver (disclose v [secondOutput])).run.run
      ((Archive.empty 1).insert (.full twoOutputs))).1 = .ok w ∧ w.id = v.id := by
  obtain ⟨v, hbuild⟩ := exists_build_spendingBody secondOutput.stateRef
  have hfound := Archive.peek?_insert_self (Archive.empty 1) (.full twoOutputs)
  have hclaims : HonestClaims ((Archive.empty 1).insert (.full twoOutputs)).peek?
      (standard.needed (spendingBody secondOutput.stateRef)) [secondOutput] := by
    refine ⟨fun r hr => ?_, fun c hc _ => ?_⟩
    · exact ⟨secondOutput, List.mem_singleton_self _, (mem_needed_spendingBody hr).symm⟩
    · obtain rfl := List.mem_singleton.mp hc
      exact ⟨twoOutputs, .full twoOutputs, hfound, .full, rfl, stateClaim_twoOutputs⟩
  have htargets : ∀ role target, standard.padding.target? role = some target →
      target < 2 ^ 32 := by
    intro role target htarget
    have hsmall : ∀ target ∈ standard.padding.target? role, target < 2 ^ 32 := by
      cases role <;> decide
    exact hsmall target htarget
  obtain ⟨w, hw, hid, -⟩ := accept_disclose rfl htargets hbuild (Archive.steady_resolver _ _) hclaims
  refine ⟨v, w, hbuild, ?_, hw, hid⟩
  -- the filler points to another position
  have hne : secondOutput.stateRef ≠ standard.padding.inputs.filler :=
    fun h => absurd (congrArg StateRef.index h) (by decide)
  exact List.mem_append_left _ (List.mem_filter.mpr ⟨List.mem_singleton_self _, decide_eq_true hne⟩)

end Participant

end VeiledLedger
