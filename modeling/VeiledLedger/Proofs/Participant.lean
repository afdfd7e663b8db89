import VeiledLedger.Participant
import VeiledLedger.Proofs.Archive
import VeiledLedger.Proofs.FieldBytes

set_option autoImplicit false

/-! # When a participant accepts

A disclosure is verified exactly if it is `Verifiable`: the checks of `verifyPartial` come down to
conditions on what the disclosure says, with nothing left of the order in which they are made. A
payload is accepted exactly if it is `Acceptable`: its disclosure is verifiable, and the claims that
come with it back every state that is spent or referred to. The claims are checked one after another
against whatever look-ups give, so the condition for a list of components is assembled from that for
one component by induction (`decides_checkStates`). -/

namespace VeiledLedger

/-- The disclosure with the list and the id that its material leads to. -/
def Disclosure.issued (d : Disclosure) : Disclosure :=
  { d with
    topRoots := topLevel d.groupRoots
    id := d.digests.merkleRoot (topLevel d.groupRoots) }

theorem Disclosure.WellFormed.sound_issued {d : Disclosure} (h : d.WellFormed) :
    d.issued.Sound := by
  have hissued : d.issued.WellFormed :=
    ⟨h.same_groups, h.same_length, h.not_hidden, h.outputs_not_disclosed, h.outputs_not_hidden⟩
  have htop : d.issued.topRoots = d.issued.impliedTop := hissued.topLevel_groupRoots
  exact ⟨hissued, htop, congrArg d.digests.merkleRoot htop.symm⟩

namespace Participant

variable {p : Participant} {d : Disclosure} {v : PartialView}

/-- A view passes every check that needs no other transaction. -/
structure Verified (p : Participant) (v : PartialView) : Prop where
  issued : v.disclosure.topRoots = v.top
  root_eq : v.root = v.disclosure.id
  mandatory : ∀ role ∈ Role.mandatory, v.disclosure.components.contains role.ordinal = true
  separated : v.disclosure.digests.Separated
  sizes : v.disclosure.SizesFit p.padding

theorem verifyPartial_eq_ok_iff : p.verifyPartial d = .ok v ↔ v.disclosure = d ∧ p.Verified v := by
  unfold verifyPartial
  rw [bind_eq_ok_iff]
  simp only [bind_unit_eq_ok_iff, PartialView.reconstruct_eq_ok_iff,
    PartialView.verifyForValidation_eq_ok_iff, PartialView.verify_eq_ok_iff,
    PartialView.verifySizes_eq_ok_iff]
  constructor
  · rintro ⟨w, rfl, ⟨⟨hissued, hroot⟩, hmandatory⟩, ⟨hsep, hsizes⟩, hw⟩
    obtain rfl : w = v := Except.ok.inj hw
    exact ⟨rfl, hissued, hroot, hmandatory, hsep, hsizes⟩
  · rintro ⟨rfl, h⟩
    exact ⟨v, rfl, ⟨⟨h.issued, h.root_eq⟩, h.mandatory⟩, ⟨h.separated, h.sizes⟩, rfl⟩

/-- A disclosure that a participant verifies: its parts fit together, the roots that they imply are
those of the list and lead to the id, and it has the groups and the sizes that are asked for. -/
structure Verifiable (p : Participant) (d : Disclosure) : Prop where
  wellFormed : d.WellFormed
  topRoots_eq : d.topRoots = d.impliedTop
  root_eq : d.digests.merkleRoot d.impliedTop = d.id
  mandatory : ∀ role ∈ Role.mandatory, d.components.contains role.ordinal = true
  separated : d.digests.Separated
  sizes : d.SizesFit p.padding

theorem exists_verifyPartial_iff : (∃ v, p.verifyPartial d = .ok v) ↔ p.Verifiable d := by
  simp only [verifyPartial_eq_ok_iff]
  constructor
  · rintro ⟨v, rfl, h⟩
    refine ⟨v.wellFormed, ?_, ?_, h.mandatory, h.separated, h.sizes⟩
    · rw [h.issued, v.top_eq_impliedTop]
    · rw [← v.root_eq_merkleRoot, h.root_eq]
  · intro h
    obtain ⟨v, rfl⟩ := PartialView.exists_of_wellFormed h.wellFormed
    refine ⟨v, rfl, ?_, ?_, h.mandatory, h.separated, h.sizes⟩
    · rw [h.topRoots_eq, v.top_eq_impliedTop]
    · rw [v.root_eq_merkleRoot, h.root_eq]

/-- With the list and the id that it leads to, well-formed material of the right sizes is
verified. -/
theorem verifiable_issued (hd : d.WellFormed)
    (hmandatory : ∀ role ∈ Role.mandatory, d.components.contains role.ordinal = true)
    (hsep : d.digests.Separated) (hsizes : d.SizesFit p.padding) : p.Verifiable d.issued := by
  obtain ⟨hissued, htop, hroot⟩ := hd.sound_issued
  exact ⟨hissued, htop, hroot, hmandatory, hsep,
    ⟨hsizes.inputs, hsizes.outputs, hsizes.references⟩⟩

/-! ## Claims behind states -/

variable {σ : Type} {resolve : Resolver σ} {ids : List Hash}
  {answers : Hash → Option KnownTransaction}

/-- Claims with the binary forms of the states that they are about. -/
def keyed (claims : List StateClaim) : List (Bytes × StateClaim) :=
  claims.map fun c => ((Field.stateRef c.stateRef).bytes, c)

theorem keyedClaims_eq (hbinary : p.serializer = .binary) (claims : List StateClaim) :
    p.keyedClaims claims = .ok (keyed claims) := by
  unfold keyedClaims keyed
  rw [hbinary]
  induction claims with
  | nil => rfl
  | cons c rest ih =>
    rw [List.mapM_cons, ih]
    rfl

/-- Looking a component up finds the first claim about its state. -/
theorem lookup_keyed (claims : List StateClaim) (component : Bytes) :
    (keyed claims).lookup component
      = claims.find? fun c => (Field.stateRef c.stateRef).bytes = component := by
  induction claims with
  | nil => rfl
  | cons c rest ih =>
    rw [keyed, List.map_cons, List.lookup_cons, List.find?_cons, ← keyed, ih]
    by_cases h : component = (Field.stateRef c.stateRef).bytes
    · simp [h]
    · simp [beq_eq_false_iff_ne.mpr h, Ne.symm h]

/-- A component is filler, or the first claim about its state holds. -/
def Backed (answers : Hash → Option KnownTransaction) (claims : List StateClaim)
    (filler component : Bytes) : Prop :=
  component = filler ∨ ∃ claim,
    (claims.find? fun c => (Field.stateRef c.stateRef).bytes = component) = some claim ∧
      claim.Holds answers

/-- The same where claims come with bytes of any kind: the claim that is found by its bytes
holds. -/
def BackedByKey (answers : Hash → Option KnownTransaction) (claims : List (Bytes × StateClaim))
    (filler component : Bytes) : Prop :=
  component = filler ∨ ∃ claim, claims.lookup component = some claim ∧ claim.Holds answers

theorem backedByKey_keyed_iff {claims : List StateClaim} {filler component : Bytes} :
    BackedByKey answers (keyed claims) filler component ↔
      Backed answers claims filler component := by
  rw [BackedByKey, lookup_keyed]
  rfl

theorem mem_of_lookup_eq_some {claims : List (Bytes × StateClaim)} {component : Bytes}
    {claim : StateClaim} (h : claims.lookup component = some claim) :
    (component, claim) ∈ claims := by
  obtain ⟨front, back, rfl, -⟩ := List.lookup_eq_some_iff.mp h
  exact List.mem_append_right _ List.mem_cons_self

/-- Some ids contain those of the claims that the components of a group ask for: a component that is
no filler asks for the claim that is found by its bytes. -/
def Covers (ids : List Hash) (claims : List (Bytes × StateClaim)) (filler : Bytes)
    (components : List Bytes) : Prop :=
  ∀ component ∈ components, component ≠ filler → ∀ claim, claims.lookup component = some claim →
    claim.stateRef.txId ∈ ids

theorem covers_of_forall {claims : List (Bytes × StateClaim)}
    (hids : ∀ e ∈ claims, e.2.stateRef.txId ∈ ids) (filler : Bytes) (components : List Bytes) :
    Covers ids claims filler components :=
  fun _ _ _ _ hfind => hids _ (mem_of_lookup_eq_some hfind)

theorem decides_checkState {claims : List (Bytes × StateClaim)} {filler component : Bytes}
    (hids : component ≠ filler → ∀ claim, claims.lookup component = some claim →
      claim.stateRef.txId ∈ ids) (role : Role) (i : Nat) :
    Checked.Decides resolve ids answers (checkState resolve claims role filler i component)
      (BackedByKey answers claims filler component) := by
  unfold checkState BackedByKey
  by_cases hfiller : component = filler
  · rw [if_pos hfiller]
    exact Checked.decides_pure.congr (by simp [hfiller])
  · rw [if_neg hfiller]
    cases hfind : claims.lookup component with
    | none => exact (Checked.decides_throw _).congr (by simp [hfiller])
    | some claim =>
      have hclaim := hids hfiller claim hfind
      exact (StateClaim.decides_verify hclaim).congr (by simp [hfiller])

theorem decides_checkStates {claims : List (Bytes × StateClaim)} {filler : Bytes}
    {components : List Bytes} (hids : Covers ids claims filler components) (role : Role) (i : Nat) :
    Checked.Decides resolve ids answers (checkStates resolve claims role filler i components)
      (∀ component ∈ components, BackedByKey answers claims filler component) := by
  induction components generalizing i with
  | nil => exact Checked.decides_pure.congr (by simp)
  | cons component rest ih =>
    obtain ⟨hhead, htail⟩ := List.forall_mem_cons.mp hids
    unfold checkStates
    refine ((decides_checkState hhead role i).bind (ih htail (i + 1))).congr ?_
    rw [List.forall_mem_cons]

/-- The states of a role are disclosed and backed. -/
def RoleBacked (p : Participant) (answers : Hash → Option KnownTransaction)
    (claims : List StateClaim) (d : Disclosure) (role : Role) : Prop :=
  ∃ components, d.components.get? role.ordinal = some components ∧
    ∀ component ∈ components, Backed answers claims (p.filler role) component

/-- The same for claims that come with bytes of any kind. -/
def RoleBackedByKey (p : Participant) (answers : Hash → Option KnownTransaction)
    (claims : List (Bytes × StateClaim)) (d : Disclosure) (role : Role) : Prop :=
  ∃ components, d.components.get? role.ordinal = some components ∧
    ∀ component ∈ components, BackedByKey answers claims (p.filler role) component

theorem roleBackedByKey_keyed_iff {claims : List StateClaim} {role : Role} :
    p.RoleBackedByKey answers (keyed claims) d role ↔ p.RoleBacked answers claims d role := by
  simp only [RoleBackedByKey, RoleBacked, backedByKey_keyed_iff]

theorem decides_checkRole {claims : List (Bytes × StateClaim)} {role : Role}
    (hids : ∀ components, v.disclosure.components.get? role.ordinal = some components →
      Covers ids claims (p.filler role) components) :
    Checked.Decides resolve ids answers (p.checkRole resolve claims v role)
      (p.RoleBackedByKey answers claims v.disclosure role) := by
  unfold checkRole RoleBackedByKey PartialView.components?
  cases hrole : v.disclosure.components.get? role.ordinal with
  | none => exact (Checked.decides_throw _).congr (by simp)
  | some components =>
    exact (decides_checkStates (hids components hrole) role 0).congr (by simp)

/-- Claims come with the bytes that the serializer gives to their states. -/
theorem mem_of_keyedClaims {claims : List StateClaim} {keyed : List (Bytes × StateClaim)}
    (h : p.keyedClaims claims = .ok keyed) {e : Bytes × StateClaim} (he : e ∈ keyed) :
    e.2 ∈ claims ∧ p.serializer.component (.stateRef e.2.stateRef) = .ok e.1 := by
  unfold keyedClaims at h
  induction claims generalizing keyed with
  | nil =>
    obtain rfl : [] = keyed := Except.ok.inj h
    exact absurd he List.not_mem_nil
  | cons c rest ih =>
    simp only [List.mapM_cons, bind_eq_ok_iff] at h
    obtain ⟨entry, ⟨bytes, hbytes, hentry⟩, others, hothers, hkeyed⟩ := h
    obtain rfl := Except.ok.inj hkeyed
    obtain rfl := Except.ok.inj hentry
    rcases List.mem_cons.mp he with rfl | he
    · exact ⟨List.mem_cons_self, hbytes⟩
    · obtain ⟨hmem, hbytes⟩ := ih hothers he
      exact ⟨List.mem_cons_of_mem _ hmem, hbytes⟩

/-- Some ids contain those of all claims that a disclosure asks for. -/
def CoversAll (p : Participant) (ids : List Hash) (claims : List StateClaim) (d : Disclosure) :
    Prop :=
  ∀ keyed, p.keyedClaims claims = .ok keyed → ∀ role ∈ [Role.inputs, Role.references],
    ∀ components, d.components.get? role.ordinal = some components →
      Covers ids keyed (p.filler role) components

theorem coversAll_of_forall {claims : List StateClaim} (hids : ∀ c ∈ claims, c.stateRef.txId ∈ ids)
    (d : Disclosure) : p.CoversAll ids claims d :=
  fun _ hkeyed _ _ _ _ =>
    covers_of_forall (fun _ he => hids _ (mem_of_keyedClaims hkeyed he).1) _ _

/-- Inputs are verified exactly if all claims have bytes, and both roles are backed by them. -/
theorem decides_verifyInputs_byKey {claims : List StateClaim}
    (hids : p.CoversAll ids claims v.disclosure) :
    Checked.Decides resolve ids answers (p.verifyInputs resolve v claims)
      (∃ keyed, p.keyedClaims claims = .ok keyed ∧
        p.RoleBackedByKey answers keyed v.disclosure .inputs ∧
        p.RoleBackedByKey answers keyed v.disclosure .references) := by
  unfold verifyInputs
  cases hkeyed : p.keyedClaims claims with
  | error e => exact (Checked.decides_throw e).congr (by simp)
  | ok keyed =>
    have hinputs := hids keyed hkeyed .inputs (by decide)
    have hreferences := hids keyed hkeyed .references (by decide)
    exact ((decides_checkRole hinputs).bind (decides_checkRole hreferences)).congr (by simp)

theorem decides_verifyInputs (hbinary : p.serializer = .binary) {claims : List StateClaim}
    (hids : ∀ c ∈ claims, c.stateRef.txId ∈ ids) :
    Checked.Decides resolve ids answers (p.verifyInputs resolve v claims)
      (p.RoleBacked answers claims v.disclosure .inputs ∧
        p.RoleBacked answers claims v.disclosure .references) := by
  refine (decides_verifyInputs_byKey (coversAll_of_forall hids _)).congr ?_
  simp [keyedClaims_eq hbinary, roleBackedByKey_keyed_iff]

/-! ## Acceptance -/

/-- A payload that a participant accepts: its disclosure is verified, and every state that it spends
or refers to is backed. -/
structure Acceptable (p : Participant) (answers : Hash → Option KnownTransaction) (x : Payload) :
    Prop where
  verifiable : p.Verifiable x.disclosure
  inputs : p.RoleBacked answers x.claims x.disclosure .inputs
  references : p.RoleBacked answers x.claims x.disclosure .references

/-- A payload is accepted exactly if it is acceptable, whatever look-ups do besides giving the same
answers throughout. -/
theorem exists_accept_iff {x : Payload} {s : σ} (hbinary : p.serializer = .binary)
    (hsteady : resolve.Steady (x.claims.map (·.stateRef.txId)) s answers) :
    (∃ v, ((p.accept resolve x).run.run s).1 = .ok v) ↔ p.Acceptable answers x := by
  have hids : ∀ c ∈ x.claims, c.stateRef.txId ∈ x.claims.map (·.stateRef.txId) :=
    fun c hc => List.mem_map_of_mem hc
  unfold accept
  rw [Checked.run_bind]
  cases hview : p.verifyPartial x.disclosure with
  | error e =>
    -- nothing is looked up for a disclosure that is not verified
    refine iff_of_false (fun ⟨v, hv⟩ => by cases hv) fun h => ?_
    obtain ⟨v, hv⟩ := exists_verifyPartial_iff.mpr h.verifiable
    rw [hview] at hv
    cases hv
  | ok v =>
    obtain ⟨hdisclosure, -⟩ := verifyPartial_eq_ok_iff.mp hview
    have hverifiable := exists_verifyPartial_iff.mp ⟨v, hview⟩
    have hinputs := (decides_verifyInputs (v := v) hbinary hids s hsteady).2
    rw [hdisclosure] at hinputs
    show (∃ w, ((p.verifyInputs resolve v x.claims >>= fun _ => pure v).run.run s).1 = .ok w) ↔ _
    rw [Checked.run_bind]
    rcases hrun : (p.verifyInputs resolve v x.claims).run.run s with ⟨e | ⟨⟩, t⟩
    · rw [hrun] at hinputs
      refine iff_of_false (fun ⟨w, hw⟩ => by cases hw) fun h => ?_
      cases hinputs.mpr ⟨h.inputs, h.references⟩
    · rw [hrun] at hinputs
      obtain ⟨hin, href⟩ := hinputs.mp rfl
      exact iff_of_true ⟨v, rfl⟩ ⟨hverifiable, hin, href⟩

/-- A payload is accepted as a view exactly if its disclosure is verified as that view and its claims
back both roles. Whatever comes out, look-ups stay as steady as they were. -/
theorem accept_spec {x : Payload} {s : σ} (hids : p.CoversAll ids x.claims x.disclosure)
    (hsteady : resolve.Steady ids s answers) :
    resolve.Steady ids ((p.accept resolve x).run.run s).2 answers ∧
      ∀ v, ((p.accept resolve x).run.run s).1 = .ok v ↔
        p.verifyPartial x.disclosure = .ok v ∧ ∃ keyed, p.keyedClaims x.claims = .ok keyed ∧
          p.RoleBackedByKey answers keyed v.disclosure .inputs ∧
          p.RoleBackedByKey answers keyed v.disclosure .references := by
  unfold accept
  rw [Checked.run_bind]
  cases hview : p.verifyPartial x.disclosure with
  | error e => exact ⟨hsteady, fun v => iff_of_false (fun h => by cases h) fun h => by cases h.1⟩
  | ok w =>
    obtain ⟨hdisclosure, -⟩ := verifyPartial_eq_ok_iff.mp hview
    rw [← hdisclosure] at hids
    obtain ⟨hafter, hpass⟩ := decides_verifyInputs_byKey hids s hsteady
    show resolve.Steady ids ((p.verifyInputs resolve w x.claims >>= fun _ => pure w).run.run s).2
        answers ∧
      ∀ v, ((p.verifyInputs resolve w x.claims >>= fun _ => pure w).run.run s).1 = .ok v ↔ _
    rw [Checked.run_bind]
    rcases hrun : (p.verifyInputs resolve w x.claims).run.run s with ⟨e | ⟨⟩, t⟩
    · rw [hrun] at hafter hpass
      refine ⟨hafter, fun v => iff_of_false (fun h => by cases h) fun ⟨hw, hbacked⟩ => ?_⟩
      obtain rfl := Except.ok.inj hw
      cases hpass.mpr hbacked
    · rw [hrun] at hafter hpass
      refine ⟨hafter, fun v => ⟨fun h => ?_, fun h => h.1⟩⟩
      obtain rfl : w = v := Except.ok.inj h
      exact ⟨rfl, hpass.mp rfl⟩

/-! ## An output that is spent -/

/-- The participant with the standard policy and the binary serializer. -/
def standard : Participant where
  policy := .standard
  padding := ⟨⟨2, Hash.zero, 0⟩, ⟨2, 0xFFFFFFFF, []⟩, ⟨2, Hash.zero, 0⟩, ⟨2, List.replicate 32 0⟩⟩
  serializer := .binary
  inputFiller := (Field.stateRef ⟨Hash.zero, 0⟩).bytes
  referenceFiller := (Field.stateRef ⟨Hash.zero, 0⟩).bytes
  separated := by decide
  padding_eq := rfl
  inputFiller_eq := rfl
  referenceFiller_eq := rfl

example : create .standard .binary = .ok standard := rfl

/-- A transaction with two outputs. -/
def twoOutputs : FullView :=
  FullView.assemble ⟨.ofList [(Role.outputs.ordinal, [[8], [9]])], by decide⟩ .sample .standard []

/-- The claim about the second one. -/
def secondOutput : StateClaim where
  stateRef := ⟨twoOutputs.id, 1⟩
  content := [9]
  nonce := twoOutputs.salt.nonce .blake3 Role.outputs.ordinal 1

/-- A transaction that spends it. -/
def spending : Payload where
  disclosure := Disclosure.issued
    { digests := .standard
      components := .ofList
        [(Role.inputs.ordinal,
            [(Field.stateRef secondOutput.stateRef).bytes, standard.inputFiller]),
          (Role.timeWindow.ordinal, []), (Role.references.ordinal, []),
          (Role.parameters.ordinal, [])]
      nonces := .ofList
        [(Role.inputs.ordinal, [Hash.fill 1, Hash.fill 2]), (Role.timeWindow.ordinal, []),
          (Role.references.ordinal, []), (Role.parameters.ordinal, [])]
      hiddenRoots := .empty
      outputLeaves := []
      topRoots := []
      id := Hash.zero }
  claims := [secondOutput]

theorem exists_accept_spending :
    ∃ v, ((standard.accept Archive.resolver spending).run.run
      ((Archive.empty 1).insert (.full twoOutputs))).1 = .ok v := by
  have hfound := Archive.peek?_insert_self (Archive.empty 1) (.full twoOutputs)
  refine (exists_accept_iff rfl (Archive.steady_resolver _ _)).mpr ⟨?_, ?_, ?_⟩
  · exact verifiable_issued (Disclosure.fault?_eq_none_iff.mp rfl) (by decide) (by decide)
      ⟨.inr rfl, .inl rfl, .inl rfl⟩
  · refine ⟨_, rfl, ?_⟩
    intro component hmem
    rcases List.mem_cons.mp hmem with rfl | hmem
    · refine .inr ⟨secondOutput, List.find?_cons_of_pos (by simp), ?_⟩
      exact ⟨.full twoOutputs, hfound, rfl, rfl⟩
    · exact .inl (List.mem_singleton.mp hmem)
  · exact ⟨[], rfl, fun component hmem => absurd hmem List.not_mem_nil⟩

end Participant

end VeiledLedger
