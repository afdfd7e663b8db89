import Mathlib.Data.List.Induction
import VeiledLedger.Ledger
import VeiledLedger.Proofs.StateClaim

set_option autoImplicit false

/-! # Where spent states come from

A claim is compared with whatever is found under the id that it names, and a partial view is found
under the id that it claims to have. What makes a claim worth anything is therefore not a check but
an invariant of the ledger: whatever is found in its archive was accepted at an earlier event, and
so was checked against its own id (`Sound`). Every event preserves it (`Sound.concat`), and with it
every state that an accepted transaction spends or refers to is an output of a transaction that was
accepted before (`provenance`). -/

namespace VeiledLedger.Ledger

variable {capacity : Nat} {events : List Event} {archive : Archive} {p : Participant} {x : Payload}
  {v : PartialView} {k : Hash} {t : KnownTransaction}

/-! ## Settling one transaction -/

/-- A decision changes no answer of the archive, and depends on nothing else of it. -/
theorem accept_archive (archive : Archive) (p : Participant) (x : Payload) :
    (∀ k, ((p.accept Archive.resolver x).run.run archive).2.peek? k = archive.peek? k) ∧
      ∀ v, ((p.accept Archive.resolver x).run.run archive).1 = .ok v ↔
        p.verifyPartial x.disclosure = .ok v ∧ ∃ keyed, p.keyedClaims x.claims = .ok keyed ∧
          p.RoleBackedByKey archive.peek? keyed v.disclosure .inputs ∧
          p.RoleBackedByKey archive.peek? keyed v.disclosure .references := by
  have hids (k : Hash) : ∀ c ∈ x.claims, c.stateRef.txId ∈ k :: x.claims.map (·.stateRef.txId) :=
    fun c hc => List.mem_cons_of_mem _ (List.mem_map_of_mem hc)
  have hspec (k : Hash) :=
    Participant.accept_spec (Participant.coversAll_of_forall (p := p) (hids k) x.disclosure)
      (Archive.steady_resolver archive _)
  exact ⟨fun k => Archive.peek?_of_steady (hspec k).1 List.mem_cons_self,
    (hspec Hash.zero).2⟩

/-- What a settlement adds to the archive is the view that it accepted, under its id. -/
theorem peek?_settle (h : (settle archive p x).2.peek? k = some t) :
    archive.peek? k = some t ∨
      ∃ view, (settle archive p x).1 = .ok view ∧ k = view.id ∧ t = .part view := by
  obtain ⟨hsame, -⟩ := accept_archive archive p x
  unfold settle at h ⊢
  rcases hrun : (p.accept Archive.resolver x).run.run archive with ⟨e | view, after⟩
  · rw [hrun] at h hsame
    exact .inl ((hsame k).symm.trans h)
  · rw [hrun] at h hsame
    rcases Archive.peek?_insert h with ⟨hk, ht⟩ | hfound
    · exact .inr ⟨view, rfl, hk, ht⟩
    · exact .inl ((hsame k).symm.trans hfound)

theorem settle_eq_ok_iff : (settle archive p x).1 = .ok v ↔
    p.verifyPartial x.disclosure = .ok v ∧ ∃ keyed, p.keyedClaims x.claims = .ok keyed ∧
      p.RoleBackedByKey archive.peek? keyed v.disclosure .inputs ∧
      p.RoleBackedByKey archive.peek? keyed v.disclosure .references := by
  rw [← (accept_archive archive p x).2 v]
  unfold settle
  rcases (p.accept Archive.resolver x).run.run archive with ⟨e | view, after⟩
  · exact Iff.rfl
  · exact Iff.rfl

/-- What was just accepted is found. -/
theorem peek?_settle_self (h : (settle archive p x).1 = .ok v) :
    (settle archive p x).2.peek? v.id = some (.part v) := by
  unfold settle at h ⊢
  rcases hrun : (p.accept Archive.resolver x).run.run archive with ⟨e | view, after⟩
  · rw [hrun] at h
    cases h
  · rw [hrun] at h
    obtain rfl := Except.ok.inj h
    exact Archive.peek?_insert_self after (.part view)

/-- An accepted view is the view of its id: the root that was recomputed for it. -/
theorem verified_of_settle (h : (settle archive p x).1 = .ok v) : p.Verified v :=
  (Participant.verifyPartial_eq_ok_iff.mp (settle_eq_ok_iff.mp h).1).2

/-! ## Runs -/

theorem run_concat (capacity : Nat) (events : List Event) (e : Event) :
    run capacity (events ++ [e]) = step (run capacity events) e := by
  rw [run, List.foldl_append]
  rfl

/-- At one of the events of a run, a transaction with this id was accepted. -/
def AcceptedIn (capacity : Nat) (events : List Event) (k : Hash) : Prop :=
  ∃ before p x after view, events = before ++ .submit p x :: after ∧
    (settle (run capacity before) p x).1 = .ok view ∧ view.id = k

theorem AcceptedIn.concat (h : AcceptedIn capacity events k) (e : Event) :
    AcceptedIn capacity (events ++ [e]) k := by
  obtain ⟨before, p, x, after, view, rfl, hview⟩ := h
  exact ⟨before, p, x, after ++ [e], view, by simp, hview⟩

/-- What is found in an archive after a run: a transaction that was accepted in the run under the id
that it is found under, and whose recomputed root is this id. -/
structure Resident (capacity : Nat) (events : List Event) (k : Hash) (t : KnownTransaction) :
    Prop where
  id_eq : t.id = k
  root_eq : t.root = k
  separated : t.digests.Separated
  accepted : AcceptedIn capacity events k

/-- Nothing else is found after a run. -/
def Sound (capacity : Nat) (events : List Event) : Prop :=
  ∀ k t, (run capacity events).peek? k = some t → Resident capacity events k t

theorem Sound.concat (h : Sound capacity events) (e : Event) : Sound capacity (events ++ [e]) := by
  intro k t hfound
  have hkept (hold : (run capacity events).peek? k = some t) :
      Resident capacity (events ++ [e]) k t := by
    obtain ⟨hid, hroot, hsep, haccepted⟩ := h k t hold
    exact ⟨hid, hroot, hsep, haccepted.concat e⟩
  rw [run_concat] at hfound
  cases e with
  | lookup id =>
    rw [step, Archive.peek?_get?] at hfound
    exact hkept hfound
  | submit p x =>
    rcases peek?_settle hfound with hold | ⟨view, hview, rfl, rfl⟩
    · exact hkept hold
    · have hverified := verified_of_settle hview
      exact ⟨rfl, hverified.root_eq, hverified.separated, events, p, x, [], view, rfl, hview, rfl⟩

theorem sound_run (capacity : Nat) (events : List Event) : Sound capacity events := by
  induction events using List.reverseRecOn with
  | nil =>
    intro k t hfound
    cases hfound
  | append_singleton events e ih => exact ih.concat e

/-! ## Provenance -/

/-- Behind every state that an accepted transaction spends or refers to stands a claim about an
output of what is found under the id that the state names. -/
theorem exists_claim_of_backed {claims : List StateClaim} {keyed : List (Bytes × StateClaim)}
    {answers : Hash → Option KnownTransaction} {filler component : Bytes}
    (hkeyed : p.keyedClaims claims = .ok keyed)
    (h : Participant.BackedByKey answers keyed filler component) (hne : component ≠ filler) :
    ∃ c ∈ claims, p.serializer.component (.stateRef c.stateRef) = .ok component ∧
      ∃ t, answers c.stateRef.txId = some t ∧
        t.outputLeaves[c.stateRef.index.toNat]? = some (c.leafHash t.digests) := by
  rcases h with hfiller | ⟨c, hlookup, t, hanswer, -, hleaf⟩
  · exact absurd hfiller hne
  · obtain ⟨hmem, hbytes⟩ :=
      Participant.mem_of_keyedClaims hkeyed (Participant.mem_of_lookup_eq_some hlookup)
    exact ⟨c, hmem, hbytes, t, hanswer, hleaf⟩

/-- After any run, whatever is found in the archive stands under the root that was recomputed for it,
with separated digests. And whenever a transaction is accepted next, the states that it spends or
refers to are outputs of what was accepted earlier in the run and is still found, each with a claim
that has exactly the leaf of that output. -/
theorem provenance (capacity : Nat) (events : List Event) :
    (∀ k t, (run capacity events).peek? k = some t →
      t.id = k ∧ t.root = k ∧ t.digests.Separated) ∧
    ∀ p x v, (settle (run capacity events) p x).1 = .ok v →
      ∀ role ∈ [Role.inputs, Role.references], ∃ components, v.components? role = some components ∧
        ∀ component ∈ components, component ≠ p.filler role →
          ∃ k j t, p.serializer.component (.stateRef ⟨k, j⟩) = .ok component ∧
            AcceptedIn capacity events k ∧ (run capacity events).peek? k = some t ∧
            j.toNat < t.outputLeaves.length ∧
            ∃ c ∈ x.claims, t.outputLeaves[j.toNat]? = some (c.leafHash t.digests) := by
  have hsound := sound_run capacity events
  refine ⟨fun k t hfound => ?_, fun p x v haccept role hrole => ?_⟩
  · obtain ⟨hid, hroot, hsep, -⟩ := hsound k t hfound
    exact ⟨hid, hroot, hsep⟩
  · obtain ⟨-, keyed, hkeyed, hinputs, hreferences⟩ := settle_eq_ok_iff.mp haccept
    have hbacked : p.RoleBackedByKey (run capacity events).peek? keyed v.disclosure role := by
      simp only [List.mem_cons, List.not_mem_nil, or_false] at hrole
      rcases hrole with rfl | rfl
      · exact hinputs
      · exact hreferences
    obtain ⟨components, hcomponents, hall⟩ := hbacked
    refine ⟨components, hcomponents, fun component hmem hne => ?_⟩
    obtain ⟨c, hc, hbytes, t, hfound, hleaf⟩ :=
      exists_claim_of_backed hkeyed (hall component hmem) hne
    exact ⟨c.stateRef.txId, c.stateRef.index, t, hbytes, (hsound _ _ hfound).accepted, hfound,
      (List.getElem?_eq_some_iff.mp hleaf).1, c, hc, hleaf⟩

/-- A claim that is accepted against the archive of a ledger is about an output that leads to the id
that the claim names: here what was found had been compared with its id before. -/
theorem rootFrom_eq_of_verify {c : StateClaim}
    (h : ((c.verify Archive.resolver).run.run (run capacity events)).1 = .ok ()) :
    ∃ prior, (run capacity events).peek? c.stateRef.txId = some prior ∧
      prior.outputLeaves[c.stateRef.index.toNat]? = some (c.leafHash prior.digests) ∧
      Merkle.rootFrom prior.digests.nodeHash (c.leafHash prior.digests)
        (prior.outputPath c.stateRef.index.toNat) = c.stateRef.txId := by
  obtain ⟨prior, hanswer, -, hleaf⟩ := StateClaim.verify_eq_ok_iff.mp h
  rw [Archive.run_resolver_fst] at hanswer
  have hfound := Except.ok.inj hanswer
  refine ⟨prior, hfound, hleaf, ?_⟩
  rw [KnownTransaction.rootFrom_outputPath hleaf, (sound_run capacity events _ _ hfound).root_eq]

/-! ## A state that is produced and then spent -/

/-- Inputs with the leaves of outputs; everything else that a verifier cannot do without is empty. -/
def disclosureOfStates (inputs : List Bytes) (nonces : List Hash) (outputLeaves : List Hash) :
    Disclosure where
  digests := .standard
  components := .ofList [(Role.inputs.ordinal, inputs), (Role.timeWindow.ordinal, []),
    (Role.references.ordinal, []), (Role.parameters.ordinal, [])]
  nonces := .ofList [(Role.inputs.ordinal, nonces), (Role.timeWindow.ordinal, []),
    (Role.references.ordinal, []), (Role.parameters.ordinal, [])]
  hiddenRoots := .empty
  outputLeaves := outputLeaves
  topRoots := []
  id := Hash.zero

/-- A transaction that produces two states. -/
def producing : Payload where
  disclosure := (disclosureOfStates [] []
    [DigestPair.standard.leafHash Hash.zero [8], DigestPair.standard.leafHash Hash.zero [9]]).issued
  claims := []

/-- The claim about the second of them. -/
def secondState : StateClaim := ⟨⟨producing.disclosure.id, 1⟩, [9], Hash.zero⟩

/-- A transaction that spends it. -/
def consuming : Payload where
  disclosure := (disclosureOfStates
    [(Field.stateRef secondState.stateRef).bytes, Participant.standard.inputFiller]
    [Hash.fill 1, Hash.fill 2] []).issued
  claims := [secondState]

/-- The first transaction refers to nothing, so it is accepted whatever is known. -/
theorem exists_settle_producing (archive : Archive) :
    ∃ v, (settle archive .standard producing).1 = .ok v ∧ v.disclosure = producing.disclosure := by
  have hverifiable : Participant.standard.Verifiable producing.disclosure :=
    Participant.verifiable_issued (Disclosure.fault?_eq_none_iff.mp rfl) (by decide) (by decide)
      ⟨.inl rfl, .inr rfl, .inl rfl⟩
  obtain ⟨v, hv⟩ := Participant.exists_verifyPartial_iff.mpr hverifiable
  obtain ⟨hdisclosure, -⟩ := Participant.verifyPartial_eq_ok_iff.mp hv
  refine ⟨v, settle_eq_ok_iff.mpr ⟨hv, [], rfl, ?_, ?_⟩, hdisclosure⟩
  · exact ⟨[], by rw [hdisclosure]; rfl, fun _ hmem => absurd hmem List.not_mem_nil⟩
  · exact ⟨[], by rw [hdisclosure]; rfl, fun _ hmem => absurd hmem List.not_mem_nil⟩

/-- Once it was accepted, the claim about its second output holds. -/
theorem holds_secondState :
    secondState.Holds (run 1 [.submit .standard producing]).peek? := by
  obtain ⟨v, hv, hdisclosure⟩ := exists_settle_producing (run 1 [])
  have hfound : (run 1 [.submit .standard producing]).peek? producing.disclosure.id
      = some (.part v) := by
    have hrun : run 1 [.submit .standard producing]
        = step (run 1 []) (.submit .standard producing) := run_concat 1 [] _
    rw [hrun, step, ← hdisclosure]
    exact peek?_settle_self hv
  refine ⟨.part v, hfound, ?_, ?_⟩
  · show v.disclosure.id = _
    rw [hdisclosure]
    rfl
  · show v.disclosure.outputLeaves[1]? = some (secondState.leafHash v.disclosure.digests)
    rw [hdisclosure]
    rfl

theorem exists_settle_consuming : ∃ v,
    (settle (run 1 [.submit .standard producing]) .standard consuming).1 = .ok v ∧
    v.components? .inputs
      = some [(Field.stateRef secondState.stateRef).bytes, Participant.standard.inputFiller] := by
  have hverifiable : Participant.standard.Verifiable consuming.disclosure :=
    Participant.verifiable_issued (Disclosure.fault?_eq_none_iff.mp rfl) (by decide) (by decide)
      ⟨.inr rfl, .inl rfl, .inl rfl⟩
  obtain ⟨v, hv⟩ := Participant.exists_verifyPartial_iff.mpr hverifiable
  obtain ⟨hdisclosure, -⟩ := Participant.verifyPartial_eq_ok_iff.mp hv
  have hinputs : v.components? .inputs
      = some [(Field.stateRef secondState.stateRef).bytes, Participant.standard.inputFiller] := by
    rw [PartialView.components?, hdisclosure]
    rfl
  refine ⟨v, settle_eq_ok_iff.mpr ⟨hv, _, Participant.keyedClaims_eq rfl _, ?_, ?_⟩, hinputs⟩
  · refine ⟨_, hinputs, fun component hmem => ?_⟩
    rcases List.mem_cons.mp hmem with rfl | hmem
    · exact .inr ⟨secondState, List.lookup_cons_self, holds_secondState⟩
    · exact .inl (List.mem_singleton.mp hmem)
  · exact ⟨[], by rw [hdisclosure]; rfl, fun _ hmem => absurd hmem List.not_mem_nil⟩

/-- What the second of two transactions spends was produced by the first. -/
theorem produced_before_spent :
    ∃ v components component, (settle (run 1 [.submit .standard producing]) .standard consuming).1
        = .ok v ∧ v.components? .inputs = some components ∧ component ∈ components ∧
      ∃ k j, Participant.standard.serializer.component (.stateRef ⟨k, j⟩) = .ok component ∧
        AcceptedIn 1 [.submit .standard producing] k := by
  obtain ⟨v, haccept, hinputs⟩ := exists_settle_consuming
  obtain ⟨components, hcomponents, hall⟩ := (provenance 1 [.submit .standard producing]).2 .standard
    consuming v haccept .inputs List.mem_cons_self
  have hspent : (Field.stateRef secondState.stateRef).bytes ∈ components := by
    rw [← Option.some.inj (hinputs.symm.trans hcomponents)]
    exact List.mem_cons_self
  have hne : (Field.stateRef secondState.stateRef).bytes ≠ Participant.standard.filler .inputs := by
    -- the filler points to another position
    intro hfiller
    have hindex := congrArg StateRef.index (stateRef_eq_of_bytes_eq hfiller)
    exact absurd hindex (by decide)
  obtain ⟨k, j, -, hbytes, hearlier, -⟩ := hall _ hspent hne
  exact ⟨v, components, _, haccept, hcomponents, hspent, k, j, hbytes, hearlier⟩

end VeiledLedger.Ledger
