import Mathlib.Data.List.Find
import Mathlib.Data.List.Nodup
import VeiledLedger.Proofs.Participant

set_option autoImplicit false

/-! # The order of claims

Claims are looked up by the binary forms of their states, and of several claims with one state the
first counts. So what becomes of the inputs of a view is settled by the first claim about each state
that the view mentions, and by what look-ups give for these claims. Where claims stand, and which
other ones stand between them, plays no part: the two computations are one. If the look-ups give the
same answers, faults included, the states in which they start play no part either
(`Checked.Determined`). -/

namespace VeiledLedger

variable {σ : Type} {resolve : Resolver σ} {ids : List Hash}
  {answers : Hash → Except StorageFault (Option KnownTransaction)}

/-! ## Fixed answers -/

/-- From a state on, look-ups of some ids always give the same answers or faults. A steady resolver is
one whose fixed answers are no faults. -/
def Resolver.Fixed (resolve : Resolver σ) (ids : List Hash) (s : σ)
    (answers : Hash → Except StorageFault (Option KnownTransaction)) : Prop :=
  ∀ t, resolve.Reaches ids s t → ∀ id ∈ ids, ((resolve id).run t).1 = answers id

theorem Resolver.Fixed.after {s : σ} (h : resolve.Fixed ids s answers) {id : Hash}
    (hid : id ∈ ids) : resolve.Fixed ids ((resolve id).run s).2 answers :=
  fun t ht => h t (.trans (.lookup .start hid) ht)

/-- As long as answers are fixed, a check leaves them fixed and has one result from every state. -/
def Checked.Determined (resolve : Resolver σ) (ids : List Hash)
    (answers : Hash → Except StorageFault (Option KnownTransaction)) (x : Checked σ Unit) : Prop :=
  ∃ result, ∀ s, resolve.Fixed ids s answers →
    resolve.Fixed ids (x.run.run s).2 answers ∧ (x.run.run s).1 = result

namespace Checked

variable {x y : Checked σ Unit}

theorem determined_pure : Determined resolve ids answers (pure ()) :=
  ⟨.ok (), fun _ hs => ⟨hs, rfl⟩⟩

theorem determined_throw (e : Error) : Determined resolve ids answers (throw e) :=
  ⟨.error e, fun _ hs => ⟨hs, rfl⟩⟩

theorem Determined.bind (hx : Determined resolve ids answers x)
    (hy : Determined resolve ids answers y) :
    Determined resolve ids answers (x >>= fun _ => y) := by
  obtain ⟨first, hx⟩ := hx
  obtain ⟨second, hy⟩ := hy
  cases first with
  | error e =>
    refine ⟨.error e, fun s hs => ?_⟩
    obtain ⟨hafter, hresult⟩ := hx s hs
    rw [run_bind]
    rcases hrun : x.run.run s with ⟨e' | ⟨⟩, t⟩
    · rw [hrun] at hafter hresult
      exact ⟨hafter, hresult⟩
    · simp [hrun] at hresult
  | ok _ =>
    refine ⟨second, fun s hs => ?_⟩
    obtain ⟨hafter, hresult⟩ := hx s hs
    rw [run_bind]
    rcases hrun : x.run.run s with ⟨e' | ⟨⟩, t⟩
    · simp [hrun] at hresult
    · rw [hrun] at hafter
      exact hy t hafter

end Checked

open Checked

theorem StateClaim.determined_verify {c : StateClaim} (hid : c.stateRef.txId ∈ ids) :
    Determined resolve ids answers (c.verify resolve) := by
  -- the result is the one against a table of the answers
  let table : Resolver Unit := fun id => pure (answers id)
  refine ⟨((c.verify table).run.run ()).1, fun s hs => ?_⟩
  rw [c.run_verify, c.run_verify, hs s .start _ hid]
  exact ⟨hs.after hid, rfl⟩

namespace Participant

variable {p : Participant} {v : PartialView} {claims c₁ c₂ : List StateClaim}
  {k₁ k₂ : List (Bytes × StateClaim)} {filler : Bytes} {role : Role}

theorem determined_checkStates {components : List Bytes} (hids : Covers ids k₁ filler components)
    (role : Role) (i : Nat) :
    Determined resolve ids answers (checkStates resolve k₁ role filler i components) := by
  induction components generalizing i with
  | nil => exact determined_pure
  | cons component rest ih =>
    obtain ⟨hhead, htail⟩ := List.forall_mem_cons.mp hids
    unfold checkStates
    refine Determined.bind ?_ (ih htail (i + 1))
    unfold checkState
    by_cases hfiller : component = filler
    · rw [if_pos hfiller]
      exact determined_pure
    · rw [if_neg hfiller]
      cases hfind : k₁.lookup component with
      | none => exact determined_throw _
      | some claim => exact StateClaim.determined_verify (hhead hfiller claim hfind)

theorem determined_verifyInputs (hids : ∀ c ∈ claims, c.stateRef.txId ∈ ids) :
    Determined resolve ids answers (p.verifyInputs resolve v claims) := by
  unfold verifyInputs
  cases hkeyed : p.keyedClaims claims with
  | error e => exact determined_throw e
  | ok keyed =>
    have hentries : ∀ e ∈ keyed, e.2.stateRef.txId ∈ ids :=
      fun e he => hids _ (mem_of_keyedClaims hkeyed he).1
    have hrole (role : Role) :
        Determined resolve ids answers (p.checkRole resolve keyed v role) := by
      unfold checkRole
      cases v.components? role with
      | none => exact determined_throw _
      | some components => exact determined_checkStates (covers_of_forall hentries _ _) role 0
    exact (hrole .inputs).bind (hrole .references)

/-! ## The first claim about a state -/

/-- A view mentions a state as an input or a reference, and not as filler. -/
def Mentions (p : Participant) (v : PartialView) (r : StateRef) : Prop :=
  ∃ role ∈ [Role.inputs, Role.references], ∃ components, v.components? role = some components ∧
    (Field.stateRef r).bytes ∈ components ∧ (Field.stateRef r).bytes ≠ p.filler role

/-- The first claim about a state. -/
def firstClaim? (claims : List StateClaim) (r : StateRef) : Option StateClaim :=
  claims.find? fun c => c.stateRef = r

theorem lookup_keyed_stateRef (claims : List StateClaim) (r : StateRef) :
    (keyed claims).lookup (Field.stateRef r).bytes = firstClaim? claims r := by
  rw [lookup_keyed]
  refine List.find?_congr fun c _ => ?_
  have hiff : (Field.stateRef c.stateRef).bytes = (Field.stateRef r).bytes ↔ c.stateRef = r :=
    ⟨stateRef_eq_of_bytes_eq, fun h => by rw [h]⟩
  simp only [hiff]

/-- Octets that no state has are not found. -/
theorem lookup_keyed_eq_none {component : Bytes}
    (h : ∀ r : StateRef, (Field.stateRef r).bytes ≠ component) (claims : List StateClaim) :
    (keyed claims).lookup component = none := by
  rw [lookup_keyed, List.find?_eq_none]
  intro c _
  simpa using h c.stateRef

theorem checkStates_congr {components : List Bytes}
    (h : ∀ component ∈ components, component ≠ filler → k₁.lookup component = k₂.lookup component)
    (resolve : Resolver σ) (role : Role) (i : Nat) :
    checkStates resolve k₁ role filler i components
      = checkStates resolve k₂ role filler i components := by
  induction components generalizing i with
  | nil => rfl
  | cons component rest ih =>
    obtain ⟨hhead, htail⟩ := List.forall_mem_cons.mp h
    have hstate : checkState resolve k₁ role filler i component
        = checkState resolve k₂ role filler i component := by
      unfold checkState
      split
      · rfl
      · next hfiller => rw [hhead hfiller]
    rw [checkStates, checkStates, hstate, ih htail]

/-- For every state that a view mentions two lists have the same first claim, or none. -/
def SameFirstClaims (p : Participant) (v : PartialView) (c₁ c₂ : List StateClaim) : Prop :=
  ∀ r, p.Mentions v r → firstClaim? c₁ r = firstClaim? c₂ r

theorem SameFirstClaims.checkRole_eq (h : p.SameFirstClaims v c₁ c₂) (resolve : Resolver σ)
    (hrole : role ∈ [Role.inputs, Role.references]) :
    p.checkRole resolve (keyed c₁) v role = p.checkRole resolve (keyed c₂) v role := by
  unfold checkRole
  cases hcomponents : v.components? role with
  | none => rfl
  | some components =>
    refine checkStates_congr (fun component hmem hfiller => ?_) resolve role 0
    by_cases hstate : ∃ r : StateRef, (Field.stateRef r).bytes = component
    · obtain ⟨r, rfl⟩ := hstate
      rw [lookup_keyed_stateRef, lookup_keyed_stateRef]
      exact h r ⟨role, hrole, components, hcomponents, hmem, hfiller⟩
    · have hno : ∀ r : StateRef, (Field.stateRef r).bytes ≠ component := not_exists.mp hstate
      rw [lookup_keyed_eq_none hno, lookup_keyed_eq_none hno]

theorem SameFirstClaims.verifyInputs_eq (h : p.SameFirstClaims v c₁ c₂)
    (hbinary : p.serializer = .binary) (resolve : Resolver σ) :
    p.verifyInputs resolve v c₁ = p.verifyInputs resolve v c₂ := by
  unfold verifyInputs
  rw [keyedClaims_eq hbinary, keyedClaims_eq hbinary]
  show (p.checkRole resolve (keyed c₁) v .inputs >>= fun _ =>
      p.checkRole resolve (keyed c₁) v .references)
    = (p.checkRole resolve (keyed c₂) v .inputs >>= fun _ =>
      p.checkRole resolve (keyed c₂) v .references)
  rw [h.checkRole_eq resolve (by decide), h.checkRole_eq resolve (by decide)]

theorem firstClaim?_eq_some_iff (hnodup : (claims.map (·.stateRef)).Nodup) {r : StateRef}
    {c : StateClaim} : firstClaim? claims r = some c ↔ c ∈ claims ∧ c.stateRef = r := by
  unfold firstClaim?
  constructor
  · intro h
    exact ⟨List.mem_of_find?_eq_some h, by simpa using List.find?_some h⟩
  · rintro ⟨hmem, rfl⟩
    cases h : claims.find? fun other => other.stateRef = c.stateRef with
    | none => simpa using List.find?_eq_none.mp h c hmem
    | some other =>
      have hsame : other.stateRef = c.stateRef := by simpa using List.find?_some h
      rw [List.inj_on_of_nodup_map hnodup (List.mem_of_find?_eq_some h) hmem hsame]

/-- Claims about different states can be rearranged. -/
theorem firstClaim?_perm (hperm : c₁.Perm c₂) (hnodup : (c₁.map (·.stateRef)).Nodup)
    (r : StateRef) : firstClaim? c₁ r = firstClaim? c₂ r := by
  have hnodup₂ : (c₂.map (·.stateRef)).Nodup := (hperm.map _).nodup_iff.mp hnodup
  refine Option.ext fun c => ?_
  rw [firstClaim?_eq_some_iff hnodup, firstClaim?_eq_some_iff hnodup₂, hperm.mem_iff]

/-- Claims about other states can be left out. -/
theorem firstClaim?_filter {keep : StateClaim → Bool} {r : StateRef}
    (h : ∀ c ∈ claims, keep c = false → c.stateRef ≠ r) :
    firstClaim? (claims.filter keep) r = firstClaim? claims r := by
  rw [firstClaim?, List.find?_filter]
  refine List.find?_congr fun c hc => ?_
  by_cases hr : c.stateRef = r
  · have hkeep : keep c = true := by
      by_contra hdropped
      exact h c hc (Bool.not_eq_true _ ▸ hdropped) hr
    simp [hr, hkeep]
  · simp [hr]

/-- Two lists of claims cannot be told apart by what becomes of the inputs of a view. The checks are
one computation, for every storage. From two states of a storage in which the same answers are
fixed, they have one result. -/
structure Interchangeable (p : Participant) (v : PartialView) (c₁ c₂ : List StateClaim) : Prop where
  verifyInputs_eq {σ : Type} (resolve : Resolver σ) :
    p.verifyInputs resolve v c₁ = p.verifyInputs resolve v c₂
  result_eq {σ : Type} (resolve : Resolver σ) (s t : σ)
    (answers : Hash → Except StorageFault (Option KnownTransaction)) :
    resolve.Fixed ((c₁ ++ c₂).map (·.stateRef.txId)) s answers →
    resolve.Fixed ((c₁ ++ c₂).map (·.stateRef.txId)) t answers →
    ((p.verifyInputs resolve v c₁).run.run s).1 = ((p.verifyInputs resolve v c₂).run.run t).1

theorem SameFirstClaims.interchangeable (h : p.SameFirstClaims v c₁ c₂)
    (hbinary : p.serializer = .binary) : p.Interchangeable v c₁ c₂ := by
  refine ⟨h.verifyInputs_eq hbinary, fun resolve s t answers hs ht => ?_⟩
  have hids : ∀ c ∈ c₁, c.stateRef.txId ∈ (c₁ ++ c₂).map (·.stateRef.txId) :=
    fun c hc => List.mem_map_of_mem (List.mem_append_left _ hc)
  obtain ⟨result, hresult⟩ := determined_verifyInputs (p := p) (v := v) hids
  rw [← h.verifyInputs_eq hbinary, (hresult s hs).2, (hresult t ht).2]

/-- What becomes of the inputs of a view depends on the first claim about each state that the view
mentions, and on nothing else about the claims. So claims about different states can be rearranged,
and claims about states that the view does not mention can be put in or left out. -/
theorem interchangeable_of_first_claims (hbinary : p.serializer = .binary) (v : PartialView) :
    (∀ c₁ c₂, p.SameFirstClaims v c₁ c₂ → p.Interchangeable v c₁ c₂) ∧
    (∀ c₁ c₂ : List StateClaim, c₁.Perm c₂ → (c₁.map (·.stateRef)).Nodup →
      p.Interchangeable v c₁ c₂) ∧
    ∀ (claims : List StateClaim) (keep : StateClaim → Bool),
      (∀ c ∈ claims, keep c = false → ¬ p.Mentions v c.stateRef) →
      p.Interchangeable v (claims.filter keep) claims := by
  refine ⟨?_, ?_, ?_⟩
  · intro c₁ c₂ h
    exact h.interchangeable hbinary
  · intro c₁ c₂ hperm hnodup
    have hfirst : p.SameFirstClaims v c₁ c₂ := fun r _ => firstClaim?_perm hperm hnodup r
    exact hfirst.interchangeable hbinary
  · intro claims keep hdropped
    have hfirst : p.SameFirstClaims v (claims.filter keep) claims := by
      intro r hr
      refine firstClaim?_filter fun c hc hkeep heq => ?_
      exact hdropped c hc hkeep (heq ▸ hr)
    exact hfirst.interchangeable hbinary

/-- A claim about a state, and one about another state. -/
def spentClaim : StateClaim := ⟨⟨Hash.fill 1, 0⟩, [9], Hash.zero⟩

def strayClaim : StateClaim := ⟨⟨Hash.fill 2, 5⟩, [7], Hash.zero⟩

/-- A view that spends the first of these states. -/
def spendingView : PartialView where
  disclosure :=
    { digests := .standard
      components := .ofList
        [(Role.inputs.ordinal, [(Field.stateRef spentClaim.stateRef).bytes, standard.inputFiller]),
          (Role.references.ordinal, [])]
      nonces := .ofList
        [(Role.inputs.ordinal, [Hash.fill 1, Hash.fill 2]), (Role.references.ordinal, [])]
      hiddenRoots := .empty
      outputLeaves := []
      topRoots := []
      id := Hash.zero }
  roots := _
  top := _
  root := _
  fault_eq := rfl
  roots_eq := rfl
  top_eq := rfl
  root_eq := rfl

theorem not_mentions_strayClaim : ¬ standard.Mentions spendingView strayClaim.stateRef := by
  rintro ⟨role, hrole, components, hcomponents, hmem, -⟩
  rcases List.mem_pair.mp hrole with rfl | rfl
  · obtain rfl := Option.some.inj hcomponents
    exact absurd hmem (by decide)
  · obtain rfl := Option.some.inj hcomponents
    exact absurd hmem List.not_mem_nil

/-- Both orders of the two claims, and the first claim alone, cannot be told apart, also not by
asking different archives that know nothing. -/
theorem interchangeable_of_first_claims_spendingView :
    standard.Interchangeable spendingView [spentClaim, strayClaim] [strayClaim, spentClaim] ∧
    standard.Interchangeable spendingView [spentClaim] [spentClaim, strayClaim] ∧
    ((standard.verifyInputs Archive.resolver spendingView [spentClaim, strayClaim]).run.run
        (Archive.empty 1)).1
      = ((standard.verifyInputs Archive.resolver spendingView [strayClaim, spentClaim]).run.run
        (Archive.empty 2)).1 := by
  obtain ⟨-, hperm, hfilter⟩ :=
    interchangeable_of_first_claims (p := standard) rfl spendingView
  have hswapped := hperm [spentClaim, strayClaim] [strayClaim, spentClaim]
    (List.Perm.swap _ _ _) (by decide)
  refine ⟨hswapped, ?_, ?_⟩
  · refine hfilter [spentClaim, strayClaim] (fun c => c.stateRef = spentClaim.stateRef)
      fun c hc hdropped => ?_
    rcases List.mem_pair.mp hc with rfl | rfl
    · cases hdropped
    · exact not_mentions_strayClaim
  · exact hswapped.result_eq Archive.resolver _ _ (fun _ => .ok none)
      (Archive.steady_resolver _ _) (Archive.steady_resolver _ _)

end Participant

end VeiledLedger
