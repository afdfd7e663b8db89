import VeiledLedger.KnownTransaction
import VeiledLedger.Proofs.PartialView

set_option autoImplicit false

/-! # Checks that look transactions up

A look-up may change the state of what is looked up in, so a check has to be followed through every
state that look-ups can lead to. While a resolver keeps giving the same answers (`Resolver.Steady`),
a check decides a condition on these answers (`Checked.Decides`); how it is put together from parts
is what its condition is put together from. -/

namespace VeiledLedger

variable {σ : Type} {resolve : Resolver σ} {ids : List Hash}
  {answers : Hash → Option KnownTransaction}

/-! ## Steady resolvers -/

/-- The states that look-ups of some ids lead to. -/
inductive Resolver.Reaches (resolve : Resolver σ) (ids : List Hash) (s : σ) : σ → Prop where
  | start : Reaches resolve ids s s
  | lookup {t : σ} {id : Hash} (ht : Reaches resolve ids s t) (hid : id ∈ ids) :
      Reaches resolve ids s ((resolve id).run t).2

/-- From a state on, look-ups of some ids do not fail and always give the same answers. -/
def Resolver.Steady (resolve : Resolver σ) (ids : List Hash) (s : σ)
    (answers : Hash → Option KnownTransaction) : Prop :=
  ∀ t, resolve.Reaches ids s t → ∀ id ∈ ids, ((resolve id).run t).1 = .ok (answers id)

theorem Resolver.Reaches.trans {s t u : σ} (hst : resolve.Reaches ids s t)
    (htu : resolve.Reaches ids t u) : resolve.Reaches ids s u := by
  induction htu with
  | start => exact hst
  | lookup _ hid ih => exact .lookup ih hid

theorem Resolver.Steady.after {s : σ} (h : resolve.Steady ids s answers) {id : Hash}
    (hid : id ∈ ids) : resolve.Steady ids ((resolve id).run s).2 answers :=
  fun t ht => h t (.trans (.lookup .start hid) ht)

/-- An invariant of look-ups under which the answers are fixed makes a resolver steady. -/
theorem Resolver.steady_of_invariant (inv : σ → Prop) {s : σ} (hs : inv s)
    (hanswer : ∀ t, inv t → ∀ id ∈ ids, ((resolve id).run t).1 = .ok (answers id))
    (hstep : ∀ t, inv t → ∀ id ∈ ids, inv ((resolve id).run t).2) :
    resolve.Steady ids s answers := by
  intro t ht
  refine hanswer t ?_
  induction ht with
  | start => exact hs
  | lookup _ hid ih => exact hstep _ ih _ hid

/-! ## Deciding a condition -/

/-- Under a steady resolver a check leaves the resolver steady, and passes exactly if a condition
holds. -/
def Checked.Decides (resolve : Resolver σ) (ids : List Hash)
    (answers : Hash → Option KnownTransaction) (x : Checked σ Unit) (holds : Prop) : Prop :=
  ∀ s, resolve.Steady ids s answers → resolve.Steady ids (x.run.run s).2 answers ∧
    ((x.run.run s).1 = .ok () ↔ holds)

namespace Checked

variable {x y : Checked σ Unit} {P Q : Prop}

theorem decides_pure : Decides resolve ids answers (pure ()) True :=
  fun _ hs => ⟨hs, iff_true_intro rfl⟩

theorem decides_throw (e : Error) : Decides resolve ids answers (throw e) False :=
  fun _ hs => ⟨hs, iff_false_intro fun h => by cases h⟩

theorem run_lift {α : Type} (x : StateM σ α) (s : σ) :
    (liftM x : Checked σ α).run.run s = (.ok (x.run s).1, (x.run s).2) := rfl

theorem run_bind {α β : Type} (x : Checked σ α) (f : α → Checked σ β) (s : σ) :
    (x >>= f).run.run s = match x.run.run s with
      | (.ok a, t) => (f a).run.run t
      | (.error e, t) => (.error e, t) := by
  rw [ExceptT.run_bind, StateT.run_bind]
  rcases x.run.run s with ⟨e | a, t⟩
  · rfl
  · rfl

/-- Two checks in a row decide both conditions. -/
theorem Decides.bind (hx : Decides resolve ids answers x P) (hy : Decides resolve ids answers y Q) :
    Decides resolve ids answers (x >>= fun _ => y) (P ∧ Q) := by
  intro s hs
  obtain ⟨hafter, hpass⟩ := hx s hs
  rw [run_bind]
  rcases hrun : x.run.run s with ⟨e | ⟨⟩, t⟩
  · rw [hrun] at hafter hpass
    refine ⟨hafter, iff_of_false (fun h => by cases h) fun h => ?_⟩
    cases hpass.mpr h.1
  · rw [hrun] at hafter hpass
    have hP : P := hpass.mp rfl
    obtain ⟨hend, hQ⟩ := hy t hafter
    exact ⟨hend, hQ.trans ⟨fun h => ⟨hP, h⟩, fun h => h.2⟩⟩

theorem Decides.congr (hx : Decides resolve ids answers x P) (h : P ↔ Q) :
    Decides resolve ids answers x Q :=
  fun s hs => ⟨(hx s hs).1, (hx s hs).2.trans h⟩

end Checked

/-! ## Claims -/

namespace StateClaim

/-- The transaction that a claim names has the claimed output, as far as the answers go. -/
def Holds (answers : Hash → Option KnownTransaction) (c : StateClaim) : Prop :=
  ∃ prior, answers c.stateRef.txId = some prior ∧ prior.id = c.stateRef.txId ∧
    prior.outputLeaves[c.stateRef.index.toNat]? = some (c.leafHash prior.digests)

theorem verifyAgainst_eq_ok_iff {c : StateClaim} {prior : KnownTransaction} :
    c.verifyAgainst prior = .ok () ↔ prior.id = c.stateRef.txId ∧
      prior.outputLeaves[c.stateRef.index.toNat]? = some (c.leafHash prior.digests) := by
  unfold verifyAgainst
  by_cases hid : prior.id = c.stateRef.txId
  · rw [if_neg (not_not.mpr hid)]
    cases prior.outputLeaves[c.stateRef.index.toNat]? with
    | none => simp
    | some recorded =>
      by_cases hleaf : c.leafHash prior.digests = recorded
      · simp [hid, hleaf]
      · simp [hleaf, Ne.symm hleaf]
  · simp [hid]

/-- One transaction is looked up for a claim, and nothing else decides on it. -/
theorem run_verify (c : StateClaim) (resolve : Resolver σ) (s : σ) :
    (c.verify resolve).run.run s =
      (match ((resolve c.stateRef.txId).run s).1 with
        | .ok (some prior) => c.verifyAgainst prior
        | .ok none => .error (.unknownTransaction c.stateRef.txId)
        | .error fault => .error (.storage fault), ((resolve c.stateRef.txId).run s).2) := by
  unfold verify Resolver.find
  rw [Checked.run_bind, Checked.run_bind, Checked.run_lift]
  rcases (resolve c.stateRef.txId).run s with ⟨fault | _ | prior, t⟩
  · rfl
  · rfl
  · show (MonadExcept.ofExcept (c.verifyAgainst prior) : Checked σ Unit).run.run t
      = (c.verifyAgainst prior, t)
    cases c.verifyAgainst prior <;> rfl

theorem verify_eq_ok_iff {c : StateClaim} {s : σ} :
    ((c.verify resolve).run.run s).1 = .ok () ↔ ∃ prior,
      ((resolve c.stateRef.txId).run s).1 = .ok (some prior) ∧ prior.id = c.stateRef.txId ∧
        prior.outputLeaves[c.stateRef.index.toNat]? = some (c.leafHash prior.digests) := by
  rw [run_verify]
  rcases ((resolve c.stateRef.txId).run s).1 with fault | _ | prior
  · simp
  · simp
  · simp [verifyAgainst_eq_ok_iff]

theorem decides_verify {c : StateClaim} (hid : c.stateRef.txId ∈ ids) :
    Checked.Decides resolve ids answers (c.verify resolve) (c.Holds answers) := by
  intro s hs
  have hanswer := hs s .start _ hid
  refine ⟨?_, ?_⟩
  · rw [run_verify]
    exact hs.after hid
  · rw [verify_eq_ok_iff, hanswer]
    simp [Holds]

end StateClaim

end VeiledLedger
