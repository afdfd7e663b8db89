import VeiledLedger.KnownTransaction
import VeiledLedger.Payload
import VeiledLedger.Policy

set_option autoImplicit false

/-! # Participants

A participant builds transactions under its policy and decides on those of others. To accept a
transaction it rebuilds the view from the disclosure, checks it against its id, requires the
mandatory groups and the padded sizes, and requires a verified claim behind every state that is
spent or referred to. Only a policy with separated digests and complete padding makes a participant;
this is part of the type, as are the serialized fillers, which are no states and need no claim. -/

namespace VeiledLedger

/-- A participant of the ledger. -/
structure Participant where
  policy : Policy
  padding : Padding
  serializer : Serializer
  inputFiller : Bytes
  referenceFiller : Bytes
  separated : policy.digests.Separated
  padding_eq : policy.padding.complete = .ok padding
  inputFiller_eq : serializer.component (.stateRef padding.inputs.filler) = .ok inputFiller
  referenceFiller_eq :
    serializer.component (.stateRef padding.references.filler) = .ok referenceFiller

namespace Participant

/-- The participant with a policy and a serializer. -/
def create (policy : Policy) (z : Serializer) : Except Error Participant :=
  if separated : policy.digests.Separated then
    match padding_eq : policy.padding.complete with
    | .error e => .error e
    | .ok padding =>
      match inputFiller_eq : z.component (.stateRef padding.inputs.filler) with
      | .error e => .error e
      | .ok inputFiller =>
        match referenceFiller_eq : z.component (.stateRef padding.references.filler) with
        | .error e => .error e
        | .ok referenceFiller =>
          .ok ⟨policy, padding, z, inputFiller, referenceFiller, separated, padding_eq,
            inputFiller_eq, referenceFiller_eq⟩
  else .error (.configuration (.sharedDigest policy.leafDigest))

/-! ## The author's side -/

/-- The view of a body under the participant's policy. -/
def build (p : Participant) (body : Body) (salt : Salt) : Except Error FullView :=
  FullView.build body p.padding salt p.policy.digests p.serializer

/-- What the author sends: the disclosure of a transaction, with claims. -/
def disclose (view : FullView) (claims : List StateClaim) : Payload := ⟨view.disclosure, claims⟩

/-! ## The verifier's side -/

/-- The view of a disclosure that is fit for validation. -/
def verifyPartial (p : Participant) (d : Disclosure) : Except Error PartialView := do
  let view ← PartialView.reconstruct d
  view.verifyForValidation
  view.verifySizes p.padding
  return view

/-- The component of a role that stands for no state. -/
def filler (p : Participant) : Role → Bytes
  | .references => p.referenceFiller
  | _ => p.inputFiller

/-- Claims with the bytes of the states that they are about. -/
def keyedClaims (p : Participant) (claims : List StateClaim) :
    Except Error (List (Bytes × StateClaim)) :=
  claims.mapM fun c => do return (← p.serializer.component (.stateRef c.stateRef), c)

variable {σ : Type}

/-- A component that is no filler needs a claim, and the first one for it must be verified. -/
def checkState (resolve : Resolver σ) (claims : List (Bytes × StateClaim)) (role : Role)
    (filler : Bytes) (i : Nat) (component : Bytes) : Checked σ Unit :=
  if component = filler then pure ()
  else
    match claims.lookup component with
    | none => throw (.unprovenState role i)
    | some claim => claim.verify resolve

/-- Checks the components of a role in order, their positions counted from a start. -/
def checkStates (resolve : Resolver σ) (claims : List (Bytes × StateClaim)) (role : Role)
    (filler : Bytes) : Nat → List Bytes → Checked σ Unit
  | _, [] => pure ()
  | i, component :: rest => do
    checkState resolve claims role filler i component
    checkStates resolve claims role filler (i + 1) rest

/-- Checks the components of a role, which must be disclosed. -/
def checkRole (p : Participant) (resolve : Resolver σ) (claims : List (Bytes × StateClaim))
    (view : PartialView) (role : Role) : Checked σ Unit :=
  match view.components? role with
  | none => throw (.undisclosedGroup role)
  | some components => checkStates resolve claims role (p.filler role) 0 components

/-- Every state that is spent or referred to has a verified claim. -/
def verifyInputs (p : Participant) (resolve : Resolver σ) (view : PartialView)
    (claims : List StateClaim) : Checked σ Unit := do
  -- claims are serialized first, also those that no component asks for
  let keyed ← MonadExcept.ofExcept (p.keyedClaims claims)
  p.checkRole resolve keyed view .inputs
  p.checkRole resolve keyed view .references

/-- The view of a transaction that passes every check. -/
def accept (p : Participant) (resolve : Resolver σ) (payload : Payload) :
    Checked σ PartialView := do
  let view ← MonadExcept.ofExcept (p.verifyPartial payload.disclosure)
  p.verifyInputs resolve view payload.claims
  return view

end Participant

end VeiledLedger
