import VeiledLedger.FullView

set_option autoImplicit false

/-! # Transactions that others refer to

A transaction is known either in full or as a partial view; a check across transactions asks the
same questions of both. A `Resolver` looks a transaction up by its id; the look-up may fail, and it
may change the state of what is looked up in. -/

namespace VeiledLedger

/-- A transaction known in full or in part. -/
inductive KnownTransaction where
  | full (view : FullView)
  | part (view : PartialView)

namespace KnownTransaction

/-- The transaction id: computed for a full view, claimed for a partial one. -/
def id : KnownTransaction → Hash
  | full v => v.id
  | part v => v.id

/-- The root of the top-level list as this side computed it. -/
def root : KnownTransaction → Hash
  | full v => v.tree.root
  | part v => v.root

/-- The digests of the transaction. -/
def digests : KnownTransaction → DigestPair
  | full v => v.digests
  | part v => v.digests

/-- The roots of the groups that are known. -/
def roots : KnownTransaction → GroupMap Hash
  | full v => v.tree.roots
  | part v => v.roots

/-- The nonces that are known. -/
def nonces : KnownTransaction → GroupMap (List Hash)
  | full v => v.tree.nonces
  | part v => v.nonces

/-- The leaves of the outputs. -/
def outputLeaves : KnownTransaction → List Hash
  | full v => v.outputLeaves
  | part v => v.outputLeaves

/-- Whether everything is known. -/
def isFull : KnownTransaction → Bool
  | full _ => true
  | part _ => false

end KnownTransaction

/-- Looks up transactions by their ids in something with states in `σ`. -/
abbrev Resolver (σ : Type) := Hash → StateM σ (Except StorageFault (Option KnownTransaction))

/-- A check that may look transactions up; what the look-ups did to the state stays done when the
check fails. -/
abbrev Checked (σ : Type) := ExceptT Error (StateM σ)

/-- The transaction with an id, if it is known. -/
def Resolver.find {σ : Type} (resolve : Resolver σ) (id : Hash) :
    Checked σ (Option KnownTransaction) := do
  match ← resolve id with
  | .ok found => return found
  | .error fault => throw (.storage fault)

namespace StateClaim

/-- Compares a claim with the transaction that it names. -/
def verifyAgainst (c : StateClaim) (prior : KnownTransaction) : Except Error Unit :=
  if prior.id ≠ c.stateRef.txId then
    .error (.hashMismatch .resolvedId c.stateRef.txId prior.id)
  else
    match prior.outputLeaves[c.stateRef.index.toNat]? with
    | none => .error (.outputNotFound c.stateRef.txId c.stateRef.index)
    | some recorded =>
      let computed := c.leafHash prior.digests
      if computed = recorded then .ok ()
      else .error (.hashMismatch (.outputLeaf c.stateRef.index) recorded computed)

/-- Resolves the transaction that a claim names, and compares the claim with it. -/
def verify {σ : Type} (c : StateClaim) (resolve : Resolver σ) : Checked σ Unit := do
  match ← resolve.find c.stateRef.txId with
  | none => throw (.unknownTransaction c.stateRef.txId)
  | some prior => MonadExcept.ofExcept (c.verifyAgainst prior)

end StateClaim

end VeiledLedger
