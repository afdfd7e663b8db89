import VeiledLedger.Grouping
import VeiledLedger.Transaction

set_option autoImplicit false

/-! # Padding

Inputs, outputs, references and signers each have a target size and a filler value that extends them
to it. Content beyond the target is an error and is never cut off. A group that is absent stays
absent. The signers of a transaction enter its tree as they are; only the list kept for the proof
witness is extended. -/

namespace VeiledLedger

/-- The size of one group and the value that fills it up. -/
structure PaddingTarget (α : Type) where
  size : UInt64
  filler : α
  deriving DecidableEq

/-- A complete declaration of sizes and fillers. -/
structure Padding where
  inputs : PaddingTarget StateRef
  outputs : PaddingTarget Output
  references : PaddingTarget StateRef
  signers : PaddingTarget PublicKey
  deriving DecidableEq

namespace Padding

/-- The target size of a role, for the roles that have one. -/
def target? (p : Padding) : Role → Option Nat
  | .inputs => some p.inputs.size.toNat
  | .outputs => some p.outputs.size.toNat
  | .references => some p.references.size.toNat
  | .signers => some p.signers.size.toNat
  | _ => none

/-- Refuses a number of components beyond the target of their role. -/
def checkSize (p : Padding) (role : Role) (count : Nat) : Except Error Unit :=
  match p.target? role with
  | some target => if target < count then .error (.oversizedGroup role count target) else .ok ()
  | none => .ok ()

/-- The components of a role followed by the filler up to the target size. -/
def padComponents (p : Padding) (role : Role) (components : List Bytes) (filler : Bytes) :
    Except Error (List Bytes) := do
  p.checkSize role components.length
  return components.rightpad ((p.target? role).getD components.length) filler

/-- Extends the group of a role to its target size, if the group is present. -/
def padGroup (p : Padding) (g : Grouping) (role : Role) (filler : Bytes) :
    Except Error Grouping :=
  if !role.isPaddable then .error (.configuration (.notPaddable role))
  else
    match h : g.groups.get? role.ordinal with
    | none => .ok g
    | some components => do
      p.checkSize role components.length
      let padded := components.rightpad ((p.target? role).getD components.length) filler
      return g.put role.ordinal padded fun hnil => by
        have := g.nonempty _ ((g.groups.mem_entries_iff _ _).mpr h)
        simp only [padded, List.rightpad, List.append_eq_nil_iff] at hnil
        exact this hnil.1

end Padding

/-! ## Declarations in the making -/

/-- A declaration of sizes and fillers in which any part may still be missing. -/
structure PaddingPlan where
  inputsSize? : Option UInt64
  inputFiller? : Option StateRef
  outputsSize? : Option UInt64
  outputFiller? : Option Output
  referencesSize? : Option UInt64
  referenceFiller? : Option StateRef
  signersSize? : Option UInt64
  signerFiller? : Option PublicKey
  deriving DecidableEq

namespace PaddingPlan

/-- The plan in which everything is missing. -/
def empty : PaddingPlan := ⟨none, none, none, none, none, none, none, none⟩

/-- The plan with one size for every role; fillers are zeros and the highest type tag. -/
def uniform (size : UInt64) : PaddingPlan where
  inputsSize? := some size
  inputFiller? := some ⟨Hash.zero, 0⟩
  outputsSize? := some size
  outputFiller? := some ⟨0xFFFFFFFF, []⟩
  referencesSize? := some size
  referenceFiller? := some ⟨Hash.zero, 0⟩
  signersSize? := some size
  signerFiller? := some (List.replicate 32 0)

/-- The target of one role, if both of its parts are given. -/
def target {α : Type} (role : Role) (size? : Option UInt64) (filler? : Option α) :
    Except Error (PaddingTarget α) := do
  let some size := size? | .error (.configuration (.sizeMissing role))
  let some filler := filler? | .error (.configuration (.fillerMissing role))
  return ⟨size, filler⟩

/-- The declaration, if nothing is missing; else the first part that is. -/
def complete (plan : PaddingPlan) : Except Error Padding := do
  let inputs ← target .inputs plan.inputsSize? plan.inputFiller?
  let outputs ← target .outputs plan.outputsSize? plan.outputFiller?
  let references ← target .references plan.referencesSize? plan.referenceFiller?
  let signers ← target .signers plan.signersSize? plan.signerFiller?
  return ⟨inputs, outputs, references, signers⟩

end PaddingPlan

end VeiledLedger
