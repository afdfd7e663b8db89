import VeiledLedger.PartialView
import VeiledLedger.StateClaim

set_option autoImplicit false

/-! # Payloads

What travels from the author of a transaction to its verifier: the disclosure, and one claim for
every state that the transaction spends or refers to. -/

namespace VeiledLedger

/-- A disclosed transaction with claims about the states that it spends or refers to. -/
structure Payload where
  disclosure : Disclosure
  claims : List StateClaim
  deriving DecidableEq

/-- The view of the disclosed transaction, checked against its id. The claims are not looked at. -/
def Payload.view (p : Payload) : Except Error PartialView := do
  let view ← PartialView.reconstruct p.disclosure
  view.verify
  return view

end VeiledLedger
