import VeiledLedger.Archive
import VeiledLedger.Participant

set_option autoImplicit false

/-! # Ledgers

A ledger is an archive that participants settle transactions on: a participant decides on a payload
against the archive, and the view that it accepts is recorded there. Between settlements anyone may
look transactions up, which touches them. A run is the archive that a list of such events leaves,
from an archive without transactions on. -/

namespace VeiledLedger.Ledger

/-- What happens to a ledger. -/
inductive Event where
  | lookup (id : Hash)
  /-- A participant decides on a payload. -/
  | submit (participant : Participant) (payload : Payload)

/-- The decision of a participant on a payload, and the archive after it: with the view that was
accepted, or with nothing but the traces of look-ups if none was. -/
def settle (archive : Archive) (p : Participant) (x : Payload) :
    Except Error PartialView × Archive :=
  match (p.accept Archive.resolver x).run.run archive with
  | (.ok view, archive) => (.ok view, archive.insert (.part view))
  | (.error e, archive) => (.error e, archive)

/-- The archive after an event. -/
def step (archive : Archive) : Event → Archive
  | .lookup id => (archive.get? id).2
  | .submit p x => (settle archive p x).2

/-- The archive of some capacity after some events. -/
def run (capacity : Nat) (events : List Event) : Archive := events.foldl step (.empty capacity)

end VeiledLedger.Ledger
