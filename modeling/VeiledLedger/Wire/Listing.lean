import VeiledLedger.Wire.Binary
import VeiledLedger.Wire.Formats
import VeiledLedger.Wire.JsonForm

set_option autoImplicit false

/-! # Listings

A disclosure has three maps. On the wire a map is a list of ordinals with their values, and nothing
keeps a sender from listing an ordinal again. A listing has these lists as they were sent; the
disclosure that is read has the maps that are left when the entries are put in one after another
(`Disclosure.Listing.kept`). -/

namespace VeiledLedger

open Wire

/-- What is left of a listing: of every group the entry that is listed last. -/
def Disclosure.Listing.kept (l : Disclosure.Listing) : Disclosure where
  digests := l.digests
  components := .ofList l.components
  nonces := .ofList l.nonces
  hiddenRoots := .ofList l.hiddenRoots
  outputLeaves := l.outputLeaves
  topRoots := l.topRoots
  id := l.id

/-- What is left of the listing of a payload. -/
def Payload.Listing.kept (l : Payload.Listing) : Payload := ⟨l.disclosure.kept, l.claims⟩

/-- The number of groups that are listed, each as often as it is listed. -/
def Disclosure.Listing.size (l : Disclosure.Listing) : Nat :=
  l.components.length + l.nonces.length + l.hiddenRoots.length

/-- One of the lists has a group twice. -/
def Disclosure.Listing.RepeatsGroup (l : Disclosure.Listing) : Prop :=
  ¬ (l.components.map (·.1)).Nodup ∨ ¬ (l.nonces.map (·.1)).Nodup ∨
    ¬ (l.hiddenRoots.map (·.1)).Nodup

/-- The number of groups in the maps of a disclosure. -/
def Disclosure.size (d : Disclosure) : Nat :=
  d.components.size + d.nonces.size + d.hiddenRoots.size

/-! ## Messages -/

/-- What travels, in one of the two wire forms. -/
inductive Message where
  | binary (bytes : Bytes)
  | json (text : String)

/-- The value of a schema that a message is read as. -/
def Message.value? {α : Type} (s : Schema α) : Message → Option α
  | .binary bytes => (Binary.decodeFront s bytes).toOption
  | .json text => JsonForm.ofText? s text

end VeiledLedger
