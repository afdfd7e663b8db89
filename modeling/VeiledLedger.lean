import VeiledLedger.Archive
import VeiledLedger.Participant
import VeiledLedger.Proofs.ComponentProof
import VeiledLedger.Proofs.DisclosureBinding
import VeiledLedger.Proofs.FixedWidth
import VeiledLedger.Proofs.FullViewBinding
import VeiledLedger.Proofs.TreeHeight
import VeiledLedger.Version
import VeiledLedger.Wire.Binary
import VeiledLedger.Wire.FieldBytes
import VeiledLedger.Wire.Formats
import VeiledLedger.Wire.JsonForm
import VeiledLedger.Ledger
import VeiledLedger.Proofs.Ledger
import VeiledLedger.Proofs.StateClaim
import VeiledLedger.Proofs.Withholding
import VeiledLedger.Proofs.AddedGroups
import VeiledLedger.Proofs.BinaryRoundTrip
import VeiledLedger.Proofs.RepeatedGroups
import VeiledLedger.Proofs.VerifierView
import VeiledLedger.Proofs.Settlement
import VeiledLedger.Proofs.StableOrder
import VeiledLedger.Proofs.CanonicalGroups
import VeiledLedger.Proofs.Redaction
import VeiledLedger.Proofs.Locality
import VeiledLedger.Proofs.ComponentBinding
import VeiledLedger.Proofs.OutputClaims
import VeiledLedger.Proofs.DisclosureShape
import VeiledLedger.Proofs.BinaryTruncation
import VeiledLedger.Proofs.MerkleRecursion
import VeiledLedger.Proofs.RootAmbiguity
import VeiledLedger.Proofs.MerkleOpening
import VeiledLedger.Proofs.JsonRoundTrip
import VeiledLedger.Proofs.BinaryCanonical
import VeiledLedger.GroupTable
import VeiledLedger.Proofs.GroupTable
import VeiledLedger.Proofs.GroupPadding
import VeiledLedger.Proofs.RecencyCache
import VeiledLedger.Proofs.ClaimOrder
