import CausalReplica.Document.Basic
import CausalReplica.Proofs.Batch.Delimited
import CausalReplica.Proofs.Batch.RoundTrip
import CausalReplica.Proofs.Change.Elements
import CausalReplica.Proofs.Document.Commit
import CausalReplica.Proofs.Document.Order
import CausalReplica.Proofs.Document.Overflow
import CausalReplica.Proofs.Document.Peer
import CausalReplica.Proofs.Document.Sealing
import CausalReplica.Proofs.Document.Stranding
import CausalReplica.Proofs.Document.Subscriptions
import CausalReplica.Proofs.Document.Sync
import CausalReplica.Proofs.Document.UnknownHeads
import CausalReplica.Proofs.Id.Reader
import CausalReplica.Proofs.Id.Reordering
import CausalReplica.Proofs.Json.RoundTrip
import CausalReplica.Proofs.Log.Acceptance
import CausalReplica.Proofs.Log.Comparison
import CausalReplica.Proofs.Log.Heads
import CausalReplica.Proofs.Log.Histories
import CausalReplica.Proofs.Log.Lookup
import CausalReplica.Proofs.Log.Oversized
import CausalReplica.Proofs.Log.Provenance
import CausalReplica.Proofs.Log.Refusal
import CausalReplica.Proofs.Log.Replay
import CausalReplica.Proofs.Log.Settled
import CausalReplica.Proofs.Log.Status
import CausalReplica.Proofs.Log.StoredZeros
import CausalReplica.Proofs.Log.Termination
import CausalReplica.Proofs.Registry
import CausalReplica.Proofs.Version.Equality
