import SinkCheck.Assembler
import SinkCheck.Config
import SinkCheck.Json.Parse
import SinkCheck.Report
import SinkCheck.Proofs.ControlFlow
import SinkCheck.Proofs.InStep
import SinkCheck.Proofs.Visits
import SinkCheck.Proofs.Paired
import SinkCheck.Proofs.Untrusted
import SinkCheck.Proofs.ValueFlow
import SinkCheck.Proofs.Reported
import SinkCheck.Proofs.Silenced
import SinkCheck.Proofs.Provenance
import SinkCheck.Proofs.Interleaving
import SinkCheck.Proofs.Precheck
import SinkCheck.Proofs.Narration
import SinkCheck.Proofs.Grammar
import SinkCheck.Proofs.Layout
import SinkCheck.Proofs.Heights
import SinkCheck.Proofs.Joined
import SinkCheck.Proofs.HandlerEntry
import SinkCheck.Proofs.Producers
import SinkCheck.Proofs.Backward
import SinkCheck.Proofs.Guarded
import SinkCheck.Proofs.Disagreement
import SinkCheck.Proofs.Draining
import SinkCheck.Proofs.Buildable
import SinkCheck.Proofs.Watched
import SinkCheck.Proofs.Disabled
import SinkCheck.Proofs.Fingerprint
import SinkCheck.Proofs.Grouped
import SinkCheck.Proofs.Throughout
import SinkCheck.Proofs.Copies
import SinkCheck.Proofs.Lockstep
import SinkCheck.Proofs.Rounds
import SinkCheck.Proofs.Semilattice
import SinkCheck.Proofs.Indexes
