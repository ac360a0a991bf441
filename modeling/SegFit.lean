import SegFit.Memory.Lemmas
import SegFit.Session.Step
import SegFit.Store.Rationed
import SegFit.Proofs.Audit.Certified
import SegFit.Proofs.Audit.Damage
import SegFit.Proofs.Audit.Membership
import SegFit.Proofs.Audit.Reads
import SegFit.Proofs.Client.Aliasing
import SegFit.Proofs.Client.BestFit
import SegFit.Proofs.Client.Atomic
import SegFit.Proofs.Chart.Canonical
import SegFit.Proofs.Client.Freeing
import SegFit.Proofs.Chart.Undo
import SegFit.Proofs.Client.Undo
import SegFit.Proofs.Chart.Shift
import SegFit.Proofs.Outline.Basic
import SegFit.Proofs.Outline.Mirror
import SegFit.Proofs.Client.Twins
import SegFit.Proofs.Heap.Abreast
import SegFit.Proofs.Client.Audited
import SegFit.Proofs.Heap.Requests
import SegFit.Proofs.Client.Stages
import SegFit.Proofs.Client.Lifecycle
import SegFit.Proofs.Client.Latecomer
import SegFit.Proofs.Guarded.Edits
import SegFit.Proofs.Guarded.Chart
import SegFit.Proofs.Guarded.Audit
import SegFit.Proofs.Guarded.Basic
import SegFit.Proofs.Guarded.Operations
import SegFit.Proofs.Client.Exact
import SegFit.Proofs.Chart.Filing
import SegFit.Proofs.Client.Asked
import SegFit.Proofs.Client.Coalescing
import SegFit.Proofs.Client.Granting
import SegFit.Proofs.Client.Moving
import SegFit.Proofs.Client.Zeroing
import SegFit.Proofs.Client.Waste
import SegFit.Proofs.Chart.Reuse
import SegFit.Proofs.Client.Reuse
import SegFit.Proofs.Client.Growing
import SegFit.Proofs.Client.Accounts
import SegFit.Proofs.FreeLists.Represents
import SegFit.Proofs.Walks.Chart
import SegFit.Proofs.Client.Pacing
