import ProjectTracker.Main
import ProjectTracker.Workspace.Operation
import ProjectTracker.Workspace.Ticker
import ProjectTracker.Proofs.Document.Versions
import ProjectTracker.Proofs.LineTree.Arithmetic
import ProjectTracker.Proofs.LineTree.Decomposition
import ProjectTracker.Proofs.LineTree.Editing
import ProjectTracker.Proofs.LineTree.Positions
import ProjectTracker.Proofs.Reference.Discovery
import ProjectTracker.Proofs.TimerQueue.Indexed
import ProjectTracker.Proofs.Workspace.Buffers
import ProjectTracker.Proofs.Workspace.Roots
import ProjectTracker.Proofs.Workspace.Vacancy
import ProjectTracker.Proofs.Workspace.EventLog
import ProjectTracker.Proofs.Document.Buffering
import ProjectTracker.Proofs.Document.Collapsing
import ProjectTracker.Proofs.Workspace.Ticking
import ProjectTracker.Proofs.Workspace.Returning
import ProjectTracker.Proofs.Workspace.Atomicity
import ProjectTracker.Proofs.Workspace.Bereavement
import ProjectTracker.Proofs.Workspace.Debouncing
import ProjectTracker.Proofs.Workspace.Flushing
import ProjectTracker.Proofs.Workspace.Ranges
import ProjectTracker.Proofs.Workspace.Takeover
import ProjectTracker.Proofs.Document.Fingerprints
import ProjectTracker.Proofs.Document.Retention
import ProjectTracker.Proofs.LineTree.Numbering
import ProjectTracker.Proofs.LineTree.Reading
import ProjectTracker.Proofs.LineTree.Depth
import ProjectTracker.Proofs.LineTree.Sprawl
import ProjectTracker.Proofs.Path.Canonical
import ProjectTracker.Proofs.Manifest.Traversal
import ProjectTracker.Proofs.Manifest.Reading
