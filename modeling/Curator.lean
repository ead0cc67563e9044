import Curator.Files.Folder
import Curator.Main
import Curator.Proofs.Pointer.Text
import Curator.Proofs.Predicate.Completeness
import Curator.Proofs.Workbench.Settling
import Curator.Proofs.Json.Within
import Curator.Proofs.Pointer.Site
import Curator.Proofs.Visibility.Replay
import Curator.Proofs.Comparison.Places
import Curator.Proofs.Comparison.Patch
import Curator.Proofs.Comparison.Reversal
import Curator.Proofs.Workbench.Frame
import Curator.Proofs.Workbench.Mirroring
import Curator.Proofs.Workbench.Submitting
import Curator.Proofs.Workbench.NameUniqueness
import Curator.Proofs.Document.NormalForm
import Curator.Proofs.Predicate.Cache
import Curator.Proofs.Predicate.Comparisons
import Curator.Proofs.Predicate.Lookups
import Curator.Proofs.Workbench.Cloning
import Curator.Proofs.Workbench.Browsing
import Curator.Proofs.Store
import Curator.Pointer.InPlace
import Curator.Proofs.Pointer.Lens
import Curator.Proofs.Pointer.Removing
import Curator.Proofs.Pointer.RoundTrip
import Curator.Proofs.Visibility.Accounting
import Curator.Proofs.Document.Ordering
import Curator.Proofs.Document.Pruning
import Curator.Proofs.Pointer.Names
import Curator.Proofs.Visibility.Lasting
import Curator.Proofs.Predicate.Tiling
import Curator.Proofs.Predicate.Quoting
import Curator.Proofs.Predicate.Failures
import Curator.Proofs.Predicate.Nesting
import Curator.Proofs.Visibility.Declaring
import Curator.Proofs.Comparison.Lines
