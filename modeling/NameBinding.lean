import NameBinding.Graph.Memo
import NameBinding.Graph.Reach
import NameBinding.LogFormat
import NameBinding.Proofs.Graph.Edits
import NameBinding.Proofs.Graph.Memo
import NameBinding.Proofs.Program.Depth
import NameBinding.Proofs.Program.Position
import NameBinding.Proofs.Text.Substitution
import NameBinding.Proofs.Tree.Names
import NameBinding.Proofs.Tree.Nested
import NameBinding.Proofs.Workspace.Admission
import NameBinding.Proofs.Workspace.Arrays
import NameBinding.Proofs.Workspace.Closed
import NameBinding.Proofs.Workspace.Collapse
import NameBinding.Proofs.Workspace.Compare
import NameBinding.Proofs.Workspace.Complete
import NameBinding.Proofs.Workspace.Dead
import NameBinding.Proofs.Workspace.Dotted
import NameBinding.Proofs.Workspace.Duality
import NameBinding.Proofs.Workspace.Explained
import NameBinding.Proofs.Workspace.Frame
import NameBinding.Proofs.Workspace.Heritage
import NameBinding.Proofs.Workspace.Invalidation
import NameBinding.Proofs.Workspace.Log
import NameBinding.Proofs.Workspace.Lookup
import NameBinding.Proofs.Workspace.Loop
import NameBinding.Proofs.Workspace.Merging
import NameBinding.Proofs.Workspace.Order
import NameBinding.Proofs.Workspace.Overloads
import NameBinding.Proofs.Workspace.OwnMembers
import NameBinding.Proofs.Workspace.Renumbered
import NameBinding.Proofs.Workspace.Scope
import NameBinding.Proofs.Workspace.Stale
import NameBinding.Proofs.Workspace.Survivors
import NameBinding.Proofs.Workspace.Validity
import NameBinding.Tree.Builder
import NameBinding.Tree.Edit
import NameBinding.Workspace.Request
import NameBinding.Workspace.Snapshot
import NameBinding.Workspace.Validation
