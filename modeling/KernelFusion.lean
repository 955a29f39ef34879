import KernelFusion.Arena.Basic
import KernelFusion.Arena.Handle
import KernelFusion.Binary64.Basic
import KernelFusion.Binary64.Shortest
import KernelFusion.Binary64.Text
import KernelFusion.Element
import KernelFusion.Error
import KernelFusion.Expr.Basic
import KernelFusion.Expr.Cell
import KernelFusion.Kernel.Basic
import KernelFusion.Kernel.Draft
import KernelFusion.Kernel.Unfold
import KernelFusion.Literal
import KernelFusion.Offset
import KernelFusion.Region.Basic
import KernelFusion.Region.Check
import KernelFusion.Region.Edit
import KernelFusion.Region.Expansion
import KernelFusion.Region.Node
import KernelFusion.Region.UseIndex
import KernelFusion.Rewrite.Agenda
import KernelFusion.Rewrite.Driver
import KernelFusion.Rewrite.Inlining
import KernelFusion.Rewrite.Pattern
import KernelFusion.Rewrite.Rerouting
import KernelFusion.Rewrite.Rooting
import KernelFusion.Rewrite.Rule
import KernelFusion.Settings
import KernelFusion.Table
import KernelFusion.Proofs.Alignment
import KernelFusion.Proofs.Arena.Calls
import KernelFusion.Proofs.Arena.Listing
import KernelFusion.Proofs.Arena.Lookup
import KernelFusion.Proofs.Expr.Replacement
import KernelFusion.Proofs.Expr.Text
import KernelFusion.Proofs.Expr.Words
import KernelFusion.Proofs.Fallible
import KernelFusion.Proofs.Fusion.Accounting
import KernelFusion.Proofs.Fusion.Coalescing
import KernelFusion.Proofs.Fusion.Conservation
import KernelFusion.Proofs.Fusion.Failure
import KernelFusion.Proofs.Fusion.Fixpoint
import KernelFusion.Proofs.Fusion.Meaning
import KernelFusion.Proofs.Fusion.Rewriting
import KernelFusion.Proofs.Fusion.SingleLoad
import KernelFusion.Proofs.Fusion.Spread
import KernelFusion.Proofs.Fusion.Termination
import KernelFusion.Proofs.Fusion.Unneeded
import KernelFusion.Proofs.Fusion.Worklist
import KernelFusion.Proofs.Kernel.Accesses
import KernelFusion.Proofs.Kernel.Additions
import KernelFusion.Proofs.Kernel.Calls
import KernelFusion.Proofs.Kernel.Copying
import KernelFusion.Proofs.Kernel.Splicing
import KernelFusion.Proofs.Kernel.Substitution
import KernelFusion.Proofs.Kernel.Typing
import KernelFusion.Proofs.Kernel.Unfolding
import KernelFusion.Proofs.Offset
import KernelFusion.Proofs.Region.Built
import KernelFusion.Proofs.Region.Calls
import KernelFusion.Proofs.Region.Congruence
import KernelFusion.Proofs.Region.Consistency
import KernelFusion.Proofs.Region.Editing
import KernelFusion.Proofs.Region.Expansion
import KernelFusion.Proofs.Region.Insertion
import KernelFusion.Proofs.Region.ProgramOrder
import KernelFusion.Proofs.Region.Redirection
import KernelFusion.Proofs.Region.Refusal
import KernelFusion.Proofs.Region.Removal
import KernelFusion.Proofs.Region.Replacement
import KernelFusion.Proofs.Region.Revision
import KernelFusion.Proofs.Region.Spread
import KernelFusion.Proofs.Region.Totality
import KernelFusion.Proofs.Region.Undoing
import KernelFusion.Proofs.Region.UseSites
import KernelFusion.Proofs.Region.Verification
import KernelFusion.Proofs.Rewrite.Agenda
import KernelFusion.Proofs.Rewrite.Application
import KernelFusion.Proofs.Rewrite.Expansion
import KernelFusion.Proofs.Rewrite.ForwardedResults
import KernelFusion.Proofs.Rewrite.Inlining
import KernelFusion.Proofs.Rewrite.Ledger
import KernelFusion.Proofs.Rewrite.Locality
import KernelFusion.Proofs.Rewrite.Marking
import KernelFusion.Proofs.Rewrite.Matching
import KernelFusion.Proofs.Rewrite.MergedApply
import KernelFusion.Proofs.Rewrite.Offers
import KernelFusion.Proofs.Rewrite.Operands
import KernelFusion.Proofs.Rewrite.Pending
import KernelFusion.Proofs.Rewrite.Placement
import KernelFusion.Proofs.Rewrite.Potential
import KernelFusion.Proofs.Rewrite.Priority
import KernelFusion.Proofs.Rewrite.Rebuilding
import KernelFusion.Proofs.Rewrite.Rerouting
import KernelFusion.Proofs.Rewrite.Reshaping
import KernelFusion.Proofs.Rewrite.Rooting
import KernelFusion.Proofs.Rewrite.RuleAccesses
import KernelFusion.Proofs.Rewrite.RuleKernels
import KernelFusion.Proofs.Rewrite.Running
import KernelFusion.Proofs.Rewrite.SharedLoad
import KernelFusion.Proofs.Rewrite.Visiting
