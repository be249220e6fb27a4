import CilAudit.Analysis.Basic
import CilAudit.Analysis.Report
import CilAudit.Assembly.Assemble
import CilAudit.Assembly.Op
import CilAudit.Body
import CilAudit.Defect.Basic
import CilAudit.Defect.Log
import CilAudit.Instruction.Basic
import CilAudit.Instruction.Listing
import CilAudit.Instruction.Opcode
import CilAudit.Metadata.Attributes
import CilAudit.Metadata.Declaration
import CilAudit.Metadata.Graph
import CilAudit.Metadata.Holdings
import CilAudit.Metadata.TypeTable
import CilAudit.Metadata.View
import CilAudit.Model.Basic
import CilAudit.Model.ClassLibrary
import CilAudit.Model.Definition
import CilAudit.Model.Draft
import CilAudit.Model.Hierarchy
import CilAudit.Model.WellKnown
import CilAudit.NullFlow.Graph
import CilAudit.NullFlow.Scan
import CilAudit.Proofs.Assembly.Machine
import CilAudit.Proofs.Assembly.Reading
import CilAudit.Proofs.Assembly.Written
import CilAudit.Proofs.NullFlow.Completeness
import CilAudit.Proofs.NullFlow.Edge
import CilAudit.Proofs.NullFlow.Exhaustion
import CilAudit.Proofs.NullFlow.Returns
import CilAudit.Proofs.NullFlow.Saturation
import CilAudit.Proofs.NullFlow.Soundness
import CilAudit.Proofs.NullFlow.TopNull
import CilAudit.Rule.Basic
import CilAudit.Rule.EmptyInstance
import CilAudit.Rule.EventHandlers
import CilAudit.Rule.Notice
import CilAudit.Rule.NullReturn
import CilAudit.Rule.Probe
import CilAudit.Signature.Method
import CilAudit.Signature.Type
import CilAudit.Text.Basic
import CilAudit.Token
import CilAudit.Proofs.EventHandlers.Delegate
import CilAudit.Proofs.EventHandlers.Transparency
import CilAudit.Proofs.EventHandlers.Confinement
import CilAudit.Proofs.EventHandlers.Isolation
import CilAudit.Proofs.Model.Growth
import CilAudit.Proofs.Model.Coherence
import CilAudit.Proofs.Model.Allocation
import CilAudit.Proofs.Model.NameIndex
import CilAudit.Proofs.Analysis.Deduplication
import CilAudit.Proofs.Analysis.Steady
import CilAudit.Proofs.Defect.Order
import CilAudit.Proofs.Analysis.Attribution
import CilAudit.Proofs.Analysis.OrderIndependence
import CilAudit.Proofs.Model.Stability
import CilAudit.Proofs.Analysis.Persistence
import CilAudit.Proofs.Model.Ledger
import CilAudit.Proofs.Model.Refusal
import CilAudit.Proofs.Model.FirstDefinition
import CilAudit.Proofs.Model.Rows
import CilAudit.Proofs.Assembly.Decoding
import CilAudit.Proofs.Assembly.Layout
import CilAudit.Proofs.Analysis.Accounting
import CilAudit.Proofs.Analysis.Provenance
import CilAudit.Proofs.Metadata.BackLinks
import CilAudit.Proofs.Model.BaseChain
import CilAudit.Proofs.Model.Ancestry
import CilAudit.Proofs.Defect.Ties
import CilAudit.Proofs.Assembly.Faults
import CilAudit.Proofs.Assembly.StackHeight
import CilAudit.Proofs.EmptyInstance.Reports
import CilAudit.Proofs.Model.Visibility
import CilAudit.Proofs.EventHandlers.Verifications
import CilAudit.Proofs.Metadata.Registrations
import CilAudit.Proofs.Model.Settings
import CilAudit.Proofs.EmptyInstance.Suggestion
