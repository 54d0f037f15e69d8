import HostGlue.Files.Changes
import HostGlue.Main
import HostGlue.Proofs.Wat.Evaluation
import HostGlue.Proofs.Wat.Calls
import HostGlue.Proofs.Marshal.Access
import HostGlue.Proofs.Marshal.Arguments
import HostGlue.Proofs.Marshal.Completion
import HostGlue.Proofs.Marshal.ArgumentPassing
import HostGlue.Proofs.Marshal.Stores
import HostGlue.Proofs.Marshal.ResultSlot
import HostGlue.Proofs.Wat.Typing
import HostGlue.Proofs.Marshal.WellTyped
import HostGlue.Proofs.Marshal.DroppedOperands
import HostGlue.Proofs.SExpr.ReadBack
import HostGlue.Proofs.Marshal.Continuation
import HostGlue.Proofs.Marshal.GeneratedText
import HostGlue.Proofs.Interface.Pairing
import HostGlue.Proofs.Wat.Effects
import HostGlue.Proofs.Document.Canonical
import HostGlue.Proofs.Marshal.OffsetAccounting
import HostGlue.Proofs.Marshal.OutputLocations
import HostGlue.Proofs.Files.Actions
import HostGlue.Proofs.Cli.Footprint
import HostGlue.Proofs.Cli.Regeneration
import HostGlue.Proofs.Cli.Reporting
import HostGlue.Proofs.Marshal.Positional
import HostGlue.Proofs.Json.Distinct
import HostGlue.Proofs.Document.Entries
import HostGlue.Proofs.Cli.Fragments
import HostGlue.Proofs.Json.Grammar
import HostGlue.Proofs.Json.Reordered
import HostGlue.Proofs.Interface.DeclarationOrder
import HostGlue.Proofs.Document.DeclarationOrder
import HostGlue.Proofs.Marshal.LocalNames
import HostGlue.Proofs.SExpr.Faults
import HostGlue.Proofs.Wat.Placement
import HostGlue.Proofs.SExpr.Width
import HostGlue.Proofs.Json.Duplicates
import HostGlue.Proofs.Interface.RepeatedNames
import HostGlue.Proofs.Document.Merging
import HostGlue.Proofs.Wat.Grouping
