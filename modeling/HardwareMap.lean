import HardwareMap.Export.Publication
import HardwareMap.Import.Topology
import HardwareMap.Version
import HardwareMap.Proofs.Topology.Edit
import HardwareMap.Proofs.Topology.Invariant
import HardwareMap.Proofs.Topology.Subtree
import HardwareMap.Proofs.Topology.Incidence
import HardwareMap.Proofs.Bytes.Splice
import HardwareMap.Proofs.Region.Appends
import HardwareMap.Proofs.Layout.Stored
import HardwareMap.Proofs.Export.Blocks
import HardwareMap.Proofs.Export.Tree
import HardwareMap.Proofs.Export.Pending
import HardwareMap.Proofs.Attribute.Pure
import HardwareMap.Proofs.Export.Paths
import HardwareMap.Proofs.Region.FileTree
import HardwareMap.Proofs.Export.WholePages
import HardwareMap.Proofs.Export.Sizing
import HardwareMap.Proofs.Export.Accounting
import HardwareMap.Proofs.Layout.Reading
import HardwareMap.Proofs.Attribute.Rules
import HardwareMap.Proofs.Import.Tree
import HardwareMap.Proofs.Import.Paths
import HardwareMap.Proofs.Import.Restriction
import HardwareMap.Proofs.Import.RoundTrip
import HardwareMap.Proofs.Region.Safety
import HardwareMap.Proofs.Layout.Safety
import HardwareMap.Proofs.Import.Safety
import HardwareMap.Proofs.Region.Frame
import HardwareMap.Proofs.Region.Staging
import HardwareMap.Proofs.Export.Effects
import HardwareMap.Proofs.Import.LaterExports
import HardwareMap.Proofs.Import.Decoder
import HardwareMap.Proofs.Import.Reachable
import HardwareMap.Proofs.Text.ByteOrder
import HardwareMap.Proofs.Export.Format
import HardwareMap.Proofs.Region.Extension
import HardwareMap.Proofs.Layout.Extension
import HardwareMap.Proofs.Import.Extension
import HardwareMap.Proofs.Import.Truncation
import HardwareMap.Proofs.Topology.Grafting
import HardwareMap.Proofs.Import.Grafting
import HardwareMap.Proofs.Attribute.Restored
import HardwareMap.Proofs.Import.Renumbering
import HardwareMap.Proofs.Import.Reexport
import HardwareMap.Proofs.Region.Calls
import HardwareMap.Proofs.Region.Publishing
import HardwareMap.Proofs.Region.Operations
import HardwareMap.Proofs.Region.Invariant
import HardwareMap.Proofs.Export.Failures
import HardwareMap.Proofs.Export.Dropped
import HardwareMap.Proofs.Export.Admission
import HardwareMap.Proofs.Attribute.Catalogued
import HardwareMap.Proofs.Attribute.Asked
import HardwareMap.Proofs.Export.Passes
import HardwareMap.Proofs.Import.Losses
import HardwareMap.Proofs.Import.CallerRules
import HardwareMap.Proofs.Import.AnyEncoders
import HardwareMap.Proofs.Import.Bounds
import HardwareMap.Proofs.Attribute.Exact
import HardwareMap.Proofs.Attribute.Unpacking
import HardwareMap.Proofs.Region.Accepts
import HardwareMap.Proofs.Layout.Canonical
import HardwareMap.Proofs.Attribute.Section
import HardwareMap.Proofs.Topology.Search
import HardwareMap.Proofs.Topology.Deletion
import HardwareMap.Proofs.Topology.Lineage
import HardwareMap.Proofs.Export.Order
import HardwareMap.Proofs.Export.Growth
import HardwareMap.Proofs.Region.Siblings
import HardwareMap.Proofs.Attribute.Sameness
import HardwareMap.Proofs.Topology.Content
import HardwareMap.Proofs.Region.Bounds
import HardwareMap.Proofs.Region.Items
import HardwareMap.Proofs.Region.Confined
import HardwareMap.Proofs.Import.Failures
import HardwareMap.Proofs.Phase.Machine
import HardwareMap.Proofs.Phase.Runs
