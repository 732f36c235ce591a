import BoundaryHeap.Board
import BoundaryHeap.Proofs.Bytes
import BoundaryHeap.Proofs.Fields
import BoundaryHeap.Proofs.Links
import BoundaryHeap.Proofs.Filing
import BoundaryHeap.Proofs.Tiling
import BoundaryHeap.Proofs.Shape
import BoundaryHeap.Proofs.Cutting
import BoundaryHeap.Proofs.Represents
import BoundaryHeap.Proofs.Takes
import BoundaryHeap.Proofs.FreeRun
import BoundaryHeap.Proofs.Merging
import BoundaryHeap.Proofs.Draining
import BoundaryHeap.Proofs.Carving
import BoundaryHeap.Proofs.Searching
import BoundaryHeap.Proofs.Finding
import BoundaryHeap.Proofs.Gaps
import BoundaryHeap.Proofs.Working
import BoundaryHeap.Proofs.Handing
import BoundaryHeap.Proofs.Canonical
import BoundaryHeap.Proofs.Consistency
import BoundaryHeap.Proofs.Isolation
import BoundaryHeap.Proofs.Serving
import BoundaryHeap.Proofs.Prescription
import BoundaryHeap.Proofs.Refinement
import BoundaryHeap.Proofs.Counting
import BoundaryHeap.Proofs.Auditing
import BoundaryHeap.Proofs.Passing
import BoundaryHeap.Proofs.Alarms
import BoundaryHeap.Proofs.Faultless
import BoundaryHeap.Proofs.Accounting
import BoundaryHeap.Proofs.Matching
import BoundaryHeap.Proofs.Anonymous
import BoundaryHeap.Proofs.Noninterference
import BoundaryHeap.Proofs.ReleaseOrder
import BoundaryHeap.Proofs.Discipline
import BoundaryHeap.Proofs.Endings
import BoundaryHeap.Proofs.Resilience
import BoundaryHeap.Proofs.Fading
import BoundaryHeap.Proofs.Woven
import BoundaryHeap.Proofs.Wreck
import BoundaryHeap.Proofs.Salvage
import BoundaryHeap.Proofs.Stranding
import BoundaryHeap.Proofs.Damaged
import BoundaryHeap.Proofs.Containment
import BoundaryHeap.Proofs.Losses
import BoundaryHeap.Proofs.Policies
import BoundaryHeap.Proofs.Bare
import BoundaryHeap.Proofs.Ownership
import BoundaryHeap.Proofs.Stocking
import BoundaryHeap.Proofs.Coarsening
import BoundaryHeap.Proofs.Presplitting
import BoundaryHeap.Proofs.Sections
import BoundaryHeap.Proofs.Surveying
import BoundaryHeap.Proofs.Installation
import BoundaryHeap.Proofs.Blocks
import BoundaryHeap.Proofs.Reading
import BoundaryHeap.Proofs.Picture
import BoundaryHeap.Proofs.Pointers
import BoundaryHeap.Proofs.Granting
import BoundaryHeap.Proofs.Refusals
import BoundaryHeap.Proofs.Reuse
import BoundaryHeap.Proofs.Depicting
import BoundaryHeap.Proofs.Traversal
import BoundaryHeap.Proofs.Fuel
import BoundaryHeap.Proofs.Termination
import BoundaryHeap.Proofs.Sequences
import BoundaryHeap.Proofs.Bursts
import BoundaryHeap.Proofs.Founding
import BoundaryHeap.Proofs.Neighbours
import BoundaryHeap.Proofs.Tagging
import BoundaryHeap.Proofs.Naming
import BoundaryHeap.Proofs.Binning
import BoundaryHeap.Proofs.Marking
