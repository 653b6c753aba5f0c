import MeteredStorage.Admission.MeteredGate
import MeteredStorage.Admission.Usage.Text
import MeteredStorage.Archive.Merge
import MeteredStorage.Archive.Opening
import MeteredStorage.Archive.Replay
import MeteredStorage.Archive.Session
import MeteredStorage.Bytes.Checksum
import MeteredStorage.Disk.Tools
import MeteredStorage.Host
import MeteredStorage.PagedMap.Flush
import MeteredStorage.PagedMap.Lookup
import MeteredStorage.PagedMap.Merge
import MeteredStorage.PagedMap.Opening
import MeteredStorage.PagedMap.Page
import MeteredStorage.PagedMap.PageTable
import MeteredStorage.PagedMap.Report
import MeteredStorage.Proofs.Admission.Calls
import MeteredStorage.Proofs.Admission.Canonical
import MeteredStorage.Proofs.Admission.Documents
import MeteredStorage.Proofs.Admission.Erasing
import MeteredStorage.Proofs.Admission.Exactness
import MeteredStorage.Proofs.Admission.Forms
import MeteredStorage.Proofs.Admission.Metering
import MeteredStorage.Proofs.Admission.Polling
import MeteredStorage.Proofs.Admission.Rate
import MeteredStorage.Proofs.Admission.Resuming
import MeteredStorage.Proofs.Admission.Settlement
import MeteredStorage.Proofs.Admission.Trapping
import MeteredStorage.Proofs.Archive.Abandonment
import MeteredStorage.Proofs.Archive.Aligning
import MeteredStorage.Proofs.Archive.Confining
import MeteredStorage.Proofs.Archive.Containing
import MeteredStorage.Proofs.Archive.Copying
import MeteredStorage.Proofs.Archive.Counting
import MeteredStorage.Proofs.Archive.Creating
import MeteredStorage.Proofs.Archive.Damage
import MeteredStorage.Proofs.Archive.Fencing
import MeteredStorage.Proofs.Archive.Filing
import MeteredStorage.Proofs.Archive.Generations
import MeteredStorage.Proofs.Archive.Holding
import MeteredStorage.Proofs.Archive.Interruption
import MeteredStorage.Proofs.Archive.Keeping
import MeteredStorage.Proofs.Archive.Ledger
import MeteredStorage.Proofs.Archive.Leftovers
import MeteredStorage.Proofs.Archive.Listing
import MeteredStorage.Proofs.Archive.Locating
import MeteredStorage.Proofs.Archive.Lodging
import MeteredStorage.Proofs.Archive.Merging
import MeteredStorage.Proofs.Archive.Numbering
import MeteredStorage.Proofs.Archive.Order
import MeteredStorage.Proofs.Archive.Overflowing
import MeteredStorage.Proofs.Archive.Owning
import MeteredStorage.Proofs.Archive.Reached
import MeteredStorage.Proofs.Archive.Recency
import MeteredStorage.Proofs.Archive.Recognising
import MeteredStorage.Proofs.Archive.Recovery
import MeteredStorage.Proofs.Archive.Relocating
import MeteredStorage.Proofs.Archive.Removal
import MeteredStorage.Proofs.Archive.Reopening
import MeteredStorage.Proofs.Archive.RoundTrip
import MeteredStorage.Proofs.Archive.Selecting
import MeteredStorage.Proofs.Archive.Sharing
import MeteredStorage.Proofs.Archive.Shelf
import MeteredStorage.Proofs.Archive.Single
import MeteredStorage.Proofs.Archive.Staleness
import MeteredStorage.Proofs.Archive.Survivors
import MeteredStorage.Proofs.Archive.Tending
import MeteredStorage.Proofs.Archive.Tracing
import MeteredStorage.Proofs.Archive.Undoing
import MeteredStorage.Proofs.Archive.Volume
import MeteredStorage.Proofs.Bytes
import MeteredStorage.Proofs.Checksum
import MeteredStorage.Proofs.Disk.Below
import MeteredStorage.Proofs.Disk.Change
import MeteredStorage.Proofs.Disk.Frame
import MeteredStorage.Proofs.Disk.Hiding
import MeteredStorage.Proofs.Disk.Losing
import MeteredStorage.Proofs.Instant.Building
import MeteredStorage.Proofs.Instant.Clock
import MeteredStorage.Proofs.Instant.Order
import MeteredStorage.Proofs.Instant.Trapping
import MeteredStorage.Proofs.Json.Grammar
import MeteredStorage.Proofs.Json.Objects
import MeteredStorage.Proofs.Json.Reading
import MeteredStorage.Proofs.Json.Skipping
import MeteredStorage.Proofs.PagedMap.Answers
import MeteredStorage.Proofs.PagedMap.Binding
import MeteredStorage.Proofs.PagedMap.Changes
import MeteredStorage.Proofs.PagedMap.Coursing
import MeteredStorage.Proofs.PagedMap.Entries
import MeteredStorage.Proofs.PagedMap.Exclusion
import MeteredStorage.Proofs.PagedMap.Failing
import MeteredStorage.Proofs.PagedMap.Flushing
import MeteredStorage.Proofs.PagedMap.Getting
import MeteredStorage.Proofs.PagedMap.Image
import MeteredStorage.Proofs.PagedMap.Index
import MeteredStorage.Proofs.PagedMap.Interleaving
import MeteredStorage.Proofs.PagedMap.Keys
import MeteredStorage.Proofs.PagedMap.Mirroring
import MeteredStorage.Proofs.PagedMap.Moving
import MeteredStorage.Proofs.PagedMap.Pages
import MeteredStorage.Proofs.PagedMap.Paging
import MeteredStorage.Proofs.PagedMap.Patching
import MeteredStorage.Proofs.PagedMap.Reaching
import MeteredStorage.Proofs.PagedMap.Rebuilding
import MeteredStorage.Proofs.PagedMap.Recovering
import MeteredStorage.Proofs.PagedMap.Refinement
import MeteredStorage.Proofs.PagedMap.Reordering
import MeteredStorage.Proofs.PagedMap.Restarting
import MeteredStorage.Proofs.PagedMap.Sequence
import MeteredStorage.Proofs.PagedMap.Sizing
import MeteredStorage.Proofs.PagedMap.Slots
import MeteredStorage.Proofs.PagedMap.Tending
import MeteredStorage.Proofs.PagedMap.Trapping
import MeteredStorage.Proofs.PagedMap.Weathering
import MeteredStorage.Proofs.PagedMap.Writing
import MeteredStorage.Proofs.Segment.Corruption
import MeteredStorage.Proofs.Segment.FooterPage
import MeteredStorage.Proofs.Segment.Length
import MeteredStorage.Proofs.Segment.Location
import MeteredStorage.Proofs.Segment.Name
import MeteredStorage.Proofs.Segment.Packing
import MeteredStorage.Proofs.Segment.Reading
import MeteredStorage.Proofs.Segment.Scan
import MeteredStorage.Proofs.Segment.Spelling
import MeteredStorage.Proofs.Segment.Trapping
import MeteredStorage.Proofs.Task
import MeteredStorage.Proofs.Word
import MeteredStorage.Segment.Basic
import MeteredStorage.Segment.Footer
import MeteredStorage.Segment.Location
import MeteredStorage.Segment.Name
import MeteredStorage.Segment.Record
