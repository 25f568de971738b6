import LiveDocument.Document.Plain
import LiveDocument.Document.Session
import LiveDocument.Workspace.Request
import LiveDocument.Wire.Forms
import LiveDocument.Proofs.Columns
import LiveDocument.Proofs.LineStarts
import LiveDocument.Proofs.Lines
import LiveDocument.Proofs.Places
import LiveDocument.Proofs.Freshness
import LiveDocument.Proofs.Refinement
import LiveDocument.Proofs.Synchrony
import LiveDocument.Proofs.Batches
import LiveDocument.Proofs.Versions
import LiveDocument.Proofs.Replay
import LiveDocument.Proofs.SingleRange
import LiveDocument.Proofs.Undoing
import LiveDocument.Proofs.Histories
import LiveDocument.Proofs.Journals
import LiveDocument.Proofs.Openings
import LiveDocument.Proofs.Interleaving
import LiveDocument.Proofs.RoundTrips
import LiveDocument.Proofs.Arrivals
import LiveDocument.Proofs.Spellings
import LiveDocument.Proofs.Accounting
import LiveDocument.Proofs.Addresses
import LiveDocument.Proofs.ClampedRanges
import LiveDocument.Proofs.Movement
import LiveDocument.Proofs.Reading
import LiveDocument.Proofs.Adjunction
import LiveDocument.Proofs.LineFeeds
import LiveDocument.Proofs.ContainingLines
import LiveDocument.Proofs.Partition
import LiveDocument.Proofs.CoveringRanges
