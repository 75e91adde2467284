import BitSliced.Session.Basic
import BitSliced.Proofs.Comparison
import BitSliced.Proofs.Planes.Width
import BitSliced.Proofs.Planes.Layouts
import BitSliced.Proofs.Planes.Tally
import BitSliced.Proofs.Histogram
import BitSliced.Proofs.Stored.Chunk
import BitSliced.Proofs.Stored.Partition
import BitSliced.Proofs.Stored.Bitmap
import BitSliced.Proofs.Buffers
import BitSliced.Proofs.Pool
import BitSliced.Proofs.Stream
import BitSliced.Proofs.Reachable
import BitSliced.Proofs.Addition
import BitSliced.Proofs.StreamBuffers
import BitSliced.Index.Planewise
import BitSliced.Proofs.Extremum
import BitSliced.Proofs.Limit
import BitSliced.Proofs.Scheduling
import BitSliced.Proofs.Total
import BitSliced.Proofs.StrayBits
import BitSliced.Proofs.Stored.Admitted
import BitSliced.Proofs.Stored.Kept
import BitSliced.Proofs.Frames
import BitSliced.Proofs.Accepted
import BitSliced.Proofs.CutStream
import BitSliced.Proofs.Malformed
import BitSliced.Proofs.Restored
import BitSliced.Proofs.Extensional
import BitSliced.Proofs.Summation
import BitSliced.Proofs.Carry
import BitSliced.Proofs.LastPut
import BitSliced.Proofs.Occurrences
import BitSliced.Proofs.Batches
import BitSliced.Index.Ripple
import BitSliced.Proofs.SingleIncrement
import BitSliced.Pool.Lending
import BitSliced.Proofs.Pool.Class
import BitSliced.Proofs.Pool.Lending
