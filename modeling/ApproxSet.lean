import ApproxSet.Blocked.Filter
import ApproxSet.ByName
import ApproxSet.Hash.Sip
import ApproxSet.XorSet.Serial
import ApproxSet.Proofs.Bits.Word
import ApproxSet.Proofs.Success
import ApproxSet.Proofs.Alike
import ApproxSet.Proofs.Bits.Store
import ApproxSet.Proofs.Hash.Scale
import ApproxSet.Proofs.XorSet.Edge
import ApproxSet.Proofs.XorSet.Mesh
import ApproxSet.Proofs.XorSet.Peeling
import ApproxSet.Proofs.XorSet.SlotArray
import ApproxSet.Proofs.XorSet.Solving
import ApproxSet.Proofs.XorSet.Membership
import ApproxSet.Proofs.Blocked.Splitting
import ApproxSet.Proofs.Blocked.Blocks
import ApproxSet.Proofs.Blocked.Placement
import ApproxSet.Proofs.Blocked.Membership
import ApproxSet.Proofs.Cuckoo.Partner
import ApproxSet.Proofs.Cuckoo.Cells
import ApproxSet.Proofs.Bits.Lanes
import ApproxSet.Proofs.Cuckoo.Building
import ApproxSet.Proofs.Cuckoo.LaneBuckets
import ApproxSet.Proofs.Cuckoo.PackedBuckets
import ApproxSet.Proofs.Cuckoo.Membership
import ApproxSet.Proofs.Cuckoo.Lockstep
import ApproxSet.Proofs.Cuckoo.Counting
import ApproxSet.Proofs.Bits.Stream
import ApproxSet.Proofs.Bits.Reading
import ApproxSet.Proofs.Bits.Scanning
import ApproxSet.Proofs.Coding.Delta
import ApproxSet.Proofs.Coding.Span
import ApproxSet.Proofs.Coding.Encoder
import ApproxSet.Proofs.Coding.Decoder
import ApproxSet.Proofs.XorSet.Marks
import ApproxSet.Proofs.XorSet.Packing
import ApproxSet.Proofs.XorSet.Contents
import ApproxSet.Proofs.XorSet.Decoding
import ApproxSet.Proofs.XorSet.Serial
import ApproxSet.Proofs.XorSet.Layout
import ApproxSet.Proofs.Cuckoo.Refinement
import ApproxSet.Proofs.XorSet.Loading
import ApproxSet.Proofs.XorSet.Repeats
import ApproxSet.Proofs.XorSet.Searching
import ApproxSet.Proofs.XorSet.Widths
import ApproxSet.Proofs.XorSet.Order
import ApproxSet.Proofs.Refusals
import ApproxSet.Proofs.XorSet.Distinct
import ApproxSet.Proofs.Blocked.Loads
import ApproxSet.Proofs.Blocked.Distinct
import ApproxSet.Proofs.Cuckoo.Occupancy
import ApproxSet.Proofs.Bits.Rows
import ApproxSet.Proofs.Bits.History
import ApproxSet.Proofs.Bits.Queue
import ApproxSet.Proofs.Coding.Lossless
import ApproxSet.Proofs.Blocked.Order
import ApproxSet.Proofs.Numbers.Rounding
import ApproxSet.Proofs.Numbers.Sizes
import ApproxSet.Proofs.Bloom
import ApproxSet.Proofs.XorSet.Ending
import ApproxSet.Proofs.Cuckoo.Ending
import ApproxSet.Proofs.ByName
import ApproxSet.Proofs.XorSet.Overflow
import ApproxSet.Proofs.XorSet.Core
import ApproxSet.Proofs.XorSet.Assigning
import ApproxSet.Proofs.Coding.Canonical
import ApproxSet.Proofs.Cuckoo.Pairing
import ApproxSet.Proofs.XorSet.Attempts
import ApproxSet.Proofs.Blocked.Budgets
import ApproxSet.Proofs.Blocked.Seeds
import ApproxSet.Proofs.Cuckoo.Entries
import ApproxSet.Proofs.Cuckoo.Evictions
import ApproxSet.Proofs.Blocked.Hashes
import ApproxSet.Proofs.Hash.Balance
import ApproxSet.Proofs.XorSet.Batches
import ApproxSet.Proofs.XorSet.PackedSlots
import ApproxSet.Proofs.Numbers.Products
import ApproxSet.Proofs.CacheLine.Ranking
import ApproxSet.Proofs.CacheLine.Verdict
import ApproxSet.Proofs.Cuckoo.Overflow
