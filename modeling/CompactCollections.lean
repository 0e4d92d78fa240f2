import CompactCollections.Error
import CompactCollections.Capacity
import CompactCollections.Hashing.Mix
import CompactCollections.Key
import CompactCollections.Floating.Format
import CompactCollections.Floating.Round
import CompactCollections.Floating.Shortest
import CompactCollections.Floating.Text
import CompactCollections.Text.Ranges
import CompactCollections.Text.Hidden
import CompactCollections.Text.Extending
import CompactCollections.Text.Quoted
import CompactCollections.Key.Text
import CompactCollections.Session.Reply
import CompactCollections.Session.Hasher
import CompactCollections.Token
import CompactCollections.Table.LoadFactor
import CompactCollections.Table.Basic
import CompactCollections.Table.Walk
import CompactCollections.Table.Digest
import CompactCollections.Session.Table
import CompactCollections.Bits.Stream
import CompactCollections.Bits.BitList
import CompactCollections.Bits.PackedList
import CompactCollections.Session.Bits
import CompactCollections.Ranked
import CompactCollections.NullList
import CompactCollections.SentinelList
import CompactCollections.Session.Nullable
import CompactCollections.Byte.ByteSet
import CompactCollections.Byte.ByteMap
import CompactCollections.Session.Byte
import CompactCollections.Ring
import CompactCollections.Session.Ring
import CompactCollections.Hashing.Invertible
import CompactCollections.Request.Value
import CompactCollections.Request.Decimal
import CompactCollections.Request.Cursor
import CompactCollections.Request.Token
import CompactCollections.Request.Reader
import CompactCollections.Hashing.NarrowKeys
import CompactCollections.Proofs.Except
import CompactCollections.Proofs.Capacity
import CompactCollections.Proofs.Table.Probe
import CompactCollections.Proofs.Table.Placement
import CompactCollections.Proofs.Table.ShiftBack
import CompactCollections.Proofs.Table.Operations
import CompactCollections.Proofs.Table.Invariant
import CompactCollections.Proofs.Table.FiniteMap
import CompactCollections.Proofs.Bits.Stream
import CompactCollections.Proofs.Bits.Items
import CompactCollections.Proofs.Bits.ListView
import CompactCollections.Proofs.Bits.ListRefinement
import CompactCollections.Proofs.Bits.Storage
import CompactCollections.Proofs.Table.Equality
import CompactCollections.Proofs.Search
import CompactCollections.Proofs.Bits.Count
import CompactCollections.Proofs.Bits.Scan
import CompactCollections.Proofs.Bits.BitList
import CompactCollections.Proofs.Dense
import CompactCollections.Proofs.Ranked
import CompactCollections.Proofs.Null.Operations
import CompactCollections.Proofs.Null.Refinement
import CompactCollections.Proofs.Byte.ByteSet
import CompactCollections.Proofs.Byte.MapView
import CompactCollections.Proofs.Byte.MapWalk
import CompactCollections.Proofs.Byte.MapRefinement
import CompactCollections.Proofs.Byte.SetRefinement
import CompactCollections.Proofs.Bits.BitRefinement
import CompactCollections.Proofs.Bits.Fields
import CompactCollections.Proofs.Overlay
import CompactCollections.Proofs.Ring
import CompactCollections.Proofs.Growth
import CompactCollections.Proofs.Table.TokenWalk
import CompactCollections.Proofs.Table.Sizing
import CompactCollections.Proofs.Floating.Nearest
import CompactCollections.Proofs.Table.Double
import CompactCollections.Proofs.Table.Room
import CompactCollections.Proofs.Table.Reserve
import CompactCollections.Proofs.Null.Sentinel
