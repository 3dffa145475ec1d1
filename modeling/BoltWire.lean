import BoltWire.Lib.Call
import BoltWire.Lib.BigEndian
import BoltWire.Lib.Scanner
import BoltWire.Lib.Codec
import BoltWire.Lib.Descent
import BoltWire.Lib.Online
import BoltWire.Lib.Polish
import BoltWire.Lib.Walk
import BoltWire.Lib.PrefixCode
import BoltWire.Lib.Thresholds
import BoltWire.Lib.Along
import BoltWire.Lib.Alike
import BoltWire.Lib.Settled
import BoltWire.Lib.Fields
import BoltWire.Lib.Frame
import BoltWire.Lib.Packing
import BoltWire.Lib.Iterations
import BoltWire.Lib.Amortized
import BoltWire.Lib.Language
import BoltWire.Lib.Refinement
import BoltWire.Lib.Provenance
import BoltWire.Buf
import BoltWire.Marker
import BoltWire.Reader
import BoltWire.MessageBuf
import BoltWire.Queue
import BoltWire.ReaderFlat
import BoltWire.ReaderSim
import BoltWire.SkipValue
import BoltWire.SkipWork
import BoltWire.ReaderOnline
import BoltWire.Truncation
import BoltWire.Writer
import BoltWire.Encoding
import BoltWire.RoundTrip
import BoltWire.Value
import BoltWire.Typed
import BoltWire.Arity
import BoltWire.Formats
import BoltWire.Languages
import BoltWire.Verdicts
import BoltWire.Selective
import BoltWire.Widths
import BoltWire.Canonical
import BoltWire.Decoder
import BoltWire.Deframer
import BoltWire.Refine
import BoltWire.FirstError
import BoltWire.Resources
import BoltWire.Safety
import BoltWire.Fragments
import BoltWire.Grammar
import BoltWire.Dechunk
import BoltWire.Rejection
import BoltWire.Delivery
import BoltWire.Framing
import BoltWire.Client
import BoltWire.Copies
import BoltWire.Leftover
import BoltWire.Tape
import BoltWire.Reuse
import BoltWire.Trees
import BoltWire.CutShort
import BoltWire.FeedWork
import BoltWire.Restart
import BoltWire.Merge
import BoltWire.Layout
import BoltWire.Relabel
import BoltWire.Tiling
import BoltWire.Pipeline
import BoltWire.Limits
import BoltWire.Blind
import BoltWire.Tuning
