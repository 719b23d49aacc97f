import Erlm.Lib.DoWhile
import Erlm.Lib.Packet2
import Erlm.Lib.Heap
import Erlm.Lib.Assoc
import Erlm.Lib.Run
import Erlm.Lib.Since
import Erlm.Lib.Outbox
import Erlm.Lib.Squeeze
import Erlm.Lib.Pages
import Erlm.CInt
import Erlm.Io
import Erlm.Double
import Erlm.Term
import Erlm.Value
import Erlm.Context
import Erlm.DukErlang
import Erlm.Data
import Erlm.DukUtil
import Erlm.DukElm
import Erlm.Events
import Erlm.Kqueue
import Erlm.Os
import Erlm.DukTimers
import Erlm.Main
import Erlm.Proofs.Io
import Erlm.Proofs.Packet
import Erlm.Proofs.Context
import Erlm.Proofs.Get
import Erlm.Proofs.Push
import Erlm.Proofs.Encode
import Erlm.Proofs.RoundTrip
import Erlm.Proofs.Unroll
import Erlm.Proofs.Input
import Erlm.Proofs.Arguments
import Erlm.Proofs.Events
import Erlm.Proofs.Output
import Erlm.Proofs.Timers
import Erlm.Proofs.TimerTable
import Erlm.Proofs.MainLoop
import Erlm.Proofs.Fragmentation
import Erlm.Proofs.Text
import Erlm.Proofs.Integers
import Erlm.Proofs.ArrayObject
import Erlm.Proofs.Keywords
import Erlm.Proofs.Conversion
import Erlm.Proofs.Stale
import Erlm.Proofs.Leaks
import Erlm.Proofs.Service
import Erlm.Proofs.Backends
import Erlm.Proofs.Classify
import Erlm.Proofs.Stalls
import Erlm.Proofs.Atomic
import Erlm.Proofs.Callbacks
import Erlm.Proofs.FailedTimers
import Erlm.Proofs.BadRequests
import Erlm.Proofs.Reads
import Erlm.Proofs.Holes
import Erlm.Proofs.Reserve
import Erlm.Proofs.PartialIo
import Erlm.Proofs.Ports
import Erlm.Proofs.Subscriptions
import Erlm.Proofs.Startup
import Erlm.Lib.Program
import Erlm.Lib.Results
import Erlm.Argparse
import Erlm.Process
import Erlm.Proofs.Safe
import Erlm.Proofs.Scripts
import Erlm.Proofs.Safety
import Erlm.Proofs.Lifecycle
import Erlm.Proofs.InPlace
import Erlm.Proofs.CommandLine
import Erlm.Proofs.Echo
import Erlm.Lib.Mailbox
import Erlm.Proofs.SentOnce
import Erlm.Proofs.QueueOnce
import Erlm.Proofs.WholeProgram
