import EfaExamples.Coro.Early
import EfaExamples.Efa.Ring
import EfaExamples.Coro.Simulation
import EfaExamples.Coro.Shared
import EfaExamples.Coro.Nested
import EfaExamples.Coro.Wakeup
import EfaExamples.Direct.Termination
import EfaExamples.Efa.Dangling
import EfaExamples.Efa.Delivery
import EfaExamples.Efa.Teardown
import EfaExamples.Efa.Objects
import EfaExamples.Efa.Ownership
import EfaExamples.Efa.Ranges
import EfaExamples.Efa.Reads
import EfaExamples.Efa.Sends
import EfaExamples.Gpuloc.Detection
import EfaExamples.Gpuloc.Versions
import EfaExamples.Peer.Leftovers
import EfaExamples.Peer.Progress
import EfaExamples.Peer.Acceptance
import EfaExamples.Peer.Notification
import EfaExamples.Peer.Overtaking
import EfaExamples.Peer.Counting
import EfaExamples.Peer.Greeting
import EfaExamples.Peer.Covering
import EfaExamples.Peer.Transfer
