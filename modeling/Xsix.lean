import Xsix.Library.Machine
import Xsix.Library.Fifo
import Xsix.Library.Memory
import Xsix.Buffer.Model
import Xsix.Buffer.Shape
import Xsix.Buffer.Append
import Xsix.Buffer.Growth
import Xsix.Buffer.Queue
import Xsix.Buffer.Safety
import Xsix.Actor.Base
import Xsix.Actor.Mailbox
import Xsix.Actor.Scheduler
import Xsix.BlockQueue
import Xsix.Fmt
import Xsix.Log.Model
import Xsix.Log.Threads
import Xsix.Log.Content
import Xsix.Buffer.Allocation
import Xsix.Buffer.FromString
import Xsix.Buffer.Rejection
import Xsix.Buffer.Retrieve
import Xsix.Buffer.Capacity
import Xsix.Library.OrderedMap
import Xsix.Fmt.Rendering
import Xsix.Fmt.Exits
import Xsix.Log.Bounds
import Xsix.Bits
import Xsix.Library.Runs
import Xsix.Utils.Split
import Xsix.Log.Manager
import Xsix.Network.Loop
import Xsix.Network.Lifetime
import Xsix.Actor.Schedule
import Xsix.Chat.Message
import Xsix.Chat.Bounds
import Xsix.Chat.Room
import Xsix.Library.Binary64
import Xsix.Library.Ceiling
import Xsix.Utils.Math
import Xsix.Time
import Xsix.Chat.Channel
import Xsix.Chat.System
import Xsix.Chat.Delivery
import Xsix.Chat.Backlog
import Xsix.Network.Handlers
import Xsix.Actor.System
import Xsix.Echo.Peer
import Xsix.Echo.System
import Xsix.Actor.Liveness
import Xsix.Buffer.Ownership
import Xsix.Buffer.Reallocations
import Xsix.Utils.Strings
import Xsix.BlockQueue.Service
import Xsix.Fmt.Guarded
import Xsix.Log.Growth
