import Ops.Lib.Transition
import Ops.Posix.Bulk
import Ops.Udp.Receiver
import Ops.Udp.Client
import Ops.Lib.Logs
import Ops.Udp.System
import Ops.Udp.Invariant
import Ops.Udp.Lossless
import Ops.Udp.Delivery
import Ops.Udp.Buffer
import Ops.Udp.Isolation
import Ops.Chat.Auth
import Ops.Chat.Server
import Ops.Chat.Moves
import Ops.Chat.Table
import Ops.Chat.Broadcast
import Ops.Chat.Messages
import Ops.Chat.Service
import Ops.Shm.Guard
import Ops.Shm.Exclusive
import Ops.Shm.GivenBack
import Ops.Shm.Deeds
import Ops.Shm.Ledger
import Ops.Shm.Generation
import Ops.Shm.LastOut
import Ops.Pi.Process
import Ops.Pi.Deeds
import Ops.Pi.Start
import Ops.Pi.Account
import Ops.Pi.Recovery
import Ops.Pi.Leave
import Ops.Board.Complete
import Ops.Board.Points
import Ops.Cards.Marks
import Ops.Lib.Scan
import Ops.Exam.Waiting
import Ops.Exam.Early
import Ops.Roulette.Lockstep
import Ops.Posix.Mqueue
import Ops.Calc.Request
import Ops.Calc.Server
import Ops.Calc.Wakeup
import Ops.Calc.Harmless
import Ops.Calc.Wire
import Ops.Farm.Process
import Ops.Farm.Results
import Ops.Farm.Tasks
import Ops.Farm.Once
import Ops.Bingo.Threads
import Ops.Bingo.Wakeup
import Ops.Bingo.Count
import Ops.Bingo.Clean
import Ops.Posix.Locks
import Ops.Galton.Process
import Ops.Galton.Balls
import Ops.Reverse.Process
import Ops.Reverse.Locking
import Ops.Reverse.Snapshots
import Ops.Reverse.Signals
import Ops.Posix.Deadlock
import Ops.Reverse.Deadlock
import Ops.Roots.Process
import Ops.Roots.Cells
import Ops.Roots.Missed
import Ops.Split.Process
import Ops.Split.Claims
import Ops.Split.Whole
import Ops.Posix.Fds
import Ops.Ring.Process
import Ops.Ring.Setup
import Ops.Lib.Cycle
import Ops.Ring.Token
import Ops.Ring.Modular
import Ops.Letters.Process
import Ops.Letters.Framing
import Ops.Letters.Lines
import Ops.Letters.Interrupts
import Ops.Letters.Steps
import Ops.Ring.Steps
import Ops.Reverse.Steps
import Ops.Fifo.Process
import Ops.Fifo.Transfer
import Ops.Fifo.Late
import Ops.SocketCalc.Process
import Ops.SocketCalc.Exact
import Ops.Posix.Connections
import Ops.SocketCalc.Server
import Ops.Posix.Sockets
import Ops.SocketCalc.Service
import Ops.Digits.Process
import Ops.Digits.Sums
import Ops.Echo.Process
import Ops.Echo.Moves
import Ops.Echo.Addresses
import Ops.Echo.Asleep
import Ops.Logger.Chunks
import Ops.Cities.Moves
import Ops.Cities.Frames
import Ops.Cities.Survival
import Ops.Lib.Replica
import Ops.Cities.Roster
import Ops.Cities.Replicas
import Ops.Posix.Semaphore
import Ops.Readers.Exclusion
import Ops.Lib.Circular
import Ops.Bounded.Queue
import Ops.Condvar.Queue
import Ops.Peterson.Exclusion
import Ops.Philosophers.Deadlock
import Ops.Notify.Wakeup
import Ops.SigCount.Deaths
import Ops.Udp.Chunking
import Ops.Udp.Table
import Ops.Posix.Transfer
import Ops.Shm.Points
import Ops.Roulette.Stakes
import Ops.Roulette.Create
import Ops.Letters.Choice
import Ops.Lib.Mirror
import Ops.Reverse.Segment
import Ops.Lib.Chain
import Ops.Split.Join
import Ops.Split.Joined
import Ops.LastYear.Process
import Ops.LastYear.Status
import Ops.LastYear.Collect
import Ops.Lib.Switch
import Ops.Players.Create
import Ops.Players.Endless
import Ops.Split.Account
import Ops.Split.Program
import Ops.Counter.Exact
import Ops.Counter.Lost
import Ops.Lib.Simulation
import Ops.Lib.Slots
import Ops.Lib.StoreBuffer
import Ops.Notify.Drain
import Ops.Peterson.Broken
import Ops.Peterson.Fenced
import Ops.Peterson.Waiting
import Ops.Posix.Priority
import Ops.Priority.Process
import Ops.Reorder.Counts
import Ops.Split.Completes
import Ops.Fifo.Opening
import Ops.OneQueue.Outcome
import Ops.Pipe.Prints
import Ops.Posix.Nonblock
import Ops.Select.Process
import Ops.Select.Served
import Ops.Select.Drains
