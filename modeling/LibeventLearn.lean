import LibeventLearn.Lib.Run
import LibeventLearn.Lib.Independent
import LibeventLearn.Lib.Simulation
import LibeventLearn.Lib.CMemory
import LibeventLearn.Lib.Chain
import LibeventLearn.Epoll.Kernel
import LibeventLearn.Epoll.Readiness
import LibeventLearn.Reactor.Model
import LibeventLearn.Reactor.Slots
import LibeventLearn.Reactor.Interest
import LibeventLearn.Reactor.Accept
import LibeventLearn.Reactor.Echo
import LibeventLearn.Reactor.Dispatch
import LibeventLearn.Reactor.BatchOrder
import LibeventLearn.Reactor.Terminator
import LibeventLearn.Reactor.Sweep
import LibeventLearn.Reactor.MainLoop
import LibeventLearn.Reactor.Serving
import LibeventLearn.Reactor.Connection
import LibeventLearn.Reactor.Clients
import LibeventLearn.EpollDemo.Server
import LibeventLearn.EpollDemo.Isolation
import LibeventLearn.EpollDemo.Demux
import LibeventLearn.EpollDemo.Reply
import LibeventLearn.EpollDemo.Protocol
import LibeventLearn.EpollDemo.Wakeup
import LibeventLearn.EpollDemo.Dialogue
import LibeventLearn.EpollDemo.Client
import LibeventLearn.EpollDemo.Session
import LibeventLearn.EpollDemo.ClientLoop
import LibeventLearn.Lib.KeyedSet
import LibeventLearn.Event2.MinHeap
import LibeventLearn.Event2.Refinement
import LibeventLearn.Event2.Time
import LibeventLearn.Event2.TimeRuns
import LibeventLearn.Event2.ListOk
import LibeventLearn.Event2.TailQueue
import LibeventLearn.Event2.Traversal
import LibeventLearn.Event2.Log
import LibeventLearn.Event2.LogRuns
import LibeventLearn.EventBaseDemo.Uppercase
import LibeventLearn.EventBaseDemo.Drain
import LibeventLearn.Lib.Decimal
import LibeventLearn.Lib.Recurrence
import LibeventLearn.EventBaseDemo.Fibonacci
import LibeventLearn.Lib.HeapOrder
import LibeventLearn.Event2.Shifts
import LibeventLearn.Event2.Valid
import LibeventLearn.Event2.Repair
import LibeventLearn.Event2.Width
import LibeventLearn.Event2.PushPop
import LibeventLearn.Event2.Fence
import LibeventLearn.Event2.Bounds
import LibeventLearn.Event2.ShiftUp
import LibeventLearn.Event2.HeapRuns
