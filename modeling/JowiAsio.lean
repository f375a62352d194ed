import JowiAsio.Awaitables.InfiniteAwaiter
import JowiAsio.Awaitables.Locks
import JowiAsio.Awaitables.TimedAwaiter
import JowiAsio.EventLoop.AsyncPush
import JowiAsio.EventLoop.Ownership
import JowiAsio.EventLoop.PollErrors
import JowiAsio.EventLoop.Polling
import JowiAsio.EventLoop.Parallel
import JowiAsio.EventLoop.Results
import JowiAsio.Executor.Registration
import JowiAsio.Executor.Signals
import JowiAsio.LockFreeQueue.Acyclic
import JowiAsio.LockFreeQueue.Delivery
import JowiAsio.LockFreeQueue.Linearizable
import JowiAsio.LockFreeQueue.Progress
import JowiAsio.LockFreeQueue.Reclamation
import JowiAsio.LockFreeQueue.Removal
import JowiAsio.LockFreeQueue.Sequential
import JowiAsio.LockFreeQueue.SizeCounter
import JowiAsio.Lockfree.BitTuple
import JowiAsio.Lockfree.Exchange
import JowiAsio.Ringbuf.Ownership
import JowiAsio.Ringbuf.Progress
import JowiAsio.SharedPtr.Progress
import JowiAsio.SharedPtr.Refinement
import JowiAsio.EventLoop.OnRingbuf
