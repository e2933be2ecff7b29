import Porpoise.Lib.TSys
import Porpoise.Futex.SpinLock
import Porpoise.Slots.SpinLock
import Porpoise.Lib.SpinLock
import Porpoise.Lib.Simulation
import Porpoise.Malloc.Sbrk
import Porpoise.Malloc.SysAlloc
import Porpoise.Malloc.Ownership
import Porpoise.Lib.Scan
import Porpoise.Shim.Sysno
import Porpoise.Slots.Table
import Porpoise.Slots.Threads
import Porpoise.Slots.Exclusion
import Porpoise.Slots.Capacity
import Porpoise.Futex.Mirror
import Porpoise.Futex.Join
import Porpoise.Futex.WakeUp
import Porpoise.Lib.Bytes
import Porpoise.Lib.Row
import Porpoise.Lib.Indep
import Porpoise.Shim.World
import Porpoise.Shim.Abi
import Porpoise.Shim.Wrap
import Porpoise.Shim.Call
import Porpoise.Shim.Result
import Porpoise.Shim.Decode
import Porpoise.Shim.Stale
import Porpoise.Shim.Independence
import Porpoise.Shim.Transfer
import Porpoise.Shim.Vectors
import Porpoise.Shim.SendBounds
import Porpoise.Shim.KernelBounds
import Porpoise.Shim.Confine
import Porpoise.Futex.Stability
import Porpoise.Shim.Pointers
import Porpoise.Shim.Failure
import Porpoise.Shim.NullFlags
import Porpoise.Shim.Success
import Porpoise.Lib.Heap
import Porpoise.Shim.HeapBalance
import Porpoise.Shim.Heed
import Porpoise.Shim.Faithful
import Porpoise.Shim.OneCall
import Porpoise.Shim.Bounds
import Porpoise.Shim.Inputs
import Porpoise.Shim.InputsOnly
import Porpoise.Futex.Exhaustion
import Porpoise.Threads.Registration
import Porpoise.Threads.Creation
import Porpoise.Shim.Gather
import Porpoise.Slots.Ownership
import Porpoise.Shim.Nested
import Porpoise.Shim.Present
import Porpoise.Shim.Delivery
import Porpoise.Shim.Message
import Porpoise.Shim.Receipt
import Porpoise.Shim.ValueResult
import Porpoise.Shim.Pselect
import Porpoise.Shim.Requeue
import Porpoise.Shim.CreateModes
import Porpoise.Shim.Sigaction
import Porpoise.Shim.Offsets
import Porpoise.Shim.InputBuffers
import Porpoise.Shim.CountedReads
import Porpoise.Shim.Excess
import Porpoise.Shim.InPlace
import Porpoise.Shim.NullPointers
import Porpoise.Shim.Ioctl
import Porpoise.Shim.Fcntl
import Porpoise.Lib.LastWrite
import Porpoise.Threads.ThreadTable
import Porpoise.Lib.Ledger
import Porpoise.Sync.Machine
import Porpoise.Sync.WakeUp
import Porpoise.Sync.Lock
import Porpoise.Sync.Mutex
import Porpoise.Sync.MutexWakeUp
import Porpoise.Lib.BitMap
import Porpoise.Lib.Trie
import Porpoise.Lib.Tiling
import Porpoise.Dlmalloc.Bins
import Porpoise.Dlmalloc.Arena
import Porpoise.Dlmalloc.Malloc
import Porpoise.Dlmalloc.Free
import Porpoise.Dlmalloc.Layout
import Porpoise.Dlmalloc.Invariant
import Porpoise.Dlmalloc.Grow
import Porpoise.Dlmalloc.SysAlloc
import Porpoise.Dlmalloc.MallocCorrect
import Porpoise.Dlmalloc.Release
import Porpoise.Dlmalloc.FreeCorrect
import Porpoise.Dlmalloc.Heap
import Porpoise.Dlmalloc.BestFit
import Porpoise.Dlmalloc.Checks
import Porpoise.Dlmalloc.Exhaustion
import Porpoise.Malloc.Refinement
