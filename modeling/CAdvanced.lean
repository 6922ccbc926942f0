import CAdvanced.Interleave.Sync
import CAdvanced.Interleave.Threads
import CAdvanced.MutexNostarve.Model
import CAdvanced.MutexNostarve.Invariant
import CAdvanced.MutexNostarve.Bypass
import CAdvanced.MutexNostarve.Progress
import CAdvanced.Barrier.Model
import CAdvanced.Barrier.Invariant
import CAdvanced.SloppyCounter.Model
import CAdvanced.SloppyCounter.Invariant
import CAdvanced.SloppyCounter.Accuracy
import CAdvanced.SloppyCounter.Main
import CAdvanced.SloppyCounter.Ids
import CAdvanced.ReaderWriter.Invariant
import CAdvanced.ReaderWriterNostarve.Model
import CAdvanced.ReaderWriterMain.Model
import CAdvanced.ReaderWriterMain.Erasure
import CAdvanced.ReaderWriterNostarve.Refinement
import CAdvanced.ReaderWriterNostarve.Bypass
import CAdvanced.ReaderWriterNostarve.Handoff
import CAdvanced.ReaderWriter.Progress
import CAdvanced.ReaderWriterNostarve.Progress
import CAdvanced.Heap.Chain
import CAdvanced.Interleave.Fifo
import CAdvanced.TwoLockQueue.Model
import CAdvanced.TwoLockQueue.Invariant
import CAdvanced.TwoLockQueue.Refinement
import CAdvanced.TwoLockQueue.Nonempty
import CAdvanced.TwoLockQueue.Main
import CAdvanced.LinkedList.Invariant
import CAdvanced.LinkedList.Order
import CAdvanced.LinkedList.Progress
import CAdvanced.Heap.Lifetime
import CAdvanced.FileServerMain.Model
import CAdvanced.FileServerMain.Lifetime
import CAdvanced.FileServer.Model
import CAdvanced.FileServer.Lifetime
import CAdvanced.FileServer.Resources
import CAdvanced.FileServerSignals.Model
import CAdvanced.FileServerSignals.Shutdown
import CAdvanced.HelloCounted.Model
import CAdvanced.HelloCounted.Counters
import CAdvanced.MybufferSync.Model
import CAdvanced.MybufferSync.Stream
import CAdvanced.MybufferSync.Origin
import CAdvanced.Interleave.WaitQueue
import CAdvanced.MybufferSync.Driver
import CAdvanced.MybufferSync.Conservation
import CAdvanced.MybufferSync.Wakeup
import CAdvanced.MybufferSync.Delivery
import CAdvanced.MybufferSync.Alone
import CAdvanced.MybufferSync.Nonblock
import CAdvanced.CInt.Wrap
import CAdvanced.Mybuffer.Model
import CAdvanced.Mybuffer.Reads
import CAdvanced.Mybuffer.Concurrent
import CAdvanced.Mybuffer.Whole
import CAdvanced.Mybuffer.Chunks
import CAdvanced.Mybuffer.Faults
import CAdvanced.Openclose.Model
import CAdvanced.Openclose.Limit
import CAdvanced.CText.Number
import CAdvanced.CText.Lines
import CAdvanced.Interleave.Tickets
import CAdvanced.MyController.Model
import CAdvanced.MyController.Value
import CAdvanced.MyController.Fscounter
import CAdvanced.MyController.Release
import CAdvanced.MyController.Memcounter
import CAdvanced.CText.CString
import CAdvanced.FileServer.Request
import CAdvanced.FileServer.Buffer
import CAdvanced.FileServer.Response
import CAdvanced.FileServerSignals.Request
import CAdvanced.FileServerSignals.Result
import CAdvanced.FileServerSignals.Files
import CAdvanced.Sequential.Code
import CAdvanced.Sequential.Ledger
import CAdvanced.ModuleLoad.Kernel
import CAdvanced.ModuleLoad.Modules
import CAdvanced.ModuleLoad.Model
import CAdvanced.ModuleLoad.Outcome
import CAdvanced.ModuleLoad.Hello
import CAdvanced.ModuleLoad.MybufferSync
import CAdvanced.ModuleLoad.Mybuffer
import CAdvanced.ModuleLoad.Openclose
import CAdvanced.ModuleLoad.Balance
import CAdvanced.Interleave.WorkItem
import CAdvanced.Myworkqueue.Model
import CAdvanced.Myworkqueue.Unload
import CAdvanced.Sequential.Drain
import CAdvanced.HelloCounted.Bounds
import CAdvanced.Hello.Chunks
import CAdvanced.MyController.Text
import CAdvanced.Myzero.Read
import CAdvanced.Vector.Elements
import CAdvanced.SimpleServer.Messages
import CAdvanced.Tlb.Trials
import CAdvanced.Sequential.Extremes
import CAdvanced.Mytimer.Statistics
import CAdvanced.DeadlockGlobal.Model
import CAdvanced.DeadlockGlobal.Gate
import CAdvanced.Interleave.KernelThread
import CAdvanced.KernelThreads.Model
import CAdvanced.KernelThreads.Unload
import CAdvanced.Interleave.Termination
import CAdvanced.Interleave.ForkJoin
import CAdvanced.MutexNostarve.Termination
import CAdvanced.MutexNostarve.Exclusion
import CAdvanced.ReaderWriterMain.Termination
import CAdvanced.ReaderWriter.Termination
import CAdvanced.ReaderWriter.Exclusion
import CAdvanced.ReaderWriterNostarve.Termination
import CAdvanced.Barrier.Termination
import CAdvanced.TwoLockQueue.Memory
import CAdvanced.TwoLockQueue.Termination
import CAdvanced.Interleave.LockProgram
import CAdvanced.Deadlock.Embrace
import CAdvanced.Interleave.Condition
import CAdvanced.SignalCv.Model
import CAdvanced.SignalCv.Invariant
import CAdvanced.SignalCv.Progress
import CAdvanced.Interleave.Serial
import CAdvanced.DeadlockGlobal.Serial
import CAdvanced.LinkedList.Cost
import CAdvanced.SloppyCounter.Termination
import CAdvanced.Interleave.Monitor
import CAdvanced.SimpleCounter.Model
import CAdvanced.SimpleCounter.Linearizable
import CAdvanced.ReaderWriter.Starvation
import CAdvanced.FileServer.Exchange
import CAdvanced.Mytimer.Unload
import CAdvanced.CText.Format
import CAdvanced.Sysinfo.Model
import CAdvanced.Sysinfo.Output
import CAdvanced.EasyServer.Model
import CAdvanced.EasyServer.Responses
import CAdvanced.Interleave.Confluence
import CAdvanced.Interleave.Straight
import CAdvanced.Rendezvous.Order
import CAdvanced.Myworkqueue.Statistics
import CAdvanced.KernelThreads.Counter
