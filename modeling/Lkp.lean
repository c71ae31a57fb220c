import Lkp.Concurrency.Machine
import Lkp.Concurrency.Pool
import Lkp.Concurrency.Total
import Lkp.Concurrency.Effects
import Lkp.Concurrency.Alone
import Lkp.Concurrency.Lock
import Lkp.Concurrency.RwLock
import Lkp.Concurrency.Rcu
import Lkp.Memory.Pages
import Lkp.Memory.Bytes
import Lkp.Memory.Heap
import Lkp.Memory.Links
import Lkp.Memory.Ring
import Lkp.Memory.Ledger
import Lkp.Memory.Release
import Lkp.Memory.Slots
import Lkp.Memory.Vars
import Lkp.Memory.BitArray
import Lkp.Memory.Chain
import Lkp.Concurrency.Appends
import Lkp.Concurrency.Freeing
import Lkp.Concurrency.Publish
import Lkp.Concurrency.History
import Lkp.Concurrency.Counters
import Lkp.Concurrency.Additions
import Lkp.Memory.Linking
import Lkp.CLang.Int
import Lkp.CLang.Loop
import Lkp.CLang.Format
import Lkp.Shell.Getopts
import Lkp.Kernel.Basic
import Lkp.Kernel.Refcount
import Lkp.Kernel.Counter
import Lkp.Kernel.Module
import Lkp.Secret.Context
import Lkp.Secret.Mutex
import Lkp.Secret.Spin
import Lkp.Secret.Exclusion
import Lkp.Secret.Bounds
import Lkp.Secret.Methods
import Lkp.Secret.WriteRead
import Lkp.Secret.TestApp
import Lkp.Secret.Reports
import Lkp.Secret.Stats
import Lkp.Secret.Discipline
import Lkp.Secret.Locked
import Lkp.Secret.Available
import Lkp.Secret.Outcome
import Lkp.Secret.Atomicity
import Lkp.Secret.Lifecycle
import Lkp.Lockdep.Abba
import Lkp.Lockdep.Lifecycle
import Lkp.Refcount.Driver
import Lkp.Refcount.Interleaved
import Lkp.RcuRdwr.Driver
import Lkp.RcuRdwr.Reclaim
import Lkp.RcuRdwr.Show
import Lkp.RcuRdwr.Lifecycle
import Lkp.RcuRdwr.Alone
import Lkp.RwRdwr.Driver
import Lkp.RwRdwr.Show
import Lkp.RwRdwr.Lifecycle
import Lkp.NolocksRdwr.Driver
import Lkp.NolocksRdwr.Show
import Lkp.RwRdwr.Lines
import Lkp.RwList.Driver
import Lkp.RwList.Alone
import Lkp.RcuList.Driver
import Lkp.RcuList.Shape
import Lkp.RcuList.Reclaim
import Lkp.RcuList.Append
import Lkp.RcuList.Snapshot
import Lkp.RcuList.Alone
import Lkp.RwList.Refactored
import Lkp.RwList.Whole
import Lkp.RwList.Freelist
import Lkp.RwList.Shape
import Lkp.RwList.Linear
import Lkp.RwList.Progress
import Lkp.RwList.Shown
import Lkp.RcuList.Freelist
import Lkp.RcuList.Shown
import Lkp.ListDemo.Driver
import Lkp.ListDemo.Freelist
import Lkp.PerCpu.Counters
import Lkp.PerCpu.Threads
import Lkp.Libtest.Mylib
import Lkp.Klib.Powerof
import Lkp.Klib.PhyPages
import Lkp.Klib.Snprintf
import Lkp.Cgroups.Primegen
import Lkp.Cgroups.HumanSize
import Lkp.Cgroups.ExploreArgs
import Lkp.Bitops.RmwAtomic
import Lkp.PageAlloc.ExactLoop
import Lkp.PageAlloc.Lowlevel
import Lkp.Slab.Custom
import Lkp.Slab.CustomMult
import Lkp.Slab.PtrArray
import Lkp.Slab.MaxAlloc
import Lkp.Vmalloc.Demo
import Lkp.Sched.CpuAffinity
import Lkp.Tasks.Task
import Lkp.Tasks.ThrdShowallRcu
import Lkp.Tasks.ThrdShowall
import Lkp.Tasks.PrcsShowall
import Lkp.Tasks.Listing
import Lkp.TaskList.Walk
import Lkp.TaskList.Shape
import Lkp.TaskList.Books
import Lkp.TaskList.Reclaim
import Lkp.TaskList.Coverage
import Lkp.TaskList.AllocLock
import Lkp.TaskList.Alone
import Lkp.TaskList.Snapshot
