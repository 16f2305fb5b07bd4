import KernelLabs.Jos.BootAlloc
import KernelLabs.Jos.BootMap
import KernelLabs.Jos.Directory
import KernelLabs.Jos.Dump
import KernelLabs.Jos.FreeList
import KernelLabs.Jos.FreeListOrder
import KernelLabs.Jos.KernPgdir
import KernelLabs.Jos.Ledger
import KernelLabs.Jos.Monitor
import KernelLabs.Jos.PageInit
import KernelLabs.Jos.PageInsert
import KernelLabs.Jos.PageRefs
import KernelLabs.Jos.PageRuns
import KernelLabs.Jos.RefWrap
import KernelLabs.Jos.Setperm
import KernelLabs.Jos.ShowMappings
import KernelLabs.Jos.Tlb
import KernelLabs.Jos.TlbRuns
import KernelLabs.Lab2.Lottery
import KernelLabs.Lab2.LotteryDraw
import KernelLabs.Lab2.LotteryLocks
import KernelLabs.Lab2.LotteryStats
import KernelLabs.Lab2.LotteryWinner
import KernelLabs.Lab2.Mlfq
import KernelLabs.Lab2.MlfqCapacity
import KernelLabs.Lab2.MlfqFirstQueues
import KernelLabs.Lab2.MlfqFirstStates
import KernelLabs.Lab2.MlfqIdle
import KernelLabs.Lab2.MlfqPriority
import KernelLabs.Lab2.MlfqPromotion
import KernelLabs.Lab2.MlfqRequeue
import KernelLabs.Lab2.MlfqRoundRobin
import KernelLabs.Lab2.MlfqWakeup
import KernelLabs.Lab2.Original
import KernelLabs.Lib.Bytes
import KernelLabs.Lib.CacheFlush
import KernelLabs.Lib.Counting
import KernelLabs.Lib.Custody
import KernelLabs.Lib.FifoStore
import KernelLabs.Lib.GroupCommit
import KernelLabs.Lib.LinkedList
import KernelLabs.Lib.LockOwners
import KernelLabs.Lib.Ring
import KernelLabs.Lib.RingBuffer
import KernelLabs.Lib.Shares
import KernelLabs.Lib.WriteBack
import KernelLabs.Xv6.Bio
import KernelLabs.Xv6.BioCache
import KernelLabs.Xv6.BioRuns
import KernelLabs.Xv6.Console
import KernelLabs.Xv6.ConsoleLines
import KernelLabs.Xv6.FileRefs
import KernelLabs.Xv6.FileRuns
import KernelLabs.Xv6.FileTable
import KernelLabs.Xv6.Fs
import KernelLabs.Xv6.FsCalls
import KernelLabs.Xv6.FsDirs
import KernelLabs.Xv6.FsDisk
import KernelLabs.Xv6.FsLayout
import KernelLabs.Xv6.FsOwn
import KernelLabs.Xv6.FsRuns
import KernelLabs.Xv6.Growproc
import KernelLabs.Xv6.Ide
import KernelLabs.Xv6.IdeQueue
import KernelLabs.Xv6.InodeRelease
import KernelLabs.Xv6.Log
import KernelLabs.Xv6.LogCrash
import KernelLabs.Xv6.LogRecovery
import KernelLabs.Xv6.LogSpace
import KernelLabs.Xv6.Mkfs
import KernelLabs.Xv6.MkfsFiles
import KernelLabs.Xv6.MkfsImage
import KernelLabs.Xv6.MkfsKernel
import KernelLabs.Xv6.Pipe
import KernelLabs.Xv6.PipeFifo
import KernelLabs.Xv6.PipeWakeup
import KernelLabs.Xv6.ProcKill
import KernelLabs.Xv6.ProcLife
import KernelLabs.Xv6.ProcReap
import KernelLabs.Xv6.Sleep
import KernelLabs.Xv6.SleepWakeup
import KernelLabs.Xv6.Sleeplock
import KernelLabs.Xv6.Syscall
import KernelLabs.Xv6.Vm
import KernelLabs.Xv6.VmPages
import KernelLabs.Xv6.VmRuns
import KernelLabs.Xv6.VmSpaces
import KernelLabs.Lib.Tiling
import KernelLabs.Xv6.Umalloc
import KernelLabs.Xv6.UmallocList
import KernelLabs.Xv6.UmallocRuns
import KernelLabs.Lib.PageBytes
import KernelLabs.Xv6.Exec
import KernelLabs.Xv6.ExecCopy
import KernelLabs.Xv6.ExecImage
import KernelLabs.Xv6.ExecLoad
import KernelLabs.Xv6.VmFork
import KernelLabs.Xv6.VmKernel
import KernelLabs.Xv6.VmUser
import KernelLabs.Xv6.ExecStack
import KernelLabs.Xv6.FsBytes
import KernelLabs.Lib.SlotTable
import KernelLabs.Lib.Recorded
import KernelLabs.Xv6.FsNames
import KernelLabs.Xv6.FsPaths
import KernelLabs.Xv6.FsLogged
import KernelLabs.Xv6.Filewrite
import KernelLabs.Lib.Patterns
import KernelLabs.Lib.Lines
import KernelLabs.Xv6.GrepMatch
import KernelLabs.Xv6.Grep
import KernelLabs.Lib.BlockMove
import KernelLabs.Xv6.Memmove
import KernelLabs.Xv6.VmDealloc
import KernelLabs.Lib.CInt
import KernelLabs.Lib.Numerals
import KernelLabs.Jos.Printnum
import KernelLabs.Lib.SparseSearch
import KernelLabs.Jos.Stabs
import KernelLabs.Lib.BoundedWriter
import KernelLabs.Jos.Vprintfmt
import KernelLabs.Jos.Formats
import KernelLabs.Jos.Vsnprintf
import KernelLabs.Xv6.UmallocSizes
import KernelLabs.Lib.CommandLines
import KernelLabs.Xv6.Sh
import KernelLabs.Xv6.ShTokens
import KernelLabs.Xv6.ShParse
import KernelLabs.Xv6.ShRun
import KernelLabs.Xv6.Spinlock
import KernelLabs.Xv6.SpinlockSafe
import KernelLabs.Xv6.RoundRobin
import KernelLabs.Lib.LinkCounts
import KernelLabs.Xv6.FsTree
import KernelLabs.Xv6.FsTreeCalls
import KernelLabs.Xv6.FsTreeRuns
import KernelLabs.Xv6.MkfsTree
import KernelLabs.Lib.Screen
import KernelLabs.Lib.Words
import KernelLabs.Jos.Console
import KernelLabs.Jos.MonitorInput
import KernelLabs.Jos.MonitorArgs
import KernelLabs.Jos.MonitorSession
import KernelLabs.Jos.Keyboard
import KernelLabs.Xv6.Printf
import KernelLabs.Xv6.Wc
import KernelLabs.Lib.Lagged
import KernelLabs.Lab2.Rand
