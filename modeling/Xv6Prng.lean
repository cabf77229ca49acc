import Xv6Prng.Library.Halting
import Xv6Prng.Library.ByteWords
import Xv6Prng.Library.Countdown
import Xv6Prng.Library.Ownership
import Xv6Prng.Library.CounterMode
import Xv6Prng.Library.Runs
import Xv6Prng.Library.BinaryField
import Xv6Prng.Library.RedoLog
import Xv6Prng.Library.LockOrder
import Xv6Prng.Library.Extents
import Xv6Prng.Library.LinkedQueue
import Xv6Prng.Library.LinkedRing
import Xv6Prng.Library.BlockMap
import Xv6Prng.Library.WrapRing
import Xv6Prng.Counter
import Xv6Prng.Aes
import Xv6Prng.AesLayers
import Xv6Prng.AesField
import Xv6Prng.Fips197
import Xv6Prng.EntropyPools
import Xv6Prng.PoolStream
import Xv6Prng.Kernel
import Xv6Prng.HashInput
import Xv6Prng.Collectors
import Xv6Prng.Fips180
import Xv6Prng.Delivery
import Xv6Prng.DistinctBlocks
import Xv6Prng.Reseed
import Xv6Prng.ReseedHook
import Xv6Prng.SysRandom
import Xv6Prng.PoolIndices
import Xv6Prng.Interleaving
import Xv6Prng.Solo
import Xv6Prng.SharedCounter
import Xv6Prng.ReseedRuns
import Xv6Prng.KernelLocks
import Xv6Prng.Ctr
import Xv6Prng.SysEncrypt
import Xv6Prng.Pipenet
import Xv6Prng.BufferCache
import Xv6Prng.Log
import Xv6Prng.LogCrash
import Xv6Prng.LogOps
import Xv6Prng.SharedBuffers
import Xv6Prng.Ide
import Xv6Prng.FlatStore
import Xv6Prng.OnDisk
import Xv6Prng.Inodes
import Xv6Prng.FileBlocks
import Xv6Prng.FileBytes
import Xv6Prng.InodeCache
import Xv6Prng.FileWrite
import Xv6Prng.DirEntry
import Xv6Prng.Mkfs
import Xv6Prng.MkfsImage
import Xv6Prng.Pipe
import Xv6Prng.SleepWakeup
import Xv6Prng.ProcLife
import Xv6Prng.Pids
import Xv6Prng.OpenFiles
import Xv6Prng.SysRead
import Xv6Prng.ReadEvents
import Xv6Prng.SharedInodes
import Xv6Prng.Select
import Xv6Prng.SelectLists
import Xv6Prng.Console
import Xv6Prng.ConsoleLine
import Xv6Prng.SelectWake
import Xv6Prng.KilledWaits
import Xv6Prng.Directory
import Xv6Prng.Paths
import Xv6Prng.MkfsFiles
import Xv6Prng.Umalloc
import Xv6Prng.ShGrammar
import Xv6Prng.ShParse
import Xv6Prng.UserSpace
import Xv6Prng.Unmapping
import Xv6Prng.GrowProc
import Xv6Prng.CopyOut
import Xv6Prng.CopySpace
import Xv6Prng.Exec
import Xv6Prng.Memmove
import Xv6Prng.GrepMatch
import Xv6Prng.Grep
import Xv6Prng.Mp
import Xv6Prng.MapPages
