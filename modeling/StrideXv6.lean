import StrideXv6.Run
import StrideXv6.Word32
import StrideXv6.Select
import StrideXv6.Proc
import StrideXv6.Scheduler
import StrideXv6.Kernel
import StrideXv6.Table
import StrideXv6.Moves
import StrideXv6.Lifecycle
import StrideXv6.Killing
import StrideXv6.Reaping
import StrideXv6.Account
import StrideXv6.Dispatch
import StrideXv6.Fairness
import StrideXv6.Overflow
import StrideXv6.Log
import StrideXv6.Transaction
import StrideXv6.Crash
import StrideXv6.Buffer
import StrideXv6.Cache
import StrideXv6.Recovery
import StrideXv6.Durability
import StrideXv6.Bytes
import StrideXv6.Disk
import StrideXv6.Blocks
import StrideXv6.Mkfs
import StrideXv6.Regions
import StrideXv6.Bracket
import StrideXv6.Inode
import StrideXv6.Syscall
import StrideXv6.Setting
import StrideXv6.Alone
import StrideXv6.Custody
import StrideXv6.Returns
import StrideXv6.References
import StrideXv6.Pool
import StrideXv6.Interleave
import StrideXv6.Bio
import StrideXv6.Coherence
import StrideXv6.Capacity
import StrideXv6.Limits
import StrideXv6.RoundRobin
import StrideXv6.TieBreak
import StrideXv6.CountedRing
import StrideXv6.Pipes
import StrideXv6.Arguments
import StrideXv6.Placement
import StrideXv6.Effects
import StrideXv6.Paging
import StrideXv6.Ownership
import StrideXv6.AddressSpace
import StrideXv6.Exec
import StrideXv6.Courses
import StrideXv6.Rations
import StrideXv6.Loading
import StrideXv6.Holdings
import StrideXv6.Tasks
import StrideXv6.Calls
import StrideXv6.Supply
import StrideXv6.Boot
import StrideXv6.Upkeep
import StrideXv6.Untrusted
import StrideXv6.Intrusion
import StrideXv6.Contracts
import StrideXv6.Volume
import StrideXv6.Consistency
import StrideXv6.Contents
import StrideXv6.Grep
import StrideXv6.Loop
import StrideXv6.Extents
import StrideXv6.Heap
import StrideXv6.Malloc
import StrideXv6.Copyout
import StrideXv6.Console
import StrideXv6.Filewrite
import StrideXv6.Regexp
import StrideXv6.Memmove
import StrideXv6.Mp
import StrideXv6.DoublyLinked
import StrideXv6.Lru
import StrideXv6.ReadError
import StrideXv6.LinkedQueue
import StrideXv6.Ide
