import AnglOS.Memory
import AnglOS.Loop
import AnglOS.Buddy
import AnglOS.BuddyMerge
import AnglOS.Pmm
import AnglOS.PmmBlocks
import AnglOS.PmmAlloc
import AnglOS.PmmRun
import AnglOS.PmmInit
import AnglOS.PmmLimits
import AnglOS.Libc
import AnglOS.Heap
import AnglOS.HeapCells
import AnglOS.HeapOps
import AnglOS.HeapAlloc
import AnglOS.HeapRun
import AnglOS.HeapRequests
import AnglOS.HeapObjects
import AnglOS.Input
import AnglOS.Sched
import AnglOS.SchedQueue
import AnglOS.SchedFair
import AnglOS.Ring
import AnglOS.Radix
import AnglOS.Paging
import AnglOS.AddressSpace
import AnglOS.PagingTree
import AnglOS.PagingMap
import AnglOS.PagingBlank
import AnglOS.PagingBoot
import AnglOS.PagingFree
import AnglOS.PagingUnmap
import AnglOS.PagingRoundTrip
import AnglOS.PagingLedger
import AnglOS.KernelHalf
import AnglOS.ThreadStacks
import AnglOS.Mmu
import AnglOS.PagingFlags
import AnglOS.UserHalf
import AnglOS.Elf
import AnglOS.ElfLoad
import AnglOS.Text
import AnglOS.TextBounds
import AnglOS.TextScreen
import AnglOS.TextCursor
import AnglOS.TextEdits
import AnglOS.Machine
import AnglOS.Syscall
import AnglOS.Context
import AnglOS.PagingLock
import AnglOS.PagingRights
import AnglOS.PagingExhaust
import AnglOS.AddressSpaceFlags
import AnglOS.ElfImage
import AnglOS.ThreadCreate
import AnglOS.Nvme
import AnglOS.Kmodule
import AnglOS.PmmTail
import AnglOS.HeapFit
import AnglOS.Pci
import AnglOS.Apic
import AnglOS.ApicTimer
import AnglOS.Shell
import AnglOS.InterruptEntry
import AnglOS.KernelListRun
import AnglOS.StdioBuffer
import AnglOS.StdioPrint
import AnglOS.Console
import AnglOS.Isolation
import AnglOS.Processes
