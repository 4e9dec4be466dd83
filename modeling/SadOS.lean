import SadOS.Lib.BinradixHalves
import SadOS.Lib.SplayNeighbours
import SadOS.Mm.Accounting
import SadOS.Mm.WriteProtect
import SadOS.Mm.MemPort
import SadOS.Mm.WellFormed
import SadOS.Mm.Unmap
import SadOS.Mm.MapPage
import SadOS.Mm.TakeBack
import SadOS.Libc.Exec
import SadOS.Mm.PageAllocator
import SadOS.Fs.Metadata
import SadOS.Fs.Server
import SadOS.Libc.Buddy
import SadOS.Lib.BackLinks
import SadOS.Lib.Dyadic
import SadOS.Kernel.RunQueue
import SadOS.Mm.Sendpage
import SadOS.Mm.CopyBack
import SadOS.Mm.KernelHalf
import SadOS.Mm.Payload
import SadOS.Mm.ObjPool
import SadOS.Mm.Teardown
import SadOS.Mm.DirectMap
import SadOS.Kernel.Rollback
import SadOS.Kernel.Balance
import SadOS.Mm.Isolation
import SadOS.Kernel.FdSets
import SadOS.Kernel.Woken
import SadOS.Kernel.Respond
import SadOS.Kernel.Readiness
import SadOS.Kernel.Slots
import SadOS.Kernel.ServerClose
import SadOS.Kernel.PopRequest
import SadOS.Kernel.Registry
import SadOS.Kernel.Dup
import SadOS.Mm.Grants
import SadOS.Mm.DeviceRanges
import SadOS.Kernel.MemService
import SadOS.Sbush.Quoting
import SadOS.Libc.Callers
import SadOS.Libc.Elf
import SadOS.Libc.Split
import SadOS.Libc.Chdir
import SadOS.Libc.Directory
import SadOS.Libc.Open
import SadOS.Lib.Numeral
import SadOS.Libc.Itoa
import SadOS.Libc.Printf
import SadOS.Libc.Scanf
import SadOS.Libc.RoundTrip
import SadOS.Libc.Env
import SadOS.Libc.Memcpy
import SadOS.Libc.Coalescing
import SadOS.Console.Screen
import SadOS.Lib.Ring
import SadOS.Console.Input
import SadOS.Console.Delivery
import SadOS.Console.LineMemory
import SadOS.Mm.AssignPage
import SadOS.Mm.Boot
import SadOS.Fs.Tarfs
import SadOS.Fs.TarIndex
import SadOS.Fs.TarRead
import SadOS.Fs.TarMembers
import SadOS.Lib.BlockFile
import SadOS.Fs.SataFile
import SadOS.Fs.ByteFiles
import SadOS.Fs.SataDir
import SadOS.Fs.DiskFull
import SadOS.Fs.Regions
import SadOS.Fs.DentryParts
import SadOS.Fs.SataListing
import SadOS.Kernel.ListHead
import SadOS.Kernel.Dispatch
import SadOS.Kernel.Channels
import SadOS.Console.Typing
import SadOS.Fs.Sessions
