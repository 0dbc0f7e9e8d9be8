import BitThunder.Lib.Ring
import BitThunder.Lib.Extent
import BitThunder.Lib.Word
import BitThunder.Lib.Prog
import BitThunder.Lib.Tiling
import BitThunder.Lib.Chain
import BitThunder.Lib.Memory
import BitThunder.Mm.Defs
import BitThunder.Mm.Page
import BitThunder.Mm.PageSpec
import BitThunder.Mm.PageRun
import BitThunder.Mm.PageMerge
import BitThunder.Mm.PageReserve
import BitThunder.Mm.PageExact
import BitThunder.Mm.Slab
import BitThunder.Mm.CacheSpec
import BitThunder.Mm.SlabSpec
import BitThunder.Mm.Heap
import BitThunder.Mm.HeapSpec
import BitThunder.Mm.HeapExact
import BitThunder.Mm.Realloc
import BitThunder.Mm.SlabExact
import BitThunder.Vm.Machine
import BitThunder.Vm.Mmu
import BitThunder.Vm.Segment
import BitThunder.Vm.Map
import BitThunder.Vm.SegSpec
import BitThunder.Vm.MmuSpec
import BitThunder.Vm.Layout
import BitThunder.Vm.MapSpec
import BitThunder.Vm.LifeSpec
import BitThunder.Vm.Space
import BitThunder.Vm.Account
import BitThunder.Vm.Locks
import BitThunder.Vm.Race
import BitThunder.Vm.Walk
import BitThunder.Vm.NonGlobal
import BitThunder.Vm.Extract
import BitThunder.Vm.Directory
import BitThunder.Vm.Duplicate
import BitThunder.Vm.Agree
import BitThunder.Vm.Ioremap
import BitThunder.Vm.Atomic
import BitThunder.Vm.Reserve
import BitThunder.Vm.Paged
import BitThunder.Vm.SharedFree
import BitThunder.Vm.Requests
import BitThunder.Vm.Life
import BitThunder.Dev.Mtd
import BitThunder.Dev.MtdSpec
import BitThunder.Lib.Prefix
import BitThunder.Fs.Path
import BitThunder.Fs.Mount
import BitThunder.Fs.MountSpec
import BitThunder.Fs.PathSpec
import BitThunder.Dev.Volume
import BitThunder.Dev.VolumeSpec
import BitThunder.Dev.Partition
import BitThunder.Dev.PartitionSpec
import BitThunder.Dev.PartitionGeometry
import BitThunder.Dev.BootSector
import BitThunder.Dev.VolumeRange
import BitThunder.Fs.Open
import BitThunder.Fs.Cwd
import BitThunder.Fs.PathBuffer
import BitThunder.Dev.Block
import BitThunder.Dev.BlockSpec
import BitThunder.Dev.BlockOnce
import BitThunder.Dev.BlockWake
import BitThunder.Dev.Ramdisk
import BitThunder.Collections.Fifo
import BitThunder.Proc.Descriptors
import BitThunder.Proc.Handles
import BitThunder.Irq.Tasklet
import BitThunder.Irq.Gic
import BitThunder.Fs.Ext2Cache
import BitThunder.Fs.GetS
import BitThunder.Dev.MtdFile
import BitThunder.Dev.MtdError
import BitThunder.Lib.ShiftRegister
import BitThunder.Hash.Crc32
import BitThunder.Time.Clock
import BitThunder.Time.Calendar
import BitThunder.Irq.Softirq
import BitThunder.Net.Receive
import BitThunder.Net.Mailbox
import BitThunder.Net.Manager
import BitThunder.Net.Gem
import BitThunder.Net.Phy
import BitThunder.Net.Transmit
import BitThunder.Lib.Window
import BitThunder.Uart.Receive
import BitThunder.Uart.Transmit
import BitThunder.Lib.Groups
import BitThunder.Dev.Devcfg
import BitThunder.Of.Address
import BitThunder.Of.Unflatten
import BitThunder.Lib.CString
import BitThunder.Shell.Env
import BitThunder.Shell.Script
import BitThunder.Shell.ScriptSpec
import BitThunder.Lib.Traced
import BitThunder.Loader.Elf
import BitThunder.Loader.Load
import BitThunder.Loader.LoadMap
import BitThunder.Dev.Sdcard
import BitThunder.Proc.HandleLists
import BitThunder.Fs.TrailingSlash
import BitThunder.Dev.SdGeometry
import BitThunder.Shell.Expressions
import BitThunder.Shell.ExpressionsEnd
import BitThunder.Shell.Arguments
import BitThunder.Collections.LinkedList
import BitThunder.Collections.FifoNonblocking
import BitThunder.Time.Divider
import BitThunder.Of.Search
import BitThunder.Lib.Rounds
import BitThunder.Of.Interrupts
import BitThunder.Of.InterruptsEnd
import BitThunder.Of.InterruptsStandard
import BitThunder.Of.InterruptsRun
import BitThunder.Of.InterruptsDevice
import BitThunder.Hash.Md5
import BitThunder.Hash.Md5Spec
import BitThunder.Sched.Block
import BitThunder.Sched.Calls
import BitThunder.Sched.ListPointers
import BitThunder.Sched.Priorities
import BitThunder.Sched.Run
import BitThunder.Sched.Start
import BitThunder.Sched.Timing
