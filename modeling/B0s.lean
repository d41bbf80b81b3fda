import B0s.Library.DoublyLinked
import B0s.Library.RangeMap
import B0s.Library.TableForest
import B0s.Library.WordBits
import B0s.Construction.Machine
import B0s.Construction.Mm.Allocator
import B0s.Construction.Mm.Region
import B0s.Construction.Mm.Mmu
import B0s.Construction.Mm.Vmm
import B0s.Construction.Lib.List
import B0s.Construction.Multitasking.Process
import B0s.Construction.Multitasking.Sched
import B0s.Proof.Mm.RegionRun
import B0s.Proof.Mm.PageTable
import B0s.Proof.Mm.PageTableRun
import B0s.Proof.Mm.Backing
import B0s.Proof.Mm.PageLoop
import B0s.Proof.Mm.Coherent
import B0s.Proof.Mm.SpaceCall
import B0s.Proof.Mm.SpaceRun
import B0s.Proof.Lib.List
import B0s.Proof.Multitasking.SchedWalk
import B0s.Proof.Multitasking.SchedSwitch
import B0s.Proof.Multitasking.SchedRun
import B0s.Library.ByteMemory
import B0s.Construction.Lib.Bitmap
import B0s.Construction.Mm.Pmm
import B0s.Proof.Lib.Bitmap
import B0s.Proof.Mm.Pmap
import B0s.Proof.Mm.PmmAlloc
import B0s.Proof.Mm.PmmInit
import B0s.Proof.Mm.PmmRun
import B0s.Proof.Mm.PmmSound
import B0s.Proof.Mm.PmmReserve
import B0s.Construction.Mm.Kheap
import B0s.Proof.Mm.KheapMemory
import B0s.Proof.Mm.KheapBlocks
import B0s.Library.Runs
import B0s.Proof.Multitasking.SignalRun
import B0s.Construction.Multitasking.Switch
import B0s.Proof.Multitasking.SwitchRun
import B0s.Proof.Multitasking.TrapFrame
import B0s.Construction.Multitasking.Interrupt
import B0s.Proof.Multitasking.InterruptRun
import B0s.Construction.Multitasking.Pid
import B0s.Proof.Multitasking.PidRun
import B0s.Proof.Mm.KheapTake
import B0s.Proof.Mm.KheapMerge
import B0s.Proof.Mm.KheapList
import B0s.Proof.Mm.KheapContainer
import B0s.Proof.Mm.KheapCall
import B0s.Proof.Mm.KheapWords
import B0s.Proof.Mm.KheapRun
import B0s.Proof.Mm.KheapAccount
import B0s.Proof.Mm.KheapFree
import B0s.Construction.Mm.Block
import B0s.Proof.Mm.Block
import B0s.Proof.Mm.BlockRun
import B0s.Proof.Lib.BitmapUnset
import B0s.Proof.Lib.BitmapRun
import B0s.Proof.Mm.PageGrant
import B0s.Proof.Mm.PageRun
import B0s.Proof.Mm.AllocAt
import B0s.Proof.Mm.AllocBetween
import B0s.Proof.Mm.KheapRestore
import B0s.Proof.Mm.KheapWindow
import B0s.Proof.Mm.FrameDemand
import B0s.Proof.Mm.SpaceCopy
import B0s.Library.Stopping
import B0s.Proof.Mm.CallsFollow
import B0s.Proof.Mm.NotedCalls
import B0s.Proof.Mm.FreshRun
import B0s.Proof.Mm.FreshRegion
import B0s.Proof.Mm.FreshCopy
import B0s.Proof.Lib.ListRefine
import B0s.Proof.Mm.PhysPages
import B0s.Proof.Mm.BitmapPlacement
import B0s.Proof.Mm.FullRegion
import B0s.Proof.Mm.PmapRegions
import B0s.Proof.Multitasking.SignalExact
import B0s.Construction.Multitasking.ProcessTree
import B0s.Proof.Multitasking.TreeRun
import B0s.Construction.Lib.BitmapStatic
import B0s.Proof.Lib.BitmapStaticRun
import B0s.Proof.Mm.PmmRestore
import B0s.Proof.Mm.PmmFrames
import B0s.Construction.Multitasking.ProcessRecord
import B0s.Proof.Mm.KheapStale
import B0s.Proof.Multitasking.RecordFill
import B0s.Proof.Lib.ListFilter
import B0s.Proof.Multitasking.ProcessName
import B0s.Construction.Mm.PmapSort
import B0s.Proof.Mm.PmapSortRun
import B0s.Construction.Drivers.Vga
import B0s.Construction.Lib.Printk
import B0s.Proof.Drivers.VgaRun
import B0s.Proof.Lib.PrintkDigits
import B0s.Proof.Lib.PrintkRun
import B0s.Construction.Drivers.Acpi
import B0s.Construction.Multiboot
import B0s.Proof.Drivers.AcpiTables
import B0s.Library.OffsetChain
import B0s.Proof.Drivers.AcpiMadt
import B0s.Proof.Multiboot
import B0s.Proof.Multitasking.ProcessObtains
import B0s.Proof.Multitasking.ProcessLeak
import B0s.Construction.Mm.MmuTest
import B0s.Construction.Mm.VmmInit
import B0s.Proof.Mm.FrameReserve
import B0s.Proof.Mm.MmuTest
import B0s.Proof.Mm.SpaceFill
import B0s.Proof.Mm.VmmInit
import B0s.Proof.Mm.BootMemory
import B0s.Proof.Mm.Coupled
import B0s.Proof.Mm.CoupledCall
import B0s.Construction.Multitasking.ProcessSpace
import B0s.Proof.Mm.CoupledCopy
import B0s.Proof.Multitasking.Isolation
import B0s.Proof.Multitasking.IsolationRun
import B0s.Proof.Mm.KheapRecord
import B0s.Proof.Multitasking.KernelRun
import B0s.Proof.Multitasking.BootIsolation
import B0s.Proof.Multitasking.MachineAccess
