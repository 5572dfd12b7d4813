import Dawos.HeapSpec
import Dawos.HeapOps
import Dawos.HeapRun
import Dawos.HeapSafety
import Dawos.Pci
import Dawos.PciEnum
import Dawos.PciSafety
import Dawos.Ata
import Dawos.Gpt
import Dawos.DebugPrint
import Dawos.GptSafety
import Dawos.Mbr
import Dawos.PageMap
import Dawos.PageResolve
import Dawos.SetupPages
import Dawos.PagePool
import Dawos.HeapSearch
import Dawos.HeapTree
import Dawos.HeapTags
import Dawos.KernelPaging
import Dawos.FrameBitmap
import Dawos.PageAlloc
import Dawos.HeapLock
import Dawos.BubbleSort
import Dawos.E820Sort
import Dawos.IntStr
import Dawos.PageFault
import Dawos.PageTree
import Dawos.PageSearch
import Dawos.E820Read
import Dawos.HeapRealloc
import Dawos.HeapRestore
import Dawos.HeapGuarantee
import Dawos.PmlEntry
import Dawos.AtaBuffer
import Dawos.AtaInit
import Dawos.VideoOps
import Dawos.TextDriver
import Dawos.WriteF
import Dawos.FormatText
import Dawos.FormatNumbers
import Dawos.HeapCarve
import Dawos.Acpi
import Dawos.AcpiMap
import Dawos.Madt
import Dawos.AhciPorts
import Dawos.AhciRead
import Dawos.Stack
import Dawos.Pic
import Dawos.Irq
import Dawos.IntStub
import Dawos.Idt
import Dawos.KernelIrq
import Dawos.Refine
import Dawos.DemandPaging
import Dawos.HeapFrame
import Dawos.BlockStore
import Dawos.Memory
import Dawos.Pit
