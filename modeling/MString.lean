import MString.Mm.PageAccs
import MString.Proofs.Mm.Pins
import MString.Proofs.Mm.PageAccs
import MString.Proofs.Mm.Runaway
import MString.Proofs.Mm.Outside
import MString.Mm.Remap
import MString.Proofs.Mm.Counts
import MString.Proofs.Mm.Remap
import MString.Eza.Interrupt
import MString.Proofs.Eza.Interrupt
import MString.Eza.Bits
import MString.Eza.Kstack
import MString.Proofs.Eza.Bits
import MString.Proofs.Eza.Kstack
import MString.Eza.Task
import MString.Proofs.Eza.Task
import MString.Proofs.Mm.Edits
import MString.Proofs.Mm.Histories
import MString.Proofs.Mm.Rights
import MString.Lib.HeapTree
import MString.Mm.Bbuddy
import MString.Proofs.Mm.Bbuddy
import MString.Proofs.Mm.BuddyRuns
import MString.Proofs.Mm.BuddyReleases
import MString.Mlibc.Kprintf
import MString.Proofs.Mlibc.Kprintf
import MString.Proofs.Mlibc.Vsnprintf
import MString.Mm.Mm
import MString.Proofs.Mm.Addresses
import MString.Lib.Lockstep
import MString.Proofs.Mm.AllocFlags
import MString.Proofs.Mm.Iterators
import MString.Proofs.Mm.CleanPrefix
import MString.Proofs.Mm.ListFrames
import MString.Proofs.Mm.PercpuCaches
import MString.Proofs.Mm.PageArray
import MString.Lib.Sweep
import MString.Proofs.Mm.MemoryMap
import MString.Proofs.Mm.ArrayTail
import MString.Proofs.Mm.FrameLists
import MString.Proofs.Mm.WideLayers
import MString.Proofs.Eza.TaskPages
import MString.Proofs.Eza.NewTasks
import MString.Lib.Amd64
import MString.Eza.Context
import MString.Proofs.Eza.Context
import MString.Proofs.Eza.Switch
import MString.Proofs.Eza.FirstRun
import MString.Eza.Stubs
import MString.Proofs.Eza.Stubs
import MString.Proofs.Eza.TaskSwitches
import MString.Proofs.Mm.DetectMemory
import MString.Proofs.Mm.BuddyInvalid
import MString.Eza.I8259
import MString.Proofs.Eza.I8259
import MString.Proofs.Mlibc.Format
import MString.Proofs.Mlibc.Scan
import MString.Proofs.Mlibc.Writes
import MString.Proofs.Mlibc.Fields
import MString.Proofs.Mlibc.Numerals
import MString.Proofs.Mlibc.Refusals
import MString.Proofs.Mlibc.Layout
import MString.Proofs.Mlibc.StringFields
import MString.Proofs.Mlibc.Truncation
import MString.Proofs.Mlibc.Items
import MString.Lib.Traced
import MString.Mlibc.String
import MString.Proofs.Mlibc.Strings
import MString.Proofs.Mlibc.Search
import MString.Proofs.Mlibc.Copies
import MString.Mlibc.Stdlib
import MString.Proofs.Mlibc.Itoa
import MString.Proofs.Mlibc.Vkprintf
import MString.Mlibc.Kbuf
import MString.Proofs.Mlibc.Kbuf
import MString.Eza.Vga
import MString.Proofs.Eza.Vga
import MString.Proofs.Eza.Scroll
import MString.Eza.BootMap
import MString.Proofs.Eza.BootMap
import MString.Mm.PtLog
import MString.Proofs.Mm.StoreLog
import MString.Proofs.Mm.TableTree
import MString.Proofs.Mlibc.Formats
import MString.Eza.BootTables
import MString.Eza.Idt
import MString.Eza.IrqRuns
import MString.Eza.Strmem
import MString.Lib.ChunkCopy
import MString.Lib.Queues
import MString.Mm.Mmu
import MString.Proofs.Eza.BootTables
import MString.Proofs.Eza.Idt
import MString.Proofs.Eza.IrqRuns
import MString.Proofs.Eza.Strmem
import MString.Proofs.Eza.ThreadRuns
import MString.Proofs.Mm.BootFrames
import MString.Proofs.Mm.DirectorySwitch
import MString.Proofs.Eza.IdleTasks
import MString.Eza.Main
import MString.Proofs.Mm.RemapRuns
import MString.Proofs.Eza.BootSpace
import MString.Proofs.Eza.Main
