import BbnOS.BitArray
import BbnOS.Bitmap
import BbnOS.Boot.Elf
import BbnOS.Boot.Font
import BbnOS.Boot.Loader
import BbnOS.Boot.Segments
import BbnOS.Boot.Verified
import BbnOS.Console.Backspace
import BbnOS.Console.Clearing
import BbnOS.Console.Cursor
import BbnOS.Console.Framebuffer
import BbnOS.Console.Glyphs
import BbnOS.Console.Painting
import BbnOS.Interrupts.Idt
import BbnOS.Interrupts.Masks
import BbnOS.Interrupts.Prepared
import BbnOS.Interrupts.Service
import BbnOS.Interrupts.Startup
import BbnOS.Keyboard.Driver
import BbnOS.Keyboard.Shift
import BbnOS.Legacy.ClusterChain
import BbnOS.Legacy.Context
import BbnOS.Legacy.ContextHandlers
import BbnOS.Legacy.ContextRuns
import BbnOS.Legacy.ContextSteps
import BbnOS.Legacy.ContextSwitch
import BbnOS.Legacy.Cstart
import BbnOS.Legacy.Descriptors
import BbnOS.Legacy.DetectMemory
import BbnOS.Legacy.DetectedMemory
import BbnOS.Legacy.FatEntry
import BbnOS.Legacy.Framebuffer
import BbnOS.Legacy.Handover
import BbnOS.Legacy.InitKernel
import BbnOS.Legacy.Interrupts
import BbnOS.Legacy.Irq
import BbnOS.Legacy.Kmain
import BbnOS.Legacy.LoadedFile
import BbnOS.Legacy.Loader
import BbnOS.Legacy.MemorySize
import BbnOS.Legacy.Nesting
import BbnOS.Legacy.NumberPrinters
import BbnOS.Legacy.Paging
import BbnOS.Legacy.RealMode
import BbnOS.Legacy.RootDirectory
import BbnOS.Legacy.SavedContext
import BbnOS.Legacy.Scheduling
import BbnOS.Lib.ByteBits
import BbnOS.Lib.ByteMemory
import BbnOS.Lib.Cells
import BbnOS.Lib.FirstFit
import BbnOS.Lib.Framing
import BbnOS.Lib.InitialSegment
import BbnOS.Lib.Interruption
import BbnOS.Lib.Loop
import BbnOS.Lib.Marking
import BbnOS.Lib.Painting
import BbnOS.Lib.Pic8259
import BbnOS.Lib.PicService
import BbnOS.Lib.RadixTable
import BbnOS.Lib.Runs
import BbnOS.Lib.Traced
import BbnOS.Lib.Windows
import BbnOS.Lib.WordStack
import BbnOS.Mem.Accounting
import BbnOS.Mem.BitmapBounds
import BbnOS.Mem.BitmapPlacement
import BbnOS.Mem.Contents
import BbnOS.Mem.Coverage
import BbnOS.Mem.Exhaustion
import BbnOS.Mem.Init
import BbnOS.Mem.Machine
import BbnOS.Mem.MapOrder
import BbnOS.Mem.MemoryMap
import BbnOS.Mem.Ownership
import BbnOS.Mem.PageOps
import BbnOS.Mem.Pool
import BbnOS.Mem.RequestPage
import BbnOS.Mem.RoundTrip
import BbnOS.Mem.UsableMemory
import BbnOS.Mouse.Driver
import BbnOS.Mouse.Movement
import BbnOS.Mouse.Packets
import BbnOS.Paging.FrameCount
import BbnOS.Paging.Frames
import BbnOS.Paging.Identity
import BbnOS.Paging.Mapping
import BbnOS.Paging.MissingTables
import BbnOS.Paging.PageTable
import BbnOS.Paging.Startup
import BbnOS.Paging.Supply
import BbnOS.Printf.Buffer
import BbnOS.Printf.Directives
import BbnOS.Printf.Fields
import BbnOS.Printf.FormatReads
import BbnOS.Printf.IntStr
import BbnOS.Printf.Numbers
import BbnOS.Printf.Scan
import BbnOS.Printf.Vprintf
import BbnOS.Strings
