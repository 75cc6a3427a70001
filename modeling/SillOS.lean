import SillOS.Core.Transition
import SillOS.Core.Tiling
import SillOS.Core.MergeSystem
import SillOS.Kmem.Buddy.Allocator
import SillOS.Core.TwoPow
import SillOS.Kmem.Buddy.Machine
import SillOS.Kmem.Buddy.Listed
import SillOS.Kmem.Buddy.Partition
import SillOS.Kmem.Buddy.ListedMachine
import SillOS.Kmem.Buddy.Represents
import SillOS.Kmem.Buddy.Refinement
import SillOS.Kmem.Buddy.Safety
import SillOS.Kmem.Buddy.Coalescing
import SillOS.Kmem.Buddy.Confluence
import SillOS.Kmem.Buddy.Misaligned
import SillOS.Kmem.Buddy.Alignment
import SillOS.Core.Generator
import SillOS.Kmem.Frame.Allocator
import SillOS.Kmem.Frame.Usable
import SillOS.Core.Raster
import SillOS.Fb.Framebuffer
import SillOS.Core.Box
import SillOS.Fb.Pixels
import SillOS.Fb.Present
import SillOS.Console.Font
import SillOS.Fb.Overlay
import SillOS.Console.State
import SillOS.Console.Render
import SillOS.Console.Cells
import SillOS.Console.Redraw
import SillOS.Console.Window
import SillOS.Console.LineEditing
import SillOS.Fb.CopyRect
import SillOS.Fb.Backbuffer
import SillOS.Console.Echo
import SillOS.Console.Safety
import SillOS.Core.Rooted
import SillOS.Core.Segments
import SillOS.Fs.TmpFs
import SillOS.Fs.History
import SillOS.Fs.Names
import SillOS.Acpi
import SillOS.Acpi.Reboot
import SillOS.Kmem.InitHeap
import SillOS.Kmem.Buddy.Splitting
import SillOS.Core.FirstFit
import SillOS.Core.Packing
import SillOS.Kmem.Linked.Allocator
import SillOS.Kmem.Linked.Machine
import SillOS.Kmem.Linked.Regions
import SillOS.Kmem.Linked.Represents
import SillOS.Kmem.Linked.Refinement
import SillOS.Kmem.Linked.Safety
import SillOS.Kmem.Linked.Carving
import SillOS.Console.FontFile
import SillOS.Core.Numerals
import SillOS.Core.Words
import SillOS.Shell.Commands
import SillOS.Shell.AllocHint
import SillOS.Core.Dyadic
import SillOS.Core.Utf8
import SillOS.Console.Text
import SillOS.Kmem.Buddy.Canonical
import SillOS.Kmem.Physical
import SillOS.Shell.Analysis
import SillOS.Shell.Effects
import SillOS.Shell.AnalysisText
import SillOS.Kernel.Session
import SillOS.Console.Drawing
import SillOS.Kernel.Frame
import SillOS.Kernel.Lines
import SillOS.Kernel.Files
import SillOS.Kernel.Listing
import SillOS.Kernel.Screen
import SillOS.Kernel.Prompt
import SillOS.Kernel.Repl
import SillOS.Kernel.Transcript
import SillOS.Kernel.Reference
import SillOS.Kmem.Linked.Fragmentation
import SillOS.Kernel.Interrupts
import SillOS.Kmem.Buddy.Realloc
import SillOS.Kernel.System
import SillOS.Kernel.Launch
import SillOS.Kmem.Frame.Report
