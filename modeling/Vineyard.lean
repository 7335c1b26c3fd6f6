import Vineyard.Machine
import Vineyard.Physical.Allocator
import Vineyard.Physical.Layout
import Vineyard.Physical.Refinement
import Vineyard.Physical.Runs
import Vineyard.Physical.Exhaustion
import Vineyard.Physical.Conservation
import Vineyard.Physical.Reads
import Vineyard.Region.List
import Vineyard.Region.Nodes
import Vineyard.Region.Refinement
import Vineyard.Region.Init
import Vineyard.Region.Runs
import Vineyard.Region.RangeSet
import Vineyard.Paging.Tables
import Vineyard.Paging.Walks
import Vineyard.Paging.Levels
import Vineyard.Paging.Supply
import Vineyard.Paging.Mapping
import Vineyard.Paging.Lookups
import Vineyard.Paging.Recursion
import Vineyard.Paging.Piecewise
import Vineyard.Mman.Calls
import Vineyard.Mman.Pages
import Vineyard.Mman.Runs
import Vineyard.Mman.Release
import Vineyard.Mman.Failure
import Vineyard.Mman.Reuse
import Vineyard.Mman.Maps
import Vineyard.Mman.Munmap
import Vineyard.Debug.Image
import Vineyard.Nvme.Queues
import Vineyard.Nvme.Protocol
import Vineyard.Nvme.Controller
import Vineyard.Nvme.Bounds
import Vineyard.Nvme.Ring
import Vineyard.Stdio.Vcbprintf
import Vineyard.Stdio.Items
import Vineyard.Stdio.Parts
import Vineyard.Stdio.Output
import Vineyard.Stdio.Calls
import Vineyard.Stdio.Integers
import Vineyard.Stdio.FieldWidth
import Vineyard.Stdio.Vasprintf
import Vineyard.Nvme.Read
import Vineyard.Nvme.Namespace
import Vineyard.Fs.Gpt
import Vineyard.Fs.Partitions
import Vineyard.Fs.Bounds
import Vineyard.Pci.Walk
import Vineyard.Pci.Enumeration
import Vineyard.Pci.Termination
import Vineyard.Pci.Bars
import Vineyard.Graphics.Terminal
import Vineyard.Graphics.Inside
import Vineyard.Graphics.Grid
import Vineyard.Graphics.Overflow
import Vineyard.Graphics.Characters
import Vineyard.Graphics.Glyphs
import Vineyard.Stdio.Puts
import Vineyard.Stdio.Console
import Vineyard.Stdio.Pointers
import Vineyard.Stdio.Unknown
import Vineyard.Stdio.Numerals
import Vineyard.Util.List
import Vineyard.Util.Sequences
import Vineyard.Slab.Cache
import Vineyard.Slab.Objects
import Vineyard.Slab.Lists
import Vineyard.Acpi.Ec
import Vineyard.Acpi.Transfers
import Vineyard.Acpi.Space
import Vineyard.Acpi.Madt
import Vineyard.Acpi.MadtBounds
import Vineyard.Acpi.Entries
import Vineyard.Int.Ioapic
import Vineyard.Acpi.Overrides
import Vineyard.Int.Routes
import Vineyard.Pci.Express
import Vineyard.Pci.Ecam
import Vineyard.Acpi.PciConfiguration
import Vineyard.Time.Pit
import Vineyard.Boot.Start
import Vineyard.Slab.Order
import Vineyard.Int.Dispatch
import Vineyard.Libc.Buffers
import Vineyard.Uart.Driver
import Vineyard.Debug.Trace
import Vineyard.Int.Apic
import Vineyard.Heap.Dlmalloc
