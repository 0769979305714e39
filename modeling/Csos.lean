import Csos.Common.Blocks
import Csos.Common.Bytes
import Csos.Common.Links
import Csos.Common.Paths
import Csos.Common.Tables
import Csos.Common.Runs
import Csos.Heap.Exhaustion
import Csos.Heap.FreeOrder
import Csos.Heap.Freelist
import Csos.Heap.Invariant
import Csos.Heap.Model
import Csos.Heap.Runs
import Csos.Heap.Sizes
import Csos.Sched.Conserved
import Csos.Sched.Exclusive
import Csos.Sched.Layout
import Csos.Sched.Model
import Csos.Sched.Steps
import Csos.Vfs.Calls
import Csos.Vfs.Model
import Csos.Vmm.Entries
import Csos.Vmm.Exhaustion
import Csos.Vmm.MapPage
import Csos.Vmm.Model
import Csos.Vmm.Tree
import Csos.Vfs.Accounting
import Csos.Vfs.Concurrent
import Csos.Vfs.Normalize
import Csos.Vfs.Resolve
import Csos.Fat32.Model
import Csos.Fat32.Table
import Csos.Fat32.Chains
import Csos.Fat32.Content
import Csos.Pmm.Model
import Csos.Pmm.Allocator
import Csos.Pmm.Boot
import Csos.Part.Model
import Csos.Part.Confined
import Csos.Vmm.Walk
import Csos.Vmm.Range
import Csos.Vmm.Init
import Csos.Vmm.Boot
import Csos.Vmm.Data
import Csos.User.Model
import Csos.User.Load
import Csos.User.Image
import Csos.User.Reads
import Csos.Syscall.Write
import Csos.Ramfs.Model
import Csos.Ramfs.Nodes
import Csos.Ramfs.Linking
import Csos.Ramfs.Spec
import Csos.Ramfs.Lookup
import Csos.Ramfs.Buffers
import Csos.Ramfs.Invariant
import Csos.Ramfs.Refine
import Csos.Ramfs.Traverse
import Csos.Ramfs.Growth
import Csos.Serial.Format
import Csos.Serial.Log
import Csos.Sched.Pinned
import Csos.Sched.Sleep
import Csos.Common.Chains
import Csos.Vdev.Model
import Csos.Vdev.Registry
import Csos.Common.Checked
import Csos.Common.Ledger
import Csos.Ext4.Model
import Csos.Ext4.Safe
import Csos.Ext4.Extents
import Csos.Ext4.Leaf
import Csos.Ext4.Descent
import Csos.Ext4.Slices
import Csos.Ext4.Progress
import Csos.Ext4.Names
import Csos.Ext4.Mounting
import Csos.Common.Scan
import Csos.Config.Model
import Csos.Config.Spec
import Csos.Config.Parse
import Csos.Config.Grammar
import Csos.Devfs.Model
import Csos.Devfs.Tree
import Csos.Devfs.Mirror
import Csos.Common.Raster
import Csos.Gfx.Model
import Csos.Gfx.Pixels
import Csos.Gfx.Console
import Csos.Gfx.Areas
import Csos.Common.Search
import Csos.Vfs.Paths
import Csos.Fat32.Names
import Csos.Fat32.Dirs
import Csos.Fat32.Driver
import Csos.Fat32.Slots
import Csos.Fat32.Tree
import Csos.Fat32.Sound
import Csos.Fat32.Lookup
import Csos.Fat32.Insert
import Csos.Fat32.Mount
import Csos.Fat32.Scan
import Csos.Fat32.Ends
import Csos.Fat32.Alias
import Csos.Fat32.Encode
import Csos.Fat32.Resolve
import Csos.Fat32.Append
import Csos.Fat32.Sizes
import Csos.Fat32.Leaks
import Csos.Fat32.Ops
import Csos.Fat32.Sessions
import Csos.Fat32.Listing
import Csos.Fat32.Integrity
import Csos.Fat32.Rollback
import Csos.Fat32.Faults
import Csos.Fat32.Severed
import Csos.Fat32.Cursor
import Csos.Ata.Model
import Csos.Ata.TaskFile
import Csos.Ata.Addressing
import Csos.Part.Records
import Csos.Part.Walks
import Csos.Part.Gpt
import Csos.Part.GptScan
import Csos.Devfs.Block
import Csos.Devfs.ByteAccess
import Csos.Devfs.Undo
import Csos.Common.Components
import Csos.Common.Frames
import Csos.Acpi.Model
import Csos.Acpi.Entries
import Csos.Acpi.Walk
import Csos.Common.Crc
import Csos.Part.Checksum
import Csos.Common.Layers
import Csos.Boot.Model
import Csos.Boot.Loading
import Csos.Boot.Condition
import Csos.Boot.Headers
import Csos.Boot.Exact
import Csos.Common.Mealy
import Csos.Common.Seekable
import Csos.Fat32.Files
import Csos.Fat32.Catalog
import Csos.Fat32.Growth
import Csos.Fat32.Directory
import Csos.Fat32.Edits
import Csos.Common.Sections
import Csos.Common.Rings
import Csos.Kbd.Model
import Csos.Kbd.Queue
import Csos.Smp.Model
import Csos.Smp.Stacks
