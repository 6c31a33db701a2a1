import OpenIDP.Math.Word
import OpenIDP.Math.BitArray
import OpenIDP.Math.Bytes
import OpenIDP.Math.Reaches
import OpenIDP.Math.Count
import OpenIDP.Math.Linked
import OpenIDP.Math.Tiling
import OpenIDP.Math.Ring
import OpenIDP.Math.RingBuffer
import OpenIDP.Math.Segments
import OpenIDP.Math.Stack
import OpenIDP.Math.RadixTree
import OpenIDP.Math.BinTree
import OpenIDP.Math.Writes
import OpenIDP.Math.BlockCopy
import OpenIDP.Math.Rounds
import OpenIDP.Memory.Pmm
import OpenIDP.Memory.PmmRuns
import OpenIDP.Memory.PmmLending
import OpenIDP.Memory.PmmInit
import OpenIDP.Memory.PmmAvailable
import OpenIDP.Memory.PmmSearch
import OpenIDP.Memory.KHeap
import OpenIDP.Memory.KHeapLayout
import OpenIDP.Memory.KHeapRuns
import OpenIDP.Memory.KHeapWrap
import OpenIDP.Memory.KHeapRealloc
import OpenIDP.Memory.PageTable
import OpenIDP.Memory.PageFrames
import OpenIDP.Memory.AddressSpace
import OpenIDP.Memory.MapRuns
import OpenIDP.Memory.Forest
import OpenIDP.Memory.Mapping
import OpenIDP.Memory.Teardown
import OpenIDP.Memory.Lifetime
import OpenIDP.Memory.Spaces
import OpenIDP.Memory.Access
import OpenIDP.Memory.Sbrk
import OpenIDP.Memory.Walk
import OpenIDP.Memory.Unmap
import OpenIDP.Process.Task
import OpenIDP.Process.SchedRing
import OpenIDP.Process.SchedRuns
import OpenIDP.Process.SchedIntegrity
import OpenIDP.Process.SchedReaping
import OpenIDP.Process.SchedCr3
import OpenIDP.Process.SchedKernelStack
import OpenIDP.Process.Context
import OpenIDP.Descriptors.Gates
import OpenIDP.Process.Ipc
import OpenIDP.Process.Departed
import OpenIDP.Exec.ElfLoader
import OpenIDP.Exec.HeapGrowth
import OpenIDP.Exec.HeapWindow
import OpenIDP.Exec.Image
import OpenIDP.Exec.ElfBreak
import OpenIDP.Exec.Create
import OpenIDP.Exec.ArgWrites
import OpenIDP.Exec.Atomic
import OpenIDP.Exec.SbrkAtomic
import OpenIDP.Exec.KHeapExhaustion
import OpenIDP.Exec.Calls
import OpenIDP.Exec.StaleHeap
import OpenIDP.Exec.TaskFree
import OpenIDP.Exec.CopyOut
import OpenIDP.Memory.TaskMapping
import OpenIDP.Exec.StackPage
import OpenIDP.Exec.ArgPassing
import OpenIDP.Userspace.Keys
import OpenIDP.Userspace.Mailbox
import OpenIDP.Userspace.Malloc
import OpenIDP.Userspace.MallocRuns
import OpenIDP.Userspace.AllocSizes
import OpenIDP.Userspace.AllocAlign
import OpenIDP.Userspace.Stdout
import OpenIDP.Userspace.Rect
import OpenIDP.Userspace.Wm
import OpenIDP.Userspace.WmPool
import OpenIDP.Userspace.WmLayout
import OpenIDP.Userspace.WmTiling
import OpenIDP.Userspace.WmTree
import OpenIDP.Userspace.WmFocus
import OpenIDP.Userspace.Gfx
import OpenIDP.Userspace.Term
import OpenIDP.Userspace.TermGrid
import OpenIDP.Userspace.TermResize
import OpenIDP.Userspace.TermText
import OpenIDP.Userspace.TermSgr
import OpenIDP.Userspace.TermPicture
import OpenIDP.Userspace.TermGlyph
import OpenIDP.Userspace.TermUpdates
import OpenIDP.Userspace.TermDirty
import OpenIDP.Userspace.TermParser
import OpenIDP.Userspace.Update
import OpenIDP.Userspace.Desktop
import OpenIDP.Userspace.WmDraw
import OpenIDP.Userspace.WmBuffers
import OpenIDP.Userspace.WmPaint
import OpenIDP.Userspace.Clip
import OpenIDP.Userspace.ImageFile
import OpenIDP.Drivers.Keyboard
import OpenIDP.Drivers.KeyModifiers
import OpenIDP.Drivers.Serial
import OpenIDP.Drivers.Format
import OpenIDP.Drivers.SerialDigits
import OpenIDP.Drivers.Ata
import OpenIDP.Drivers.AtaErrors
import OpenIDP.Drivers.AtaSectors
import OpenIDP.Userspace.StdioBuffer
import OpenIDP.Userspace.Getchar
import OpenIDP.Userspace.Strings
import OpenIDP.Userspace.Strtok
import OpenIDP.Userspace.Memmove
import OpenIDP.Userspace.Printf
import OpenIDP.Userspace.Paths
import OpenIDP.Userspace.ShellArgs
import OpenIDP.Userspace.Shell
import OpenIDP.Math.AllocTable
import OpenIDP.Fat.Window
import OpenIDP.Fat.Entry
import OpenIDP.Fat.Chain
import OpenIDP.Fat.Files
import OpenIDP.Fat.Drive
import OpenIDP.Fat.Mount
import OpenIDP.Fat.Sync
import OpenIDP.Fat.Read
import OpenIDP.Exec.DiskFile
