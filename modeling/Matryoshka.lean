import Matryoshka.Word
import Matryoshka.ByteMem
import Matryoshka.Bitmap
import Matryoshka.Tiling
import Matryoshka.Stack
import Matryoshka.RoundRobin
import Matryoshka.RingBuf
import Matryoshka.Checksum
import Matryoshka.LinkedList
import Matryoshka.SepPath
import Matryoshka.Cursor
import Matryoshka.Loop
import Matryoshka.Traced
import Matryoshka.Terminal
import Matryoshka.Numeral
import Matryoshka.I8259
import Matryoshka.X86Desc
import Matryoshka.Uart
import Matryoshka.StringOps
import Matryoshka.StringCmp
import Matryoshka.Heap
import Matryoshka.HeapRefine
import Matryoshka.HeapRun
import Matryoshka.HeapStale
import Matryoshka.HeapClient
import Matryoshka.Pmm
import Matryoshka.PmmSpec
import Matryoshka.PmmCount
import Matryoshka.PmmOwn
import Matryoshka.PmmMap
import Matryoshka.PmmAlloc
import Matryoshka.Multiboot
import Matryoshka.MultibootTags
import Matryoshka.PmmHeap
import Matryoshka.Vmm
import Matryoshka.VmmSpec
import Matryoshka.VmmRun
import Matryoshka.VmmUser
import Matryoshka.VmmMmu
import Matryoshka.VmmStats
import Matryoshka.Task
import Matryoshka.SchedRun
import Matryoshka.Preempt
import Matryoshka.TaskStack
import Matryoshka.TaskCreate
import Matryoshka.Isr
import Matryoshka.IsrRun
import Matryoshka.VmmIdentity
import Matryoshka.Net
import Matryoshka.NetPoll
import Matryoshka.NetBounds
import Matryoshka.NetReply
import Matryoshka.E1000
import Matryoshka.E1000Rx
import Matryoshka.E1000Tx
import Matryoshka.Tables
import Matryoshka.Pic
import Matryoshka.Timer
import Matryoshka.Keyboard
import Matryoshka.KeyboardQueue
import Matryoshka.KeyboardShare
import Matryoshka.KeyboardEvents
import Matryoshka.Vga
import Matryoshka.VgaScreen
import Matryoshka.Serial
import Matryoshka.Pci
import Matryoshka.E1000Init
import Matryoshka.NetServe
import Matryoshka.Syscall
import Matryoshka.SyscallRun
import Matryoshka.Ramfs
import Matryoshka.Vfs
import Matryoshka.FsTree
import Matryoshka.FsResolve
import Matryoshka.FsFile
import Matryoshka.FsHistory
import Matryoshka.FsStream
import Matryoshka.FsWrite
import Matryoshka.FsFail
import Matryoshka.Shell
import Matryoshka.ShellWrite
import Matryoshka.ShellLine
import Matryoshka.ShellText
import Matryoshka.ShellCmd
import Matryoshka.ShellRun
import Matryoshka.ShellFiles
import Matryoshka.ShellKeys
import Matryoshka.StringCallers
