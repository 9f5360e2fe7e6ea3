import Matryoshka.E1000
import Matryoshka.Net
import Matryoshka.ShellLine
import Matryoshka.ShellText
import Matryoshka.Task
import Matryoshka.Timer

/-!
# The commands of the shell

The handlers of `kernel/shell.c` and its main loop. A handler returns the
calls it makes to the console driver and the state it leaves, or `none` if
it does not return. What it reads of the rest of the kernel is a
`Machine`; the outcomes of its allocations and the old contents of its
stack buffers are an `Outcome`. The loops of `cmd_ls` and `cmd_cat` have
fuel; that it suffices is proved for every reachable file system.

`cmd_reboot` waits for the keyboard controller, resets the processor
through it and halts; of this only the halt is modelled.
-/

namespace Matryoshka

open ByteMem

/-! ## State -/

/-- What the commands read and change. `macAddr`, `linkUp` and `cr3` are what
`e1000_get_mac`, `e1000_link_up` and the register report. -/
structure Machine where
  vfs : Vfs
  heap : Heap
  sched : Sched
  vmm : Vmm
  net : Net
  e1000 : E1000
  timerTicks : Nat
  macAddr : Nat → BitVec 8
  linkUp : Bool
  cr3 : Nat

/-- What is not determined by the state: the allocations of a command, the bytes in its
buffer before it is used, and the address of `user_demo_entry`. -/
structure Outcome where
  allocs : WriteAllocs
  stack : Mem
  userDemoEntry : BitVec 32

/-! ## Commands that only print -/

def Command.desc : Command → CStr
  | help => ascii "Show available commands".toList
  | clear => ascii "Clear the screen".toList
  | meminfo => ascii "Display memory statistics".toList
  | uptime => ascii "Show system uptime".toList
  | ps => ascii "List kernel tasks".toList
  | virt => ascii "Virtual memory info".toList
  | ls => ascii "List directory [path]".toList
  | cat => ascii "Show file contents".toList
  | mkdir => ascii "Create directory".toList
  | touch => ascii "Create empty file".toList
  | write => ascii "Write text: write PATH text".toList
  | net => ascii "Network status".toList
  | syscall => ascii "Run user-mode syscall demo".toList
  | echo => ascii "Print text to screen".toList
  | reboot => ascii "Restart the system".toList

/-- `while (pad--) vga_putchar(' ')`. -/
def padding (pad : Nat) : Console := List.replicate pad (.putchar space)

def cmdHelp : Console :=
  [onBlack VGA_COLOR_YELLOW, puts "Available commands:\n", onBlack VGA_COLOR_LIGHT_GREY]
    ++ commands.flatMap fun c =>
      [puts "  ", onBlack VGA_COLOR_WHITE, .puts (some c.1)]
        ++ padding (u32 (10 + 2 ^ 32 - c.1.length))
        ++ [onBlack VGA_COLOR_LIGHT_GREY, .puts (some c.2.desc), .putchar newline]

def cmdClear : Console := [.clear VGA_COLOR_LIGHT_GREY VGA_COLOR_BLACK]

/-- A line of `cmd_meminfo`. -/
def sizeLine (label : String) (bytes : Nat) : Console :=
  puts label :: printSize bytes ++ [.putchar newline]

def cmdMeminfo (ps : PmmStats) (heapStats : Nat × Nat × Nat) : Console :=
  [onBlack VGA_COLOR_YELLOW, puts "Physical Memory:\n", onBlack VGA_COLOR_LIGHT_GREY]
    ++ sizeLine "  Total: " ps.totalMemory
    ++ sizeLine "  Free:  " ps.freeMemory
    ++ sizeLine "  Used:  " ps.usedMemory
    ++ [onBlack VGA_COLOR_YELLOW, puts "Kernel Heap:\n", onBlack VGA_COLOR_LIGHT_GREY]
    ++ sizeLine "  Total: " heapStats.1
    ++ sizeLine "  Used:  " heapStats.2.1
    ++ sizeLine "  Free:  " heapStats.2.2

def cmdUptime (ticks : Nat) : Console :=
  let sec := timerGetUptimeSec ticks
  let d := sec / 86400
  let sec := sec % 86400
  let h := sec / 3600
  let sec := sec % 3600
  let m := sec / 60
  let sec := sec % 60
  [onBlack VGA_COLOR_LIGHT_GREY, puts "Uptime: "]
    ++ printUint d ++ [puts "d "]
    ++ printUint h ++ [puts "h "]
    ++ printUint m ++ [puts "m "]
    ++ printUint sec ++ [puts "s ("]
    ++ printUint ticks ++ [puts " ticks)\n"]

def stateCalls : TaskState → Console
  | .running => [onBlack VGA_COLOR_LIGHT_GREEN, puts "RUNNING    "]
  | .ready => [onBlack VGA_COLOR_LIGHT_CYAN, puts "READY      "]
  | .terminated => [onBlack VGA_COLOR_DARK_GREY, puts "TERMINATED "]

def psLine (id : Nat) (name : Option String) (st : TaskState) : Console :=
  puts "  " :: printUint id ++ padding (5 - if 10 ≤ id then 2 else 1) ++ stateCalls st
    ++ [onBlack VGA_COLOR_LIGHT_GREY, .puts (name.map fun s => ascii s.toList), .putchar newline]

def cmdPs (s : Sched) : Console :=
  [onBlack VGA_COLOR_YELLOW, puts "  PID  STATE       NAME\n", onBlack VGA_COLOR_LIGHT_GREY]
    ++ (List.range (taskCount s)).flatMap fun i =>
      match taskGetInfo s i with
      | none => []
      | some (id, name, st) => psLine id name st

def cmdVirt (v : Vmm) (cr3 : Nat) : Console :=
  [onBlack VGA_COLOR_YELLOW, puts "Virtual Memory (32-bit paging)\n",
      onBlack VGA_COLOR_LIGHT_GREY, puts "  Mapped pages:   "]
    ++ printUint v.mappedPages ++ [puts " ("] ++ printSize (u64 (v.mappedPages * 4096))
    ++ [puts ")\n", puts "  Page tables:    "] ++ printUint v.pageTables
    ++ [.putchar newline, puts "  Identity end:   0x", printHex32 v.identityEnd, .putchar newline,
      puts "  CR3:            0x", printHex32 cr3, .putchar newline]

/-- `hex[b >> 4]` and `hex[b & 0xF]`, with a colon unless it is the last one. -/
def macByte (b : BitVec 8) (last : Bool) : Console :=
  [.putchar (hexChar (b.toNat / 16)), .putchar (hexChar (b.toNat % 16))]
    ++ if last then [] else [.putchar 0x3A#8]

def cmdNet (m : Machine) : Console :=
  [onBlack VGA_COLOR_YELLOW, puts "Network Status\n", onBlack VGA_COLOR_LIGHT_GREY,
      puts "  MAC:    "]
    ++ (List.range 6).flatMap (fun i => macByte (m.macAddr i) (decide (5 ≤ i)))
    ++ [.putchar newline, puts "  IP:     "]
    ++ (List.range 4).flatMap (fun i =>
      printUint (m.net.ourIp i).toNat ++ if i < 3 then [.putchar 0x2E#8] else [])
    ++ [.putchar newline, puts "  Link:   "]
    ++ (if m.linkUp then [onBlack VGA_COLOR_LIGHT_GREEN, puts "UP"]
      else [onBlack VGA_COLOR_LIGHT_RED, puts "DOWN"])
    ++ [onBlack VGA_COLOR_LIGHT_GREY, .putchar newline, puts "  RX:     "]
    ++ printUint m.e1000.statRx ++ [puts " packets\n", puts "  TX:     "]
    ++ printUint m.e1000.statTx ++ [puts " packets\n"]

def cmdEcho (args : CStr) : Console :=
  [onBlack VGA_COLOR_LIGHT_GREY, .puts (some args), .putchar newline]

/-! ## Commands on files -/

/-- What a command prints about a path that it cannot use. -/
def complaint (what : String) (path : CStr) : Console :=
  [onBlack VGA_COLOR_LIGHT_RED, puts what, .puts (some path), .putchar newline]

/-- What `cmd_ls` prints for one entry. -/
def entryCalls (name : CStr) (type : BitVec 32) : Console :=
  (if type &&& VFS_DIRECTORY ≠ 0#32 then
      [onBlack VGA_COLOR_LIGHT_CYAN, .puts (some name), .putchar slash]
    else [onBlack VGA_COLOR_LIGHT_GREY, .puts (some name)])
  ++ [puts "  "]

def lsLoop (v : Vfs) (path : CStr) : (fuel i : Nat) → Option Console
  | 0, _ => none
  | fuel + 1, i =>
      match vfsReaddir v path i with
      | none => some []
      | some (name, type) =>
          (lsLoop v path fuel (u32 (i + 1))).map fun calls => entryCalls name type ++ calls

def cmdLs (v : Vfs) (args : CStr) : Option Console :=
  let path := skipSpaces args
  let path := if path = [] then [slash] else path
  match vfsResolve v path with
  | none => some (complaint "ls: not found: " path)
  | some dir =>
      if !(v.fs.nodes dir).isDirectory then
        some ([.puts (some (v.fs.nodes dir).name), puts "  "]
          ++ printUint (v.fs.nodes dir).size ++ [puts " B\n"])
      else
        (lsLoop v path (v.fs.count + 1) 0).map fun calls =>
          calls ++ [onBlack VGA_COLOR_LIGHT_GREY, .putchar newline]

def VFS_O_RDONLY : BitVec 32 := 0x00#32

/-- `while ((n = vfs_read(fd, buf, sizeof(buf) - 1)) > 0) { buf[n] = '\0'; vga_puts(buf); }`. -/
def catLoop (fd : Int) : (fuel : Nat) → Vfs → Mem → Option (Console × Vfs)
  | 0, _, _ => none
  | fuel + 1, v, buf =>
      match vfsRead v fd buf 127 with
      | (n, buf, v) =>
          if 0 < n then
            let buf := store8 buf n.toNat 0#8
            (catLoop fd fuel v buf).map fun r => (.puts (some (bytesAt buf 0 128)) :: r.1, r.2)
          else some ([], v)

/-- `cmd_cat`. A turn of its loop reads a byte at least, and no file is larger than the
heap. Without `VFS_O_CREAT` nothing is allocated. -/
def cmdCat (v : Vfs) (stack : Mem) (args : CStr) : Option (Console × Vfs) :=
  let path := skipSpaces args
  if path = [] then some ([puts "Usage: cat <path>\n"], v)
  else
    match vfsOpen v ⟨false, false⟩ path VFS_O_RDONLY with
    | (fd, v) =>
        if fd < 0 then some (complaint "cat: not found: " path, v)
        else
          (catLoop fd (HEAP_INITIAL + 1) v stack).map fun r =>
            (onBlack VGA_COLOR_LIGHT_GREY :: r.1, (vfsClose r.2 fd).2)

def cmdMkdir (v : Vfs) (a : NodeAlloc) (args : CStr) : Console × Vfs :=
  let path := skipSpaces args
  if path = [] then ([puts "Usage: mkdir <path>\n"], v)
  else
    let r := vfsMkdir v a path
    (if r.1 < 0 then complaint "mkdir: failed: " path else [], r.2)

def cmdTouch (v : Vfs) (a : NodeAlloc) (args : CStr) : Console × Vfs :=
  let path := skipSpaces args
  if path = [] then ([puts "Usage: touch <path>\n"], v)
  else
    let r := vfsCreateFile v a path
    (if r.1 = none then complaint "touch: failed: " path else [], r.2)

/-- The calls that print the text of `cmdWrite`. -/
def writeCalls (out : CStr) : Console :=
  (if out = [] ∨ out = usageText then [] else [onBlack VGA_COLOR_LIGHT_RED])
    ++ [.puts (some out)]

/-! ## User tasks -/

def cmdSyscall (m : Machine) (userDemoEntry : BitVec 32) : Console × Machine :=
  let intro := [onBlack VGA_COLOR_YELLOW, puts "Spawning user-mode (ring 3) task...\n",
    onBlack VGA_COLOR_LIGHT_GREY]
  match taskCreateUser m.sched m.heap m.vmm userDemoEntry (some "user_demo") with
  | (id, sched, heap, vmm) =>
      (intro ++ (if id = noTask then
          [onBlack VGA_COLOR_LIGHT_RED, puts "  ERROR: failed to create user task\n"]
        else puts "  Task created (id=" :: printUint id
          ++ [puts "), will run on next schedule tick\n"]),
        { m with sched := sched, heap := heap, vmm := vmm })

/-! ## The main loop -/

/-- A handler of the table. -/
def runCommand (m : Machine) (o : Outcome) (args : CStr) : Command → Option (Console × Machine)
  | .help => some (cmdHelp, m)
  | .clear => some (cmdClear, m)
  | .meminfo => some (cmdMeminfo (pmmGetStats m.vmm.pmm) (heapGetStats m.heap), m)
  | .uptime => some (cmdUptime m.timerTicks, m)
  | .ps => some (cmdPs m.sched, m)
  | .virt => some (cmdVirt m.vmm m.cr3, m)
  | .ls => (cmdLs m.vfs args).map fun calls => (calls, m)
  | .cat => (cmdCat m.vfs o.stack args).map fun r => (r.1, { m with vfs := r.2 })
  | .mkdir =>
      some ((cmdMkdir m.vfs o.allocs.node args).1,
        { m with vfs := (cmdMkdir m.vfs o.allocs.node args).2 })
  | .touch =>
      some ((cmdTouch m.vfs o.allocs.node args).1,
        { m with vfs := (cmdTouch m.vfs o.allocs.node args).2 })
  | .write => (cmdWrite m.vfs o.allocs args).map fun r => (writeCalls r.1, { m with vfs := r.2 })
  | .net => some (cmdNet m, m)
  | .syscall => some (cmdSyscall m o.userDemoEntry)
  | .echo => some (cmdEcho args, m)
  | .reboot => none

def unknownCalls (name : CStr) : Console :=
  [onBlack VGA_COLOR_LIGHT_RED, puts "Unknown command: "] ++ name.map .putchar
    ++ [.putchar newline, onBlack VGA_COLOR_LIGHT_GREY,
      puts "Type 'help' for available commands.\n"]

/-- `shell_execute` with the effect of the handler. -/
def executeLine (m : Machine) (o : Outcome) (line : CStr) : Option (Console × Machine) :=
  match shellExecute line with
  | .nothing => some ([], m)
  | .handler cmd args => runCommand m o args cmd
  | .unknown name => some (unknownCalls name, m)

/-- The line that `shell_readline` leaves in its buffer. -/
def lineOf (e : LineEdit) : CStr := bytesAt e.lineBuf 0 e.lineLen

/-- One turn of `shell_run` on the characters of the keyboard: a prompt, a line, a command.
The result has the characters that are left; `none` if the input ends inside the line or
the command does not return. -/
def shellTurn (m : Machine) (e : LineEdit) (o : Outcome) (input : CStr) :
    Option (Machine × LineEdit × CStr) :=
  match shellReadline { e with vga := shellPrompt e.vga } input with
  | (_, none) => none
  | (e, some rest) =>
      (executeLine m o (lineOf e)).map fun r =>
        (r.2, { e with vga := (vgaRun e.vga r.1).val }, rest)

/-- Any number of turns, with any characters typed and any outcomes. -/
inductive ShellSession (m : Machine) (e : LineEdit) : Machine → LineEdit → Prop
  | start : ShellSession m e m e
  | turn {m₁ e₁ m₂ e₂} {o : Outcome} {input rest : CStr} : ShellSession m e m₁ e₁ →
      shellTurn m₁ e₁ o input = some (m₂, e₂, rest) → ShellSession m e m₂ e₂

end Matryoshka
