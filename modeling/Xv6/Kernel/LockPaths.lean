import Mathlib.Data.Fintype.Basic
import Xv6.Verified.LockEffects

/-!
# Sleeping and spinlocks

The functions of the kernel that use spinlocks, as commands of `LockEffects`: what they acquire and
release, where they sleep, and what they call, in the order of the source.  Calls of functions that
use no lock are left out, as are panics where the code can also go on; several calls of `cprintf` in
a row are a loop.  All pipes share one name for their lock, as no path holds two.

`consoleintr` reads the key that was typed or the byte that came over the serial line.  For `C('D')`
it calls `show_disk_free`, which reads the disk, while it holds `input.lock`.

## Main results

* `sleep_of_run`: as long as `consoleintr` reads no `C('D')`, whoever calls `sleep` is a process
  that holds just the lock it passes.
-/

namespace Xv6.Kernel.LockPaths

open Xv6.Verified
open LockEffects

/-! ## Names -/

/-- The spinlocks.  `bga` and `vga` are `bga_sl` and `sl` of the two graphics drivers. -/
inductive Lock where
  | bcache
  | bga
  | cons
  | ftable
  | icache
  | ide
  | input
  | kmem
  | log
  | mouse
  | pipe
  | ptable
  | ticks
  | vga
  | wm
  deriving DecidableEq

/-- The functions that use a spinlock or call one that does. -/
inductive Fn where
  -- bio.c
  | bget | bread | bwrite | brelse
  -- console.c
  | cprintf | consoleintr | consoleread | consolewrite
  -- exec.c
  | exec
  -- file.c
  | filealloc | filedup | fileclose | filestat | fileread | filewrite
  -- fs.c
  | readsb | bzero | balloc | bfree | ialloc | iupdate | iget | idup | ilock | iunlock | iput
  | iunlockput | bmap | itrunc | readi | writei | dirlookup | dirlink | namex | namei | nameiparent
  | getNumberOfUsedBlocks | getInodesUsed | showDiskFree | df
  -- ide.c and kalloc.c
  | ideintr | iderw | kfree | kalloc
  -- kbd.c, uart.c, mouse.c, msg.c, bga.c and graphics.c
  | kbdgetc | kbdintr | uartintr | genMouseUpMessage | genMouseMessage | mouseintr | handleMessage
  | bgaGraphicsintr | vgaGraphicsintr
  -- log.c
  | initlog | installTrans | readHead | writeHead | recoverFromLog | beginTrans | commitTrans
  | logWrite
  -- pipe.c
  | pipealloc | pipeclose | pipewrite | piperead
  -- proc.c
  | allocproc | growproc | fork | exit | wait | chpr | yield | wakeup | kill | procdump | ps
  -- gui.c and amiga.c
  | guiInitGraphics | amigaInit | bgaInit24
  -- vm.c and vm64.c
  | walkpgdir | mappages | setupkvm | loaduvm | allocuvm | deallocuvm | freevm | clearpteu | copyuvm
  | uva2ka | copyout
  -- window_manager.c
  | getMessage | wmHandleMessage | drawWindow | updateScreen | createWindow | createPopupWindow
  | closePopupWindow | closeWindow | minimizeWindow | maximizeWindow
  -- sysfile.c and sysproc.c
  | sysOpen | sysLink | isdirempty | sysUnlink | create | sysMkdir | sysMknod | sysChdir | sysPipe
  | nameOfInode | nameForInode | sysSleep | sysUptime
  -- syscall.c
  | syscall
  deriving DecidableEq

/-- Code of the kernel, with characters as input. -/
abbrev Code := Cmd Lock Fn UInt8

open Cmd

/-- `C('D')`. -/
abbrev ctrlD : UInt8 := 4

/-- Acquire `l`, do `cs`, and release it. -/
def locked (l : Lock) (cs : List Code) : Code := seqs (acquire l :: cs ++ [release l])

/-! ## Functions -/

/-- What the functions do. -/
def body : Fn → Code
  -- bio.c
  | .bget => seqs [acquire .bcache, loop (sleep .bcache), oneOf [release .bcache, .panic]]
  | .bread => seqs [call .bget, optional (call .iderw)]
  | .bwrite => call .iderw
  | .brelse => locked .bcache [call .wakeup]
  -- console.c: `getc` is `kbdgetc` or `uartgetc`
  | .cprintf => optional (locked .cons [])
  | .consoleintr =>
      let getc : Code := oneOf [call .kbdgetc, skip]
      let key : Code := ifRead ctrlD (call .showDiskFree)
        (oneOf [skip, call .procdump, call .wakeup])
      locked .input [loop (seqs [getc, key]), getc]
  | .consoleread => seqs [call .iunlock, locked .input [loop (sleep .input)], call .ilock]
  | .consolewrite => seqs [call .iunlock, locked .cons [], call .ilock]
  -- exec.c
  | .exec =>
      let load : Code := seqs [call .readi,
        optional (seqs [call .allocuvm, optional (call .loaduvm)])]
      let bad : Code := seqs [optional (call .freevm), call .iunlockput]
      let stack : Code := seqs [call .allocuvm,
        optional (seqs [call .clearpteu, loop (call .copyout)]), call .freevm]
      seqs [call .namei, oneOf [call .cprintf,
        seqs [call .ilock, call .readi, optional (call .cprintf), optional (call .setupkvm),
          loop load, oneOf [bad, seqs [call .iunlockput, stack]]]]]
  -- file.c
  | .filealloc => locked .ftable []
  | .filedup => locked .ftable []
  | .fileclose => seqs [locked .ftable [],
      oneOf [skip, call .pipeclose, calls [.beginTrans, .iput, .commitTrans]]]
  | .filestat => optional (calls [.ilock, .iunlock])
  | .fileread => oneOf [skip, call .piperead, calls [.ilock, .readi, .iunlock], .panic]
  | .filewrite => oneOf [skip, call .pipewrite,
      loop (calls [.beginTrans, .ilock, .writei, .iunlock, .commitTrans]), .panic]
  -- fs.c
  | .readsb => calls [.bread, .brelse]
  | .bzero => calls [.bread, .logWrite, .brelse]
  | .balloc => seqs [call .readsb, loop (calls [.bread, .brelse]),
      oneOf [calls [.bread, .logWrite, .brelse, .bzero], .panic]]
  | .bfree => calls [.readsb, .bread, .logWrite, .brelse]
  | .ialloc => seqs [call .readsb, loop (calls [.bread, .brelse]),
      oneOf [calls [.bread, .logWrite, .brelse, .iget], .panic]]
  | .iupdate => calls [.bread, .logWrite, .brelse]
  | .iget => seqs [acquire .icache, oneOf [release .icache, .panic]]
  | .idup => locked .icache []
  | .ilock => seqs [locked .icache [loop (sleep .icache)], optional (calls [.bread, .brelse])]
  | .iunlock => locked .icache [call .wakeup]
  | .iput => locked .icache [optional (seqs [release .icache, calls [.itrunc, .iupdate],
      acquire .icache, call .wakeup])]
  | .iunlockput => calls [.iunlock, .iput]
  | .bmap => oneOf [optional (call .balloc),
      seqs [optional (call .balloc), call .bread, optional (calls [.balloc, .logWrite]),
        call .brelse],
      .panic]
  | .itrunc => seqs [loop (call .bfree),
      optional (seqs [call .bread, loop (call .bfree), calls [.brelse, .bfree]]), call .iupdate]
  | .readi => oneOf [skip, call .consoleread, loop (calls [.bmap, .bread, .brelse])]
  | .writei => oneOf [skip, call .consolewrite,
      seqs [loop (calls [.bmap, .bread, .logWrite, .brelse]), optional (call .iupdate)]]
  | .dirlookup => seqs [loop (call .readi), optional (call .iget)]
  | .dirlink => seqs [call .dirlookup, oneOf [call .iput, seqs [loop (call .readi), call .writei]]]
  | .namex =>
      let component : Code := calls [.ilock, .dirlookup, .iunlockput]
      seqs [oneOf [call .iget, call .idup], loop component,
        oneOf [skip, call .iput, component, calls [.ilock, .iunlockput], calls [.ilock, .iunlock]]]
  | .namei => call .namex
  | .nameiparent => call .namex
  | .getNumberOfUsedBlocks => seqs [call .readsb, loop (calls [.bread, .brelse])]
  | .getInodesUsed => seqs [call .readsb, loop (calls [.bread, .brelse])]
  | .showDiskFree =>
      let print : Code := loop (call .cprintf)
      seqs [call .readsb, print, call .getNumberOfUsedBlocks, print, call .getInodesUsed, print]
  | .df => call .showDiskFree
  -- ide.c and kalloc.c
  | .ideintr => locked .ide [optional (call .wakeup)]
  | .iderw => locked .ide [loop (sleep .ide)]
  | .kfree => optional (locked .kmem [])
  | .kalloc => optional (locked .kmem [])
  -- kbd.c, uart.c, mouse.c, msg.c, bga.c and graphics.c
  | .kbdgetc => optional (call .handleMessage)
  | .kbdintr => oneOf [call .vgaGraphicsintr, call .bgaGraphicsintr, call .consoleintr]
  | .uartintr => call .consoleintr
  | .genMouseUpMessage => call .handleMessage
  | .genMouseMessage => optional (seqs [optional (call .genMouseUpMessage), call .handleMessage])
  | .mouseintr => locked .mouse [loop (call .genMouseMessage)]
  | .handleMessage => call .wmHandleMessage
  | .bgaGraphicsintr => locked .bga [loop (call .kbdgetc)]
  | .vgaGraphicsintr => locked .vga [loop (call .kbdgetc)]
  -- log.c
  | .initlog => calls [.readsb, .recoverFromLog]
  | .installTrans => loop (calls [.bread, .bread, .bwrite, .brelse, .brelse])
  | .readHead => calls [.bread, .brelse]
  | .writeHead => calls [.bread, .bwrite, .brelse]
  | .recoverFromLog => calls [.readHead, .installTrans, .writeHead]
  | .beginTrans => locked .log [loop (sleep .log)]
  | .commitTrans => seqs [optional (calls [.writeHead, .installTrans, .writeHead]),
      locked .log [call .wakeup]]
  | .logWrite => calls [.bread, .bwrite, .brelse]
  -- pipe.c
  | .pipealloc => seqs [call .filealloc, optional (call .filealloc), optional (call .kalloc),
      optional (call .kfree), optional (call .fileclose), optional (call .fileclose)]
  | .pipeclose => seqs [locked .pipe [call .wakeup], optional (call .kfree)]
  | .pipewrite => locked .pipe [loop (seqs [call .wakeup, sleep .pipe]), optional (call .wakeup)]
  | .piperead => locked .pipe [loop (sleep .pipe), optional (call .wakeup)]
  -- proc.c
  | .allocproc => seqs [locked .ptable [], optional (call .kalloc)]
  | .growproc => oneOf [skip, call .allocuvm, call .deallocuvm]
  | .fork => seqs [call .allocproc, optional (seqs [call .copyuvm,
      oneOf [call .kfree, seqs [loop (call .filedup), call .idup]]])]
  | .exit => seqs [loop (call .fileclose), call .iput, acquire .ptable, sched, .panic]
  | .wait => locked .ptable [loop (sleep .ptable), optional (calls [.kfree, .freevm])]
  | .chpr => locked .ptable []
  | .yield => locked .ptable [sched]
  | .wakeup => locked .ptable []
  | .kill => locked .ptable []
  | .procdump => loop (call .cprintf)
  | .ps => locked .ptable [loop (call .cprintf)]
  -- gui.c and amiga.c: `amiga_read_config` returns before it opens the file
  | .guiInitGraphics => calls [.amigaInit, .bgaInit24]
  | .amigaInit => call .cprintf
  | .bgaInit24 => call .cprintf
  -- vm.c and vm64.c
  | .walkpgdir => optional (call .kalloc)
  | .mappages => loop (call .walkpgdir)
  | .setupkvm => calls [.kalloc, .kalloc, .kalloc]
  | .loaduvm => loop (seqs [call .walkpgdir, call .readi])
  | .allocuvm => seqs [loop (calls [.kalloc, .mappages]),
      optional (calls [.kalloc, .cprintf, .deallocuvm])]
  | .deallocuvm => loop (seqs [call .walkpgdir, optional (call .kfree)])
  | .freevm => seqs [call .deallocuvm, loop (call .kfree)]
  | .clearpteu => call .walkpgdir
  | .copyuvm =>
      let page : Code := seqs [calls [.walkpgdir, .kalloc], optional (call .mappages)]
      seqs [call .setupkvm, loop page, optional (seqs [page, call .freevm])]
  | .uva2ka => call .walkpgdir
  | .copyout => loop (call .uva2ka)
  -- window_manager.c
  | .getMessage => optional (locked .wm [])
  | .wmHandleMessage => locked .wm []
  | .drawWindow => optional (call .cprintf)
  | .updateScreen => locked .wm [loop (call .drawWindow)]
  | .createWindow => locked .wm []
  | .createPopupWindow => locked .wm [loop (call .cprintf)]
  | .closePopupWindow => locked .wm []
  | .closeWindow => locked .wm []
  | .minimizeWindow => locked .wm []
  | .maximizeWindow => locked .wm []
  -- sysfile.c and sysproc.c
  | .sysOpen => seqs [
      oneOf [skip, calls [.beginTrans, .create, .commitTrans],
        seqs [call .namei, optional (call .ilock)]],
      oneOf [skip, call .iunlockput, calls [.filealloc, .iunlock],
        seqs [call .filealloc, optional (call .fileclose), call .iunlockput]]]
  | .sysLink =>
      let bad : Code := calls [.ilock, .iupdate, .iunlockput, .commitTrans]
      seqs [call .namei, optional (seqs [calls [.beginTrans, .ilock],
        oneOf [calls [.iunlockput, .commitTrans],
          seqs [calls [.iupdate, .iunlock, .nameiparent],
            oneOf [bad, seqs [call .ilock, optional (call .dirlink), call .iunlockput,
              oneOf [bad, calls [.iput, .commitTrans]]]]]]])]
  | .isdirempty => loop (call .readi)
  | .sysUnlink =>
      let bad : Code := calls [.iunlockput, .commitTrans]
      let remove : Code := seqs [call .writei, optional (call .iupdate),
        calls [.iunlockput, .iupdate, .iunlockput, .commitTrans]]
      seqs [call .nameiparent, optional (seqs [calls [.beginTrans, .ilock], oneOf [bad,
        seqs [call .dirlookup, oneOf [bad, seqs [call .ilock, optional (call .isdirempty),
          oneOf [seqs [call .iunlockput, bad], remove]]]]]])]
  | .create =>
      let found : Code := seqs [calls [.iunlockput, .ilock], optional (call .iunlockput)]
      let dots : Code := calls [.iupdate, .dirlink, .dirlink]
      seqs [call .nameiparent, optional (seqs [calls [.ilock, .dirlookup], oneOf [found,
        seqs [calls [.ialloc, .ilock, .iupdate], optional dots, calls [.dirlink, .iunlockput]]]])]
  | .sysMkdir => seqs [call .beginTrans, optional (call .create), optional (call .iunlockput),
      call .commitTrans]
  | .sysMknod => seqs [call .beginTrans, optional (call .create), optional (call .iunlockput),
      call .commitTrans]
  | .sysChdir => optional (seqs [call .namei, optional (seqs [call .ilock,
      oneOf [call .iunlockput, calls [.iunlock, .iput]]])])
  | .sysPipe => seqs [call .pipealloc, optional (calls [.fileclose, .fileclose])]
  | .nameOfInode => loop (call .readi)
  | .nameForInode => seqs [call .namei, oneOf [skip, .panic,
      seqs [calls [.dirlookup, .ilock, .nameOfInode, .nameForInode],
        optional (calls [.iunlock, .iput])]]]
  | .sysSleep => locked .ticks [loop (sleep .ticks)]
  | .sysUptime => locked .ticks []
  -- syscall.c: the calls that are not here use no lock
  | .syscall => oneOf [skip, call .cprintf, call .fork, call .exit, call .wait, call .sysPipe,
      call .fileread, call .kill, call .exec, call .filestat, call .sysChdir, call .filedup,
      call .growproc, call .sysSleep, call .sysUptime, call .sysOpen, call .filewrite,
      call .sysMknod, call .sysUnlink, call .sysLink, call .sysMkdir, call .fileclose, call .ps,
      call .nameForInode, seqs [call .cprintf, call .guiInitGraphics], call .createWindow,
        call .closeWindow,
      call .getMessage, call .updateScreen, call .maximizeWindow, call .minimizeWindow,
      call .createPopupWindow, call .closePopupWindow, call .df, call .chpr]

/-- `sleep`: it takes `ptable.lock` before it lets go of `lk`. -/
def sleepBody (lk : Lock) : Code :=
  if lk = .ptable then sched
  else seqs [acquire .ptable, release lk, sched, release .ptable, acquire lk]

/-! ## Traps and the scheduler -/

/-- What `trap` tells apart, other than a system call. -/
inductive Trap where
  | timer
  | ide
  /-- The interrupt of the second disk, which is ignored. -/
  | ide1
  | mouse
  | kbd
  | com1
  | spurious
  | fault
  deriving DecidableEq

/-- The branches of `trap`.  A fault in the kernel is a panic, one of a user's program kills it. -/
def device : Trap → Code
  | .timer => optional (locked .ticks [call .wakeup])
  | .ide => call .ideintr
  | .ide1 => skip
  | .mouse => call .mouseintr
  | .kbd => call .kbdintr
  | .com1 => call .uartintr
  | .spurious => call .cprintf
  | .fault => seqs [call .cprintf, optional .panic]

/-- `trap`: the device, then a process that was killed exits, and on a clock tick it yields. -/
def trap (t : Trap) : Code :=
  let exits : Code := ifProc (optional (call .exit))
  seqs [device t, exits, if t = .timer then ifProc (optional (call .yield)) else skip, exits]

/-- A process from `forkret` on: its system calls, each in `trap`. -/
def forkret : Code :=
  let exits : Code := optional (call .exit)
  seqs [release .ptable, optional (call .initlog), loop (seqs [exits, call .syscall, exits])]

/-- `scheduler`. -/
def scheduler : Code := loop (locked .ptable [loop swtch])

/-- The kernel. -/
def kernel : Program Lock Fn UInt8 Trap where
  body := body
  sleepBody := sleepBody
  handler := trap
  process := forkret
  scheduler := scheduler
  ptable := .ptable

/-! ## The check -/

/-- The functions that may sleep.  `yield` and `exit` give up the processor by themselves. -/
def blocking : Fn → Bool
  | .bget | .bread | .bwrite => true
  | .consoleread | .consolewrite => true
  | .exec => true
  | .fileclose | .filestat | .fileread | .filewrite => true
  | .readsb | .bzero | .balloc | .bfree | .ialloc | .iupdate | .ilock | .iput | .iunlockput => true
  | .bmap | .itrunc | .readi | .writei | .dirlookup | .dirlink | .namex => true
  | .namei | .nameiparent | .getNumberOfUsedBlocks | .getInodesUsed | .showDiskFree | .df => true
  | .iderw => true
  | .initlog | .installTrans | .readHead | .writeHead | .recoverFromLog => true
  | .beginTrans | .commitTrans | .logWrite => true
  | .pipealloc | .pipewrite | .piperead => true
  | .exit | .wait | .yield => true
  | .loaduvm => true
  | .sysOpen | .sysLink | .isdirempty | .sysUnlink | .create | .sysMkdir | .sysMknod => true
  | .sysChdir | .sysPipe | .nameOfInode | .nameForInode | .sysSleep => true
  | .syscall => true
  | _ => false

/-- Without `C('D')`, the functions that hold a lock, and the handlers, call only functions that do
not sleep. -/
theorem kernel_checked : Checked kernel blocking (· != ctrlD) where
  quiet f := by cases f <;> decide +kernel
  blocks f := by cases f <;> decide +kernel
  sleep l := by cases l <;> decide
  handler t := by cases t <;> decide
  process := by decide
  scheduler := by decide

/-! ## Runs -/

section Runs

variable {P C : Type}

/-- `consoleintr` does not read `C('D')`. -/
def SparesCtrlD (_ : System Lock Fn UInt8 P C) (a : C × LockEffects.Act UInt8 Trap P) : Prop :=
  a.2 ≠ .read ctrlD

instance [DecidableEq P] (s : System Lock Fn UInt8 P C) (a : C × LockEffects.Act UInt8 Trap P) :
    Decidable (SparesCtrlD s a) :=
  inferInstanceAs (Decidable (_ ≠ _))

variable [DecidableEq P] [Fintype C] [DecidableEq C]

/-- On any number of processors, for any processes and any interrupts: whoever comes to `sleep` is a
process that holds just the lock it passes, and whoever comes to `sched` one that holds just
`ptable.lock`. -/
theorem sleep_of_run {s : System Lock Fn UInt8 P C}
    (hs : Reaches kernel.step SparesCtrlD kernel.boot s) : Safe .ptable s := by
  refine safe_of_checked kernel_checked (hs.mono fun t a hspares i hread => ?_)
  rw [bne_iff_ne]
  rintro rfl
  exact hspares hread

end Runs

/-- The first process sleeps in `iderw`, called by `initlog` for the superblock. -/
theorem sleep_run : ∃ s : System Lock Fn UInt8 Nat (Fin 8),
    Reaches kernel.step SparesCtrlD kernel.boot s ∧ (s.stack 0).head? = some (.sleep .ide) ∧
      Safe .ptable s := by
  let acts : List (LockEffects.Act UInt8 Trap Nat) :=
    [.right, .go, .go, .go, .right, .run 0, .go, .go, .go,
    .left, .go, .go, .go, .go, .go, .go, .go, .go, .go, .go, .left, .left, .go, .left, .go, .go,
    .go, .go, .right]
  have hrun : (runActs kernel.step SparesCtrlD (acts.map fun a => ((0 : Fin 8), a))
      kernel.boot).map (fun s => (s.stack 0).head?) = some (some (.sleep .ide)) := by
    decide +kernel
  obtain ⟨s, hs, hstack⟩ := Option.map_eq_some_iff.1 hrun
  exact ⟨s, .of_runActs _ hs, hstack, sleep_of_run (.of_runActs _ hs)⟩

/-- `C('D')` is typed before a process has run.  `show_disk_free` needs the superblock, and comes to
`sleep` in the handler, with `input.lock` held and no process. -/
theorem sleep_in_handler : ∃ s : System Lock Fn UInt8 Nat (Fin 8),
    Reaches kernel.step (fun _ _ => True) kernel.boot s ∧
      (s.stack 0).head? = some (.sleep .ide) ∧ s.running 0 = none ∧ s.held 0 = [.ide, .input] ∧
      ¬ Safe .ptable s := by
  let acts : List (LockEffects.Act UInt8 Trap Nat) :=
    [.interrupt .kbd, .go, .go, .right, .right, .go, .go, .go,
    .go, .right, .go, .right, .go, .read ctrlD, .go, .go, .go, .go, .go, .go, .go, .go, .go, .go,
    .left, .left, .go, .left, .go, .go, .go, .go, .right]
  have hrun : (runActs kernel.step (fun _ _ => True) (acts.map fun a => ((0 : Fin 8), a))
      kernel.boot).map (fun s => ((s.stack 0).head?, s.running 0, s.held 0)) =
        some (some (.sleep .ide), none, [.ide, .input]) := by
    decide +kernel
  obtain ⟨s, hs, hend⟩ := Option.map_eq_some_iff.1 hrun
  simp only [Prod.mk.injEq] at hend
  obtain ⟨hstack, hnone, hheld⟩ := hend
  refine ⟨s, .of_runActs _ hs, hstack, hnone, hheld, fun hsafe => ?_⟩
  obtain ⟨k, hk⟩ := List.head?_eq_some_iff.1 hstack
  exact (hsafe.sleep 0 .ide k hk).1 hnone

end Xv6.Kernel.LockPaths
