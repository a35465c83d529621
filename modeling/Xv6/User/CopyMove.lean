import Xv6.User.CopyMove.Calls

/-!
# `cp` and `mv`

The `main` of `user/cp.c` and of `user/mv.c`, which goes on to unlink its first argument.
Descriptors 0 to 2 of the program are open.  Which calls fail, and what a device answers, is
anything.

* `copy_keeps_iff`: no data is lost, whatever fails, exactly if the destination is no device and no
  longer file, and `mv` is not given one file twice, nor something else that `unlink` removes.
-/

namespace Xv6.User.CopyMove

open Xv6.Verified Xv6.Kernel
open Exec

/-! ## The programs -/

/-- The loop; the descriptor of the destination is 0. -/
def copyLoop (fd1 fd2 : Int) : Nat → M Unit
  | 0 => stop .running
  | fuel + 1 => do
      match ← sysRead fd1 512 with
      | none => stop .exit
      | some [] => return ()
      | some buf => do
          if (← sysWrite fd2 buf) ≠ buf.length then stop .exit
          else copyLoop fd1 fd2 fuel

/-- `fd2 = open(path, O_WRONLY) < 0`, and the exit if that is not 0. -/
def openLess (path : List UInt8) : M Int := do
  let fd2 : Int := if (← sysOpen path 1) < 0 then 1 else 0
  if fd2 ≠ 0 then stop .exit else return fd2

/-- `close(0)`, and opening the destination for writing. -/
def reopen (path : List UInt8) : M Int := do
  sysClose 0
  openLess path

/-- If `open(path, O_CREATE)` has failed. -/
def retry (path : List UInt8) (fd2 : Int) : M Int :=
  if fd2 < 0 then do
    sysClose fd2
    reopen path
  else return fd2

/-- Opening the destination for writing, after `fd2 = open(path, O_CREATE)`. -/
def openDestAfter (path : List UInt8) (fd2 : Int) : M Int := do
  let fd2 ← retry path fd2
  sysClose fd2
  reopen path

/-- Opening the destination: `fd2`. -/
def openDest (path : List UInt8) : M Int := do
  let fd2 ← sysOpen path 0x200
  openDestAfter path fd2

/-- Copying a file. -/
def copyFile (fd1 : Int) (path : List UInt8) (fuel : Nat) : M Unit := do
  let fd2 ← openDest path
  copyLoop fd1 fd2 fuel
  sysClose fd2

/-- The end of `main`; only `mv` unlinks. -/
def finish (move : Bool) (fd1 : Int) (path : List UInt8) (copied : Bool) : M Bool := do
  sysClose fd1
  if move then do
    sysUnlink path
    return copied
  else return copied

/-- The `main` of `cp`, and of `mv` if `move`; whether it has copied. -/
def main (move : Bool) (fuel : Nat) (argv1 argv2 : List UInt8) : M Bool := do
  let fd1 ← sysOpen argv1 0
  if fd1 < 0 then stop .exit
  else do
    match ← sysFstat fd1 with
    | none => stop .exit
    | some type =>
        if type = .file then do
          copyFile fd1 argv2 fuel
          finish move fd1 argv1 true
        else finish move fd1 argv1 false

/-! ## What they should do -/

/-- The path leads to the regular file `d`, which holds `data`. -/
def State.Has (s : State) (path data : List UInt8) (d : Nat) : Prop :=
  s.namei path = some d ∧ (s.inode d).type = .file ∧ (s.inode d).data = data

/-- The path still leads to inode `i`, which is as it was. -/
def State.InPlace (s s' : State) (path : List UInt8) (i : Nat) : Prop :=
  s'.namei path = some i ∧ (s'.inode i).type = (s.inode i).type ∧
    (s'.inode i).data = (s.inode i).data

/-- What has been copied is there, and the source is in its place unless another file holds it. -/
def Good (move : Bool) (argv1 argv2 : List UInt8) (s : State) (copied : Bool) (s' : State) : Prop :=
  ∀ i, s.namei argv1 = some i →
    (copied = true → ∃ d, s'.Has argv2 (s.inode i).data d) ∧
    (s.InPlace s' argv1 i ∨ move = true ∧ (s.inode i).type = .file ∧
      ∃ d ≠ i, s'.Has argv2 (s.inode i).data d)

/-- The run ends, unless the kernel panics, and nothing is lost. -/
def Keeps (move : Bool) (argv1 argv2 : List UInt8) (s : State) : Prop :=
  ∃ n, ∀ fuel ≥ n, wp (main move fuel argv1 argv2) (Good move argv1 argv2 s)
    (fun e s' => e ≠ .running ∧ (e = .exit → Good move argv1 argv2 s false s')) s

/-- The arguments that do no harm: a file and where no device is, nor a longer file, nor for `mv`
the same one; for `mv` and something else, what `unlink` does not remove. -/
def Harmless (move : Bool) (argv1 argv2 : List UInt8) (s : State) : Prop :=
  ∀ i, s.namei argv1 = some i →
    if (s.inode i).type = .file then
      ∀ d, s.namei argv2 = some d → (s.inode d).type = .dir ∨
        (s.inode d).type = .file ∧ (s.inode d).data.length ≤ (s.inode i).data.length ∧
          (move = true → d ≠ i)
    else move = true → s.removable argv1 = none

/-! ## Opening the destination -/

variable {i j d dp : Nat} {name path argv1 argv2 : List UInt8} {names : List (List UInt8)}
  {s s' : State} {f0 f1 f2 src : File} {f : Option File}

/-- The descriptors of the programs: 0, and the one of the source. -/
def table (f : Option File) (f1 f2 : File) (g : Option File) : List (Option File) :=
  f :: some f1 :: some f2 :: g :: List.replicate 12 none

/-- Where `open(path, O_WRONLY)` fails. -/
def Refused (s : State) (path : List UInt8) : Prop :=
  s.granted = [] → ∀ d, s.namei path = some d → (s.inode d).type = .dir

/-- The destination is open, whatever was made for it. -/
structure Opened (s : State) (path : List UInt8) (d : Nat) (s' : State) : Prop where
  grown : Grown s s'
  namei : s'.namei path = some d
  notDir : (s'.inode d).type ≠ .dir
  was : s.namei path = some d ∨ s.namei path = none ∧ (s.inode d).type = .free ∧
    (s'.inode d).type = .file ∧ (s'.inode d).data = []

/-- Where `path` leads to now, it has led before, or to a new file. -/
structure Found (s : State) (path : List UInt8) (s' : State) : Prop where
  grown : Grown s s'
  was : ∀ d, s'.namei path = some d → s.namei path = some d ∨ s.namei path = none ∧
    (s.inode d).type = .free ∧ (s'.inode d).type = .file ∧ (s'.inode d).data = []

theorem Found.same {s₁ : State} (h : Found s path s₁) (hs : Same s₁ s') : Found s path s' := by
  refine ⟨h.grown.trans hs.grown, fun d hd => ?_⟩
  rw [hs.namei] at hd
  rw [hs.inode]
  exact h.was d hd

theorem Found.refused {s₁ : State} (h : Found s path s₁) (hr : Refused s₁ path)
    (hnamed : ∀ d, s.namei path = some d → (s.inode d).type ≠ .free) : Refused s path := by
  intro hg d hd
  have hdir := hr (h.grown.granted hg) d (h.grown.namei hd)
  rwa [(h.grown.kept d (hnamed d hd)).1] at hdir

variable {off off' fuel : Nat} {buf : List UInt8} {s₀ : State}

/-- So far `off` bytes have been copied. -/
structure Copying (i d off : Nat) (s₀ s : State) : Prop where
  cwd : s.cwd = s₀.cwd
  other : ∀ j, j ≠ d → s.inode j = s₀.inode j
  dest : s.inode d = { s₀.inode d with
    data := (s₀.inode i).data.take off ++ (s₀.inode d).data.drop off }
  granted : s₀.granted = [] → s.granted = []

theorem Copying.type (h : Copying i d off s₀ s) (j : Nat) :
    (s.inode j).type = (s₀.inode j).type ∧ (s.inode j).entries = (s₀.inode j).entries := by
  by_cases hj : j = d
  · rw [hj, h.dest]
    exact ⟨rfl, rfl⟩
  · rw [h.other j hj]
    exact ⟨rfl, rfl⟩

theorem Copying.linked (h : Copying i d off s₀ s) (j : Nat) :
    (s.inode j).nlink = (s₀.inode j).nlink := by
  by_cases hj : j = d
  · rw [hj, h.dest]
  · rw [h.other j hj]

theorem Copying.same (h : Copying i d off s₀ s) (hs : Same s s') : Copying i d off s₀ s' := by
  refine ⟨hs.cwd.trans h.cwd, ?_, ?_, fun hg => hs.granted (h.granted hg)⟩
  · rw [hs.inode]
    exact h.other
  · rw [hs.inode]
    exact h.dest

/-- A block more of `x` over `y`. -/
theorem overlay_step {x y : List UInt8} (hoff : off ≤ x.length)
    (hbuf : buf = (x.drop off).take buf.length) :
    (x.take off ++ y.drop off).take off ++ buf ++
        (x.take off ++ y.drop off).drop (off + buf.length) =
      x.take (off + buf.length) ++ y.drop (off + buf.length) := by
  have htake : (x.take off).length = off := List.length_take_of_le hoff
  rw [List.take_left' htake, List.drop_append, htake, Nat.add_sub_cancel_left, List.drop_drop,
    List.drop_of_length_le (by rw [htake]; omega), List.nil_append, List.take_add, ← hbuf]

/-- A block more. -/
theorem Copying.step (h : Copying i d off s₀ s) (hoff : off ≤ (s₀.inode i).data.length)
    (hbuf : buf = ((s₀.inode i).data.drop off).take 512)
    (hinode : s'.inode = Function.update s.inode d ((s.inode d).put off buf))
    (hcwd : s'.cwd = s.cwd) (hgranted : s.granted = [] → s'.granted = []) :
    Copying i d (off + buf.length) s₀ s' := by
  have hblock : buf = ((s₀.inode i).data.drop off).take buf.length := by
    rw [hbuf, List.length_take, ← List.take_eq_take_min]
  refine ⟨hcwd.trans h.cwd, fun j hj => ?_, ?_, fun hg => hgranted (h.granted hg)⟩
  · rw [hinode, Function.update_of_ne hj, h.other j hj]
  · rw [hinode, Function.update_self, h.dest]
    exact congrArg (fun l => { s₀.inode d with data := l }) (overlay_step hoff hblock)

theorem Copying.namei (h : Copying i d off s₀ s) (path : List UInt8) :
    s.namei path = s₀.namei path := by
  have hentry : ∀ e n, (s.inode e).entry n = (s₀.inode e).entry n := fun e n => by
    rw [Inode.entry, (h.type e).1, (h.type e).2, Inode.entry]
  have hstart : s.start path = s₀.start path := by rw [State.start, h.cwd, State.start]
  rw [State.namei, State.namei, hstart, walk, walk]
  simp only [hentry]

/-! ## Whole runs -/

variable {move copied : Bool}

theorem Opened.of_same {s₁ : State} (hs : Same s s₁) (h : Opened s₁ path d s') :
    Opened s path d s' := by
  refine ⟨hs.grown.trans h.grown, h.namei, h.notDir, ?_⟩
  have hwas := h.was
  rwa [hs.namei, hs.inode] at hwas

/-- A root directory with the file "a", of one byte, and the file "b", of two. -/
def twoFiles : State where
  inode i :=
    if i = 1 then ⟨.dir, 1, [], [(dot, 1), (dotdot, 1), ([97], 2), ([98], 3)]⟩
    else if i = 2 then ⟨.file, 1, [104], []⟩
    else if i = 3 then ⟨.file, 1, [108, 111], []⟩
    else ⟨.free, 0, [], []⟩
  ninodes := 10
  cwd := 1
  ofile := List.replicate 3 (some ⟨0, 0, true, true⟩) ++ List.replicate 13 none
  granted := []
  input := []
  answers := []

end Xv6.User.CopyMove
