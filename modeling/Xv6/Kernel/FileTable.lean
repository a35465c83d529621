import Xv6.Kernel.State
import Xv6.Verified.Counting

/-!
# Open files, pipes and descriptors

`kernel/file.c`, `kernel/pipe.c` and the parts of `kernel/sysfile.c` and
`kernel/proc.c` that move references to `struct file`.  What an open file reads and
writes is left out: of an inode file only its kind is kept, of a pipe which of its
ends are open.

`used` says which pages are pipes, `kallocs` and `kfrees` count how often each page
was taken for a pipe and given back, and `stray` whether a page that is no pipe was
ever used as one.  No kernel variable holds these.

## Main results

* `fileclose_spec`, `filealloc_spec`, `fdalloc_spec`: how references move between
  the table, the descriptors and the code that is just handling them.
* `files_exact`: after any sequence of calls the counts are exact, pipes are open as
  their files say, pages are given back once, and no panic is reached.
-/

namespace Xv6.Kernel.FileTable

open Xv6.Verified
open Exec
open Finset

/-! ## State -/

/-- `FD_NONE`, `FD_PIPE` and `FD_INODE`. -/
inductive Kind where
  | none
  | pipe
  | inode
  deriving DecidableEq, Repr

/-- `struct file`. -/
structure File where
  kind : Kind
  ref : Nat
  readable : Bool
  writable : Bool
  pipe : Nat

/-- `struct pipe`, its ends. -/
structure Pipe where
  readopen : Bool
  writeopen : Bool

/-- The file table, the pages of pipes and the processes. -/
structure State where
  file : Nat → File
  pipe : Nat → Pipe
  ofile : Nat → Nat → Option Nat
  proc : Nat → ProcState
  used : Nat → Bool
  kallocs : Nat → Nat
  kfrees : Nat → Nat
  stray : Bool

/-- The panics of the file table, and the wait for something else. -/
inductive Panic where
  | filedup
  | fileclose
  | initExiting
  deriving DecidableEq, Repr

/-- Kernel code. -/
abbrev M := Exec Panic State

namespace State

/-- Replace file `f`. -/
def setFile (s : State) (f : Nat) (x : File) : State :=
  { s with file := Function.update s.file f x }

/-- `ofile[fd] = f` of process `p`. -/
def setFd (s : State) (p fd : Nat) (f : Option Nat) : State :=
  { s with ofile := Function.update s.ofile p (Function.update (s.ofile p) fd f) }

/-- Replace the pipe in page `pg`. -/
def setPipe (s : State) (pg : Nat) (x : Pipe) : State :=
  { s with pipe := Function.update s.pipe pg x }

/-- Replace the state of process `p`. -/
def setProc (s : State) (p : Nat) (x : ProcState) : State :=
  { s with proc := Function.update s.proc p x }

end State

/-! ## `file.c` -/

/-- The first number from `i` on, among `n`, with property `P`. -/
def firstWith (P : Nat → Bool) : Nat → Nat → Option Nat
  | 0, _ => none
  | n + 1, i => if P i then some i else firstWith P n (i + 1)

/-- `filealloc`. -/
def filealloc : M (Option Nat) := do
  let s ← get
  match firstWith (fun f => decide ((s.file f).ref = 0)) NFILE 0 with
  | none => return none
  | some f => do
      modify fun s => s.setFile f { s.file f with ref := 1 }
      return some f

/-- `filedup`. -/
def filedup (f : Nat) : M Unit := do
  let s ← get
  if (s.file f).ref < 1 then stop .filedup
  else modify fun s => s.setFile f { s.file f with ref := (s.file f).ref + 1 }

/-- `kfree` of a pipe's page. -/
def kfree (pg : Nat) : M Unit :=
  modify fun s =>
    { s with
      used := Function.update s.used pg false
      kfrees := Function.update s.kfrees pg (s.kfrees pg + 1)
      stray := s.stray || !s.used pg }

/-- Close one end: `p->writeopen = 0` or `p->readopen = 0`. -/
def closeEnd (pg : Nat) (writable : Bool) : M Unit :=
  modify fun s =>
    { s.setPipe pg
        (if writable then { s.pipe pg with writeopen := false }
          else { s.pipe pg with readopen := false }) with
      stray := s.stray || !s.used pg }

/-- `pipeclose`. -/
def pipeclose (pg : Nat) (writable : Bool) : M Unit := do
  closeEnd pg writable
  let s ← get
  if (s.pipe pg).readopen = false ∧ (s.pipe pg).writeopen = false then kfree pg else pure ()

/-- `fileclose`; putting the inode of an inode file is left out. -/
def fileclose (f : Nat) : M Unit := do
  let s ← get
  if (s.file f).ref < 1 then stop .fileclose
  else if 1 < (s.file f).ref then
    modify fun s => s.setFile f { s.file f with ref := (s.file f).ref - 1 }
  else do
    modify fun s => s.setFile f { s.file f with ref := 0, kind := .none }
    if (s.file f).kind = .pipe then pipeclose (s.file f).pipe (s.file f).writable else pure ()

/-! ## `pipe.c` -/

/-- What `pipealloc` does to page `pg`. -/
def initPipe (pg : Nat) : M Unit :=
  modify fun s =>
    { s.setPipe pg ⟨true, true⟩ with
      used := Function.update s.used pg true
      kallocs := Function.update s.kallocs pg (s.kallocs pg + 1) }

/-- What `pipealloc` stores into a file. -/
def initEnd (f pg : Nat) (writable : Bool) : M Unit :=
  modify fun s =>
    s.setFile f { s.file f with
      kind := .pipe, readable := !writable, writable := writable, pipe := pg }

/-- The files `f0` and `f1` become the ends of a pipe in page `pg`. -/
def joinEnds (f0 f1 pg : Nat) : M Unit := do
  initPipe pg
  initEnd f0 pg false
  initEnd f1 pg true

/-- `pipealloc`, where `kalloc` answers `page`. -/
def pipealloc (page : Option Nat) : M (Option (Nat × Nat)) := do
  match ← filealloc with
  | none => return none
  | some f0 =>
      match ← filealloc with
      | none => do
          fileclose f0
          return none
      | some f1 =>
          match page with
          | none => do
              fileclose f0
              fileclose f1
              return none
          | some pg => do
              joinEnds f0 f1 pg
              return some (f0, f1)

/-! ## System calls of process `p` -/

/-- `fdalloc`. -/
def fdalloc (p f : Nat) : M (Option Nat) := do
  let s ← get
  match firstWith (fun fd => (s.ofile p fd).isNone) NOFILE 0 with
  | none => return none
  | some fd => do
      modify fun s => s.setFd p fd (some f)
      return some fd

/-- `argfd`. -/
def argfd (p fd : Nat) : M (Option Nat) := do
  let s ← get
  return if fd < NOFILE then s.ofile p fd else none

/-- `sys_open`, once there is an inode to open. -/
def sysOpen (p : Nat) (readable writable : Bool) : M Int := do
  match ← filealloc with
  | none => return -1
  | some f =>
      match ← fdalloc p f with
      | none => do
          fileclose f
          return -1
      | some fd => do
          modify fun s =>
            s.setFile f { s.file f with
              kind := .inode, readable := readable, writable := writable }
          return fd

/-- `sys_dup`. -/
def sysDup (p fd : Nat) : M Int := do
  match ← argfd p fd with
  | none => return -1
  | some f =>
      match ← fdalloc p f with
      | none => return -1
      | some fd => do
          filedup f
          return fd

/-- `sys_close`. -/
def sysClose (p fd : Nat) : M Int := do
  match ← argfd p fd with
  | none => return -1
  | some f => do
      modify fun s => s.setFd p fd none
      fileclose f
      return 0

/-- `sys_pipe`, where `kalloc` answers `page`. -/
def sysPipe (p : Nat) (page : Option Nat) : M Int := do
  match ← pipealloc page with
  | none => return -1
  | some (rf, wf) =>
      match ← fdalloc p rf with
      | none => do
          fileclose rf
          fileclose wf
          return -1
      | some fd0 =>
          match ← fdalloc p wf with
          | none => do
              modify fun s => s.setFd p fd0 none
              fileclose rf
              fileclose wf
              return -1
          | some _ => return 0

/-- The loop of `fork` over the descriptors: child `np` shares the files of `p`. -/
def shareFiles (p np : Nat) : M Unit :=
  loopTo (fun i => do
    let s ← get
    match s.ofile p i with
    | none => pure ()
    | some f => do
        filedup f
        modify fun s => s.setFd np i (some f)) NOFILE

/-- `fork`, where `kstack` and `vm` say whether the kernel stack and the copy of the
address space can be allocated. -/
def fork (p : Nat) (kstack vm : Bool) : M Int := do
  let s ← get
  match firstWith (fun q => decide (s.proc q = .unused)) NPROC 0 with
  | none => return -1
  | some np => do
      modify fun s => s.setProc np .embryo
      if kstack = false then do
        modify fun s => s.setProc np .unused
        return -1
      else if vm = false then do
        modify fun s => s.setProc np .unused
        return -1
      else do
        shareFiles p np
        modify fun s => s.setProc np .live
        return np

/-- The loop of `exit` over the descriptors. -/
def closeFiles (p : Nat) : M Unit :=
  loopTo (fun fd => do
    let s ← get
    match s.ofile p fd with
    | none => pure ()
    | some f => do
        fileclose f
        modify fun s => s.setFd p fd none) NOFILE

/-- `exit`; process 0 is `initproc`. -/
def exit (p : Nat) : M Unit := do
  if p = 0 then stop .initExiting
  else do
    closeFiles p
    modify fun s => s.setProc p .zombie

/-- `wait` finds the zombie `q`. -/
def reap (q : Nat) : M Unit := modify fun s => s.setProc q .unused

/-! ## The invariant -/

/-- 1 if the slot points to `f`. -/
def pointsTo (f : Nat) (o : Option Nat) : Nat := if o = some f then 1 else 0

/-- The descriptor slots that point to `f`. -/
def State.count (s : State) (f : Nat) : Nat :=
  ∑ p ∈ range NPROC, ∑ fd ∈ range NOFILE, pointsTo f (s.ofile p fd)

/-- Whether an end of a pipe is open. -/
def Pipe.endOpen (x : Pipe) (writable : Bool) : Bool := if writable then x.writeopen else x.readopen

/-- File `f` is an end of the pipe in page `pg`. -/
structure State.IsEnd (s : State) (f pg : Nat) (writable : Bool) : Prop where
  kind : (s.file f).kind = .pipe
  page : (s.file f).pipe = pg
  writable : (s.file f).writable = writable

/-- The files and pipes agree with each other. -/
structure Pipes (s : State) : Prop where
  inTable : ∀ f, (s.file f).kind ≠ .none → f < NFILE
  free : ∀ f, (s.file f).ref = 0 → (s.file f).kind = .none
  ends : ∀ f pg w, s.IsEnd f pg w → s.used pg = true ∧ (s.pipe pg).endOpen w = true
  uniq : ∀ f g pg w, s.IsEnd f pg w → s.IsEnd g pg w → f = g
  opened : ∀ pg w, s.used pg = true → (s.pipe pg).endOpen w = true → ∃ f, s.IsEnd f pg w
  some : ∀ pg, s.used pg = true → ∃ w, (s.pipe pg).endOpen w = true
  pages : ∀ pg, s.kallocs pg = s.kfrees pg + if s.used pg then 1 else 0
  stray : s.stray = false

/-- The whole invariant.  `own f` is how many references to `f` are in the hands of
the code that is running, on top of those in descriptor slots. -/
structure Inv (own : Nat → Int) (s : State) : Prop extends Pipes s where
  refs : ∀ f, f < NFILE → ((s.file f).ref : Int) = s.count f + own f
  slots : ∀ p fd f, s.ofile p fd = Option.some f → f < NFILE ∧ p < NPROC ∧ fd < NOFILE
  gone : ∀ p, s.proc p = .unused ∨ s.proc p = .zombie → ∀ fd, s.ofile p fd = Option.none

/-- One reference more, or less, in hand. -/
def bump (own : Nat → Int) (f : Nat) (δ : Int) : Nat → Int := Function.update own f (own f + δ)

theorem bump_self (own : Nat → Int) (f : Nat) (δ : Int) : bump own f δ f = own f + δ :=
  Function.update_self _ _ _

theorem bump_of_ne (own : Nat → Int) {f g : Nat} (δ : Int) (h : g ≠ f) : bump own f δ g = own g :=
  Function.update_of_ne h _ _

theorem bump_back (own : Nat → Int) (f : Nat) (δ : Int) : bump (bump own f δ) f (-δ) = own := by
  funext g
  by_cases hg : g = f
  · rw [hg, bump_self, bump_self]
    omega
  · rw [bump_of_ne _ _ hg, bump_of_ne _ _ hg]

theorem bump_comm (own : Nat → Int) (f g : Nat) (a b : Int) :
    bump (bump own f a) g b = bump (bump own g b) f a := by
  funext x
  by_cases hf : x = f
  · by_cases hg : x = g
    · subst hf hg
      rw [bump_self, bump_self, bump_self, bump_self]
      omega
    · rw [bump_of_ne _ _ hg, hf, bump_self, bump_self, bump_of_ne _ _ (hf ▸ hg)]
  · by_cases hg : x = g
    · rw [bump_of_ne _ _ hf, hg, bump_self, bump_self, bump_of_ne _ _ (hg ▸ hf)]
    · rw [bump_of_ne _ _ hf, bump_of_ne _ _ hg, bump_of_ne _ _ hg, bump_of_ne _ _ hf]

/-! ## Counting slots -/

@[simp] theorem pointsTo_none (f : Nat) : pointsTo f none = 0 := rfl

theorem pointsTo_some (f g : Nat) : pointsTo f (some g) = if g = f then 1 else 0 := by
  simp [pointsTo]

/-- One slot changes. -/
theorem count_setFd (s : State) {p fd : Nat} (o : Option Nat) (hp : p < NPROC) (hfd : fd < NOFILE)
    (f : Nat) : (s.setFd p fd o).count f + pointsTo f (s.ofile p fd) =
      s.count f + pointsTo f o := by
  have hrow : ∀ q, q ≠ p → (s.setFd p fd o).ofile q = s.ofile q :=
    fun q hq => Function.update_of_ne hq _ _
  have hself : (s.setFd p fd o).ofile p = Function.update (s.ofile p) fd o :=
    Function.update_self _ _ _
  have houter := sum_change (n := NPROC) (p := p)
    (f := fun q => ∑ i ∈ range NOFILE, pointsTo f (s.ofile q i))
    (g := fun q => ∑ i ∈ range NOFILE, pointsTo f ((s.setFd p fd o).ofile q i)) hp
    fun q hq => by rw [hrow q hq]
  have hinner := sum_change (n := NOFILE) (p := fd) (f := fun i => pointsTo f (s.ofile p i))
    (g := fun i => pointsTo f ((s.setFd p fd o).ofile p i)) hfd
    fun i hi => by rw [hself, Function.update_of_ne hi]
  simp only [hself, Function.update_self] at hinner houter
  simp only [State.count]
  omega

/-- A slot counts. -/
theorem count_pos {s : State} {p fd f : Nat} (hp : p < NPROC) (hfd : fd < NOFILE)
    (h : s.ofile p fd = some f) : 0 < s.count f := by
  have h1 := le_sum_range (fun i => pointsTo f (s.ofile p i)) hfd
  have h2 := le_sum_range (fun q => ∑ i ∈ range NOFILE, pointsTo f (s.ofile q i)) hp
  simp only [h, pointsTo_some, if_true] at h1
  simp only [State.count]
  omega

/-! ## Files and pipes -/

section Pipes

variable {s : State}

theorem setFile_self (s : State) (f : Nat) (x : File) : (s.setFile f x).file f = x :=
  Function.update_self _ _ _

theorem setFile_of_ne (s : State) {f g : Nat} (x : File) (h : g ≠ f) :
    (s.setFile f x).file g = s.file g := Function.update_of_ne h _ _

/-- An end is determined by its file's kind, page and direction. -/
theorem isEnd_congr {t : State} {f : Nat} (hkind : (t.file f).kind = (s.file f).kind)
    (hpage : (t.file f).pipe = (s.file f).pipe)
    (hwrite : (t.file f).writable = (s.file f).writable) {pg : Nat} {w : Bool} :
    t.IsEnd f pg w ↔ s.IsEnd f pg w :=
  ⟨fun h => ⟨hkind ▸ h.kind, hpage ▸ h.page, hwrite ▸ h.writable⟩,
    fun h => ⟨hkind.trans h.kind, hpage.trans h.page, hwrite.trans h.writable⟩⟩

theorem isEnd_setFile_of_ne {f g : Nat} (x : File) (h : g ≠ f) {pg : Nat} {w : Bool} :
    (s.setFile f x).IsEnd g pg w ↔ s.IsEnd g pg w := by
  have heq := setFile_of_ne s x h
  exact isEnd_congr (by rw [heq]) (by rw [heq]) (by rw [heq])

/-- A new count, or a new kind that is not a pipe's. -/
theorem Pipes.setFile (h : Pipes s) {f : Nat} {x : File} (hf : f < NFILE)
    (hfree : x.ref = 0 → x.kind = .none)
    (hends : ∀ pg w, (s.setFile f x).IsEnd f pg w ↔ s.IsEnd f pg w) : Pipes (s.setFile f x) := by
  have hall : ∀ g pg w, (s.setFile f x).IsEnd g pg w ↔ s.IsEnd g pg w := by
    intro g pg w
    by_cases hg : g = f
    · rw [hg]
      exact hends pg w
    · exact isEnd_setFile_of_ne x hg
  refine ⟨?_, ?_, fun g pg w hg => h.ends g pg w ((hall g pg w).1 hg),
    fun g g' pg w hg hg' => h.uniq g g' pg w ((hall _ _ _).1 hg) ((hall _ _ _).1 hg'), ?_,
    h.some, h.pages, h.stray⟩
  · intro g hg
    by_cases hgf : g = f
    · rw [hgf]
      exact hf
    · rw [setFile_of_ne s x hgf] at hg
      exact h.inTable g hg
  · intro g hg
    by_cases hgf : g = f
    · rw [hgf, setFile_self] at hg ⊢
      exact hfree hg
    · rw [setFile_of_ne s x hgf] at hg ⊢
      exact h.free g hg
  · intro pg w hused hopen
    obtain ⟨g, hg⟩ := h.opened pg w hused hopen
    exact ⟨g, (hall g pg w).2 hg⟩

/-- Slots and processes do not matter. -/
theorem Pipes.congr (h : Pipes s) {t : State} (hfile : t.file = s.file) (hpipe : t.pipe = s.pipe)
    (hused : t.used = s.used) (hkallocs : t.kallocs = s.kallocs) (hkfrees : t.kfrees = s.kfrees)
    (hstray : t.stray = s.stray) : Pipes t := by
  have hall : ∀ f pg w, t.IsEnd f pg w ↔ s.IsEnd f pg w := fun f pg w =>
    isEnd_congr (by rw [hfile]) (by rw [hfile]) (by rw [hfile])
  refine ⟨by rw [hfile]; exact h.inTable, by rw [hfile]; exact h.free, ?_, ?_, ?_, ?_, ?_, ?_⟩
  · intro f pg w hf
    rw [hused, hpipe]
    exact h.ends f pg w ((hall f pg w).1 hf)
  · intro f g pg w hf hg
    exact h.uniq f g pg w ((hall f pg w).1 hf) ((hall g pg w).1 hg)
  · intro pg w hu hopen
    rw [hused] at hu
    rw [hpipe] at hopen
    obtain ⟨f, hf⟩ := h.opened pg w hu hopen
    exact ⟨f, (hall f pg w).2 hf⟩
  · rw [hused, hpipe]
    exact h.some
  · rw [hkallocs, hkfrees, hused]
    exact h.pages
  · rw [hstray]
    exact h.stray

/-- Closing an end shuts that end and leaves the other. -/
theorem endOpen_close (x : Pipe) (w w' : Bool) :
    (if w then { x with writeopen := false } else { x with readopen := false } : Pipe).endOpen w'
      = if w' = w then false else x.endOpen w' := by
  cases w <;> cases w' <;> rfl

/-- The state after the last reference to end `w` of `pg` is gone. -/
structure Closed (f pg : Nat) (w : Bool) (s t : State) : Prop where
  none : (t.file f).kind = .none
  others : ∀ g, g ≠ f → t.file g = s.file g
  used : ∀ pg', pg' ≠ pg → t.used pg' = s.used pg'
  pipe : ∀ pg', pg' ≠ pg → t.pipe pg' = s.pipe pg'
  shut : ∀ w', (t.pipe pg).endOpen w' = if w' = w then false else (s.pipe pg).endOpen w'
  /-- The page goes when both ends are shut. -/
  gone : t.used pg = (s.pipe pg).endOpen (!w)
  kallocs : t.kallocs = s.kallocs
  kfrees : ∀ pg', t.kfrees pg' = s.kfrees pg' + if t.used pg' = s.used pg' then 0 else 1
  stray : t.stray = false

theorem Pipes.closed (h : Pipes s) {f pg : Nat} {w : Bool} {t : State} (hf : s.IsEnd f pg w)
    (hc : Closed f pg w s t) : Pipes t := by
  have hused := (h.ends f pg w hf).1
  have hall : ∀ g pg' w', t.IsEnd g pg' w' ↔ g ≠ f ∧ s.IsEnd g pg' w' := by
    intro g pg' w'
    by_cases hgf : g = f
    · subst hgf
      refine ⟨fun hg => ?_, fun hg => absurd rfl hg.1⟩
      exact absurd (hc.none.symm.trans hg.kind) (by decide)
    · have heq := hc.others g hgf
      rw [isEnd_congr (s := s) (by rw [heq]) (by rw [heq]) (by rw [heq])]
      exact ⟨fun hg => ⟨hgf, hg⟩, fun hg => hg.2⟩
  -- the other ends of this pipe are the opposite one
  have hopp : ∀ g w', g ≠ f → s.IsEnd g pg w' → w' = !w := by
    intro g w' hgf hg
    cases hw : w' == w with
    | true =>
        rw [beq_iff_eq.1 hw] at hg
        exact absurd (h.uniq g f pg w hg hf) hgf
    | false => cases w' <;> cases w <;> simp_all
  refine ⟨?_, ?_, ?_, ?_, ?_, ?_, ?_, hc.stray⟩
  · intro g hg
    by_cases hgf : g = f
    · rw [hgf] at hg
      exact absurd hc.none hg
    · rw [hc.others g hgf] at hg
      exact h.inTable g hg
  · intro g hg
    by_cases hgf : g = f
    · rw [hgf]
      exact hc.none
    · rw [hc.others g hgf] at hg ⊢
      exact h.free g hg
  · intro g pg' w' hg
    obtain ⟨hgf, hg⟩ := (hall g pg' w').1 hg
    by_cases hpg : pg' = pg
    · subst hpg
      have hw := hopp g w' hgf hg
      have hopen := (h.ends g pg' w' hg).2
      rw [hc.gone, hc.shut, ← hw, hopen, if_neg (by rw [hw]; cases w <;> decide)]
      exact ⟨rfl, rfl⟩
    · rw [hc.used pg' hpg, hc.pipe pg' hpg]
      exact h.ends g pg' w' hg
  · intro g g' pg' w' hg hg'
    exact h.uniq g g' pg' w' ((hall _ _ _).1 hg).2 ((hall _ _ _).1 hg').2
  · intro pg' w' hused' hopen
    by_cases hpg : pg' = pg
    · subst hpg
      rw [hc.shut] at hopen
      split at hopen
      · cases hopen
      · rename_i hne
        obtain ⟨g, hg⟩ := h.opened pg' w' hused hopen
        refine ⟨g, (hall g pg' w').2 ⟨?_, hg⟩⟩
        rintro rfl
        exact hne (hg.writable.symm.trans hf.writable)
    · rw [hc.used pg' hpg] at hused'
      rw [hc.pipe pg' hpg] at hopen
      obtain ⟨g, hg⟩ := h.opened pg' w' hused' hopen
      refine ⟨g, (hall g pg' w').2 ⟨?_, hg⟩⟩
      rintro rfl
      exact hpg (hg.page.symm.trans hf.page)
  · intro pg' hused'
    by_cases hpg : pg' = pg
    · subst hpg
      rw [hc.gone] at hused'
      refine ⟨!w, ?_⟩
      rw [hc.shut, if_neg (by cases w <;> decide), hused']
    · rw [hc.used pg' hpg] at hused'
      rw [hc.pipe pg' hpg]
      exact h.some pg' hused'
  · intro pg'
    have hpages := h.pages pg'
    rw [hc.kallocs, hc.kfrees, hpages]
    by_cases hpg : pg' = pg
    · subst hpg
      cases hgone : t.used pg' <;> simp [hused]
    · rw [hc.used pg' hpg]
      simp

end Pipes

/-! ## One lemma for each function -/

section Specs

variable {own : Nat → Int} {s : State} {α : Type} {f₀ f₁ : Nat}

/-- The slots and the processes are the same. -/
def SameProcs (s t : State) : Prop := t.ofile = s.ofile ∧ t.proc = s.proc

theorem SameProcs.count {t : State} (h : SameProcs s t) (f : Nat) : t.count f = s.count f := by
  simp only [State.count, h.1]

/-- The references to one file change, in hand and in the table. -/
theorem Inv.of_files {t : State} (h : Inv own s) (hp : SameProcs s t) (hpipes : Pipes t) {f : Nat}
    {δ : Int} (hself : ((t.file f).ref : Int) = (s.file f).ref + δ)
    (hothers : ∀ g, g ≠ f → (t.file g).ref = (s.file g).ref) : Inv (bump own f δ) t := by
  refine ⟨hpipes, ?_, ?_, ?_⟩
  · intro g hg
    rw [hp.count]
    by_cases hgf : g = f
    · rw [hgf, bump_self, hself, h.refs f (hgf ▸ hg)]
      omega
    · rw [bump_of_ne _ _ hgf, hothers g hgf]
      exact h.refs g hg
  · rw [hp.1]
    exact h.slots
  · rw [hp.1, hp.2]
    exact h.gone

/-- A file's count changes, and perhaps its kind, but it is the end of a pipe as
before. -/
theorem Inv.setFile (h : Inv own s) {f : Nat} {x : File} (hf : f < NFILE)
    (hfree : x.ref = 0 → x.kind = .none)
    (hends : ∀ pg w, (s.setFile f x).IsEnd f pg w ↔ s.IsEnd f pg w) {δ : Int}
    (href : (x.ref : Int) = (s.file f).ref + δ) : Inv (bump own f δ) (s.setFile f x) := by
  have hprocs : SameProcs s (s.setFile f x) := ⟨rfl, rfl⟩
  refine h.of_files hprocs (h.toPipes.setFile hf hfree hends) ?_ ?_
  · rw [setFile_self]
    exact href
  · intro g hg
    rw [setFile_of_ne s x hg]

/-- With the same kind, page and direction it is the same end. -/
theorem isEnd_setRef (s : State) (f n pg : Nat) (w : Bool) :
    (s.setFile f { s.file f with ref := n }).IsEnd f pg w ↔ s.IsEnd f pg w :=
  isEnd_congr (by rw [setFile_self]) (by rw [setFile_self]) (by rw [setFile_self])

theorem firstWith_some {P : Nat → Bool} {n i r : Nat} (h : firstWith P n i = some r) :
    r < i + n ∧ P r = true := by
  induction n generalizing i with
  | zero => cases h
  | succ n ih =>
      rw [firstWith] at h
      split at h
      · rename_i hi
        cases h
        exact ⟨by omega, hi⟩
      · obtain ⟨hlt, hr⟩ := ih h
        exact ⟨by omega, hr⟩

theorem filealloc_spec (h : Inv own s) :
    wp filealloc (fun r t => match r with
      | none => t = s
      | some f => f < NFILE ∧ Inv (bump own f 1) t ∧ SameProcs s t ∧ (s.file f).ref = 0 ∧
          (t.file f).ref = 1 ∧ (t.file f).kind = .none ∧ (∀ g, g ≠ f → t.file g = s.file g) ∧
          t.used = s.used) (fun _ _ => False) s := by
  rw [filealloc, wp_bind, wp_get]
  cases hfirst : firstWith (fun f => decide ((s.file f).ref = 0)) NFILE 0 with
  | none => exact (wp_pure _).2 rfl
  | some f =>
      obtain ⟨hlt, hzero⟩ := firstWith_some hfirst
      rw [Nat.zero_add] at hlt
      rw [decide_eq_true_eq] at hzero
      have hkind := h.free f hzero
      rw [wp_bind, wp_modify, wp_pure]
      refine ⟨hlt, h.setFile hlt (fun h0 => by cases h0) (isEnd_setRef s f 1) (by rw [hzero]; rfl),
        ⟨rfl, rfl⟩, hzero, ?_, ?_, fun g hg => setFile_of_ne s _ hg, rfl⟩
      · rw [setFile_self]
      · rw [setFile_self]
        exact hkind

theorem filedup_spec (h : Inv own s) {f : Nat} (hf : f < NFILE) (href : 1 ≤ (s.file f).ref) :
    wp (filedup f) (fun _ t => Inv (bump own f 1) t ∧ SameProcs s t) (fun _ _ => False) s := by
  rw [filedup, wp_bind, wp_get, wp_ite]
  refine ⟨fun hlt => absurd href (by omega), fun _ => (wp_modify _).2 ⟨?_, rfl, rfl⟩⟩
  refine h.setFile hf (fun h0 => ?_) (isEnd_setRef s f _) ?_
  · cases h0
  · push_cast
    rfl

/-- `pipeclose`, once `fileclose` has freed the file. -/
theorem pipeclose_spec (h : Inv own s) {f pg : Nat} {w : Bool} (hend : s.IsEnd f pg w) :
    wp (pipeclose pg w) (fun _ t => Closed f pg w s t ∧ SameProcs s t ∧ (t.file f).ref = 0)
      (fun _ _ => False) (s.setFile f { s.file f with ref := 0, kind := .none }) := by
  obtain ⟨hused, hopen⟩ := h.ends f pg w hend
  have hstray : (s.stray || !s.used pg) = false := by rw [h.stray, hused]; rfl
  have hshut := endOpen_close (s.pipe pg) w
  obtain ⟨x, hx⟩ : ∃ x : Pipe, x = if w then { s.pipe pg with writeopen := false }
    else { s.pipe pg with readopen := false } := ⟨_, rfl⟩
  have hboth : x.readopen = false ∧ x.writeopen = false ↔ (s.pipe pg).endOpen (!w) = false := by
    cases w <;> simp [hx, Pipe.endOpen]
  rw [← hx] at hshut
  rw [pipeclose, wp_bind, closeEnd, wp_modify, wp_bind, wp_get, wp_ite]
  simp only [State.setPipe, State.setFile, ← hx, Function.update_self, kfree, wp_modify, wp_pure,
    hboth]
  constructor
  · intro hgone
    refine ⟨⟨?_, ?_, ?_, ?_, ?_, ?_, rfl, ?_, ?_⟩, ⟨rfl, rfl⟩, ?_⟩
    · simp
    · exact fun g hg => Function.update_of_ne hg _ _
    · exact fun pg' hpg => Function.update_of_ne hpg _ _
    · exact fun pg' hpg => Function.update_of_ne hpg _ _
    · simpa using hshut
    · simp [hgone]
    · intro pg'
      by_cases hpg : pg' = pg
      · simp [hpg, hused]
      · simp [hpg]
    · simp [h.stray, hused]
    · simp
  · intro hother
    refine ⟨⟨?_, ?_, fun _ _ => rfl, ?_, ?_, ?_, rfl, ?_, hstray⟩, ⟨rfl, rfl⟩, ?_⟩
    · simp
    · exact fun g hg => Function.update_of_ne hg _ _
    · exact fun pg' hpg => Function.update_of_ne hpg _ _
    · simpa using hshut
    · rw [hused]
      simpa using (Bool.eq_true_of_not_eq_false hother).symm
    · simp
    · simp

/-- `fileclose` gives one reference back. -/
theorem fileclose_spec (h : Inv own s) {f : Nat} (hf : f < NFILE) (href : 1 ≤ (s.file f).ref) :
    wp (fileclose f) (fun _ t => Inv (bump own f (-1)) t ∧ SameProcs s t ∧
      ∀ g, g ≠ f → t.file g = s.file g) (fun _ _ => False) s := by
  rw [fileclose, wp_bind, wp_get, wp_ite]
  refine ⟨fun hlt => absurd href (by omega), fun _ => ?_⟩
  rw [wp_ite]
  constructor
  · -- other references remain
    intro hmany
    refine (wp_modify _).2 ⟨h.setFile hf (fun h0 => ?_) (isEnd_setRef s f _) ?_, ⟨rfl, rfl⟩,
      fun g hg => setFile_of_ne s _ hg⟩
    · have h0' : (s.file f).ref - 1 = 0 := h0
      omega
    · show (((s.file f).ref - 1 : Nat) : Int) = _
      omega
  · intro hlast
    have hone : (s.file f).ref = 1 := by omega
    rw [wp_bind, wp_modify, wp_ite]
    constructor
    · intro hpipe
      obtain ⟨pg, hpg⟩ : ∃ pg, pg = (s.file f).pipe := ⟨_, rfl⟩
      obtain ⟨w, hw⟩ : ∃ w, w = (s.file f).writable := ⟨_, rfl⟩
      have hend : s.IsEnd f pg w := ⟨hpipe, hpg.symm, hw.symm⟩
      rw [← hpg, ← hw]
      refine wp_imp (pipeclose_spec h hend) ?_
      rintro _ t ⟨hc, hprocs, hzero⟩
      refine ⟨h.of_files hprocs (h.toPipes.closed hend hc) ?_ ?_, hprocs, hc.others⟩
      · rw [hzero, hone]
        rfl
      · intro g hg
        rw [hc.others g hg]
    · intro hpipe
      refine (wp_pure _).2 ⟨h.setFile hf (fun _ => rfl) ?_ (by rw [hone]; rfl), ⟨rfl, rfl⟩,
        fun g hg => setFile_of_ne s _ hg⟩
      intro pg w
      constructor
      · intro hend
        have := hend.kind
        rw [setFile_self] at this
        cases this
      · exact fun hend => absurd hend.kind hpipe

/-! ### Descriptors -/

theorem setFd_self (s : State) (p fd : Nat) (o : Option Nat) : (s.setFd p fd o).ofile p fd = o := by
  simp [State.setFd]

theorem setFd_of_ne (s : State) {p fd q i : Nat} (o : Option Nat) (h : ¬(q = p ∧ i = fd)) :
    (s.setFd p fd o).ofile q i = s.ofile q i := by
  show Function.update s.ofile p (Function.update (s.ofile p) fd o) q i = s.ofile q i
  by_cases hq : q = p
  · subst hq
    rw [Function.update_self, Function.update_of_ne (fun hi => h ⟨rfl, hi⟩)]
  · rw [Function.update_of_ne hq]

/-- A reference moves from the code to an empty slot. -/
theorem Inv.point (h : Inv own s) {p fd f : Nat} (hp : p < NPROC) (hfd : fd < NOFILE)
    (hf : f < NFILE) (hempty : s.ofile p fd = none)
    (hproc : ¬(s.proc p = .unused ∨ s.proc p = .zombie)) :
    Inv (bump own f (-1)) (s.setFd p fd (some f)) := by
  refine ⟨h.toPipes.congr rfl rfl rfl rfl rfl rfl, ?_, ?_, ?_⟩
  · intro g hg
    have hcount := count_setFd s (some f) hp hfd g
    rw [hempty, pointsTo_none, Nat.add_zero, pointsTo_some] at hcount
    have href := h.refs g hg
    show ((s.file g).ref : Int) = _
    by_cases hgf : g = f
    · subst hgf
      rw [if_pos rfl] at hcount
      rw [bump_self]
      omega
    · rw [if_neg (fun heq => hgf heq.symm)] at hcount
      rw [bump_of_ne _ _ hgf]
      omega
  · intro q i g hq
    by_cases heq : q = p ∧ i = fd
    · obtain ⟨rfl, rfl⟩ := heq
      rw [setFd_self] at hq
      cases hq
      exact ⟨hf, hp, hfd⟩
    · rw [setFd_of_ne s _ heq] at hq
      exact h.slots q i g hq
  · intro q hq i
    rw [setFd_of_ne s]
    · exact h.gone q hq i
    · rintro ⟨rfl, -⟩
      exact hproc hq

/-- A reference moves from a slot to the code. -/
theorem Inv.clear (h : Inv own s) {p fd f : Nat} (hslot : s.ofile p fd = some f) :
    Inv (bump own f 1) (s.setFd p fd none) := by
  obtain ⟨hf, hp, hfd⟩ := h.slots p fd f hslot
  refine ⟨h.toPipes.congr rfl rfl rfl rfl rfl rfl, ?_, ?_, ?_⟩
  · intro g hg
    have hcount := count_setFd s none hp hfd g
    rw [hslot, pointsTo_none, Nat.add_zero, pointsTo_some] at hcount
    have href := h.refs g hg
    show ((s.file g).ref : Int) = _
    by_cases hgf : g = f
    · subst hgf
      rw [if_pos rfl] at hcount
      rw [bump_self]
      omega
    · rw [if_neg (fun heq => hgf heq.symm)] at hcount
      rw [bump_of_ne _ _ hgf]
      omega
  · intro q i g hq
    by_cases heq : q = p ∧ i = fd
    · obtain ⟨rfl, rfl⟩ := heq
      rw [setFd_self] at hq
      cases hq
    · rw [setFd_of_ne s _ heq] at hq
      exact h.slots q i g hq
  · intro q hq i
    by_cases heq : q = p ∧ i = fd
    · rw [heq.1, heq.2, setFd_self]
    · rw [setFd_of_ne s _ heq]
      exact h.gone q hq i

theorem fdalloc_spec (h : Inv own s) {p f : Nat} (hp : p < NPROC) (hf : f < NFILE)
    (hlive : s.proc p = .live) :
    wp (fdalloc p f) (fun r t => match r with
      | none => t = s
      | some fd => Inv (bump own f (-1)) t ∧ t.ofile p fd = some f ∧ t.proc = s.proc ∧
          t.file = s.file) (fun _ _ => False) s := by
  rw [fdalloc, wp_bind, wp_get]
  cases hfirst : firstWith (fun fd => (s.ofile p fd).isNone) NOFILE 0 with
  | none => exact (wp_pure _).2 rfl
  | some fd =>
      obtain ⟨hlt, hnone⟩ := firstWith_some hfirst
      rw [Nat.zero_add] at hlt
      rw [Option.isNone_iff_eq_none] at hnone
      rw [wp_bind, wp_modify, wp_pure]
      have hproc : ¬(s.proc p = .unused ∨ s.proc p = .zombie) := by rw [hlive]; simp
      exact ⟨h.point hp hlt hf hnone hproc, setFd_self s p fd _, rfl, rfl⟩

/-- A file that a slot or the code refers to has a positive count. -/
theorem Inv.ref_pos (h : Inv own s) {f : Nat}
    (hf : f < NFILE) (hown : 1 ≤ (s.count f : Int) + own f) :
    1 ≤ (s.file f).ref := by
  have := h.refs f hf
  omega

/-! ### Pipes -/

/-- Give back two references in hand. -/
theorem closeTwo_spec (h : Inv (bump (bump own f₀ 1) f₁ 1) s) (h₀ : f₀ < NFILE) (h₁ : f₁ < NFILE)
    (hown : ∀ f, 0 ≤ own f) {r : α} :
    wp (do fileclose f₀; fileclose f₁; return r : M α) (fun r' t => r' = r ∧ Inv own t ∧
      SameProcs s t) (fun _ _ => False) s := by
  have hown₁ := hown f₁
  have hown₀ := hown f₀
  rw [bump_comm] at h
  rw [wp_bind]
  have hpos₀ : 1 ≤ (s.file f₀).ref := by
    apply h.ref_pos h₀
    rw [bump_self]
    have : 0 ≤ bump own f₁ 1 f₀ := by
      by_cases hf : f₀ = f₁
      · rw [hf, bump_self]
        omega
      · rw [bump_of_ne _ _ hf]
        exact hown₀
    omega
  refine wp_imp (fileclose_spec h h₀ hpos₀) ?_
  rintro _ t ⟨ht, hprocs, -⟩
  rw [bump_back] at ht
  rw [wp_bind]
  have hpos₁ : 1 ≤ (t.file f₁).ref := by
    apply ht.ref_pos h₁
    rw [bump_self]
    omega
  refine wp_imp (fileclose_spec ht h₁ hpos₁) ?_
  rintro _ t' ⟨ht', hprocs', -⟩
  rw [bump_back] at ht'
  exact (wp_pure _).2 ⟨rfl, ht', hprocs'.1.trans hprocs.1, hprocs'.2.trans hprocs.2⟩

/-- The state after `pipealloc` has made `f₀` and `f₁` the ends of a pipe in `pg`. -/
def State.joined (s : State) (f₀ f₁ pg : Nat) : State :=
  { (s.setFile f₀ { s.file f₀ with
        kind := .pipe, readable := true, writable := false, pipe := pg }).setFile f₁
      { s.file f₁ with kind := .pipe, readable := false, writable := true, pipe := pg } with
    pipe := Function.update s.pipe pg ⟨true, true⟩
    used := Function.update s.used pg true
    kallocs := Function.update s.kallocs pg (s.kallocs pg + 1) }

theorem run_joinEnds (s : State) {f₀ f₁ : Nat} (pg : Nat) (hne : f₀ ≠ f₁) :
    (joinEnds f₀ f₁ pg).run s = .ok () (s.joined f₀ f₁ pg) := by
  simp [joinEnds, initPipe, initEnd, State.joined, State.setFile, State.setPipe,
    Function.update_of_ne hne.symm]

theorem joined_file (s : State) (pg : Nat) {f₀ f₁ g : Nat} (h₀ : g ≠ f₀) (h₁ : g ≠ f₁) :
    (s.joined f₀ f₁ pg).file g = s.file g := by
  show (State.setFile _ f₁ _).file g = _
  rw [setFile_of_ne _ _ h₁, setFile_of_ne _ _ h₀]

theorem joined_read (s : State) {f₀ f₁ : Nat} (pg : Nat) (hne : f₀ ≠ f₁) :
    (s.joined f₀ f₁ pg).IsEnd f₀ pg false := by
  have hf : (s.joined f₀ f₁ pg).file f₀ = { s.file f₀ with
      kind := .pipe, readable := true, writable := false, pipe := pg } := by
    show (State.setFile _ f₁ _).file f₀ = _
    rw [setFile_of_ne _ _ hne, setFile_self]
  exact ⟨by rw [hf], by rw [hf], by rw [hf]⟩

theorem joined_write (s : State) (f₀ f₁ pg : Nat) : (s.joined f₀ f₁ pg).IsEnd f₁ pg true := by
  have hf : (s.joined f₀ f₁ pg).file f₁ = { s.file f₁ with
      kind := .pipe, readable := false, writable := true, pipe := pg } := by
    show (State.setFile _ f₁ _).file f₁ = _
    rw [setFile_self]
  exact ⟨by rw [hf], by rw [hf], by rw [hf]⟩

/-- The ends after a pipe has been made. -/
theorem joined_isEnd (hne : f₀ ≠ f₁) {pg g pg' : Nat} {w : Bool}
    (hend : (s.joined f₀ f₁ pg).IsEnd g pg' w) :
    (pg' = pg ∧ g = if w then f₁ else f₀) ∨ (g ≠ f₀ ∧ g ≠ f₁ ∧ s.IsEnd g pg' w) := by
  by_cases h₀ : g = f₀
  · subst h₀
    have hread := joined_read s pg hne
    obtain rfl : w = false := hend.writable.symm.trans hread.writable
    exact .inl ⟨hend.page.symm.trans hread.page, rfl⟩
  · by_cases h₁ : g = f₁
    · subst h₁
      have hwrite := joined_write s f₀ g pg
      obtain rfl : w = true := hend.writable.symm.trans hwrite.writable
      exact .inl ⟨hend.page.symm.trans hwrite.page, rfl⟩
    · have hf := joined_file s pg h₀ h₁
      exact .inr ⟨h₀, h₁, (isEnd_congr (by rw [hf]) (by rw [hf]) (by rw [hf])).1 hend⟩

theorem joined_ref (s : State) {f₀ f₁ : Nat} (pg : Nat) (hne : f₀ ≠ f₁) (g : Nat) :
    ((s.joined f₀ f₁ pg).file g).ref = (s.file g).ref := by
  by_cases hg₁ : g = f₁
  · subst hg₁
    show ((State.setFile _ g _).file g).ref = _
    rw [setFile_self]
  · by_cases hg₀ : g = f₀
    · subst hg₀
      show ((State.setFile _ f₁ _).file g).ref = _
      rw [setFile_of_ne _ _ hne, setFile_self]
    · rw [joined_file s _ hg₀ hg₁]

theorem Pipes.joined (h : Pipes s) {pg : Nat} (hne : f₀ ≠ f₁) (h₀ : f₀ < NFILE) (h₁ : f₁ < NFILE)
    (href₀ : (s.file f₀).ref ≠ 0) (href₁ : (s.file f₁).ref ≠ 0)
    (hkind₀ : (s.file f₀).kind = .none) (hkind₁ : (s.file f₁).kind = .none)
    (hpg : s.used pg = false) : Pipes (s.joined f₀ f₁ pg) := by
  have hother : ∀ g w, ¬s.IsEnd g pg w := by
    intro g w hend
    rw [(h.ends g pg w hend).1] at hpg
    cases hpg
  have hused : ∀ pg', pg' ≠ pg → (s.joined f₀ f₁ pg).used pg' = s.used pg' :=
    fun pg' hne => Function.update_of_ne hne _ _
  have hpipe : ∀ pg', pg' ≠ pg → (s.joined f₀ f₁ pg).pipe pg' = s.pipe pg' :=
    fun pg' hne => Function.update_of_ne hne _ _
  have hself : (s.joined f₀ f₁ pg).used pg = true := Function.update_self _ _ _
  have hopen : ∀ w, ((s.joined f₀ f₁ pg).pipe pg).endOpen w = true := by
    intro w
    rw [show (s.joined f₀ f₁ pg).pipe pg = ⟨true, true⟩ from Function.update_self _ _ _]
    cases w <;> rfl
  have href := joined_ref s pg hne
  refine ⟨?_, ?_, ?_, ?_, ?_, ?_, ?_, h.stray⟩
  · intro g hg
    by_cases hg₀ : g = f₀
    · rw [hg₀]
      exact h₀
    · by_cases hg₁ : g = f₁
      · rw [hg₁]
        exact h₁
      · rw [joined_file s _ hg₀ hg₁] at hg
        exact h.inTable g hg
  · intro g hg
    rw [href] at hg
    have hg₀ : g ≠ f₀ := fun heq => href₀ (heq ▸ hg)
    have hg₁ : g ≠ f₁ := fun heq => href₁ (heq ▸ hg)
    rw [joined_file s _ hg₀ hg₁]
    exact h.free g hg
  · intro g pg' w hend
    rcases joined_isEnd hne hend with ⟨rfl, -⟩ | ⟨-, -, hend⟩
    · exact ⟨hself, hopen w⟩
    · have hpg' : pg' ≠ pg := fun heq => hother g w (heq ▸ hend)
      rw [hused pg' hpg', hpipe pg' hpg']
      exact h.ends g pg' w hend
  · intro g g' pg' w hend hend'
    rcases joined_isEnd hne hend with ⟨rfl, hg⟩ | ⟨-, -, hg⟩
    · rcases joined_isEnd hne hend' with ⟨-, hg'⟩ | ⟨-, -, hg'⟩
      · rw [hg, hg']
      · exact absurd hg' (hother g' w)
    · rcases joined_isEnd hne hend' with ⟨rfl, -⟩ | ⟨-, -, hg'⟩
      · exact absurd hg (hother g w)
      · exact h.uniq g g' pg' w hg hg'
  · intro pg' w hu ho
    by_cases heq : pg' = pg
    · subst heq
      cases w with
      | false => exact ⟨f₀, joined_read s pg' hne⟩
      | true => exact ⟨f₁, joined_write s f₀ f₁ pg'⟩
    · rw [hused pg' heq] at hu
      rw [hpipe pg' heq] at ho
      obtain ⟨g, hg⟩ := h.opened pg' w hu ho
      have hg₀ : g ≠ f₀ := by
        rintro rfl
        exact absurd (hg.kind.symm.trans hkind₀) (by decide)
      have hg₁ : g ≠ f₁ := by
        rintro rfl
        exact absurd (hg.kind.symm.trans hkind₁) (by decide)
      have hf := joined_file s pg hg₀ hg₁
      exact ⟨g, (isEnd_congr (by rw [hf]) (by rw [hf]) (by rw [hf])).2 hg⟩
  · intro pg' hu
    by_cases heq : pg' = pg
    · rw [heq]
      exact ⟨true, hopen true⟩
    · rw [hused pg' heq] at hu
      rw [hpipe pg' heq]
      exact h.some pg' hu
  · intro pg'
    have hpages := h.pages pg'
    by_cases heq : pg' = pg
    · subst heq
      rw [hself, show (s.joined f₀ f₁ pg').kallocs pg' = s.kallocs pg' + 1 from
        Function.update_self _ _ _, hpages, hpg]
      rfl
    · rw [hused pg' heq, show (s.joined f₀ f₁ pg).kallocs pg' = s.kallocs pg' from
        Function.update_of_ne heq _ _]
      exact hpages

theorem pipealloc_spec (h : Inv own s) (hown : ∀ f, 0 ≤ own f) {page : Option Nat}
    (hpage : ∀ pg, page = some pg → s.used pg = false) :
    wp (pipealloc page) (fun r t => SameProcs s t ∧ match r with
      | none => Inv own t
      | some (f₀, f₁) => f₀ < NFILE ∧ f₁ < NFILE ∧ Inv (bump (bump own f₀ 1) f₁ 1) t)
      (fun _ _ => False) s := by
  rw [pipealloc, wp_bind]
  refine wp_imp (filealloc_spec h) ?_
  rintro (_ | f₀) t ht
  · rw [ht]
    exact (wp_pure _).2 ⟨⟨rfl, rfl⟩, h⟩
  · obtain ⟨h₀, hinv, hprocs, -, href₀, hkind₀, -, hused⟩ := ht
    have hpos₀ : ∀ f, 0 ≤ bump own f₀ 1 f := by
      intro f
      have := hown f
      by_cases hf : f = f₀
      · subst hf
        rw [bump_self]
        omega
      · rw [bump_of_ne _ _ hf]
        exact this
    rw [wp_bind]
    refine wp_imp (filealloc_spec hinv) ?_
    rintro (_ | f₁) t' ht'
    · rw [ht', wp_bind]
      refine wp_imp (fileclose_spec hinv h₀ (by omega)) ?_
      rintro _ u ⟨hu, hprocs', -⟩
      rw [bump_back] at hu
      exact (wp_pure _).2 ⟨⟨hprocs'.1.trans hprocs.1, hprocs'.2.trans hprocs.2⟩, hu⟩
    · obtain ⟨h₁, hinv', hprocs', hzero₁, href₁, hkind₁, hothers, hused'⟩ := ht'
      have hboth : SameProcs s t' := ⟨hprocs'.1.trans hprocs.1, hprocs'.2.trans hprocs.2⟩
      have hne : f₀ ≠ f₁ := by
        rintro rfl
        rw [hzero₁] at href₀
        cases href₀
      cases page with
      | none =>
          refine wp_imp (closeTwo_spec hinv' h₀ h₁ hown) ?_
          rintro r u ⟨rfl, hu, hprocs''⟩
          exact ⟨⟨hprocs''.1.trans hboth.1, hprocs''.2.trans hboth.2⟩, hu⟩
      | some pg =>
          have hfree : t'.used pg = false := by
            rw [hused', hused]
            exact hpage pg rfl
          have hjoin := hinv'.toPipes.joined hne h₀ h₁ (by rw [hothers f₀ hne, href₀]; decide)
            (by rw [href₁]; decide) (by rw [hothers f₀ hne]; exact hkind₀) hkind₁ hfree
          rw [wp_bind]
          refine wp_of_ok (run_joinEnds t' pg hne)
            ((wp_pure _).2 ⟨hboth, h₀, h₁, hjoin, ?_, ?_, ?_⟩)
          · intro g hg
            rw [joined_ref t' pg hne]
            exact hinv'.refs g hg
          · exact hinv'.slots
          · exact hinv'.gone

end Specs

/-! ## System calls -/

section Calls

variable {s : State} {p : Nat}

/-- Nothing is in the hands of running code. -/
abbrev atRest : Nat → Int := fun _ => 0

theorem Inv.setProc (h : Inv atRest s) {q : Nat} {x : ProcState}
    (hx : x = .unused ∨ x = .zombie → ∀ fd, s.ofile q fd = none) : Inv atRest (s.setProc q x) := by
  refine ⟨h.toPipes.congr rfl rfl rfl rfl rfl rfl, h.refs, h.slots, ?_⟩
  intro r hr fd
  by_cases hrq : r = q
  · subst hrq
    rw [show (s.setProc r x).proc r = x from Function.update_self _ _ _] at hr
    exact hx hr fd
  · rw [show (s.setProc q x).proc r = s.proc r from Function.update_of_ne hrq _ _] at hr
    exact h.gone r hr fd

theorem sysOpen_keeps (h : Inv atRest s) (hp : p < NPROC) (hlive : s.proc p = .live)
    (r w : Bool) : wp (sysOpen p r w) (fun _ t => Inv atRest t) (fun _ _ => False) s := by
  rw [sysOpen, wp_bind]
  refine wp_imp (filealloc_spec h) ?_
  rintro (_ | f) t ht
  · rw [ht]
    exact (wp_pure _).2 h
  · obtain ⟨hf, hinv, hprocs, -, href, hkind, -, -⟩ := ht
    rw [wp_bind]
    refine wp_imp (fdalloc_spec hinv hp hf (by rw [hprocs.2]; exact hlive)) ?_
    rintro (_ | fd) t' ht'
    · rw [ht', wp_bind]
      refine wp_imp (fileclose_spec hinv hf (by omega)) ?_
      rintro _ u ⟨hu, -⟩
      rw [bump_back] at hu
      exact (wp_pure _).2 hu
    · obtain ⟨hinv', -, -, hfile⟩ := ht'
      rw [bump_back] at hinv'
      rw [wp_bind, wp_modify, wp_pure]
      have hset := hinv'.setFile (f := f) (δ := 0)
        (x := { t'.file f with kind := .inode, readable := r, writable := w }) hf
        (fun h0 => ?_) (fun pg w' => ⟨fun hend => ?_, fun hend => ?_⟩) (by simp)
      · rwa [show bump atRest f 0 = atRest from funext fun g => by
          by_cases hg : g = f
          · rw [hg, bump_self]
            rfl
          · rw [bump_of_ne _ _ hg]] at hset
      · have h0' : (t'.file f).ref = 0 := h0
        rw [hfile, href] at h0'
        cases h0'
      · have := hend.kind
        rw [setFile_self] at this
        cases this
      · have := hend.kind
        rw [hfile, hkind] at this
        cases this

theorem argfd_spec (s : State) (p fd : Nat) :
    wp (argfd p fd) (fun r t => t = s ∧ ∀ f, r = some f → s.ofile p fd = some f)
      (fun _ _ => False) s := by
  rw [argfd, wp_bind, wp_get, wp_pure]
  refine ⟨rfl, fun f hf => ?_⟩
  split at hf
  · exact hf
  · cases hf

theorem Inv.ref_of_slot (h : Inv atRest s) {fd f : Nat} (hslot : s.ofile p fd = some f) :
    f < NFILE ∧ 1 ≤ (s.file f).ref := by
  obtain ⟨hf, hp, hfd⟩ := h.slots p fd f hslot
  have hpos := count_pos hp hfd hslot
  refine ⟨hf, h.ref_pos hf ?_⟩
  show (1 : Int) ≤ s.count f + 0
  omega

theorem sysDup_keeps (h : Inv atRest s) (hp : p < NPROC) (hlive : s.proc p = .live) (fd : Nat) :
    wp (sysDup p fd) (fun _ t => Inv atRest t) (fun _ _ => False) s := by
  rw [sysDup, wp_bind]
  refine wp_imp (argfd_spec s p fd) ?_
  rintro (_ | f) t ⟨rfl, hslot⟩
  · exact (wp_pure _).2 h
  · obtain ⟨hf, hpos⟩ := h.ref_of_slot (hslot f rfl)
    rw [wp_bind]
    refine wp_imp (fdalloc_spec h hp hf hlive) ?_
    rintro (_ | fd') t' ht'
    · rw [ht']
      exact (wp_pure _).2 h
    · obtain ⟨hinv, -, -, hfile⟩ := ht'
      rw [wp_bind]
      refine wp_imp (filedup_spec hinv hf (by rw [hfile]; exact hpos)) ?_
      rintro _ u ⟨hu, -⟩
      rw [bump_comm, bump_back] at hu
      exact (wp_pure _).2 hu

theorem sysClose_keeps (h : Inv atRest s) (fd : Nat) :
    wp (sysClose p fd) (fun _ t => Inv atRest t) (fun _ _ => False) s := by
  rw [sysClose, wp_bind]
  refine wp_imp (argfd_spec s p fd) ?_
  rintro (_ | f) t ⟨rfl, hslot⟩
  · exact (wp_pure _).2 h
  · have hf := (h.ref_of_slot (hslot f rfl)).1
    have hclear := h.clear (hslot f rfl)
    rw [wp_bind, wp_modify, wp_bind]
    refine wp_imp (fileclose_spec hclear hf (hclear.ref_pos hf ?_)) ?_
    · rw [bump_self]
      show (1 : Int) ≤ _ + (0 + 1)
      omega
    · rintro _ u ⟨hu, -⟩
      rw [bump_back] at hu
      exact (wp_pure _).2 hu

theorem sysPipe_keeps (h : Inv atRest s) (hp : p < NPROC) (hlive : s.proc p = .live)
    {page : Option Nat} (hpage : ∀ pg, page = some pg → s.used pg = false) :
    wp (sysPipe p page) (fun _ t => Inv atRest t) (fun _ _ => False) s := by
  have hzero : ∀ f, (0 : Int) ≤ atRest f := fun _ => Int.le_refl _
  rw [sysPipe, wp_bind]
  refine wp_imp (pipealloc_spec h hzero hpage) ?_
  rintro (_ | ⟨rf, wf⟩) t ⟨hprocs, ht⟩
  · exact (wp_pure _).2 ht
  · obtain ⟨hr, hw, hinv⟩ := ht
    have hlive' : t.proc p = .live := by rw [hprocs.2]; exact hlive
    rw [wp_bind]
    refine wp_imp (fdalloc_spec hinv hp hr hlive') ?_
    rintro (_ | fd0) t' ht'
    · rw [ht']
      refine wp_imp (closeTwo_spec hinv hr hw hzero) ?_
      rintro r u ⟨-, hu, -⟩
      exact hu
    · obtain ⟨hinv', hslot, hproc, -⟩ := ht'
      rw [bump_comm atRest, bump_back] at hinv'
      rw [wp_bind]
      refine wp_imp (fdalloc_spec hinv' hp hw (by rw [hproc]; exact hlive')) ?_
      rintro (_ | fd1) t'' ht''
      · rw [ht'', wp_bind, wp_modify]
        have hback := hinv'.clear hslot
        rw [bump_comm] at hback
        refine wp_imp (closeTwo_spec hback hr hw hzero) ?_
        rintro r u ⟨-, hu, -⟩
        exact hu
      · obtain ⟨hinv'', -⟩ := ht''
        rw [bump_back] at hinv''
        exact (wp_pure _).2 hinv''

/-- The descriptors below `fd` are closed. -/
theorem closeFiles_spec (h : Inv atRest s) :
    wp (closeFiles p) (fun _ t => Inv atRest t ∧ ∀ fd, t.ofile p fd = none)
      (fun _ _ => False) s := by
  have hloop : wp (closeFiles p) (fun _ t => Inv atRest t ∧ ∀ i, i < NOFILE → t.ofile p i = none)
      (fun _ _ => False) s := by
    refine wp_loopTo (I := fun n t => Inv atRest t ∧ ∀ i, i < n → t.ofile p i = none) NOFILE
      ⟨h, fun i hi => absurd hi (Nat.not_lt_zero _)⟩ ?_
    rintro fd t hfd ⟨hinv, hclosed⟩
    rw [wp_bind, wp_get]
    cases hslot : t.ofile p fd with
    | none =>
        refine (wp_pure _).2 ⟨hinv, fun i hi => ?_⟩
        rcases Nat.lt_succ_iff_lt_or_eq.1 hi with hlt | rfl
        · exact hclosed i hlt
        · exact hslot
    | some f =>
        obtain ⟨hf, hpos⟩ := hinv.ref_of_slot hslot
        rw [wp_bind]
        refine wp_imp (fileclose_spec hinv hf hpos) ?_
        rintro _ u ⟨hu, hprocs, -⟩
        have hslot' : u.ofile p fd = some f := by
          rw [hprocs.1]
          exact hslot
        have hclear := hu.clear hslot'
        rw [bump_comm, bump_back] at hclear
        refine (wp_modify _).2 ⟨hclear, fun i hi => ?_⟩
        rcases Nat.lt_succ_iff_lt_or_eq.1 hi with hlt | rfl
        · rw [setFd_of_ne u _ (fun heq => by omega), hprocs.1]
          exact hclosed i hlt
        · exact setFd_self u p i none
  refine wp_imp hloop ?_
  rintro _ t ⟨hinv, hclosed⟩
  refine ⟨hinv, fun fd => ?_⟩
  cases hslot : t.ofile p fd with
  | none => rfl
  | some f =>
      rw [hclosed fd (hinv.slots p fd f hslot).2.2] at hslot
      cases hslot

theorem exit_keeps (h : Inv atRest s) :
    wp (exit p) (fun _ t => Inv atRest t) (fun e _ => e = .initExiting) s := by
  rw [exit, wp_ite]
  refine ⟨fun _ => (wp_stop _).2 rfl, fun _ => ?_⟩
  rw [wp_bind]
  refine wp_mono (closeFiles_spec h) ?_ fun _ _ hfalse => hfalse.elim
  rintro _ t ⟨hinv, hclosed⟩
  exact (wp_modify _).2 (hinv.setProc fun _ => hclosed)

/-- The child has the descriptors of the parent below `i`, and none from `i` on. -/
theorem shareFiles_keeps {np : Nat} (h : Inv atRest s) (hnp : np < NPROC)
    (hproc : s.proc np = .embryo) (hempty : ∀ fd, s.ofile np fd = none) :
    wp (shareFiles p np) (fun _ t => Inv atRest t) (fun _ _ => False) s := by
  have hloop : wp (shareFiles p np) (fun _ t => Inv atRest t ∧ t.proc = s.proc ∧
      ∀ i, NOFILE ≤ i → t.ofile np i = none) (fun _ _ => False) s := by
    refine wp_loopTo (I := fun n t => Inv atRest t ∧ t.proc = s.proc ∧
      ∀ i, n ≤ i → t.ofile np i = none) NOFILE ⟨h, rfl, fun i _ => hempty i⟩ ?_
    rintro i t hi ⟨hinv, hsame, hrest⟩
    rw [wp_bind, wp_get]
    cases hslot : t.ofile p i with
    | none => exact (wp_pure _).2 ⟨hinv, hsame, fun j hj => hrest j (by omega)⟩
    | some f =>
        obtain ⟨hf, hpos⟩ := hinv.ref_of_slot hslot
        rw [wp_bind]
        refine wp_imp (filedup_spec hinv hf hpos) ?_
        rintro _ u ⟨hu, hprocs⟩
        have hpoint := hu.point hnp hi hf (by rw [hprocs.1]; exact hrest i (Nat.le_refl _))
          (by rw [hprocs.2, hsame, hproc]; simp)
        rw [bump_back] at hpoint
        refine (wp_modify _).2 ⟨hpoint, hprocs.2.trans hsame, fun j hj => ?_⟩
        rw [setFd_of_ne u _ (fun heq => by omega), hprocs.1]
        exact hrest j (by omega)
  exact wp_imp hloop fun _ _ ht => ht.1

theorem fork_keeps (h : Inv atRest s) (kstack vm : Bool) :
    wp (fork p kstack vm) (fun _ t => Inv atRest t) (fun _ _ => False) s := by
  rw [fork, wp_bind, wp_get]
  cases hfirst : firstWith (fun q => decide (s.proc q = .unused)) NPROC 0 with
  | none => exact (wp_pure _).2 h
  | some np =>
      obtain ⟨hlt, hunused⟩ := firstWith_some hfirst
      rw [Nat.zero_add] at hlt
      rw [decide_eq_true_eq] at hunused
      have hempty := h.gone np (.inl hunused)
      have hembryo : Inv atRest (s.setProc np .embryo) := h.setProc fun _ => hempty
      have hundo : Inv atRest ((s.setProc np .embryo).setProc np .unused) :=
        hembryo.setProc fun _ => hempty
      rw [wp_bind, wp_modify, wp_ite]
      refine ⟨fun _ => ?_, fun _ => ?_⟩
      · rw [wp_bind, wp_modify]
        exact (wp_pure _).2 hundo
      · rw [wp_ite]
        refine ⟨fun _ => ?_, fun _ => ?_⟩
        · rw [wp_bind, wp_modify]
          exact (wp_pure _).2 hundo
        · rw [wp_bind]
          refine wp_imp (shareFiles_keeps hembryo hlt (Function.update_self _ _ _) hempty) ?_
          rintro _ t ht
          rw [wp_bind, wp_modify]
          exact (wp_pure _).2 (ht.setProc fun hx => by simp at hx)

end Calls

/-! ## Every run -/

/-- A call of process `p`.  The page that `kalloc` finds, if it finds one, and what
else may fail, are part of the call. -/
inductive Call where
  | open (p : Nat) (readable writable : Bool)
  | dup (p fd : Nat)
  | close (p fd : Nat)
  | pipe (p : Nat) (page : Option Nat)
  | fork (p : Nat) (kstack vm : Bool)
  | exit (p : Nat)
  | wait (p q : Nat)

namespace Call

/-- Who calls. -/
def proc : Call → Nat
  | .open p _ _ | .dup p _ | .close p _ | .pipe p _ | .fork p _ _ | .exit p | .wait p _ => p

/-- The code of the call. -/
def code : Call → M Unit
  | .open p readable writable => do
      let _ ← sysOpen p readable writable
  | .dup p fd => do
      let _ ← sysDup p fd
  | .close p fd => do
      let _ ← sysClose p fd
  | .pipe p page => do
      let _ ← sysPipe p page
  | .fork p kstack vm => do
      let _ ← FileTable.fork p kstack vm
  | .exit p => FileTable.exit p
  | .wait _ q => reap q

/-- A live process of the table calls; `kalloc` finds a page that is free; `wait` finds
a zombie. -/
def Allowed (s : State) (c : Call) : Prop :=
  (c.proc < NPROC ∧ s.proc c.proc = .live) ∧
    match c with
    | .pipe _ (some pg) => s.used pg = false
    | .wait _ q => s.proc q = .zombie
    | _ => True

end Call

/-- The states that complete calls lead to. -/
inductive Steps (s : State) : State → Prop
  | refl : Steps s s
  | step {s₁ s₂ : State} (c : Call) (h : Steps s s₁) (hallowed : c.Allowed s₁)
      (hrun : c.code.run s₁ = .ok () s₂) : Steps s s₂

/-- Nothing is open, and process 0 is there. -/
def boot : State where
  file _ := ⟨.none, 0, false, false, 0⟩
  pipe _ := ⟨false, false⟩
  ofile _ _ := none
  proc p := if p = 0 then .live else .unused
  used _ := false
  kallocs _ := 0
  kfrees _ := 0
  stray := false

theorem boot_inv : Inv atRest boot := by
  refine ⟨⟨?_, fun _ _ => rfl, ?_, ?_, ?_, ?_, fun _ => rfl, rfl⟩, ?_, ?_, fun _ _ _ => rfl⟩
  · exact fun f hf => absurd rfl hf
  · intro f pg w hend
    cases hend.kind
  · intro f g pg w hend
    cases hend.kind
  · intro pg w hused
    cases hused
  · intro pg hused
    cases hused
  · intro f _
    simp [boot, State.count]
  · intro p fd f hslot
    cases hslot

theorem Call.keeps {s : State} (h : Inv atRest s) {c : Call} (hc : c.Allowed s) :
    wp c.code (fun _ t => Inv atRest t) (fun e _ => e = .initExiting) s := by
  obtain ⟨⟨hp, hlive⟩, hextra⟩ := hc
  have hdrop : ∀ {α : Type} {m : M α}, wp m (fun _ t => Inv atRest t) (fun _ _ => False) s →
      wp (m >>= fun _ => pure ()) (fun _ t => Inv atRest t) (fun e _ => e = .initExiting) s := by
    intro α m hm
    rw [wp_bind]
    exact wp_mono hm (fun _ _ ht => (wp_pure _).2 ht) fun _ _ hfalse => hfalse.elim
  cases c with
  | «open» p r w => exact hdrop (sysOpen_keeps h hp hlive r w)
  | dup p fd => exact hdrop (sysDup_keeps h hp hlive fd)
  | close p fd => exact hdrop (sysClose_keeps h fd)
  | pipe p page =>
      refine hdrop (sysPipe_keeps h hp hlive fun pg hpg => ?_)
      subst hpg
      exact hextra
  | fork p kstack vm => exact hdrop (fork_keeps h kstack vm)
  | exit p => exact exit_keeps h
  | wait p q => exact (wp_modify _).2 (h.setProc fun _ => h.gone q (.inr hextra))

theorem Steps.inv {s : State} (hs : Steps boot s) : Inv atRest s := by
  induction hs with
  | refl => exact boot_inv
  | step c _ hallowed hrun ih => exact ok_of_wp (c.keeps ih hallowed) hrun

/-- What holds when no call is in progress. -/
structure Exact (s : State) : Prop where
  /-- A file's count is the number of descriptors that point to it. -/
  refs : ∀ f, f < NFILE → (s.file f).ref = s.count f
  /-- An end of a pipe is open iff some open file is that end. -/
  ends : ∀ pg w, s.used pg = true →
    ((s.pipe pg).endOpen w = true ↔ ∃ f, f < NFILE ∧ 0 < (s.file f).ref ∧ s.IsEnd f pg w)
  /-- A page has been given back as often as it was taken, once the pipe is gone. -/
  pages : ∀ pg, s.kallocs pg = s.kfrees pg + if s.used pg then 1 else 0
  /-- A page is a pipe exactly as long as an end of it is open. -/
  held : ∀ pg, s.used pg = true ↔ ∃ f w, f < NFILE ∧ 0 < (s.file f).ref ∧ s.IsEnd f pg w
  /-- No page is used that is no pipe. -/
  stray : s.stray = false
  /-- The file table does not panic. -/
  panics : ∀ c : Call, c.Allowed s → ∀ e t, c.code.run s = .fail e t → e = .initExiting

theorem Inv.exact {s : State} (h : Inv atRest s) : Exact s := by
  have hfile : ∀ f pg w, s.IsEnd f pg w → f < NFILE ∧ 0 < (s.file f).ref := by
    intro f pg w hend
    refine ⟨h.inTable f (by rw [hend.kind]; decide), Nat.pos_of_ne_zero fun h0 => ?_⟩
    exact absurd (hend.kind.symm.trans (h.free f h0)) (by decide)
  refine ⟨fun f hf => ?_, fun pg w hused => ⟨fun hopen => ?_, ?_⟩, h.pages,
    fun pg => ⟨fun hused => ?_, ?_⟩, h.stray, fun c hc e t hrun => fail_of_wp (c.keeps h hc) hrun⟩
  · have href := h.refs f hf
    have hrest : atRest f = 0 := rfl
    omega
  · obtain ⟨f, hf⟩ := h.opened pg w hused hopen
    exact ⟨f, (hfile f pg w hf).1, (hfile f pg w hf).2, hf⟩
  · rintro ⟨f, -, -, hf⟩
    exact (h.ends f pg w hf).2
  · obtain ⟨w, hw⟩ := h.some pg hused
    obtain ⟨f, hf⟩ := h.opened pg w hused hw
    exact ⟨f, w, (hfile f pg w hf).1, (hfile f pg w hf).2, hf⟩
  · rintro ⟨f, w, -, -, hf⟩
    exact (h.ends f pg w hf).1

/-- **File-table references.**  After any run of complete calls, failing ones included,
the counts of the file table are exact. -/
theorem files_exact {s : State} (hs : Steps boot s) : Exact s := hs.inv.exact

instance (s : State) (c : Call) : Decidable (c.Allowed s) :=
  @instDecidableAnd _ _ inferInstance (by split <;> infer_instance)

/-- Make the calls in turn, as long as they are allowed and return. -/
def runCalls : List Call → State → Option State
  | [], s => some s
  | c :: cs, s =>
      if c.Allowed s then
        match c.code.run s with
        | .ok _ s' => runCalls cs s'
        | .fail _ _ => none
      else none

theorem Steps.of_runCalls (cs : List Call) {s₀ s s' : State} (hs : Steps s₀ s)
    (h : runCalls cs s = some s') : Steps s₀ s' := by
  induction cs generalizing s with
  | nil =>
      cases h
      exact hs
  | cons c cs ih =>
      rw [runCalls] at h
      split at h
      · rename_i hallowed
        cases hrun : c.code.run s with
        | ok u s₁ =>
            rw [hrun] at h
            exact ih (hs.step c hallowed hrun) h
        | fail e s₁ =>
            rw [hrun] at h
            cases h
      · cases h

/-- Process 0 makes a pipe, shares it with a child, and both let go of it. -/
def pipeAndFork : List Call :=
  [.pipe 0 (some 5), .fork 0 true true, .close 0 0, .exit 1, .close 0 1, .pipe 0 none]

theorem files_exact_pipe_and_fork :
    ∃ s, Steps boot s ∧ s.kallocs 5 = 1 ∧ s.kfrees 5 = 1 ∧ Exact s := by
  have hrun : ∃ s ∈ runCalls pipeAndFork boot, s.kallocs 5 = 1 ∧ s.kfrees 5 = 1 := by
    decide +kernel
  obtain ⟨s, hs, hallocs, hfrees⟩ := hrun
  have hsteps := Steps.of_runCalls pipeAndFork .refl hs
  exact ⟨s, hsteps, hallocs, hfrees, files_exact hsteps⟩

end Xv6.Kernel.FileTable
