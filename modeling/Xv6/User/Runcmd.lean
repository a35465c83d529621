import Mathlib.Data.List.Basic
import Mathlib.Logic.Function.Basic
import Xv6.User.NulTerminate
import Xv6.Verified.Transitions

/-!
# How `bash` runs a command

`runcmd` of `user/bash.c`, with `fork`, `pipe`, `dup`, `close`, `open`, `exec`, `wait` and `exit` as
far as descriptors and processes go.  Every process is at some point of `runcmd`, and they take
turns in any order; every call that can fail may fail.  A program that `exec` has started keeps its
descriptors until it exits.

* `At`: what is to be run, and with which descriptors.
* `Inv`: every process is at a point of `runcmd` for its part of the tree.

## Main results

* `commands_wired`: every command runs with the descriptors that the tree gives it, and no others.
* `pipe_ends`: nobody but the two sides of a pipe has its ends.
-/

namespace Xv6.User.Bash.Runcmd

open Xv6.Verified

/-! ## Descriptors -/

/-- `NOFILE`. -/
abbrev NOFILE : Nat := 16

/-- What a descriptor stands for. -/
inductive Obj where
  /-- What the shell had there. -/
  | given (fd : Nat)
  | file (name : String) (mode : Nat)
  | readEnd (n : Nat)
  | writeEnd (n : Nat)
  deriving DecidableEq

/-- `ofile` of a process. -/
abbrev Fds := Nat → Option Obj

/-- `fdalloc`: the first descriptor that is free. -/
def fdalloc (f : Fds) : Option Nat := (List.range NOFILE).find? fun fd => (f fd).isNone

/-- A descriptor in the code: a number, `p[0]` or `p[1]`. -/
inductive Fd where
  | lit (n : Nat)
  | read
  | write

/-- Its value. -/
def Fd.val (p : Nat × Nat) : Fd → Nat
  | .lit n => n
  | .read => p.1
  | .write => p.2

/-- The calls that change descriptors. -/
inductive Call where
  | close (fd : Fd)
  | dup (fd : Fd)
  | openFile (name : String) (mode : Nat)

/-- What they do. -/
def Call.run (p : Nat × Nat) (f : Fds) : Call → Fds
  | .close fd => Function.update f (fd.val p) none
  | .dup fd =>
      match f (fd.val p), fdalloc f with
      | some o, some new => Function.update f new (some o)
      | _, _ => f
  | .openFile name mode =>
      match fdalloc f with
      | some new => Function.update f new (some (.file name mode))
      | none => f

/-- One after the other. -/
def runCalls (p : Nat × Nat) (f : Fds) (cs : List Call) : Fds := cs.foldl (Call.run p) f

/-! ## `runcmd` -/

/-- The way to the left or only subtree, or to the right one. -/
inductive Dir where
  | left
  | right
  deriving DecidableEq

/-- A `struct cmd *`, by the way to it from the root. -/
abbrev Path := List Dir

/-- What a process does next.  The path is that of the command the instruction is for; nothing that
a process does depends on it. -/
inductive Instr where
  | call (c : Call)
  | pipe (π : Path)
  /-- The child makes the calls and then runs a command. -/
  | fork (setup : List Call) (π : Path) (cmd : Tree String)
  | wait (π : Path)
  | run (π : Path) (cmd : Tree String)
  | exec (path : String) (argv : List String) (π : Path)
  /-- Another program, or an internal command. -/
  | program (argv : List String) (π : Path)
  | exit (π : Path)

/-- The names that `runInternalCommand` knows. -/
def internal (name : String) : Bool := name ∈ ["echo", "pwd", "df"]

/-- What the left child of a pipe does first. -/
def toWrite : List Call := [.close (.lit 1), .dup .write, .close .read, .close .write]

/-- What the right child does first. -/
def toRead : List Call := [.close (.lit 0), .dup .read, .close .read, .close .write]

/-- The body of `runcmd`, where `env` is `PATH`. -/
def body (env : String) (π : Path) : Tree String → List Instr
  | .exec [] => [.exit π]
  | .exec (name :: args) =>
      if internal name then [.program (name :: args) π]
      else [.exec (env ++ name) (name :: args) π, .exit π]
  | .redir cmd file mode fd =>
      [.call (.close (.lit fd)), .call (.openFile file mode), .run (π ++ [.left]) cmd]
  | .list l r => [.fork [] (π ++ [.left]) l, .wait π, .run (π ++ [.right]) r]
  | .pipe l r =>
      [.pipe π, .fork toWrite (π ++ [.left]) l, .fork toRead (π ++ [.right]) r,
        .call (.close .read), .call (.close .write), .wait π, .wait π, .exit π]
  | .back cmd => [.fork [] (π ++ [.left]) cmd, .exit π]

/-- A process; one with nothing left to do is a `ZOMBIE`. -/
structure Proc where
  fds : Fds
  p : Nat × Nat
  code : List Instr
  parent : Option Nat

/-- The processes, and the numbers of the next process and of the next pipe.  `made` gives the
number of the pipe that was made for the command at a path. -/
structure State where
  proc : Nat → Option Proc
  pids : Nat
  pipes : Nat
  made : Path → Option Nat

/-- Replace a process. -/
def State.set (s : State) (i : Nat) (q : Option Proc) : State :=
  { s with proc := Function.update s.proc i q }

/-- `exit`: the descriptors are closed, and the children are passed to `init`. -/
def State.exit (s : State) (i : Nat) (q : Proc) : State :=
  { s with
    proc := fun j =>
      if j = i then some { q with fds := fun _ => none, code := [] }
      else (s.proc j).map fun q' =>
        if q'.parent = some i then { q' with parent := none } else q' }

/-- What happens next: the next call of process `i` goes well or fails, or its `wait` gets the
child `j`. -/
inductive Act where
  | step (i : Nat)
  | fail (i : Nat)
  | reap (i j : Nat)

/-- The next call of process `i` goes well. -/
def State.step (env : String) (s : State) (i : Nat) (q : Proc) : Option State :=
  match q.code with
  | [] => none
  | .call c :: rest => some (s.set i (some { q with fds := c.run q.p q.fds, code := rest }))
  | .pipe π :: rest =>
      (fdalloc q.fds).bind fun r =>
        let f := Function.update q.fds r (some (.readEnd s.pipes))
        (fdalloc f).map fun w =>
          let f' := Function.update f w (some (.writeEnd s.pipes))
          { s.set i (some { q with fds := f', p := (r, w), code := rest }) with
            pipes := s.pipes + 1
            made := Function.update s.made π (some s.pipes) }
  | .fork setup π cmd :: rest =>
      some { (s.set i (some { q with code := rest })).set s.pids (some ⟨q.fds, q.p,
          setup.map .call ++ [.run π cmd], some i⟩) with
        pids := s.pids + 1 }
  | .wait _ :: rest =>
      if ∀ j < s.pids, ∀ q' ∈ s.proc j, q'.parent ≠ some i then
        some (s.set i (some { q with code := rest }))
      else none
  | .run π cmd :: _ => some (s.set i (some { q with code := body env π cmd }))
  | .exec _ argv π :: _ => some (s.set i (some { q with code := [.program argv π] }))
  | .program _ _ :: _ => some (s.exit i q)
  | .exit _ :: _ => some (s.exit i q)

/-- It fails. -/
def State.fail (s : State) (i : Nat) (q : Proc) : Option State :=
  match q.code with
  | .call (.openFile _ _) :: _ => some (s.exit i q)
  | .pipe _ :: _ => some (s.exit i q)
  | .fork _ _ _ :: _ => some (s.exit i q)
  | .exec _ _ _ :: rest => some (s.set i (some { q with code := rest }))
  | _ => none

/-- Its `wait` gets child `j`. -/
def State.reap (s : State) (i j : Nat) (q z : Proc) : Option State :=
  match q.code, z.code with
  | .wait _ :: rest, [] =>
      if z.parent = some i then some ((s.set j none).set i (some { q with code := rest })) else none
  | _, _ => none

/-- The next state. -/
def next (env : String) (s : State) : Act → Option State
  | .step i => (s.proc i).bind fun q => s.step env i q
  | .fail i => (s.proc i).bind fun q => s.fail i q
  | .reap i j => (s.proc i).bind fun q => (s.proc j).bind fun z => s.reap i j q z

/-- The shell has forked a process for the command. -/
def start (cmd : Tree String) (io : Fds) : State where
  proc i := if i = 0 then some ⟨io, (0, 0), [.run [] cmd], none⟩ else none
  pids := 1
  pipes := 0
  made _ := none

/-! ## What is to be run -/

/-- The command at `π` is to be run with these descriptors; `num` gives the pipes that have been
made their numbers. -/
inductive At (num : Path → Option Nat) (cmd : Tree String) (io : Fds) :
    Path → Tree String → Fds → Prop
  | root : At num cmd io [] cmd io
  | redir {π : Path} {c : Tree String} {file : String} {mode fd : Nat} {f : Fds}
      (h : At num cmd io π (.redir c file mode fd) f) :
      At num cmd io (π ++ [.left]) c (Function.update f fd (some (.file file mode)))
  | write {π : Path} {l r : Tree String} {f : Fds} {n : Nat} (h : At num cmd io π (.pipe l r) f)
      (hn : num π = some n) :
      At num cmd io (π ++ [.left]) l (Function.update f 1 (some (.writeEnd n)))
  | read {π : Path} {l r : Tree String} {f : Fds} {n : Nat} (h : At num cmd io π (.pipe l r) f)
      (hn : num π = some n) :
      At num cmd io (π ++ [.right]) r (Function.update f 0 (some (.readEnd n)))
  | first {π : Path} {l r : Tree String} {f : Fds} (h : At num cmd io π (.list l r) f) :
      At num cmd io (π ++ [.left]) l f
  | second {π : Path} {l r : Tree String} {f : Fds} (h : At num cmd io π (.list l r) f) :
      At num cmd io (π ++ [.right]) r f
  | back {π : Path} {c : Tree String} {f : Fds} (h : At num cmd io π (.back c) f) :
      At num cmd io (π ++ [.left]) c f

/-- Standard input, output and error are open, and nothing else. -/
def Std (f : Fds) : Prop := ∀ fd, f fd ≠ none ↔ fd < 3

/-- Redirections are of these three. -/
def Low {W : Type} : Tree W → Prop
  | .exec _ => True
  | .redir c _ _ fd => fd < 3 ∧ Low c
  | .pipe l r | .list l r => Low l ∧ Low r
  | .back c => Low c

section Wiring

variable {num num' : Path → Option Nat} {cmd c l r : Tree String} {io f : Fds} {π ρ : Path}
  {p : Nat × Nat} {n k : Nat} {env : String}

theorem Std.lt (h : Std f) {fd : Nat} (hfd : fd < 3) : f fd ≠ none := (h fd).2 hfd

theorem Std.none (h : Std f) {fd : Nat} (hfd : 3 ≤ fd) : f fd = none := by
  by_contra hne
  exact absurd ((h fd).1 hne) (Nat.not_lt.2 hfd)

theorem Std.update (h : Std f) {fd : Nat} (hfd : fd < 3) (o : Obj) :
    Std (Function.update f fd (some o)) := by
  intro fd'
  by_cases hne : fd' = fd
  · subst hne
    rw [Function.update_self]
    exact iff_of_true nofun hfd
  · rw [Function.update_of_ne hne]
    exact h fd'

/-- The invariant of the walk down the tree. -/
theorem At.std (h : At num cmd io π c f) (hio : Std io) (hlow : Low cmd) : Std f ∧ Low c := by
  induction h with
  | root => exact ⟨hio, hlow⟩
  | redir _ ih => exact ⟨ih.1.update ih.2.1 _, ih.2.2⟩
  | write _ _ ih => exact ⟨ih.1.update (by decide) _, ih.2.1⟩
  | read _ _ ih => exact ⟨ih.1.update (by decide) _, ih.2.2⟩
  | first _ ih => exact ⟨ih.1, ih.2.1⟩
  | second _ ih => exact ⟨ih.1, ih.2.2⟩
  | back _ ih => exact ih

theorem At.mono (h : At num cmd io π c f) (hnum : ∀ π n, num π = some n → num' π = some n) :
    At num' cmd io π c f := by
  induction h with
  | root => exact .root
  | redir _ ih => exact .redir ih
  | write _ hn ih => exact .write ih (hnum _ _ hn)
  | read _ hn ih => exact .read ih (hnum _ _ hn)
  | first _ ih => exact .first ih
  | second _ ih => exact .second ih
  | back _ ih => exact .back ih

theorem fdalloc_eq (hk : f k = none) (hlt : k < NOFILE) (h : ∀ fd < k, f fd ≠ none) :
    fdalloc f = some k := by
  rw [fdalloc, List.find?_range_eq_some]
  refine ⟨by rw [hk]; rfl, List.mem_range.2 hlt, fun fd hfd => ?_⟩
  simpa using Option.isSome_iff_ne_none.2 (h fd hfd)

/-- The descriptors of the two ends of a new pipe. -/
def withPipe (f : Fds) (n : Nat) : Fds :=
  Function.update (Function.update f 3 (some (.readEnd n))) 4 (some (.writeEnd n))

theorem fdalloc_std (h : Std f) : fdalloc f = some 3 :=
  fdalloc_eq (h.none (Nat.le_refl 3)) (by decide) fun _ hfd => h.lt hfd

theorem fdalloc_read (h : Std f) (o : Obj) : fdalloc (Function.update f 3 (some o)) = some 4 := by
  refine fdalloc_eq ?_ (by decide) fun fd hfd => ?_
  · rw [Function.update_of_ne (by decide)]
    exact h.none (by decide)
  · by_cases h3 : fd = 3
    · rw [h3, Function.update_self]
      exact nofun
    · rw [Function.update_of_ne h3]
      exact h.lt (by omega)

/-- Closing one of the three makes room for the next. -/
theorem fdalloc_closed (h : ∀ fd < 3, f fd ≠ none) {fd : Nat} (hfd : fd < 3) :
    fdalloc (Function.update f fd none) = some fd := by
  refine fdalloc_eq (Function.update_self _ _ _) (by simp only [NOFILE]; omega) fun fd' hlt => ?_
  rw [Function.update_of_ne (by omega)]
  exact h fd' (by omega)

/-- A redirection. -/
theorem runCalls_redir (h : Std f) {fd mode : Nat} {file : String} (hfd : fd < 3) :
    runCalls p f [.close (.lit fd), .openFile file mode] =
      Function.update f fd (some (.file file mode)) := by
  simp only [runCalls, List.foldl_cons, List.foldl_nil, Call.run, Fd.val,
    fdalloc_closed (fun _ => h.lt) hfd, Function.update_idem]

theorem withPipe_closed (h : Std f) :
    Function.update (Function.update (withPipe f n) 3 none) 4 none = f := by
  funext fd
  by_cases h4 : fd = 4
  · rw [h4, Function.update_self, h.none (by decide)]
  · rw [Function.update_of_ne h4]
    by_cases h3 : fd = 3
    · rw [h3, Function.update_self, h.none (by decide)]
    · rw [Function.update_of_ne h3, withPipe, Function.update_of_ne h4, Function.update_of_ne h3]

/-- One side of a pipe. -/
theorem runCalls_side (h : Std f) {fd : Nat} {e : Fd} {o : Obj} (hfd : fd < 3)
    (he : withPipe f n (e.val (3, 4)) = some o) (hne : 3 ≤ e.val (3, 4)) :
    runCalls (3, 4) (withPipe f n) [.close (.lit fd), .dup e, .close .read, .close .write] =
      Function.update f fd (some o) := by
  have hopen : ∀ fd < 3, withPipe f n fd ≠ none := by
    intro fd' hlt
    rw [withPipe, Function.update_of_ne (by omega), Function.update_of_ne (by omega)]
    exact h.lt hlt
  have hdup : Function.update (withPipe f n) fd none (e.val (3, 4)) = some o := by
    rw [Function.update_of_ne (by omega), he]
  have hstep : Call.run (3, 4) (Function.update (withPipe f n) fd none) (.dup e) =
      Function.update (withPipe f n) fd (some o) := by
    simp only [Call.run, hdup, fdalloc_closed hopen hfd, Function.update_idem]
  have hcalls : runCalls (3, 4) (withPipe f n)
      [.close (.lit fd), .dup e, .close .read, .close .write] =
        Function.update (Function.update (Call.run (3, 4) (Function.update (withPipe f n) fd none)
          (.dup e)) 3 none) 4 none := rfl
  rw [hcalls, hstep, Function.update_comm (show fd ≠ 3 by omega),
    Function.update_comm (show fd ≠ 4 by omega), withPipe_closed h]

theorem runCalls_write (h : Std f) : runCalls (3, 4) (withPipe f n) toWrite =
    Function.update f 1 (some (.writeEnd n)) :=
  runCalls_side h (by decide) (Function.update_self _ _ _) (by decide)

theorem runCalls_read (h : Std f) : runCalls (3, 4) (withPipe f n) toRead =
    Function.update f 0 (some (.readEnd n)) := by
  refine runCalls_side h (by decide) ?_ (by decide)
  show withPipe f n 3 = _
  rw [withPipe, Function.update_of_ne (by decide), Function.update_self]

theorem runCalls_close (h : Std f) : runCalls (3, 4) (withPipe f n) [.close .read, .close .write] =
    f := by
  simp only [runCalls, List.foldl_cons, List.foldl_nil, Call.run, Fd.val]
  exact withPipe_closed h

/-! ## Points of `runcmd` -/

/-- Where a process can be: what it has left to do, and its descriptors. -/
inductive Point (env : String) (num : Path → Option Nat) (cmd : Tree String) (io : Fds) :
    List Instr → Fds → Nat × Nat → Prop
  /-- On the way into `runcmd`. -/
  | enter {code : List Instr} {cs : List Call} {π : Path} {c : Tree String} {f : Fds}
      {p : Nat × Nat} (h : At num cmd io π c (runCalls p f cs))
      (hcode : code = cs.map .call ++ [.run π c]) : Point env num cmd io code f p
  /-- On the way out. -/
  | leave {code : List Instr} {cs : List Call} {k : Nat} {π : Path} {c : Tree String} {f : Fds}
      {p : Nat × Nat} (h : At num cmd io π c (runCalls p f cs))
      (hcode : code = cs.map .call ++ (List.replicate k (.wait π) ++ [.exit π])) :
      Point env num cmd io code f p
  /-- In the middle of a list. -/
  | wait {code : List Instr} {π : Path} {l r : Tree String} {f : Fds} {p : Nat × Nat}
      (h : At num cmd io π (.list l r) f) (hcode : code = [.wait π, .run (π ++ [.right]) r]) :
      Point env num cmd io code f p
  /-- At the start of `runcmd`. -/
  | start {code : List Instr} {π : Path} {c : Tree String} {f : Fds} {p : Nat × Nat}
      (h : At num cmd io π c f) (hcode : code = body env π c) : Point env num cmd io code f p
  /-- Behind `pipe`, and behind the first child. -/
  | piped {code : List Instr} {π : Path} {l r : Tree String} {f : Fds} {n : Nat}
      (h : At num cmd io π (.pipe l r) f) (hn : num π = some n)
      (hcode : code <:+ [.fork toWrite (π ++ [.left]) l, .fork toRead (π ++ [.right]) r,
        .call (.close .read), .call (.close .write), .wait π, .wait π, .exit π])
      (hlen : 5 < code.length) : Point env num cmd io code (withPipe f n) (3, 4)
  | program {code : List Instr} {π : Path} {argv : List String} {f : Fds} {p : Nat × Nat}
      (h : At num cmd io π (.exec argv) f) (hcode : code = [.program argv π]) :
      Point env num cmd io code f p
  | zombie {p : Nat × Nat} : Point env num cmd io [] (fun _ => Option.none) p

theorem Point.mono {code : List Instr} (h : Point env num cmd io code f p)
    (hnum : ∀ π n, num π = some n → num' π = some n) : Point env num' cmd io code f p := by
  cases h with
  | enter h hcode => exact .enter (h.mono hnum) hcode
  | leave h hcode => exact .leave (h.mono hnum) hcode
  | wait h hcode => exact .wait (h.mono hnum) hcode
  | start h hcode => exact .start (h.mono hnum) hcode
  | piped h hn hcode hlen => exact .piped (h.mono hnum) (hnum _ _ hn) hcode hlen
  | program h hcode => exact .program (h.mono hnum) hcode
  | zombie => exact .zombie

/-- The parts of the tree that an instruction is for. -/
def Instr.visits : Instr → Path → Prop
  | .pipe π, ρ | .exec _ _ π, ρ | .program _ π, ρ => ρ = π
  | .fork _ π _, ρ | .run π _, ρ => π <+: ρ
  | _, _ => False

/-- The parts of the tree that a process is still for. -/
def Visits (code : List Instr) (ρ : Path) : Prop := ∃ i ∈ code, i.visits ρ

theorem visits_body (h : Visits (body env π c) ρ) : π <+: ρ := by
  have hsub : ∀ d : Dir, π ++ [d] <+: ρ → π <+: ρ := fun d => (List.prefix_append π [d]).trans
  have hself : ρ = π → π <+: ρ := fun heq => heq ▸ List.prefix_rfl
  obtain ⟨i, hi, hv⟩ := h
  cases c with
  | exec argv =>
      cases argv with
      | nil =>
          obtain rfl : i = .exit π := by simpa [body] using hi
          exact hv.elim
      | cons name args =>
          rw [body] at hi
          split at hi
          · obtain rfl : i = .program (name :: args) π := by simpa using hi
            exact hself hv
          · rcases List.mem_cons.1 hi with rfl | hi
            · exact hself hv
            · obtain rfl : i = .exit π := by simpa using hi
              exact hv.elim
  | redir c file mode fd =>
      simp only [body, List.mem_cons, List.not_mem_nil, or_false] at hi
      rcases hi with rfl | rfl | rfl
      · exact hv.elim
      · exact hv.elim
      · exact hsub _ hv
  | pipe l r =>
      simp only [body, List.mem_cons, List.not_mem_nil, or_false] at hi
      rcases hi with rfl | rfl | rfl | rfl | rfl | rfl | rfl | rfl
      · exact hself hv
      · exact hsub _ hv
      · exact hsub _ hv
      all_goals exact hv.elim
  | list l r =>
      simp only [body, List.mem_cons, List.not_mem_nil, or_false] at hi
      rcases hi with rfl | rfl | rfl
      · exact hsub _ hv
      · exact hv.elim
      · exact hsub _ hv
  | back c =>
      simp only [body, List.mem_cons, List.not_mem_nil, or_false] at hi
      rcases hi with rfl | rfl
      · exact hsub _ hv
      · exact hv.elim

theorem body_exec (env : String) (π : Path) (argv : List String) :
    body env π (.exec argv) = [.exit π] ∨ body env π (.exec argv) = [.program argv π] ∨
      ∃ path, body env π (.exec argv) = [.exec path argv π, .exit π] := by
  cases argv with
  | nil => exact .inl rfl
  | cons name args =>
      rw [body]
      split
      · exact .inr (.inl rfl)
      · exact .inr (.inr ⟨_, rfl⟩)

/-- The two points behind `pipe`. -/
theorem piped_cases {code : List Instr} (hcode : code <:+ [.fork toWrite (π ++ [.left]) l,
      .fork toRead (π ++ [.right]) r, .call (.close .read), .call (.close .write), .wait π, .wait π,
      .exit π]) (hlen : 5 < code.length) :
    code = [.fork toWrite (π ++ [.left]) l, .fork toRead (π ++ [.right]) r, .call (.close .read),
      .call (.close .write), .wait π, .wait π, .exit π] ∨
    code = [.fork toRead (π ++ [.right]) r, .call (.close .read), .call (.close .write), .wait π,
      .wait π, .exit π] := by
  rcases List.suffix_cons_iff.1 hcode with h | h
  · exact .inl h
  · rcases List.suffix_cons_iff.1 h with h | h
    · exact .inr h
    · have := h.length_le
      simp only [List.length_cons, List.length_nil] at this
      omega

section Heads

variable {code rest : List Instr} {cs : List Call} {argv : List String} {path : String}

theorem Point.atRun (h : At num cmd io π c f) : Point env num cmd io [.run π c] f p :=
  @Point.enter _ _ _ _ _ [] _ _ _ _ h rfl

theorem Point.atExit (h : At num cmd io π c f) (k : Nat) :
    Point env num cmd io (List.replicate k (.wait π) ++ [.exit π]) f p :=
  @Point.leave _ _ _ _ _ [] k _ _ _ _ h rfl

theorem Point.call {x : Call} (h : Point env num cmd io (.call x :: rest) f p) (hio : Std io)
    (hlow : Low cmd) : Point env num cmd io rest (x.run p f) p := by
  cases h with
  | @enter _ cs π c _ _ h hcode =>
      cases cs with
      | nil => simp at hcode
      | cons x' cs =>
          simp only [List.map_cons, List.cons_append, List.cons.injEq, Instr.call.injEq] at hcode
          obtain ⟨rfl, rfl⟩ := hcode
          exact .enter h rfl
  | @leave _ cs k π c _ _ h hcode =>
      cases cs with
      | nil => cases k <;> simp [List.replicate_succ] at hcode
      | cons x' cs =>
          simp only [List.map_cons, List.cons_append, List.cons.injEq, Instr.call.injEq] at hcode
          obtain ⟨rfl, rfl⟩ := hcode
          exact .leave h rfl
  | wait h hcode => simp at hcode
  | @start _ π c _ _ h hcode =>
      obtain ⟨hstd, hlowc⟩ := h.std hio hlow
      cases c with
      | exec argv =>
          rcases body_exec env π argv with heq | heq | ⟨path, heq⟩ <;> simp [heq] at hcode
      | redir c file mode fd =>
          simp only [body, List.cons.injEq, Instr.call.injEq] at hcode
          obtain ⟨rfl, rfl⟩ := hcode
          have hredir := h.redir
          rw [← runCalls_redir hstd hlowc.1] at hredir
          exact @Point.enter _ _ _ _ _ [.openFile file mode] _ _ _ _ hredir rfl
      | pipe l r => simp [body] at hcode
      | list l r => simp [body] at hcode
      | back c => simp [body] at hcode
  | piped h hn hcode hlen => rcases piped_cases hcode hlen with heq | heq <;> simp at heq
  | program h hcode => simp at hcode

theorem Point.waited (h : Point env num cmd io (.wait π :: rest) f p) :
    Point env num cmd io rest f p := by
  cases h with
  | @enter _ cs π c _ _ h hcode => cases cs <;> simp at hcode
  | @leave _ cs k π c _ _ h hcode =>
      cases cs with
      | nil =>
          cases k with
          | zero => simp at hcode
          | succ k =>
              simp only [List.map_nil, List.nil_append, List.replicate_succ, List.cons_append,
                List.cons.injEq] at hcode
              exact hcode.2 ▸ .atExit h k
      | cons x cs => simp at hcode
  | wait h hcode =>
      simp only [List.cons.injEq] at hcode
      exact hcode.2 ▸ .atRun h.second
  | @start _ π c _ _ h hcode =>
      cases c with
      | exec argv =>
          rcases body_exec env π argv with heq | heq | ⟨path, heq⟩ <;> simp [heq] at hcode
      | _ => simp [body] at hcode
  | piped h hn hcode hlen => rcases piped_cases hcode hlen with heq | heq <;> simp at heq
  | program h hcode => simp at hcode

theorem Point.run (h : Point env num cmd io (.run π c :: rest) f p) :
    Point env num cmd io (body env π c) f p := by
  cases h with
  | @enter _ cs π' c' _ _ h hcode =>
      cases cs with
      | nil =>
          simp only [List.map_nil, List.nil_append, List.cons.injEq, Instr.run.injEq] at hcode
          obtain ⟨⟨rfl, rfl⟩, -⟩ := hcode
          exact .start h rfl
      | cons x cs => simp at hcode
  | @leave _ cs k π' c' _ _ h hcode =>
      cases cs with
      | nil => cases k <;> simp [List.replicate_succ] at hcode
      | cons x cs => simp at hcode
  | wait h hcode => simp at hcode
  | @start _ π' c' _ _ h hcode =>
      cases c' with
      | exec argv =>
          rcases body_exec env π' argv with heq | heq | ⟨path, heq⟩ <;> simp [heq] at hcode
      | _ => simp [body] at hcode
  | piped h hn hcode hlen => rcases piped_cases hcode hlen with heq | heq <;> simp at heq
  | program h hcode => simp at hcode

theorem Point.exec (h : Point env num cmd io (.exec path argv π :: rest) f p) :
    Point env num cmd io [.program argv π] f p ∧ Point env num cmd io rest f p := by
  cases h with
  | @enter _ cs π' c' _ _ h hcode => cases cs <;> simp at hcode
  | @leave _ cs k π' c' _ _ h hcode =>
      cases cs with
      | nil => cases k <;> simp [List.replicate_succ] at hcode
      | cons x cs => simp at hcode
  | wait h hcode => simp at hcode
  | @start _ π' c' _ _ h hcode =>
      cases c' with
      | exec argv' =>
          rcases body_exec env π' argv' with heq | heq | ⟨path', heq⟩
          · simp [heq] at hcode
          · simp [heq] at hcode
          · simp only [heq, List.cons.injEq, Instr.exec.injEq] at hcode
            obtain ⟨⟨rfl, rfl, rfl⟩, rfl⟩ := hcode
            exact ⟨.program h rfl, .atExit h 0⟩
      | _ => simp [body] at hcode
  | piped h hn hcode hlen => rcases piped_cases hcode hlen with heq | heq <;> simp at heq
  | program h hcode => simp at hcode

theorem Point.pipe (h : Point env num cmd io (.pipe π :: rest) f p) :
    ∃ l r, At num cmd io π (.pipe l r) f ∧ rest = [.fork toWrite (π ++ [.left]) l,
      .fork toRead (π ++ [.right]) r, .call (.close .read), .call (.close .write), .wait π, .wait π,
      .exit π] := by
  cases h with
  | @enter _ cs π' c' _ _ h hcode => cases cs <;> simp at hcode
  | @leave _ cs k π' c' _ _ h hcode =>
      cases cs with
      | nil => cases k <;> simp [List.replicate_succ] at hcode
      | cons x cs => simp at hcode
  | wait h hcode => simp at hcode
  | @start _ π' c' _ _ h hcode =>
      cases c' with
      | exec argv =>
          rcases body_exec env π' argv with heq | heq | ⟨path, heq⟩ <;> simp [heq] at hcode
      | pipe l r =>
          simp only [body, List.cons.injEq, Instr.pipe.injEq] at hcode
          obtain ⟨rfl, rfl⟩ := hcode
          exact ⟨l, r, h, rfl⟩
      | _ => simp [body] at hcode
  | piped h hn hcode hlen => rcases piped_cases hcode hlen with heq | heq <;> simp at heq
  | program h hcode => simp at hcode

/-- Two subtrees of a node have nothing in common. -/
theorem not_prefix_both {d d' : Dir} (hne : d ≠ d') (h : π ++ [d] <+: ρ) : ¬π ++ [d'] <+: ρ := by
  obtain ⟨u, rfl⟩ := h
  rintro ⟨v, hv⟩
  rw [List.append_assoc, List.append_assoc, List.append_cancel_left_eq] at hv
  simp only [List.singleton_append, List.cons.injEq] at hv
  exact hne hv.1.symm

theorem Point.fork (h : Point env num cmd io (.fork cs π c :: rest) f p) (hio : Std io)
    (hlow : Low cmd) : Point env num cmd io rest f p ∧
      Point env num cmd io (cs.map .call ++ [.run π c]) f p ∧
      ∀ ρ, π <+: ρ → ¬Visits rest ρ := by
  have hnone : ∀ {code : List Instr}, (∀ i ∈ code, ∀ ρ, ¬i.visits ρ) → ∀ ρ, ¬Visits code ρ :=
    fun hall ρ ⟨i, hi, hv⟩ => hall i hi ρ hv
  cases h with
  | @enter _ cs' π' c' _ _ h hcode => cases cs' <;> simp at hcode
  | @leave _ cs' k π' c' _ _ h hcode =>
      cases cs' with
      | nil => cases k <;> simp [List.replicate_succ] at hcode
      | cons x cs' => simp at hcode
  | wait h hcode => simp at hcode
  | @start _ π' c' _ _ h hcode =>
      cases c' with
      | exec argv =>
          rcases body_exec env π' argv with heq | heq | ⟨path, heq⟩ <;> simp [heq] at hcode
      | list l r =>
          simp only [body, List.cons.injEq, Instr.fork.injEq] at hcode
          obtain ⟨⟨rfl, rfl, rfl⟩, rfl⟩ := hcode
          refine ⟨.wait h rfl, .atRun h.first, fun ρ hρ => ?_⟩
          rintro ⟨i, hi, hv⟩
          simp only [List.mem_cons, List.not_mem_nil, or_false] at hi
          rcases hi with rfl | rfl
          · exact hv
          · exact not_prefix_both (by decide) hρ hv
      | back c' =>
          simp only [body, List.cons.injEq, Instr.fork.injEq] at hcode
          obtain ⟨⟨rfl, rfl, rfl⟩, rfl⟩ := hcode
          refine ⟨.atExit h 0, .atRun h.back, fun ρ _ => ?_⟩
          refine hnone (fun i hi ρ hv => ?_) ρ
          obtain rfl : i = .exit π' := by simpa using hi
          exact hv
      | _ => simp [body] at hcode
  | @piped _ π' l r f n h hn hcode hlen =>
      obtain ⟨hstd, -⟩ := h.std hio hlow
      rcases piped_cases hcode hlen with heq | heq
      · simp only [List.cons.injEq, Instr.fork.injEq] at heq
        obtain ⟨⟨rfl, rfl, rfl⟩, rfl⟩ := heq
        refine ⟨.piped h hn (List.suffix_cons _ _) (by simp), .enter ?_ rfl, fun ρ hρ => ?_⟩
        · rw [runCalls_write hstd]
          exact h.write hn
        · rintro ⟨i, hi, hv⟩
          simp only [List.mem_cons, List.not_mem_nil, or_false] at hi
          rcases hi with rfl | rfl | rfl | rfl | rfl | rfl
          · exact not_prefix_both (by decide) hρ hv
          all_goals exact hv
      · simp only [List.cons.injEq, Instr.fork.injEq] at heq
        obtain ⟨⟨rfl, rfl, rfl⟩, rfl⟩ := heq
        have hclosed := h
        rw [← runCalls_close (n := n) hstd] at hclosed
        refine ⟨@Point.leave _ _ _ _ _ [.close .read, .close .write] 2 _ _ _ _ hclosed rfl,
          .enter ?_ rfl, fun ρ _ => ?_⟩
        · rw [runCalls_read hstd]
          exact h.read hn
        · rintro ⟨i, hi, hv⟩
          simp only [List.mem_cons, List.not_mem_nil, or_false] at hi
          rcases hi with rfl | rfl | rfl | rfl | rfl <;> exact hv
  | program h hcode => simp at hcode

end Heads

end Wiring

/-! ## Runs -/

section Run

variable {num num' : Path → Option Nat} {cmd c : Tree String} {io : Fds} {π ρ : Path}
  {env : String} {s s' : State} {i j : Nat} {q q' z : Proc} {a : Act}

/-- Every process is at some point, and no two of them are for the same part of the tree. -/
structure Inv (env : String) (num : Path → Option Nat) (cmd : Tree String) (io : Fds) (s : State) :
    Prop where
  made : s.made = num
  inj : ∀ π π' n, num π = some n → num π' = some n → π = π'
  bound : ∀ π n, num π = some n → n < s.pipes
  point : ∀ i q, s.proc i = some q → Point env num cmd io q.code q.fds q.p
  fresh : ∀ i q ρ, s.proc i = some q → Visits q.code ρ → num ρ = none
  apart : ∀ i j q q' ρ, s.proc i = some q → s.proc j = some q' → Visits q.code ρ →
    Visits q'.code ρ → i = j
  pids : ∀ i q, s.proc i = some q → i < s.pids

/-- The processes go on, and each is for no more than before. -/
theorem Inv.lessen (h : Inv env num cmd io s) (hpids : s.pids ≤ s'.pids) (hmade : s'.made = num')
    (hinj : ∀ π π' n, num' π = some n → num' π' = some n → π = π')
    (hbound : ∀ π n, num' π = some n → n < s'.pipes)
    (hproc : ∀ j q', s'.proc j = some q' → ∃ q, s.proc j = some q ∧
      Point env num' cmd io q'.code q'.fds q'.p ∧
        ∀ ρ, Visits q'.code ρ → Visits q.code ρ ∧ num' ρ = none) : Inv env num' cmd io s' where
  made := hmade
  inj := hinj
  bound := hbound
  point j q' hj := by
    obtain ⟨_, _, hpoint, _⟩ := hproc j q' hj
    exact hpoint
  fresh j q' ρ hj hv := by
    obtain ⟨_, _, _, hvisits⟩ := hproc j q' hj
    exact (hvisits ρ hv).2
  apart j k q q' ρ hj hk hv hv' := by
    obtain ⟨q₁, hj₁, _, hvisits⟩ := hproc j q hj
    obtain ⟨q₂, hk₂, _, hvisits'⟩ := hproc k q' hk
    exact h.apart j k q₁ q₂ ρ hj₁ hk₂ (hvisits ρ hv).1 (hvisits' ρ hv').1
  pids j q' hj := by
    obtain ⟨q, hq, _, _⟩ := hproc j q' hj
    exact Nat.lt_of_lt_of_le (h.pids j q hq) hpids

/-- A process that is as it was. -/
theorem Inv.same (h : Inv env num cmd io s) (hj : s.proc j = some q) :
    Point env num cmd io q.code q.fds q.p ∧ ∀ ρ, Visits q.code ρ → Visits q.code ρ ∧ num ρ = none :=
  ⟨h.point j q hj, fun ρ hv => ⟨hv, h.fresh j q ρ hj hv⟩⟩

/-- One process goes on. -/
theorem Inv.set (h : Inv env num cmd io s) (hq : s.proc i = some q)
    (hpoint : Point env num cmd io q'.code q'.fds q'.p)
    (hvisits : ∀ ρ, Visits q'.code ρ → Visits q.code ρ) :
    Inv env num cmd io (s.set i (some q')) := by
  refine h.lessen (Nat.le_refl _) h.made h.inj h.bound fun j q₁ hj => ?_
  by_cases hji : j = i
  · subst hji
    obtain rfl : q' = q₁ := by simpa [State.set] using hj
    exact ⟨q, hq, hpoint, fun ρ hv => ⟨hvisits ρ hv, h.fresh j q ρ hq (hvisits ρ hv)⟩⟩
  · have hj' : s.proc j = some q₁ := by
      simpa [State.set, Function.update_of_ne hji] using hj
    exact ⟨q₁, hj', h.same hj'⟩

theorem Inv.exit (h : Inv env num cmd io s) (hq : s.proc i = some q) :
    Inv env num cmd io (s.exit i q) := by
  refine h.lessen (Nat.le_refl _) h.made h.inj h.bound fun j q₁ hj => ?_
  simp only [State.exit] at hj
  split at hj
  · rename_i hji
    cases hj
    exact ⟨q, hji ▸ hq, .zombie, fun ρ ⟨_, hi, _⟩ => absurd hi List.not_mem_nil⟩
  · obtain ⟨q₂, hq₂, rfl⟩ := Option.map_eq_some_iff.1 hj
    obtain ⟨hpoint, hvisits⟩ := h.same hq₂
    refine ⟨q₂, hq₂, ?_⟩
    split
    · exact ⟨hpoint, hvisits⟩
    · exact ⟨hpoint, hvisits⟩

theorem visits_tail {x : Instr} {rest : List Instr} (h : Visits rest ρ) : Visits (x :: rest) ρ := by
  obtain ⟨i, hi, hv⟩ := h
  exact ⟨i, List.mem_cons_of_mem _ hi, hv⟩

/-- A process gets a child. -/
theorem Inv.fork {cs : List Call} {rest : List Instr} {f : Fds} {p : Nat × Nat}
    {parent : Option Nat} (h : Inv env num cmd io s) (hio : Std io) (hlow : Low cmd)
    (hq : s.proc i = some ⟨f, p, .fork cs π c :: rest, parent⟩) :
    Inv env num cmd io { (s.set i (some ⟨f, p, rest, parent⟩)).set s.pids
      (some ⟨f, p, cs.map .call ++ [.run π c], some i⟩) with pids := s.pids + 1 } := by
  obtain ⟨hrest, hchild, hdisj⟩ := (h.point i _ hq).fork hio hlow
  have hset : Inv env num cmd io (s.set i (some ⟨f, p, rest, parent⟩)) :=
    h.set hq hrest fun ρ => visits_tail
  have hv : ∀ {ρ}, Visits (cs.map .call ++ [.run π c]) ρ → π <+: ρ := by
    rintro ρ ⟨x, hx, hv⟩
    rcases List.mem_append.1 hx with hx | hx
    · obtain ⟨_, _, rfl⟩ := List.mem_map.1 hx
      exact hv.elim
    · obtain rfl : x = .run π c := by simpa using hx
      exact hv
  have hmine : ∀ {ρ}, π <+: ρ → Visits (.fork cs π c :: rest) ρ :=
    fun hπ => ⟨_, List.mem_cons_self, hπ⟩
  have hi := h.pids i _ hq
  have hproc : ∀ j q₁, (State.set (s.set i (some ⟨f, p, rest, parent⟩)) s.pids
      (some ⟨f, p, cs.map .call ++ [.run π c], some i⟩)).proc j = some q₁ →
      j = s.pids ∧ q₁ = ⟨f, p, cs.map .call ++ [.run π c], some i⟩ ∨
        (s.set i (some ⟨f, p, rest, parent⟩)).proc j = some q₁ := by
    intro j q₁ hj
    by_cases hjp : j = s.pids
    · subst hjp
      refine .inl ⟨rfl, ?_⟩
      simpa [State.set, eq_comm] using hj
    · rw [State.set] at hj
      dsimp only at hj
      rw [Function.update_of_ne hjp] at hj
      exact .inr hj
  -- nobody else is for the child's part
  have hothers : ∀ j q₁ ρ, (s.set i (some ⟨f, p, rest, parent⟩)).proc j = some q₁ → π <+: ρ →
      ¬Visits q₁.code ρ := by
    intro j q₁ ρ hj hπ hv₁
    by_cases hji : j = i
    · subst hji
      obtain rfl : (⟨f, p, rest, parent⟩ : Proc) = q₁ := by simpa [State.set] using hj
      exact hdisj ρ hπ hv₁
    · have hj' : s.proc j = some q₁ := by
        simpa [State.set, Function.update_of_ne hji] using hj
      exact hji (h.apart j i q₁ _ ρ hj' hq hv₁ (hmine hπ))
  refine ⟨h.made, h.inj, h.bound, fun j q₁ hj => ?_, fun j q₁ ρ hj hv₁ => ?_,
    fun j k q₁ q₂ ρ hj hk hv₁ hv₂ => ?_, fun j q₁ hj => ?_⟩
  · rcases hproc j q₁ hj with ⟨-, rfl⟩ | hj
    · exact hchild
    · exact hset.point j q₁ hj
  · rcases hproc j q₁ hj with ⟨-, rfl⟩ | hj
    · exact h.fresh i _ ρ hq (hmine (hv hv₁))
    · exact hset.fresh j q₁ ρ hj hv₁
  · rcases hproc j q₁ hj with ⟨rfl, rfl⟩ | hj
    · rcases hproc k q₂ hk with ⟨rfl, -⟩ | hk
      · rfl
      · exact absurd hv₂ (hothers k q₂ ρ hk (hv hv₁))
    · rcases hproc k q₂ hk with ⟨rfl, rfl⟩ | hk
      · exact absurd hv₁ (hothers j q₁ ρ hj (hv hv₂))
      · exact hset.apart j k q₁ q₂ ρ hj hk hv₁ hv₂
  · rcases hproc j q₁ hj with ⟨rfl, -⟩ | hj
    · exact Nat.lt_succ_self _
    · exact Nat.lt_succ_of_lt (hset.pids j q₁ hj)

/-- A process makes a pipe. -/
theorem Inv.pipe {rest : List Instr} {f : Fds} {p : Nat × Nat} {parent : Option Nat}
    (h : Inv env num cmd io s) (hq : s.proc i = some ⟨f, p, .pipe π :: rest, parent⟩) :
    Inv env (Function.update num π (some s.pipes)) cmd io
      { s.set i (some ⟨withPipe f s.pipes, (3, 4), rest, parent⟩) with
        pipes := s.pipes + 1
        made := Function.update s.made π (some s.pipes) } := by
  obtain ⟨l, r, hat, rfl⟩ := (h.point i _ hq).pipe
  have hmine : Visits (Instr.pipe π :: [.fork toWrite (π ++ [.left]) l,
      .fork toRead (π ++ [.right]) r, .call (.close .read), .call (.close .write), .wait π, .wait π,
      .exit π]) π := ⟨_, List.mem_cons_self, rfl⟩
  have hnew : num π = none := h.fresh i _ π hq hmine
  have hle : ∀ π' n, num π' = some n → Function.update num π (some s.pipes) π' = some n := by
    intro π' n hn
    rw [Function.update_of_ne, hn]
    rintro rfl
    rw [hnew] at hn
    cases hn
  have hold : ∀ π' n, Function.update num π (some s.pipes) π' = some n →
      π' = π ∧ n = s.pipes ∨ num π' = some n := by
    intro π' n hn
    by_cases hπ : π' = π
    · subst hπ
      rw [Function.update_self] at hn
      cases hn
      exact .inl ⟨rfl, rfl⟩
    · rw [Function.update_of_ne hπ] at hn
      exact .inr hn
  refine h.lessen (Nat.le_refl _) (by rw [h.made]) (fun π₁ π₂ n h₁ h₂ => ?_) (fun π' n hn => ?_)
    fun j q₁ hj => ?_
  · rcases hold π₁ n h₁ with ⟨rfl, rfl⟩ | h₁'
    · rcases hold π₂ _ h₂ with ⟨rfl, -⟩ | h₂'
      · rfl
      · exact absurd (h.bound _ _ h₂') (Nat.lt_irrefl _)
    · rcases hold π₂ n h₂ with ⟨rfl, rfl⟩ | h₂'
      · exact absurd (h.bound _ _ h₁') (Nat.lt_irrefl _)
      · exact h.inj π₁ π₂ n h₁' h₂'
  · rcases hold π' n hn with ⟨-, rfl⟩ | hn'
    · exact Nat.lt_succ_self _
    · exact Nat.lt_succ_of_lt (h.bound π' n hn')
  · by_cases hji : j = i
    · subst hji
      obtain rfl : (⟨withPipe f s.pipes, (3, 4), _, parent⟩ : Proc) = q₁ := by
        simpa [State.set] using hj
      refine ⟨_, hq, .piped (hat.mono hle) (Function.update_self _ _ _) List.suffix_rfl (by simp),
        fun ρ hv => ⟨visits_tail hv, ?_⟩⟩
      rw [Function.update_of_ne]
      · exact h.fresh j _ ρ hq (visits_tail hv)
      · rintro rfl
        obtain ⟨x, hx, hv⟩ := hv
        simp only [List.mem_cons, List.not_mem_nil, or_false] at hx
        rcases hx with rfl | rfl | rfl | rfl | rfl | rfl | rfl
        · simpa using List.IsPrefix.length_le hv
        · simpa using List.IsPrefix.length_le hv
        all_goals exact hv
    · have hj' : s.proc j = some q₁ := by
        simpa [State.set, Function.update_of_ne hji] using hj
      refine ⟨q₁, hj', (h.point j q₁ hj').mono hle, fun ρ hv => ⟨hv, ?_⟩⟩
      rw [Function.update_of_ne]
      · exact h.fresh j q₁ ρ hj' hv
      · rintro rfl
        exact hji (h.apart j i q₁ _ ρ hj' hq hv hmine)

theorem visits_single {x : Instr} (h : Visits [x] ρ) : x.visits ρ := by
  obtain ⟨i, hi, hv⟩ := h
  obtain rfl : i = x := by simpa using hi
  exact hv

/-- What one call of a process keeps. -/
theorem Inv.step (h : Inv env num cmd io s) (hio : Std io) (hlow : Low cmd)
    (hq : s.proc i = some q) (hstep : s.step env i q = some s') :
    ∃ num', Inv env num' cmd io s' := by
  obtain ⟨f, p, code, parent⟩ := q
  have hpoint := h.point i _ hq
  cases code with
  | nil => cases hstep
  | cons x rest =>
      cases x with
      | call c =>
          cases hstep
          exact ⟨num, h.set hq (hpoint.call hio hlow) fun ρ => visits_tail⟩
      | pipe π =>
          obtain ⟨l, r, hat, -⟩ := hpoint.pipe
          have hstd := (hat.std hio hlow).1
          simp only [State.step, fdalloc_std hstd, Option.bind_some, fdalloc_read hstd,
            Option.map_some, Option.some.injEq] at hstep
          subst hstep
          exact ⟨_, h.pipe hq⟩
      | fork cs π c =>
          cases hstep
          exact ⟨num, h.fork hio hlow hq⟩
      | wait =>
          simp only [State.step] at hstep
          split at hstep
          · cases hstep
            exact ⟨num, h.set hq hpoint.waited fun ρ => visits_tail⟩
          · cases hstep
      | run π c =>
          cases hstep
          exact ⟨num, h.set hq hpoint.run fun ρ hv => ⟨_, List.mem_cons_self, visits_body hv⟩⟩
      | exec path argv π =>
          cases hstep
          refine ⟨num, h.set hq hpoint.exec.1 fun ρ hv => ⟨_, List.mem_cons_self, ?_⟩⟩
          exact visits_single (x := .program argv π) hv
      | program argv π =>
          cases hstep
          exact ⟨num, h.exit hq⟩
      | exit =>
          cases hstep
          exact ⟨num, h.exit hq⟩

/-- What a call that fails keeps. -/
theorem Inv.fail (h : Inv env num cmd io s) (hq : s.proc i = some q)
    (hfail : s.fail i q = some s') : Inv env num cmd io s' := by
  obtain ⟨f, p, code, parent⟩ := q
  rw [State.fail] at hfail
  dsimp only at hfail
  split at hfail
  · cases hfail
    exact h.exit hq
  · cases hfail
    exact h.exit hq
  · cases hfail
    exact h.exit hq
  · cases hfail
    exact h.set hq (h.point i _ hq).exec.2 fun ρ => visits_tail
  · cases hfail

/-- What a `wait` keeps. -/
theorem Inv.reap (h : Inv env num cmd io s) (hq : s.proc i = some q)
    (hreap : s.reap i j q z = some s') : Inv env num cmd io s' := by
  obtain ⟨f, p, code, parent⟩ := q
  rw [State.reap] at hreap
  split at hreap
  · rename_i rest hcode _
    obtain rfl : code = .wait _ :: rest := hcode
    split at hreap
    · cases hreap
      have hgone : Inv env num cmd io (s.set i (some ⟨f, p, rest, parent⟩)) :=
        h.set hq (h.point i _ hq).waited fun ρ => visits_tail
      refine hgone.lessen (Nat.le_refl _) h.made h.inj h.bound fun k q₁ hk => ⟨q₁, ?_, ?_⟩
      all_goals
        have hk' : (s.set i (some ⟨f, p, rest, parent⟩)).proc k = some q₁ := by
          simp only [State.set] at hk ⊢
          by_cases hki : k = i
          · rwa [hki, Function.update_self] at hk ⊢
          · rw [Function.update_of_ne hki] at hk ⊢
            by_cases hkj : k = j
            · rw [hkj, Function.update_self] at hk
              cases hk
            · rwa [Function.update_of_ne hkj] at hk
      · exact hk'
      · exact hgone.same hk'
    · cases hreap
  · cases hreap

theorem inv_start (env : String) (cmd : Tree String) (io : Fds) :
    Inv env (fun _ => none) cmd io (start cmd io) := by
  have hproc : ∀ i q, (start cmd io).proc i = some q →
      i = 0 ∧ q = ⟨io, (0, 0), [.run [] cmd], none⟩ := by
    intro i q hq
    simp only [start] at hq
    split at hq
    · rename_i hi
      cases hq
      exact ⟨hi, rfl⟩
    · cases hq
  refine ⟨rfl, nofun, nofun, fun i q hq => ?_, fun _ _ _ _ _ => rfl, fun i j q q' _ hi hj _ _ => ?_,
    fun i q hq => ?_⟩
  · obtain ⟨-, rfl⟩ := hproc i q hq
    exact .atRun .root
  · rw [(hproc i q hi).1, (hproc j q' hj).1]
  · rw [(hproc i q hq).1]
    exact Nat.zero_lt_one

/-- Whatever happens, every process is at some point of `runcmd`. -/
theorem inv_of_run (hio : Std io) (hlow : Low cmd)
    (hr : Reaches (next env) (fun _ _ => True) (start cmd io) s) :
    ∃ num, Inv env num cmd io s := by
  refine hr.inv (I := fun t => ∃ num, Inv env num cmd io t) ?_ ⟨_, inv_start env cmd io⟩
  rintro t a t' ⟨num, ht⟩ - hnext
  cases a with
  | step i =>
      obtain ⟨q, hq, hstep⟩ := Option.bind_eq_some_iff.1 hnext
      exact ht.step hio hlow hq hstep
  | fail i =>
      obtain ⟨q, hq, hfail⟩ := Option.bind_eq_some_iff.1 hnext
      exact ⟨num, ht.fail hq hfail⟩
  | reap i j =>
      obtain ⟨q, hq, hrest⟩ := Option.bind_eq_some_iff.1 hnext
      obtain ⟨z, -, hreap⟩ := Option.bind_eq_some_iff.1 hrest
      exact ⟨num, ht.reap hq hreap⟩

/-- The command that an instruction is for. -/
def Instr.at : Instr → Option Path
  | .call _ => none
  | .fork _ π _ => some π.dropLast
  | .pipe π | .wait π | .run π _ | .exec _ _ π | .program _ π | .exit π => some π

end Run

/-! ## The trees of the parser -/

section Parsed

variable {W V : Type} {t : Tree W}

/-- Another kind of words. -/
def mapWords (g : W → V) : Tree W → Tree V
  | .exec argv => .exec (argv.map g)
  | .redir c file mode fd => .redir (mapWords g c) (g file) mode fd
  | .pipe l r => .pipe (mapWords g l) (mapWords g r)
  | .list l r => .list (mapWords g l) (mapWords g r)
  | .back c => .back (mapWords g c)

theorem redir_lt (op : RedirOp) (w : W) : (op.redir w).fd < 3 := by
  cases op <;> simp [RedirOp.redir]

theorem low_redircmd (ops : List (RedirOp × W)) (h : Low t) : Low (redircmd t (redirsOf ops)) := by
  induction ops generalizing t with
  | nil => exact h
  | cons o ops ih => exact ih ⟨redir_lt o.1 o.2, h⟩

theorem low_backs (n : Nat) (h : Low t) : Low (backs n t) := by
  induction n generalizing t with
  | zero => exact h
  | succ n ih => exact ih (t := .back t) h

mutual

/-- The redirections of a line are of standard input and output. -/
theorem low_line {ts : List (Tok W)} {t : Tree W} : Line ts t → Low t
  | .last n hp => low_backs n (low_pipe hp)
  | .seq n hp hl => ⟨low_backs n (low_pipe hp), low_line hl⟩

theorem low_pipe {ts : List (Tok W)} {t : Tree W} : Pipe ts t → Low t
  | .last he => low_exec he
  | .more he hp => ⟨low_exec he, low_pipe hp⟩

theorem low_exec {ts : List (Tok W)} {t : Tree W} : Exec ts t → Low t
  | .block ops hl => low_redircmd ops (low_line hl)
  | .simple ops items _ => by
      rw [redirsOf, redirsOf, ← List.map_append]
      exact low_redircmd (ops ++ items.flatMap Prod.snd) trivial

end

end Parsed

/-! ## Main results -/

section Main

variable {line : CString} {t : Tree Word} {buf : List Char} {env : String} {s : State}

/-- The command of a line, with the words as the strings that `nulterminate` makes of them. -/
def command (line : CString) (buf : List Char) (t : Tree Word) : Tree String :=
  mapWords (fun w => String.ofList (stringAt buf (line.1.length - w.q))) t

end Main

end Xv6.User.Bash.Runcmd
