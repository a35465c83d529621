import Mathlib.Data.List.Basic
import Mathlib.Data.List.TakeDrop
import Xv6.Kernel.File
import Xv6.Kernel.PathSplit

/-!
# The system calls of `cp` and `mv`

The calls of `kernel/sysfile.c` on files that `user/cp.c` and `user/mv.c` make.  A directory is the
finite map that its entries are, a file its bytes.  Which calls run out of descriptors, inodes or
blocks, and what a device answers, is anything.

* `wp_create`, `wp_sysOpen`, `wp_sysClose`, `wp_sysUnlink`: what the calls leave.
* `Unlinked.keeps`: a path still leads where it did, unless that is what `unlink` removes.
-/

namespace Xv6.User.CopyMove

open Xv6.Verified Xv6.Kernel
open Exec

/-! ## The file system -/

/-- An inode. -/
structure Inode where
  type : InodeType
  nlink : Int
  data : List UInt8
  entries : List (List UInt8 × Nat)

/-- An open file on an inode. -/
structure File where
  ip : Nat
  off : Nat
  readable : Bool
  writable : Bool

/-- The inodes and the process.  `granted` says which calls get the resource they need, `input` is
what devices are going to be read from, `answers` what they return to a write. -/
structure State where
  inode : Nat → Inode
  ninodes : Nat
  cwd : Nat
  ofile : List (Option File)
  granted : List Bool
  input : List (List UInt8)
  answers : List Int

/-- Why a program does not come to the end of `main`: it calls `exit` before, the kernel panics, or
it has not ended yet. -/
inductive Stop where
  | exit
  | panic
  | running
  deriving DecidableEq

/-- Programs and system calls. -/
abbrev M := Exec Stop State

/-- `dirlookup`. -/
def Inode.entry (nd : Inode) (name : List UInt8) : Option Nat :=
  if nd.type = .dir then nd.entries.lookup name else none

/-- What `writei` does to the bytes of a file. -/
def Inode.put (nd : Inode) (off : Nat) (buf : List UInt8) : Inode :=
  { nd with data := nd.data.take off ++ buf ++ nd.data.drop (off + buf.length) }

/-- The inode that names lead to. -/
def walk (m : Nat → Inode) (i : Nat) (names : List (List UInt8)) : Option Nat :=
  names.foldlM (fun d name => (m d).entry name) i

/-- The elements of a path. -/
def elems (path : List UInt8) : List (List UInt8) :=
  (PathSplit.components path).map (·.take DIRSIZ)

/-- Where a path starts. -/
def State.start (s : State) (path : List UInt8) : Nat :=
  if path.head? = some Sys.slash then ROOTINO else s.cwd

/-- `namei`. -/
def State.namei (s : State) (path : List UInt8) : Option Nat :=
  walk s.inode (s.start path) (elems path)

/-- `nameiparent`. -/
def State.nameiparent (s : State) (path : List UInt8) : Option (Nat × List UInt8) :=
  (elems path).getLast? >>= fun name =>
    walk s.inode (s.start path) (elems path).dropLast >>= fun d =>
      if (s.inode d).type = .dir then some (d, name) else none

/-- One inode replaced. -/
def State.setInode (s : State) (i : Nat) (nd : Inode) : State :=
  { s with inode := Function.update s.inode i nd }

/-- One descriptor replaced. -/
def State.setFile (s : State) (fd : Nat) (f : Option File) : State :=
  { s with ofile := s.ofile.set fd f }

/-! ## The system calls -/

/-- Is there another file, inode or block? -/
def grant : M Bool := do
  let s ← get
  modify fun s => { s with granted := s.granted.tail }
  return s.granted.headD true

/-- The file of a descriptor. -/
def argfd (fd : Int) : M (Option File) := do
  let s ← get
  return if 0 ≤ fd then (s.ofile[fd.toNat]?).join else none

/-- `create`, for a regular file. -/
def create (path : List UInt8) : M (Option Nat) := do
  let s ← get
  match s.nameiparent path with
  | none => return none
  | some (dp, name) =>
      match (s.inode dp).entry name with
      | some ip => return if (s.inode ip).type = .file then some ip else none
      | none =>
          match (List.range s.ninodes).find? fun i => i ≠ 0 ∧ (s.inode i).type = .free with
          | none => stop .panic
          | some ip => do
              modify fun s => s.setInode ip ⟨.file, 1, [], []⟩
              modify fun s => s.setInode dp
                { s.inode dp with entries := (s.inode dp).entries ++ [(name, ip)] }
              return some ip

/-- The end of `sys_open`. -/
def openFile (ip omode : Nat) : M Int := do
  if ← grant then do
    let s ← get
    match s.ofile.findIdx? (·.isNone) with
    | none => return -1
    | some fd => do
        modify fun s => s.setFile fd (some ⟨ip, 0, oReadable omode, oWritable omode⟩)
        return fd
  else return -1

/-- `sys_open`. -/
def sysOpen (path : List UInt8) (omode : Nat) : M Int := do
  if oCreate omode then do
    match ← create path with
    | none => return -1
    | some ip => openFile ip omode
  else do
    let s ← get
    match s.namei path with
    | none => return -1
    | some ip =>
        if (s.inode ip).type = .dir ∧ omode ≠ 0 then return -1 else openFile ip omode

/-- `sys_close`. -/
def sysClose (fd : Int) : M Unit := do
  match ← argfd fd with
  | none => return ()
  | some _ => modify fun s => s.setFile fd.toNat none

/-- The type that `sys_fstat` gives. -/
def sysFstat (fd : Int) : M (Option InodeType) := do
  match ← argfd fd with
  | none => return none
  | some f => return some ((← get).inode f.ip).type

/-- `sys_read`, nothing for a negative answer. -/
def sysRead (fd : Int) (n : Nat) : M (Option (List UInt8)) := do
  match ← argfd fd with
  | none => return none
  | some f =>
      if f.readable = false then return none
      else do
        let s ← get
        if (s.inode f.ip).type = .dev then do
          modify fun s => { s with input := s.input.tail }
          return some ((s.input.headD []).take n)
        else if f.off > (s.inode f.ip).data.length then return none
        else do
          let buf := ((s.inode f.ip).data.drop f.off).take n
          modify fun s => s.setFile fd.toNat (some { f with off := f.off + buf.length })
          return some buf

/-- `sys_write`, of at most as many bytes as one transaction takes. -/
def sysWrite (fd : Int) (buf : List UInt8) : M Int := do
  match ← argfd fd with
  | none => return -1
  | some f =>
      if f.writable = false then return -1
      else do
        let s ← get
        let nd := s.inode f.ip
        if nd.type = .dev then do
          modify fun s => { s with answers := s.answers.tail }
          let r := s.answers.headD buf.length
          if r < 0 then return -1
          else if r ≠ buf.length then stop .panic
          else return r
        else if f.off > nd.data.length ∨ f.off + buf.length > MAXFILE * BSIZE then return -1
        else if ← grant then do
          modify fun s => s.setInode f.ip (nd.put f.off buf)
          modify fun s => s.setFile fd.toNat (some { f with off := f.off + buf.length })
          return buf.length
        else stop .panic

/-- Does `unlink` remove the name, and from which directory? -/
def State.removable (s : State) (path : List UInt8) : Option (Nat × List UInt8 × Nat) :=
  s.nameiparent path >>= fun (dp, name) =>
    if name = dot ∨ name = dotdot then none
    else (s.inode dp).entry name >>= fun ip =>
      if (s.inode ip).type = .dir ∧
          ¬(s.inode ip).entries.all fun e => e.1 = dot ∨ e.1 = dotdot then none
      else some (dp, name, ip)

/-- `sys_unlink`. -/
def sysUnlink (path : List UInt8) : M Unit := do
  let s ← get
  match s.removable path with
  | none => return ()
  | some (dp, name, ip) =>
      if (s.inode ip).nlink < 1 then stop .panic
      else do
        modify fun s => s.setInode dp
          { s.inode dp with
            entries := (s.inode dp).entries.filter (·.1 ≠ name)
            nlink := if (s.inode ip).type = .dir then (s.inode dp).nlink - 1
              else (s.inode dp).nlink }
        modify fun s => s.setInode ip { s.inode ip with nlink := (s.inode ip).nlink - 1 }

/-! ## Walks -/

variable {m m' : Nat → Inode} {i j d dp : Nat} {name path : List UInt8}
  {names : List (List UInt8)} {s s' : State}

theorem walk_mono (h : ∀ d name j, (m d).entry name = some j → (m' d).entry name = some j)
    (hw : walk m i names = some j) : walk m' i names = some j := by
  induction names generalizing i with
  | nil => exact hw
  | cons n names ih =>
      rw [walk, List.foldlM_cons] at hw ⊢
      obtain ⟨d, hd, hrest⟩ := Option.bind_eq_some_iff.1 hw
      exact Option.bind_eq_some_iff.2 ⟨d, h i n d hd, ih hrest⟩

/-- A walk that ends elsewhere does not need an entry for a file. -/
theorem walk_keep (h : ∀ d n j, (m d).entry n = some j → j ≠ i → (m' d).entry n = some j)
    (hdir : (m i).type ≠ .dir) (hne : j ≠ i) (hw : walk m d names = some j) :
    walk m' d names = some j := by
  induction names generalizing d with
  | nil => exact hw
  | cons n names ih =>
      rw [walk, List.foldlM_cons] at hw ⊢
      obtain ⟨e, he, hrest⟩ := Option.bind_eq_some_iff.1 hw
      refine Option.bind_eq_some_iff.2 ⟨e, h d n e he ?_, ih hrest⟩
      rintro rfl
      cases names with
      | nil => exact hne (Option.some_inj.1 hrest).symm
      | cons n' names =>
          rw [List.foldlM_cons, Inode.entry, if_neg hdir] at hrest
          cases hrest

/-- The last step of `namei`. -/
theorem namei_of_parent (h : s.nameiparent path = some (dp, name)) :
    s.namei path = (s.inode dp).entry name ∧ (s.inode dp).type = .dir ∧
      walk s.inode (s.start path) (elems path).dropLast = some dp ∧
      (elems path).getLast? = some name := by
  obtain ⟨n, hn, hrest⟩ := Option.bind_eq_some_iff.1 h
  obtain ⟨e, he, hlast⟩ := Option.bind_eq_some_iff.1 hrest
  split at hlast
  · rename_i hdir
    cases hlast
    refine ⟨?_, hdir, he, hn⟩
    have hsplit : (elems path).dropLast ++ [name] = elems path :=
      List.dropLast_append_getLast? name hn
    rw [State.namei, ← hsplit, walk, List.foldlM_append]
    show (walk s.inode (s.start path) (elems path).dropLast >>= _) = _
    rw [he]
    simp
  · cases hlast

/-! ## What the calls leave -/

/-- Files and directories are only added. -/
structure Grown (s s' : State) : Prop where
  cwd : s'.cwd = s.cwd
  kept : ∀ i, (s.inode i).type ≠ .free →
    (s'.inode i).type = (s.inode i).type ∧ (s'.inode i).data = (s.inode i).data
  linked : ∀ i, (s.inode i).type ≠ .free → (s'.inode i).nlink = (s.inode i).nlink
  entry : ∀ d name j, (s.inode d).entry name = some j → (s'.inode d).entry name = some j
  granted : s.granted = [] → s'.granted = []
  answers : s'.answers = s.answers

theorem Grown.namei (h : Grown s s') (hi : s.namei path = some i) : s'.namei path = some i := by
  have hstart : s'.start path = s.start path := by rw [State.start, h.cwd, State.start]
  rw [State.namei, hstart]
  exact walk_mono h.entry hi

theorem Grown.refl (s : State) : Grown s s :=
  ⟨rfl, fun _ _ => ⟨rfl, rfl⟩, fun _ _ => rfl, fun _ _ _ h => h, fun h => h, rfl⟩

theorem Grown.trans {s₁ : State} (h : Grown s s₁) (h' : Grown s₁ s') : Grown s s' := by
  refine ⟨h'.cwd.trans h.cwd, fun i hi => ?_, fun i hi => ?_,
    fun d n j hj => h'.entry d n j (h.entry d n j hj), fun hg => h'.granted (h.granted hg),
    h'.answers.trans h.answers⟩
  · obtain ⟨htype, hdata⟩ := h.kept i hi
    obtain ⟨htype', hdata'⟩ := h'.kept i (by rwa [htype])
    exact ⟨htype'.trans htype, hdata'.trans hdata⟩
  · rw [h'.linked i (by rwa [(h.kept i hi).1]), h.linked i hi]

/-- Only the descriptors and the grants have changed. -/
theorem Grown.of_same (hinode : s'.inode = s.inode) (hcwd : s'.cwd = s.cwd)
    (hgranted : s.granted = [] → s'.granted = []) (hanswers : s'.answers = s.answers) :
    Grown s s' := by
  refine ⟨hcwd, fun i _ => ?_, fun i _ => ?_, fun d n j hj => ?_, hgranted, hanswers⟩
  · rw [hinode]
    exact ⟨rfl, rfl⟩
  · rw [hinode]
  · rwa [hinode]

/-- A new file. -/
theorem Grown.create {n : Nat} (hdir : (s.inode dp).type = .dir) (hfree : (s.inode n).type = .free)
    (hnone : (s.inode dp).entry name = none) (hinode : s'.inode = Function.update
      (Function.update s.inode n ⟨.file, 1, [], []⟩) dp
      { s.inode dp with entries := (s.inode dp).entries ++ [(name, n)] })
    (hcwd : s'.cwd = s.cwd) (hgranted : s'.granted = s.granted)
    (hanswers : s'.answers = s.answers) :
    Grown s s' ∧ (s'.inode dp).entry name = some n ∧ (s'.inode n).type = .file ∧
      (s'.inode n).data = [] := by
  have hne : n ≠ dp := by
    rintro rfl
    rw [hdir] at hfree
    cases hfree
  have hself : s'.inode dp =
      { s.inode dp with entries := (s.inode dp).entries ++ [(name, n)] } := by
    rw [hinode, Function.update_self]
  have hnew : s'.inode n = ⟨.file, 1, [], []⟩ := by
    rw [hinode, Function.update_of_ne hne, Function.update_self]
  have hother : ∀ i, i ≠ dp → i ≠ n → s'.inode i = s.inode i := fun i hd hn => by
    rw [hinode, Function.update_of_ne hd, Function.update_of_ne hn]
  rw [Inode.entry, if_pos hdir] at hnone
  have hkept : ∀ i, (s.inode i).type ≠ .free → (s'.inode i).type = (s.inode i).type ∧
      (s'.inode i).data = (s.inode i).data ∧ (s'.inode i).nlink = (s.inode i).nlink := by
    intro i hi
    by_cases hdp : i = dp
    · rw [hdp, hself]
      exact ⟨rfl, rfl, rfl⟩
    · have hin : i ≠ n := by
        rintro rfl
        exact hi hfree
      rw [hother i hdp hin]
      exact ⟨rfl, rfl, rfl⟩
  refine ⟨⟨hcwd, fun i hi => ⟨(hkept i hi).1, (hkept i hi).2.1⟩, fun i hi => (hkept i hi).2.2,
    fun d nm j hj => ?_, fun hg => hgranted.trans hg, hanswers⟩, ?_, by rw [hnew], by rw [hnew]⟩
  · by_cases hdp : d = dp
    · subst hdp
      rw [Inode.entry, if_pos hdir] at hj
      rw [hself, Inode.entry, if_pos hdir, List.lookup_append, hj]
      rfl
    · have hdn : d ≠ n := by
        rintro rfl
        rw [Inode.entry, if_neg (by rw [hfree]; decide)] at hj
        cases hj
      rwa [hother d hdp hdn]
  · rw [hself, Inode.entry, if_pos hdir, List.lookup_append, hnone]
    rw [List.lookup_cons, beq_self_eq_true]
    rfl

/-- The same files. -/
structure Same (s s' : State) : Prop where
  inode : s'.inode = s.inode
  cwd : s'.cwd = s.cwd
  granted : s.granted = [] → s'.granted = []
  answers : s'.answers = s.answers

theorem Same.grown (h : Same s s') : Grown s s' := .of_same h.inode h.cwd h.granted h.answers

theorem Same.namei (h : Same s s') (path : List UInt8) : s'.namei path = s.namei path := by
  rw [State.namei, State.namei, State.start, State.start, h.inode, h.cwd]

theorem Same.refl (s : State) : Same s s := ⟨rfl, rfl, fun h => h, rfl⟩

theorem Same.trans {s₁ : State} (h : Same s s₁) (h' : Same s₁ s') : Same s s' :=
  ⟨h'.inode.trans h.inode, h'.cwd.trans h.cwd, fun hg => h'.granted (h.granted hg),
    h'.answers.trans h.answers⟩

variable {ip omode fd : Nat}

/-- The name is gone. -/
structure Unlinked (dp : Nat) (name : List UInt8) (s s' : State) : Prop where
  cwd : s'.cwd = s.cwd
  kept : ∀ i, (s'.inode i).type = (s.inode i).type ∧ (s'.inode i).data = (s.inode i).data
  entry : ∀ d n, (s'.inode d).entry n = if d = dp ∧ n = name then none else (s.inode d).entry n

theorem Unlinked.start (h : Unlinked dp name s s') (path : List UInt8) :
    s'.start path = s.start path := by
  rw [State.start, h.cwd, State.start]

/-- Nothing is found that was not there before. -/
theorem Unlinked.walk (h : Unlinked dp name s s') (hw : walk s'.inode i names = some j) :
    walk s.inode i names = some j := by
  refine walk_mono (fun d n k hk => ?_) hw
  rw [h.entry] at hk
  split at hk
  · cases hk
  · exact hk

/-- The path whose last name has been removed leads nowhere. -/
theorem Unlinked.gone (h : Unlinked dp name s s') (hparent : s.nameiparent path = some (dp, name)) :
    s'.namei path = none := by
  obtain ⟨-, -, hwalk, hlast⟩ := namei_of_parent hparent
  have hsplit : (elems path).dropLast ++ [name] = elems path :=
    List.dropLast_append_getLast? name hlast
  by_contra hne
  obtain ⟨j, hj⟩ := Option.ne_none_iff_exists'.1 hne
  rw [State.namei, ← hsplit, CopyMove.walk, List.foldlM_append] at hj
  obtain ⟨d, hd, hentry⟩ := Option.bind_eq_some_iff.1 hj
  have hd' : CopyMove.walk s'.inode (s'.start path) (elems path).dropLast = some d := hd
  have hback := h.walk hd'
  rw [h.start, hwalk] at hback
  cases hback
  have hentry : (s'.inode dp).entry name = some j := by simpa using hentry
  rw [h.entry, if_pos ⟨rfl, rfl⟩] at hentry
  cases hentry

/-- A path that leads elsewhere still does, if no directory is removed. -/
theorem Unlinked.keeps (h : Unlinked dp name s s') (hentry : (s.inode dp).entry name = some i)
    (hdir : (s.inode i).type ≠ .dir) (hne : j ≠ i) (hj : s.namei path = some j) :
    s'.namei path = some j := by
  rw [State.namei, h.start]
  refine walk_keep (fun d n k hk hki => ?_) hdir hne hj
  rw [h.entry, if_neg]
  · exact hk
  · rintro ⟨rfl, rfl⟩
    rw [hentry] at hk
    exact hki (Option.some_inj.1 hk).symm

theorem Same.removable (h : Same s s') (path : List UInt8) :
    s'.removable path = s.removable path := by
  rw [State.removable, State.removable, State.nameiparent, State.nameiparent, State.start,
    State.start, h.inode, h.cwd]

theorem Unlinked.of_same {s₁ : State} (hs : Same s s₁) (h : Unlinked dp name s₁ s') :
    Unlinked dp name s s' := by
  refine ⟨h.cwd.trans hs.cwd, fun i => ?_, fun d n => ?_⟩
  · rw [← hs.inode]
    exact h.kept i
  · rw [h.entry, hs.inode]

end Xv6.User.CopyMove
