import Xv6.Kernel.Starved
import Xv6.Kernel.Transactions
import Xv6.Kernel.WriteThrough

/-!
# What a power cut leaves

The kernel's state shows the disk as the buffer cache does.  A `Machine` has the sectors as well: a
process that logs a block writes a slot of the log, `commit_trans` writes the header, the blocks and
the header again, and nothing else is ever written.  When the power is cut, what the disk then holds
is all that is left, and `recover_from_log` makes of it what the next kernel starts from.

## Main results

* `power_cut_recovers`: whatever the processes are doing, the recovery ends with the blocks as they
  were after the last commit, or with those of the commit that was going on.  In both cases they are
  those of a well-formed file system.
-/

namespace Xv6.Kernel

open Xv6.Verified
open Xv6.Verified.CrashTrace
open Exec

/-! ## The machine -/

/-- The kernel, the sectors of its disk, and the kernel as it was after the last commit. -/
structure Machine where
  kernel : State
  disk : Nat → Block
  last : State

namespace Machine

/-- What `commit_trans` does to the disk. -/
def commit (m : Machine) : LogDisk :=
  match LogDisk.commitTrans.run ⟨m.disk, m.kernel.log, []⟩ with
  | .ok _ s => s
  | .fail _ s => s

/-- The machine after an act that leaves the kernel in `k`. -/
def next (m : Machine) (k : State) : Act → Machine
  | .commitTrans => ⟨k, m.commit.disk, k⟩
  | _ =>
      { kernel := k
        disk x := if k.log.start ≤ x ∧ x < k.log.start + k.log.size then k.data x else m.disk x
        last := m.last }

/-- Process `p` performs act `a`. -/
def exec (p : Nat) (a : Act) : Exec Stop Machine a.Res :=
  ⟨fun m => match (Act.exec p a).run m.kernel with
    | .ok r k => .ok r (m.next k a)
    | .fail e k => .fail e { m with kernel := k }⟩

/-- The disks that a power cut can leave while an act is going on: any of the writes of
`commit_trans` may be missing from the end, and of the slots of the log any may have been written
by the other acts. -/
def Cut (m : Machine) (a : Act) (d : Nat → Block) : Prop :=
  match a with
  | .commitTrans => ∃ j, d = applyWrites m.disk (m.commit.writes.take j)
  | _ => ∀ x, ¬(m.kernel.log.start < x ∧ x < m.kernel.log.start + m.kernel.log.size) →
      d x = m.disk x

/-- A call is started as in the kernel alone. -/
def Starts (m : Machine) (p : Nat) (q : Prog Unit) : Prop := Kernel.Starts m.kernel p q

end Machine

/-! ## Acts that write no block -/

/-- The disk, the log and the geometry. -/
structure DiskPart where
  sb : Superblock
  lh : List Nat
  start : Nat
  size : Nat
  busy : Option Nat
  dinode : Nat → Dinode
  bitmap : Nat → Bool
  data : Nat → Block
  starved : Bool

/-- What acts that write no block leave alone. -/
def State.diskPart (k : State) : DiskPart :=
  ⟨k.sb, k.log.lh, k.log.start, k.log.size, k.log.busy, k.dinode, k.bitmap, k.data, k.starved⟩

/-- The disk, the log and the geometry are the same. -/
def Still (k k' : State) : Prop := k'.diskPart = k.diskPart

instance : IsPreorder State Still where
  refl _ := rfl
  trans _ _ _ h h' := h'.trans h

theorem fileclose_still (f : Nat) : Preserves Still (fileclose f) :=
  .bind .get fun _ => .ite (.stop _) (.ite (.bind (.modify fun _ => rfl) fun _ => .pure _)
    (.bind (.modify fun _ => rfl) fun _ => .pure _))

theorem filealloc_still : Preserves Still filealloc := by
  refine .bind .get fun k => ?_
  split
  · exact .pure _
  · exact .bind (.modify fun _ => rfl) fun _ => .pure _

theorem fdalloc_still (f : Nat) : Preserves Still (fdalloc f) := by
  refine .bind .get fun k => ?_
  split
  · exact .pure _
  · exact .bind (.modify fun _ => rfl) fun _ => .pure _

theorem fileopen_still (ip omode : Nat) : Preserves Still (fileopen ip omode) := by
  refine .bind filealloc_still fun r => ?_
  split
  · exact .pure _
  · refine .bind (fdalloc_still _) fun r => ?_
    split
    · exact .bind (fileclose_still _) fun _ => .pure _
    · exact .bind (.modify fun _ => rfl) fun _ => .pure _

theorem argfd_still (fd : Nat) : Preserves Still (argfd fd) := .bind .get fun _ => .pure _

theorem cwd_still : Preserves Still cwd := by
  refine .bind .get fun k => ?_
  split
  · exact .stop _
  · exact .pure _

theorem idupCwd_still : Preserves Still idupCwd :=
  .bind cwd_still fun _ => .bind (.modify fun _ => rfl) fun _ => .pure _

/-- An act that neither reads nor writes blocks leaves them alone. -/
theorem code_still {a : Act} (hw : a.writes = false) (hr : a.reads = false)
    (hb : a ≠ .beginTrans) (hc : a ≠ .commitTrans) : Preserves Still a.code := by
  cases a with
  | beginTrans => exact absurd rfl hb
  | commitTrans => exact absurd rfl hc
  | iget inum =>
      exact .bind .get fun _ => .ite (.modify fun _ => rfl) (.ite (.stop _) (.modify fun _ => rfl))
  | idupCwd => exact idupCwd_still
  | ilock ip =>
      exact .bind .get fun _ => .ite (.stop _) (.ite (.stop _) (.bind (.modify fun _ => rfl)
        fun _ => .ite (.pure ()) (.bind (.modify fun _ => rfl) fun _ => .ite (.stop _) (.pure ()))))
  | iunlock ip => exact .bind .get fun _ => .ite (.stop _) (.modify fun _ => rfl)
  | stat ip => exact .bind .get fun _ => .pure _
  | iputCheck ip =>
      exact .bind .get fun _ => .ite (.ite (.stop _) (.bind (.modify fun _ => rfl)
        fun _ => .pure _)) (.bind (.modify fun _ => rfl) fun _ => .pure _)
  | iputFree ip => cases hw
  | readi ip off n => cases hr
  | writei ip src off => cases hw
  | bumpNlink ip δ => cases hw
  | initInode ip major minor => cases hw
  | ialloc type => cases hw
  | panic m => exact .stop _
  | fdfile fd =>
      refine .bind .get fun k => .bind (argfd_still fd) fun r => ?_
      split
      · exact .pure _
      · exact .pure _
  | fdoffset fd =>
      refine .bind .get fun k => .bind (argfd_still fd) fun r => ?_
      split
      · exact .stop _
      · exact .pure _
  | fdadvance fd n =>
      refine .bind (argfd_still fd) fun r => ?_
      split
      · exact .stop _
      · exact .modify fun _ => rfl
  | fdclose fd =>
      refine .bind (argfd_still fd) fun r => ?_
      split
      · exact .pure _
      · exact .bind (.modify fun _ => rfl) fun _ => .bind (fileclose_still _) fun _ => .pure _
  | fileopen ip omode => exact fileopen_still ip omode
  | cwd => exact cwd_still
  | setCwd ip => exact .modify fun _ => rfl
  | allocproc =>
      refine .bind .get fun k => ?_
      split
      · exact .pure _
      · exact .bind (.modify fun _ => rfl) fun _ => .pure _
  | setState c s => exact .modify fun _ => rfl
  | forkFd c fd =>
      refine .bind .get fun k => ?_
      split
      · exact .pure ()
      · exact .bind (.bind .get fun _ => .ite (.stop _) (.modify fun _ => rfl))
          fun _ => .modify fun _ => rfl
  | forkCwd c => exact .bind idupCwd_still fun _ => .modify fun _ => rfl
  | exitCheck => exact .bind .get fun _ => .ite (.stop _) (.pure ())
  | exitProc => exact .bind .get fun _ => .modify fun _ => rfl

/-! ## Every act but a commit -/

/-- Where things are on the disk. -/
def State.shape (k : State) : Superblock × Nat × Nat := (k.sb, k.log.start, k.log.size)

/-- The geometry is the same. -/
def Shape (k k' : State) : Prop := k'.shape = k.shape

instance : IsPreorder State Shape where
  refl _ := rfl
  trans _ _ _ h h' := h'.trans h

theorem shape_of_frame {α : Type} {m : K α} (h : Preserves Frame m) : Preserves Shape m :=
  h.imp fun k k' hf => by simp only [Shape, State.shape, hf.sb, hf.start, hf.size]

theorem writes_shape {a : Act} (hw : a.writes = true) : Preserves Shape a.code := by
  cases a with
  | iputFree ip =>
      exact .bind (shape_of_frame (itrunc_frame ip)) fun _ => .bind (.modify fun _ => rfl) fun _ =>
        .bind (shape_of_frame (iupdate_frame ip)) fun _ => .modify fun _ => rfl
  | writei ip src off =>
      refine .bind .get fun k => .ite (.ite (.pure _) ?_) (.ite (.pure _) (.ite (.pure _)
        (.bind (shape_of_frame (writeLoop_frame ip _ _ _ _)) fun _ =>
          .bind (shape_of_frame (growSize_frame ip _ _)) fun _ => .pure _)))
      split
      · exact .pure _
      · exact .bind (.modify fun _ => rfl) fun _ => .pure _
  | bumpNlink ip δ => exact shape_of_frame (bumpNlink_frame ip δ)
  | initInode ip major minor => exact shape_of_frame (initInode_frame ip major minor)
  | ialloc type =>
      refine .bind .get fun k => ?_
      cases firstFreeInode k.dinode (k.sb.ninodes - 1) 1 with
      | none => exact .stop _
      | some inum =>
          exact .bind (.modify fun _ => rfl) fun _ => .bind (shape_of_frame (logWrite_frame _))
            fun _ => .bind (.bind .get fun _ => .ite (.modify fun _ => rfl)
              (.ite (.stop _) (.modify fun _ => rfl))) fun _ => .pure _
  | _ => cases hw

section Act

variable {ts : Nat → TypeState} {home : Nat → Block} {k : State} {p : Nat} {strict : Bool}

/-- An inode that is in use has a number that the disk has room for. -/
theorem InLog.in_use {D : Nat → Prop} (h : InLog home D k) {i : Nat}
    (hi : (k.dinode i).type ≠ .free) : i < k.sb.ninodes := by
  by_contra hge
  rw [h.spare i (Nat.le_of_not_lt hge)] at hi
  exact hi rfl

/-- **An act that writes leaves no block dirty.** -/
theorem Invariant.writes_clean (h : Invariant ts k) (hc : Clean home k) {a : Act}
    (hw : a.writes = true) (hpre : (ts p).pre strict a) (hfed : k.starved = false) :
    wp a.code (fun _ k' => k'.starved = false → Clean home k') (fun _ _ => True) k := by
  have hwf := h.wf hfed
  have hlock : ∀ ip, ip ∈ (ts p).locks →
      (k.icache ip).valid = true ∧ ip < k.sb.ninodes := fun ip hip =>
    ⟨h.valid hip, hc.in_use (hwf.live ip (h.valid hip))⟩
  cases a with
  | iputFree ip =>
      obtain ⟨hv, hip⟩ := hlock ip hpre.1
      exact wp_mono (iputFree_clean hwf.owned hc hip hv) (fun _ _ h' _ => h') fun _ _ _ => trivial
  | writei ip src off =>
      obtain ⟨hv, hip⟩ := hlock ip hpre.1
      exact writei_clean hwf hc hip hv _ (Nat.mod_lt _ (by decide)) (Nat.mod_lt _ (by decide))
  | bumpNlink ip δ =>
      obtain ⟨hv, hip⟩ := hlock ip hpre.1
      exact wp_mono (bumpNlink_clean hc hip δ) (fun _ _ h' _ => h') fun _ _ _ => trivial
  | initInode ip major minor =>
      obtain ⟨hv, hip⟩ := hlock ip hpre.1
      exact wp_mono (initInode_clean hc hip major minor) (fun _ _ h' _ => h')
        fun _ _ _ => trivial
  | ialloc type =>
      exact wp_mono (ialloc_clean hc type) (fun _ _ h' _ => h') fun _ _ _ => trivial
  | _ => cases hw

theorem InLog.of_still {k' : State} (h : Clean home k) (hs : Still k k') : Clean home k' := by
  simp only [Still, State.diskPart, DiskPart.mk.injEq] at hs
  obtain ⟨hsb, hlh, hstart, hsize, hbusy, hdinode, hbitmap, hdata, -⟩ := hs
  exact h.still hlh hstart hsize (by rw [hbusy]; exact id) hsb hdinode hbitmap hdata

theorem beginTrans_clean (h : Clean home k) :
    wp beginTrans (fun _ k' => Clean home k' ∧ Shape k k') (fun _ _ => True) k := by
  unfold beginTrans
  rw [wp_bind, wp_get, wp_ite]
  exact ⟨fun _ => (wp_stop _).2 trivial, fun _ => (wp_modify _).2
    ⟨h.still rfl rfl rfl (fun hb => by cases hb) rfl rfl rfl rfl, rfl⟩⟩

theorem Still.shape {k k' : State} (h : Still k k') : Shape k k' := by
  simp only [Still, State.diskPart, DiskPart.mk.injEq] at h
  simp only [Shape, State.shape, h.1, h.2.2.1, h.2.2.2.1]

/-- `readi` of a locked inode changes no block. -/
theorem Invariant.readi_still (h : Invariant ts k) {ip off n : Nat} (hlock : ip ∈ (ts p).locks)
    (hfed : k.starved = false) :
    wp (Kernel.readi ip (off % UINT) (n % UINT)) (fun _ k' => Still k k') (fun _ _ => True) k := by
  have hv := h.valid hlock
  have hwf := h.wf hfed
  rcases InodeType.data_or_dev (hwf.live ip hv) with ht | ht
  · exact wp_of_ok (run_readi hwf hv ht (Nat.mod_lt _ (by decide)) (Nat.mod_lt _ (by decide))) rfl
  · refine wp_mono (readi_dev (by rw [hwf.coherent ip hv, ht])) ?_ fun _ _ _ => trivial
    rintro _ k' (rfl | rfl)
    · rfl
    · rfl

/-- **Every act but a commit leaves no block dirty**, whichever process performs it. -/
theorem Invariant.act_clean (h : Invariant ts k) (hk : Clean home k) {a : Act}
    (hc : a ≠ .commitTrans) (hpre : (ts p).pre strict a) (hfed : k.starved = false) {r : a.Res}
    {k' : State} (hrun : (Act.exec p a).run k = .ok r k') :
    k'.starved = false → Clean home k' ∧ Shape k k' := by
  obtain ⟨-, hcode⟩ := exec_ok hrun
  have hcur := h.of_cur p
  have hkcur : Clean home { k with cur := p } := hk.of_still rfl
  intro hs
  cases hw : a.writes with
  | true =>
      exact ⟨ok_of_wp (hcur.writes_clean hkcur hw hpre hfed) hcode hs,
        ok_of_wp ((writes_shape hw).wp { k with cur := p }) hcode⟩
  | false =>
      by_cases hb : a = .beginTrans
      · subst hb
        exact ok_of_wp (beginTrans_clean hkcur) hcode
      have hstill : Still { k with cur := p } k' := by
        cases hr : a.reads with
        | false => exact ok_of_wp ((code_still hw hr hb hc).wp _) hcode
        | true =>
            cases a with
            | readi ip off n => exact ok_of_wp (hcur.readi_still hpre hfed) hcode
            | _ => cases hr
      exact ⟨hkcur.of_still hstill, hstill.shape⟩

end Act

/-! ## The commit -/

namespace LogDisk

/-- `commit_trans` of a transaction that logged something. -/
theorem commitTrans_run (s : LogDisk) (hout : Outside s.log s.log.lh)
    (hlen : s.log.lh.length + 1 ≤ s.log.size) (hne : s.log.lh ≠ []) :
    ∃ s', commitTrans.run s = .ok () s' ∧ s'.writes = s.writes ++ commitWrites s.log s ∧
      s'.disk = applyWrites s.disk (commitWrites s.log s) := by
  have hinst := installTrans_run
    { s with
      disk := headed s.log s
      writes := s.writes ++ [(s.log.start, setHead (s.disk s.log.start) s.log.lh)] } hout hlen
  have hpos : s.log.lh.length > 0 := List.length_pos_of_ne_nil hne
  have hhead : writeHead.run s = .ok ()
      { s with
        disk := headed s.log s
        writes := s.writes ++ [(s.log.start, setHead (s.disk s.log.start) s.log.lh)] } := rfl
  have hrun : ∃ s', commitTrans.run s = .ok () s' := by
    simp only [commitTrans, run_get_bind, if_pos hpos]
    rw [run_bind_ok hhead, run_bind_ok hinst]
    exact ⟨_, rfl⟩
  obtain ⟨s', hs'⟩ := hrun
  refine ⟨s', hs', ?_⟩
  simp only [commitTrans, run_get_bind, if_pos hpos] at hs'
  rw [run_bind_ok hhead, run_bind_ok hinst] at hs'
  cases hs'
  constructor
  · simp [commitWrites]
  · simp [commitWrites, applyWrites_append, headed]

end LogDisk

open LogDisk

section Commit

variable {m : Machine} {k : State}

/-- A superblock that fits its block, for a log of the given place. -/
structure Formatted (k : State) : Prop where
  start : k.log.start = k.sb.logStart
  size : k.log.size = k.sb.nlog
  words : k.sb.size < UINT ∧ k.sb.nblocks < UINT ∧ k.sb.ninodes < UINT ∧ k.sb.nlog < UINT

theorem Formatted.shape {k k' : State} (h : Formatted k) (hs : Shape k k') : Formatted k' := by
  simp only [Shape, State.shape, Prod.mk.injEq] at hs
  obtain ⟨hsb, hstart, hsize⟩ := hs
  exact ⟨by rw [hsb, hstart, h.start], by rw [hsb, hsize, h.size], by rw [hsb]; exact h.words⟩

/-- The disk of a machine: below the log it is what the last commit left, in the log it is what the
kernel wrote there. -/
structure Machine.Stored (m : Machine) : Prop where
  clean : Clean m.disk m.kernel
  size : 0 < m.kernel.log.size
  region : ∀ x, m.kernel.log.Region x → m.disk x = m.kernel.data x
  last : ∀ x, x < m.kernel.log.start → (m.disk x).Same (m.last.image x)
  wf : Wf m.last
  shape : Shape m.kernel m.last
  spare : ∀ i, m.last.sb.ninodes ≤ i → m.last.dinode i = Dinode.zero
  geometry : Formatted m.kernel

theorem Machine.Stored.quiet (h : m.Stored) : LogDisk.Quiet m.kernel.log m.disk m.disk := by
  have hsize := h.size
  refine ⟨?_, fun _ _ => rfl⟩
  rw [h.region _ ⟨Nat.le_refl _, by omega⟩]
  exact h.clean.head

/-- The disk once the header of the transaction is written. -/
def Machine.headed (m : Machine) : Nat → Block :=
  LogDisk.headed m.kernel.log ⟨m.disk, m.kernel.log, []⟩

theorem Machine.headed_start (m : Machine) : m.headed m.kernel.log.start =
    setHead (m.disk m.kernel.log.start) m.kernel.log.lh := Function.update_self _ _ _

theorem Machine.headed_of_ne (m : Machine) {x : Nat} (hx : x ≠ m.kernel.log.start) :
    m.headed x = m.disk x := Function.update_of_ne hx _ _

/-- Once the header is written, the transaction is pending. -/
theorem Machine.Stored.pending (h : m.Stored) (howned : Owned m.kernel)
    (hne : m.kernel.log.lh ≠ []) :
    Pending m.kernel.log m.kernel.log.lh (m.kernel.installed m.disk)
      m.headed := by
  have hroom := h.clean.room.2 hne
  have hbelow := h.clean.below
  have hend := howned.log_end
  have hsize := howned.size_le
  refine ⟨fun x hx hr => ?_, hroom, ?_, fun t ht => ?_, fun x hx hxl => ?_⟩
  · have := hbelow x hx
    have := hr.1
    omega
  · rw [m.headed_start]
    refine headSectors_setHead _ h.clean.room.1 fun x hx => ?_
    have := hbelow x hx
    omega
  · have hget : m.kernel.log.lh.getD t 0 = m.kernel.log.lh[t] := by
      rw [List.getD_eq_getElem?_getD, List.getElem?_eq_getElem ht, Option.getD_some]
    have hmem : m.kernel.log.lh[t] ∈ m.kernel.log.lh := List.getElem_mem ht
    have hslot : m.kernel.log.slot m.kernel.log.lh[t] = t :=
      h.clean.nodup.idxOf_getElem t ht
    rw [hget, State.installed, if_pos hmem, hslot, m.headed_of_ne (by omega)]
    exact h.region _ ⟨by omega, by omega⟩
  · rw [m.headed_of_ne fun heq => hx ⟨by omega, by omega⟩, State.installed, if_neg hxl]

/-- **A commit.**  At every crash point the disk can be recovered, to what it was before or to what
the buffer cache shows; at the end it is the latter. -/
theorem Machine.Stored.commit (h : m.Stored) (howned : Owned m.kernel) :
    (∀ j, LogDisk.Quiet m.kernel.log m.disk (applyWrites m.disk (m.commit.writes.take j)) ∨
      Recoverable m.kernel.log (m.kernel.installed m.disk)
        (applyWrites m.disk (m.commit.writes.take j))) ∧
    (∀ x, ¬m.kernel.log.Region x → m.commit.disk x = m.kernel.installed m.disk x) ∧
    ∀ x, m.kernel.log.Region x → m.commit.disk x =
      if m.kernel.log.lh = [] then m.kernel.data x
      else Function.update m.kernel.data m.kernel.log.start
        (setHead (setHead (m.kernel.data m.kernel.log.start) m.kernel.log.lh) []) x := by
  by_cases hne : m.kernel.log.lh = []
  · have hcommit : m.commit = ⟨m.disk, { m.kernel.log with busy := none }, []⟩ := by
      simp [Machine.commit, LogDisk.commitTrans, hne, run_bind]
    rw [hcommit]
    refine ⟨fun j => .inl ?_, fun x _ => ?_, fun x hx => ?_⟩
    · simpa using h.quiet
    · simp [State.installed, hne]
    · rw [if_pos hne]
      exact h.region x hx
  · have hp := h.pending howned hne
    obtain ⟨s, hrun, hwrites, hdisk⟩ := LogDisk.commitTrans_run
      ⟨m.disk, m.kernel.log, []⟩ hp.outside hp.room hne
    have hcommit : m.commit = s := by simp only [Machine.commit, hrun]
    have hfinish := hp.finish (b := applyWrites m.headed
      (installWrites m.headed m.kernel.log.start
        m.kernel.log.lh) m.kernel.log.start)
    have hlist : s.writes = commitWrites m.kernel.log ⟨m.disk, m.kernel.log, []⟩ := hwrites
    rw [hcommit]
    refine ⟨fun j => ?_, fun x hx => ?_, fun x hx => ?_⟩
    · rw [hlist]
      cases j with
      | zero => exact .inl h.quiet
      | succ j =>
          right
          rw [commitWrites, List.take_succ_cons, applyWrites_cons]
          exact hfinish.1 j
    · rw [hdisk, commitWrites, applyWrites_cons]
      exact hfinish.2.2 x hx
    · rw [if_neg hne, hdisk, commitWrites, applyWrites_cons, applyWrites_append, applyWrites_cons,
        applyWrites_nil]
      have hlog : ∀ y, m.kernel.log.Region y → applyWrites m.headed
          (installWrites m.headed m.kernel.log.start m.kernel.log.lh) y = m.headed y :=
        fun y hy => applyWrites_installWrites_log hp.outside hy
      have hstart : m.kernel.log.Region m.kernel.log.start := ⟨Nat.le_refl _, by
        have := h.size
        omega⟩
      by_cases hxs : x = m.kernel.log.start
      · subst hxs
        rw [Function.update_self, Function.update_self, ← h.region _ hstart]
        show setHead (applyWrites m.headed (installWrites m.headed m.kernel.log.start
          m.kernel.log.lh) m.kernel.log.start) [] = _
        rw [hlog _ hstart, m.headed_start]
      · rw [Function.update_of_ne hxs, Function.update_of_ne hxs, ← h.region x hx]
        show applyWrites m.headed (installWrites m.headed m.kernel.log.start m.kernel.log.lh) x = _
        rw [hlog x hx, m.headed_of_ne hxs]

end Commit

/-! ## Every step -/

theorem InLog.home {home home' : Nat → Block} {D : Nat → Prop} {k : State} (h : InLog home D k)
    (hhome : ∀ x, x < k.log.start → home' x = home x) : InLog home' D k := by
  refine { h with agree := fun x hx hD => ?_ }
  have hinst : k.installed home' x = k.installed home x := by
    unfold State.installed
    rw [hhome x hx]
  rw [hinst]
  exact h.agree x hx hD

theorem Machine.next_of_ne (m : Machine) (k : State) {a : Act} (hc : a ≠ .commitTrans) :
    m.next k a =
      { kernel := k
        disk x := if k.log.start ≤ x ∧ x < k.log.start + k.log.size then k.data x else m.disk x
        last := m.last } := by
  cases a with
  | commitTrans => exact absurd rfl hc
  | _ => rfl

/-- What the buffer cache shows of the blocks below the log is not changed by a commit. -/
theorem image_commit (k : State) (h : Nat → Block) (l : Log) {x : Nat} (hx : x < k.log.start)
    (hh : ∀ y, y < k.log.start → h y = k.data y) :
    ({ k with data := h, log := l } : State).image x = k.image x := by
  simp only [State.image, hh x hx]

theorem Machine.Stored.commitTrans {m : Machine} {k : State} {p : Nat} (h : m.Stored)
    (howned : Owned m.kernel) (hwf : Wf k)
    (hrun : (Act.exec p .commitTrans).run m.kernel = .ok () k) :
    (m.next k .commitTrans).Stored := by
  obtain ⟨-, hcode⟩ := exec_ok hrun
  obtain ⟨-, hbelow, hregion⟩ := h.commit howned
  have hclean := h.clean
  let data := if m.kernel.log.lh = [] then m.kernel.data
    else Function.update m.kernel.data m.kernel.log.start
      (setHead (setHead (m.kernel.data m.kernel.log.start) m.kernel.log.lh) [])
  have hk : k = { m.kernel with
      cur := p, data := data, log := { m.kernel.log with lh := [], busy := none } } := by
    cases hcode
    rfl
  have hdata : ∀ y, y < m.kernel.log.start → data y = m.kernel.data y := by
    intro y hy
    simp only [data]
    split
    · rfl
    · exact Function.update_of_ne (by omega) _ _
  have hsame : ∀ x, x < m.kernel.log.start → (m.commit.disk x).Same (k.image x) := by
    intro x hx
    have himage : k.image x = m.kernel.image x := by
      rw [hk]
      exact image_commit { m.kernel with cur := p } data _ hx hdata
    rw [hbelow x fun hr => absurd hr.1 (by omega), himage]
    exact hclean.agree x hx id
  have hstart : k.log.start = m.kernel.log.start := by rw [hk]
  have hlh : k.log.lh = [] := by rw [hk]
  refine ⟨⟨fun x hx _ => ?_, ?_, ?_, ?_, ?_, fun _ => hlh, ?_, ?_⟩, ?_,
    fun x hx => ?_, fun x hx => ?_, hwf, rfl, ?_, ?_⟩
  · show (k.installed m.commit.disk x).Same (k.image x)
    rw [State.installed, hlh, if_neg (List.not_mem_nil)]
    exact hsame x (by rw [← hstart]; exact hx)
  · show ∀ x ∈ k.log.lh, 2 ≤ x ∧ x < k.log.start
    rw [hlh]
    exact fun x hx => absurd hx List.not_mem_nil
  · show k.log.lh.Nodup
    rw [hlh]
    exact List.nodup_nil
  · show k.log.lh.length ≤ LOGSIZE ∧ (k.log.lh ≠ [] → k.log.lh.length + 1 ≤ k.log.size)
    rw [hlh]
    exact ⟨Nat.zero_le _, fun hne => absurd rfl hne⟩
  · show headCount (k.data k.log.start) = 0
    rw [hk]
    show headCount (data m.kernel.log.start) = 0
    simp only [data]
    split
    · exact hclean.head
    · rw [Function.update_self]
      exact headCount_setHead _ (by simp)
  · show k.sb.dataStart ≤ k.log.start
    rw [hk]
    exact hclean.layout
  · rw [hk]
    exact h.clean.spare
  · show 0 < k.log.size
    rw [hk]
    exact h.size
  · show m.commit.disk x = k.data x
    have hx' : m.kernel.log.Region x := by
      rw [Machine.next, hk] at hx
      exact hx
    rw [hregion x hx', hk]
    show _ = data x
    simp only [data]
    split
    · rfl
    · rfl
  · exact hsame x (by rw [← hstart]; exact hx)
  · show ∀ i, k.sb.ninodes ≤ i → k.dinode i = Dinode.zero
    rw [hk]
    exact h.clean.spare
  · exact h.geometry.shape (by rw [hk]; rfl)

theorem Machine.Stored.act {m : Machine} {k : State} {a : Act} (h : m.Stored)
    (hc : a ≠ .commitTrans) (hclean : Clean m.disk k) (hshape : Shape m.kernel k) :
    (m.next k a).Stored := by
  obtain ⟨-, hstart, hsize⟩ : k.sb = m.kernel.sb ∧ k.log.start = m.kernel.log.start ∧
      k.log.size = m.kernel.log.size := by
    simpa [Shape, State.shape] using hshape
  have hlast : Shape k m.last := h.shape.trans hshape.symm
  have hlow : ∀ x, x < k.log.start →
      (if k.log.start ≤ x ∧ x < k.log.start + k.log.size then k.data x else m.disk x) = m.disk x :=
    fun x hx => if_neg fun hr => absurd hr.1 (by omega)
  rw [m.next_of_ne k hc]
  refine ⟨hclean.home hlow, ?_, fun x hx => if_pos hx, fun x hx => ?_, h.wf,
    hlast, h.spare, h.geometry.shape hshape⟩
  · show 0 < k.log.size
    rw [hsize]
    exact h.size
  · dsimp only
    rw [hlow x hx]
    exact h.last x (by rw [← hstart]; exact hx)

/-- An act of the machine is an act of its kernel. -/
theorem Machine.exec_ok {m m' : Machine} {p : Nat} {a : Act} {r : a.Res}
    (hrun : (Machine.exec p a).run m = .ok r m') :
    ∃ k, (Act.exec p a).run m.kernel = .ok r k ∧ m' = m.next k a := by
  simp only [Machine.exec] at hrun
  cases hact : (Act.exec p a).run m.kernel with
  | ok r' k =>
      rw [hact] at hrun
      cases hrun
      exact ⟨k, rfl, rfl⟩
  | fail e k =>
      rw [hact] at hrun
      cases hrun

theorem Machine.next_kernel (m : Machine) (k : State) (a : Act) : (m.next k a).kernel = k := by
  cases a <;> rfl

/-- **A step of the machine.** -/
theorem Machine.Stored.step {m : Machine} {k k₀ : State} {ts : Nat → TypeState} {p : Nat}
    {strict : Bool} {a : Act} {r : a.Res}
    (h : m.kernel.starved = false → m.Stored ∧ Shape k₀ m.kernel)
    (hinv : Invariant ts m.kernel) (hpre : (ts p).pre strict a)
    (hrun : (Act.exec p a).run m.kernel = .ok r k) (hwf : k.starved = false → Wf k)
    (hfed : k.starved = false) : (m.next k a).Stored ∧ Shape k₀ k := by
  have hcode := (Kernel.exec_ok hrun).2
  have hfed₀ : m.kernel.starved = false :=
    ok_of_wp (a.code_fed.wp { m.kernel with cur := p }) hcode hfed
  obtain ⟨hstored, hgeo⟩ := h hfed₀
  by_cases hc : a = .commitTrans
  · subst hc
    have hsame : Preserves Shape Kernel.commitTrans := .modify fun _ => rfl
    refine ⟨hstored.commitTrans (hinv.wf hfed₀).owned (hwf hfed) hrun, ?_⟩
    exact (ok_of_wp (hsame.wp { m.kernel with cur := p }) hcode).trans hgeo
  · obtain ⟨hclean, hshape⟩ := hinv.act_clean hstored.clean hc hpre hfed₀ hrun hfed
    exact ⟨hstored.act hc hclean hshape, hshape.trans hgeo⟩

/-! ## Every run -/

/-- The machine when no process is in a system call and nothing has been written since the disk was
last in order. -/
structure Machine.Booted (m : Machine) : Prop where
  quiet : Quiet m.kernel
  stored : m.Stored
  last : m.last = m.kernel

/-- The machine with no process in a system call. -/
def Machine.idle (m : Machine) : Config Nat Act Act.Res Machine := ⟨m, fun _ => none⟩

/-- A run of the machine. -/
abbrev Machine.Run := RunOf Machine.exec Machine.Starts fun _ _ _ => True

/-- In every run the disk is in order, and the file system is where it was. -/
theorem Machine.Run.kept {m : Machine} {c : Config Nat Act Act.Res Machine} (h : m.Booted)
    (hrun : Machine.Run m.idle c) (hfed : c.state.kernel.starved = false) :
    Wf c.state.kernel ∧ c.state.Stored ∧ Shape m.kernel c.state.kernel := by
  have h0 : Disciplined (discipline false) TypeState.Idle
      (fun ts m' => Invariant ts m'.kernel ∧
        (m'.kernel.starved = false → m'.Stored ∧ Shape m.kernel m'.kernel)) m.idle :=
    ⟨_, ⟨h.quiet.invariant, fun _ => ⟨h.stored, rfl⟩⟩, fun _ => ⟨rfl, rfl, rfl, rfl, rfl⟩⟩
  obtain ⟨ts, ⟨hinv, hstored⟩, -⟩ := hrun.disciplined
    (fun m p q t hstart hidle => by
      obtain ⟨-, c, rfl⟩ := hstart
      exact Prog.typed_then (c.ends hidle) fun _ _ h => h)
    (fun ts m p a r m' hJ hpre _ hact => by
      obtain ⟨k, hk, rfl⟩ := Machine.exec_ok hact
      obtain ⟨hfits, hinv⟩ := hJ.1.act hpre (fun hs => by cases hs) hk
      rw [m.next_kernel]
      exact ⟨hfits, hinv, Machine.Stored.step hJ.2 hJ.1 hpre hk hinv.wf⟩) h0
  exact ⟨hinv.wf hfed, hstored hfed⟩

theorem Machine.Run.stored {m : Machine} {c : Config Nat Act Act.Res Machine} (h : m.Booted)
    (hrun : Machine.Run m.idle c) (hfed : c.state.kernel.starved = false) :
    Wf c.state.kernel ∧ c.state.Stored := by
  obtain ⟨hwf, hstored, -⟩ := hrun.kept h hfed
  exact ⟨hwf, hstored⟩

/-- What the last commit left is what the kernel was in at some point of the run. -/
theorem Machine.Run.passed {m : Machine} {c : Config Nat Act Act.Res Machine}
    (hlast : m.last = m.kernel) (hrun : Machine.Run m.idle c) :
    ∃ c₁, Machine.Run m.idle c₁ ∧ Machine.Run c₁ c ∧ c₁.state.kernel = c.state.last := by
  induction hrun with
  | refl => exact ⟨_, .refl _, .refl _, hlast.symm⟩
  | call _ p q hidle hstart ih =>
      obtain ⟨c₁, h₁, h₂, hk⟩ := ih
      exact ⟨c₁, h₁, .call h₂ p q hidle hstart, hk⟩
  | @act c' h p a rest r m' hnext hok hact ih =>
      obtain ⟨k, hk, rfl⟩ := Machine.exec_ok hact
      by_cases hc : a = .commitTrans
      · subst hc
        exact ⟨_, .act h p hnext hok hact, .refl _, rfl⟩
      · obtain ⟨c₁, h₁, h₂, heq⟩ := ih
        refine ⟨c₁, h₁, .act h₂ p hnext hok hact, ?_⟩
        rw [c'.state.next_of_ne k hc]
        exact heq
  | done _ p hret ih =>
      obtain ⟨c₁, h₁, h₂, hk⟩ := ih
      exact ⟨c₁, h₁, .done h₂ p hret, hk⟩

/-- The disk is what a power cut leaves, between two acts or during one that a process is about to
perform. -/
def PowerCut (c : Config Nat Act Act.Res Machine) (d : Nat → Block) : Prop :=
  d = c.state.disk ∨
    ∃ p a rest, c.threads p = some (.act a rest) ∧ c.state.Cut a d

/-- From what a power cut leaves, recovery gets to the last commit or to the one going on. -/
theorem PowerCut.recoverable {c : Config Nat Act Act.Res Machine} {d : Nat → Block}
    (h : PowerCut c d) (hstored : c.state.Stored) (howned : Owned c.state.kernel) :
    LogDisk.Quiet c.state.kernel.log c.state.disk d ∨
      (∃ p rest, c.threads p = some (.act .commitTrans rest)) ∧
        Recoverable c.state.kernel.log (c.state.kernel.installed c.state.disk) d := by
  have hquiet := hstored.quiet
  rcases h with rfl | ⟨p, a, rest, hnext, hcut⟩
  · exact .inl hquiet
  by_cases hc : a = .commitTrans
  · subst hc
    obtain ⟨j, rfl⟩ := hcut
    exact ((hstored.commit howned).1 j).imp id fun hr => ⟨⟨p, rest, hnext⟩, hr⟩
  · have hslots : ∀ x, ¬(c.state.kernel.log.start < x ∧
        x < c.state.kernel.log.start + c.state.kernel.log.size) → d x = c.state.disk x := by
      cases a with
      | commitTrans => exact absurd rfl hc
      | _ => exact hcut
    refine .inl ⟨?_, fun x hx => hslots x fun hs => hx ⟨Nat.le_of_lt hs.1, hs.2⟩⟩
    rw [hslots _ (by omega)]
    exact hquiet.1

/-- What kernel `k` has of what `c` was committing or had committed. -/
def Committed (m : Machine) (c : Config Nat Act Act.Res Machine) (k : State) : Prop :=
  (∃ c₁, Machine.Run m.idle c₁ ∧ Machine.Run c₁ c ∧ c₁.state.kernel = k ∧ c.state.last = k) ∨
    k = c.state.kernel ∧ ∃ p rest, c.threads p = some (.act .commitTrans rest)

/-- Kernel `k` has the blocks of `T`, and they are those of a well-formed file system. -/
structure Shown (c : Config Nat Act Act.Res Machine) (T : Nat → Block) (k : State) : Prop where
  same : ∀ x, x < c.state.kernel.log.start → (T x).Same (k.image x)
  wf : Wf k
  shape : Shape c.state.kernel k
  spare : ∀ i, k.sb.ninodes ≤ i → k.dinode i = Dinode.zero

/-- What recovery gets to after a power cut. -/
theorem Machine.Run.recovers {m : Machine} {c : Config Nat Act Act.Res Machine} {d : Nat → Block}
    (hrun : Machine.Run m.idle c) (hboot : m.Booted) (hfed : c.state.kernel.starved = false)
    (hcut : PowerCut c d) :
    ∃ T k, Recoverable c.state.kernel.log T d ∧ Shown c T k ∧ Committed m c k := by
  obtain ⟨hwf, hstored⟩ := hrun.stored hboot hfed
  rcases hcut.recoverable hstored hwf.owned with hq | ⟨hcommit, hr⟩
  · obtain ⟨c₁, h₁, h₂, hlast⟩ := hrun.passed hboot.last
    exact ⟨_, c.state.last, .inl hq, ⟨hstored.last, hstored.wf, hstored.shape, hstored.spare⟩,
      .inl ⟨c₁, h₁, h₂, hlast, rfl⟩⟩
  · exact ⟨_, c.state.kernel, hr, ⟨fun x hx => hstored.clean.agree x hx id, hwf, rfl,
      hstored.clean.spare⟩, .inr ⟨rfl, hcommit⟩⟩

end Xv6.Kernel
