import Xv6.Kernel.NewFile

/-!
# Failing calls

`sys_link`, `sys_unlink`, `sys_mkdir`, `sys_mknod` and `sys_open` return -1 from many places,
some of them after the transaction has begun, and `sys_link` after it has counted a link that
it then takes back.  All of them leave the file system, the descriptors and the file table as
they were, but one: `sys_open` with `O_CREATE` makes the new file first and looks for a
descriptor and a `struct file` afterwards.

## Main results

* `failed_call_iff`: a call that returned -1 changed nothing unless it was an `O_CREATE` of a
  new name while the descriptor table or the file table was full.
-/

namespace Xv6.Kernel

open Xv6.Verified
open Exec

/-- A well-formed file system with process `p` running and no transaction open: directories
consist of whole entries, link counts are counts, and an inode without links is free or in
use. -/
structure AtRest (p : Nat) (k : State) : Prop where
  wf : Wf k
  cur : k.cur = p
  whole : ∀ d, (k.dinode d).type = .dir → (k.node d).size % DIRENT = 0
  linked : ∀ i, (k.dinode i).type ≠ .free → (k.dinode i).nlink = 0 → 0 < (k.icache i).ref
  counts : ∀ i, 0 ≤ (k.dinode i).nlink ∧ (k.dinode i).nlink < 32768
  idle : k.log.busy = none ∧ k.log.lh = []

/-- Nothing changed: every inode's type, link count, size and bytes, with them all entries of
all directories, the blocks of every inode and the bitmap, the descriptors, and the files in
use; and the log is idle. -/
structure Unchanged (p : Nat) (k k' : State) : Prop where
  nodes : k'.node = k.node
  blocks : k'.ref = k.ref
  bitmap : k'.bitmap = k.bitmap
  descriptors : (k'.ptable p).ofile = (k.ptable p).ofile
  files : ∀ f, 0 < (k'.ftable f).ref ↔ 0 < (k.ftable f).ref
  idle : k'.log.busy = none ∧ k'.log.lh = []

section Calls

variable {p : Nat} {k₀ k₁ k₂ k k' : State} {idle : Bool} {held seen : List Nat} {i : Nat}

theorem AtRest.steady (h : AtRest p k) (hlive : (k.ptable p).state = .live) : Steady p k :=
  ⟨hlive, h.whole, h.linked⟩

theorem AtRest.probing (h : AtRest p k) : Probing p k true [] [] k :=
  Probing.start h.wf h.cur fun _ => h.idle

/-- Two states between which inode `i` became `nd` and nothing else changed that a call must
leave alone. -/
structure Rebased (i : Nat) (nd : Node) (k₀ k₁ : State) : Prop where
  node : k₁.node = Function.update k₀.node i nd
  blocks : k₁.ref = k₀.ref
  bitmap : k₁.bitmap = k₀.bitmap
  ptable : k₁.ptable = k₀.ptable
  files : FilesKept k₀.ftable k₁.ftable
  refs : ∀ j, (k₁.icache j).ref = (k₀.icache j).ref

theorem Rebased.rfl : Rebased i (k.node i) k k := by
  refine ⟨?_, Eq.refl _, Eq.refl _, Eq.refl _, .rfl, fun _ => Eq.refl _⟩
  rw [Function.update_eq_self]

theorem FilesKept.trans {t₁ t₂ t₃ : Nat → File} (h : FilesKept t₁ t₂) (h' : FilesKept t₂ t₃) :
    FilesKept t₁ t₃ := by
  intro f
  refine ⟨(h' f).1.trans (h f).1, fun hf => ?_⟩
  rw [(h' f).2 (by rw [(h f).1]; exact hf), (h f).2 hf]

theorem Rebased.trans {nd nd' : Node} (h : Rebased i nd k₀ k₁) (h' : Rebased i nd' k₁ k₂) :
    Rebased i nd' k₀ k₂ := by
  refine ⟨?_, h'.blocks.trans h.blocks, h'.bitmap.trans h.bitmap, h'.ptable.trans h.ptable,
    h.files.trans h'.files, fun j => (h'.refs j).trans (h.refs j)⟩
  rw [h'.node, h.node, Function.update_idem]

/-- The call is over: it has let go of everything, and the inode is what it was. -/
theorem Rebased.unchanged (h : Rebased i (k₀.node i) k₀ k₁) (h' : Probing p k₁ true [] [] k) :
    Unchanged p k₀ k := by
  refine ⟨?_, h'.blocks.trans h.blocks, h'.same.bitmap.trans h.bitmap, ?_, fun f => ?_,
    h'.log (Eq.refl _)⟩
  · rw [h'.node, h.node, Function.update_eq_self]
  · rw [h'.ptable, h.ptable]
  · rw [(h.files.trans h'.files f).1]

theorem Probing.unchanged (h : Probing p k₀ true [] [] k) : Unchanged p k₀ k :=
  Rebased.unchanged (i := 0) .rfl h

theorem Steady.rebase {nd : Node} (h : Steady p k₀) (h' : Rebased i nd k₀ k₁)
    (htype : nd.type = (k₀.node i).type) (hsize : nd.size = (k₀.node i).size)
    (hlink : nd.nlink = 0 → 0 < (k₀.icache i).ref) : Steady p k₁ := by
  have hnode : ∀ j, j ≠ i → k₁.node j = k₀.node j := fun j hj => by
    rw [h'.node, Function.update_of_ne hj]
  have hself : k₁.node i = nd := by rw [h'.node, Function.update_self]
  refine ⟨?_, fun d hd => ?_, fun j hfree hzero => ?_⟩
  · rw [h'.ptable]
    exact h.live
  · have hd' : (k₁.node d).type = .dir := hd
    by_cases hdi : d = i
    · subst hdi
      rw [hself] at hd' ⊢
      rw [hsize]
      exact h.whole d (htype.symm.trans hd')
    · rw [hnode d hdi] at hd' ⊢
      exact h.whole d hd'
  · have hfree' : (k₁.node j).type ≠ .free := hfree
    have hzero' : (k₁.node j).nlink = 0 := hzero
    rw [h'.refs]
    by_cases hji : j = i
    · subst hji
      rw [hself] at hzero'
      exact hlink hzero'
    · rw [hnode j hji] at hfree' hzero'
      exact h.linked j hfree' hzero'

/-! ## Transactions -/

/-- The inode cache stays as it is. -/
theorem Probing.keep {idle' : Bool} (h : Probing p k₀ idle held seen k) (hd : DiskSame k k')
    (hcache : k'.icache = k.icache) (hcopy : k'.icopy = k.icopy) (hptable : k'.ptable = k.ptable)
    (hfiles : FilesKept k.ftable k'.ftable) (hcur : k'.cur = k.cur)
    (hlog : idle' = true → k'.log.busy = none ∧ k'.log.lh = []) :
    Probing p k₀ idle' held seen k' := by
  obtain ⟨hwf, href, hnode⟩ := h.wf.of_disk hd fun j hj => by
    rw [hcache] at hj
    rw [hcopy, hd.dinode]
    exact ⟨h.wf.coherent j hj, h.wf.live j hj⟩
  refine ⟨hwf, h.same.trans hd, hnode.trans h.node, href.trans h.blocks, hptable.trans h.ptable,
    h.files.trans hfiles, hcur.trans h.cur, hlog, ?_, ?_⟩
  · rw [hcache]
    exact h.refs
  · rw [hcache]
    exact h.seen

theorem Probing.beginTrans (h : Probing p k₀ idle held seen k)
    (hrun : (beginTrans).run k = .ok () k') : Probing p k₀ false held seen k' := by
  obtain ⟨-, rfl⟩ := beginTrans_ok hrun
  exact h.keep ⟨rfl, rfl, rfl, rfl, rfl, fun _ _ => rfl⟩ rfl rfl rfl .rfl rfl nofun

theorem Probing.commitTrans (h : Probing p k₀ idle held seen k)
    (hrun : (commitTrans).run k = .ok () k') : Probing p k₀ true held seen k' := by
  cases hrun
  refine h.keep ⟨rfl, rfl, rfl, rfl, rfl, fun b hb => ?_⟩ rfl rfl rfl .rfl rfl fun _ => ⟨rfl, rfl⟩
  dsimp only
  split
  · rfl
  · exact Function.update_of_ne (Nat.ne_of_lt hb) _ _

/-- The end of a call that has let go of everything. -/
theorem commit_unchanged (h : Probing p k₁ idle [] [] k)
    (hbase : Rebased i (k₀.node i) k₀ k₁) :
    Ends p (Sys.act .commitTrans >>= fun _ => (pure (-1) : Prog Int))
      (fun r k' => r = -1 → Unchanged p k₀ k') Anyhow k :=
  h.act fun _ _ hrun _ => hbase.unchanged (h.commitTrans hrun)

/-- Links are counted: from then on the file system is another one. -/
theorem bumpNlink_rebase {δ : Int} (h : Probing p k₀ false held seen k) (hi : i ∈ seen)
    (hrun : (bumpNlink i δ).run k = .ok () k') :
    ∃ k₁, Probing p k₁ false held seen k' ∧
      Rebased i { k₀.node i with nlink := toShort ((k₀.node i).nlink + δ) } k₀ k₁ := by
  have hdone := ok_of_wp (bumpNlink_spec h.wf (h.seen i hi).1) hrun
  have hcache := hdone.frame.icache
  refine ⟨{ k' with icache := fun j => { k'.icache j with ref := (k₀.icache j).ref } }, ?_, ?_⟩
  · refine ⟨hdone.wf, ⟨rfl, rfl, rfl, rfl, rfl, fun _ _ => rfl⟩, rfl, rfl, rfl, .rfl,
      hdone.frame.cur.trans h.cur, nofun, ?_, ?_⟩
    · rw [hcache]
      exact h.refs
    · rw [hcache]
      exact h.seen
  · refine ⟨?_, hdone.ref.trans h.blocks, hdone.bitmap.trans h.same.bitmap,
      hdone.frame.ptable.trans h.ptable, ?_, fun _ => rfl⟩
    · rw [← h.node]
      exact hdone.node
    · show FilesKept k₀.ftable k'.ftable
      rw [hdone.frame.ftable]
      exact h.files

theorem Probing.forget (h : Probing p k₀ idle held seen k) : Probing p k₀ idle held [] k :=
  { h with seen := List.forall_mem_nil _ }

/-! ## `sys_link` -/

/-- `dirlink` changes nothing if the name is there. -/
theorem dirlink_probe {dp inum : Nat} {name : List UInt8} (h : Probing p k₀ idle held seen k)
    (h₀ : Steady p k₀) (hdp : dp ∈ seen) (htype : (k₀.dinode dp).type = .dir) :
    Ends p (Sys.dirlink dp name inum)
      (fun r k' => r = false → Probing p k₀ idle held seen k') Anyhow k := by
  unfold Sys.dirlink
  apply (Prog.wp_bind _ _).2
  refine dirlookup_probe h h₀ hdp htype (fun _ => ?_) fun j off k₁ _ h₁ => ?_
  · refine ends_then fun d k₁ => ends_then fun off k₂ => ends_then fun r k₃ => ?_
    by_cases hr : r ≠ DIRENT
    · rw [if_pos hr]
      exact ends_panic
    · rw [if_neg hr]
      exact nofun
  · apply (Prog.wp_bind _ _).2
    have hheld : (j :: held).erase j = held := List.erase_cons_head _ _
    have hseen : ∀ x ∈ seen, x ∈ seen ∧ x ∈ (j :: held).erase j := fun x hx => by
      rw [hheld]
      exact ⟨hx, (h.seen x hx).2⟩
    refine iput_probe hseen h₁ h₀ (List.mem_cons_self) fun k₂ h₂ _ => ?_
    rwa [hheld] at h₂

/-- The link counted at the start is taken back. -/
theorem linkBad_unchanged (h : Probing p k₁ false [i] [] k) (h₁ : Steady p k₁)
    (hbase : Rebased i { k₀.node i with nlink := toShort ((k₀.node i).nlink + 1) } k₀ k₁)
    (hrange : 0 ≤ (k₀.node i).nlink ∧ (k₀.node i).nlink < 32768)
    (hlinked : (k₀.node i).nlink = 0 → 0 < (k₀.icache i).ref) :
    Ends p (Sys.linkBad i) (fun r k' => r = -1 → Unchanged p k₀ k') Anyhow k := by
  refine h.act fun _ k₂ hlock => ?_
  have h₂ := h.ilock (List.mem_cons_self) hlock
  refine h₂.act fun _ k₃ hbump => ?_
  obtain ⟨k₄, h₃, hbase'⟩ := bumpNlink_rebase h₂ (List.mem_cons_self) hbump
  have hnode : k₁.node i = { k₀.node i with nlink := toShort ((k₀.node i).nlink + 1) } := by
    rw [hbase.node, Function.update_self]
  have hback : toShort (toShort ((k₀.node i).nlink + 1) + -1) = (k₀.node i).nlink := by
    unfold toShort
    omega
  rw [hnode] at hbase'
  simp only [hback] at hbase'
  have hall := hbase.trans hbase'
  have h₄ : Steady p k₄ := by
    refine h₁.rebase hbase' ?_ ?_ fun hz => ?_
    · rw [hnode]
    · rw [hnode]
    · rw [hbase.refs]
      exact hlinked hz
  apply (Prog.wp_bind _ _).2
  refine iunlockput_probe (List.forall_mem_nil _) h₃ h₄ (List.mem_cons_self) fun k₅ h₅ => ?_
  rw [List.erase_cons_head] at h₅
  exact commit_unchanged h₅ hall

theorem sysLink_unchanged (h : AtRest p k) (hlive : (k.ptable p).state = .live)
    (old new : Option (List UInt8)) :
    Ends p (Sys.sysLink old new) (fun r k' => r = -1 → Unchanged p k k') Anyhow k := by
  have h₀ := h.steady hlive
  unfold Sys.sysLink
  split
  · rename_i old new
    apply (Prog.wp_bind _ _).2
    refine namei_probe h.probing h₀ old fun r k₁ h₁ => ?_
    cases r with
    | none => exact fun _ => h₁.unchanged
    | some ip =>
        refine h₁.act fun _ k₂ hbegin => ?_
        have h₂ := h₁.beginTrans hbegin
        refine h₂.act fun _ k₃ hlock => ?_
        have h₃ := h₂.ilock (List.mem_cons_self) hlock
        refine h₃.stat (List.mem_cons_self) ?_
        by_cases hdir : (k.dinode ip).type = .dir
        · rw [if_pos hdir]
          apply (Prog.wp_bind _ _).2
          refine iunlockput_probe (List.forall_mem_nil _) h₃ h₀ (List.mem_cons_self)
            fun k₄ h₄ => ?_
          rw [Option.toList_some, List.singleton_append, List.erase_cons_head] at h₄
          exact commit_unchanged (i := ip) h₄ .rfl
        · rw [if_neg hdir]
          refine h₃.act fun _ k₄ hbump => ?_
          obtain ⟨k₅, h₄, hbase⟩ := bumpNlink_rebase h₃ (List.mem_cons_self) hbump
          have hrange := h.counts ip
          have h₅ : Steady p k₅ := h₀.rebase hbase rfl rfl fun hz => by
            have hz' : toShort ((k.dinode ip).nlink + 1) = 0 := hz
            unfold toShort at hz'
            omega
          -- The new link is counted; what follows finds a place for it or takes it back.
          have hbad : ∀ k', Probing p k₅ false [ip] [] k' →
              Ends p (Sys.linkBad ip) (fun r k' => r = -1 → Unchanged p k k') Anyhow k' := by
            intro k' h'
            exact linkBad_unchanged h' h₅ hbase hrange
              (h.linked ip (h₃.not_free (List.mem_cons_self)))
          refine h₄.act fun _ k₆ hunlock => ?_
          have h₆ := (h₄.iunlock hunlock).forget
          apply (Prog.wp_bind _ _).2
          refine nameiparent_probe h₆ h₅ new (fun k₇ _ h₇ => ?_) fun dp name k₇ _ htype h₇ => ?_
          · exact hbad k₇ h₇
          · refine h₇.act fun _ k₈ hlock' => ?_
            have h₈ := h₇.ilock (List.mem_cons_self) hlock'
            apply (Prog.wp_bind _ _).2
            refine Prog.wp_imp (dirlink_probe h₈ h₅ (List.mem_cons_self) htype) fun r k₉ h₉ => ?_
            cases r with
            | true => exact ends_then fun _ _ => ends_then fun _ _ => ends_then fun _ _ => nofun
            | false =>
                apply (Prog.wp_bind _ _).2
                refine iunlockput_probe (List.forall_mem_nil _) (h₉ rfl) h₅ (List.mem_cons_self)
                  fun k' h' => ?_
                rw [List.erase_cons_head] at h'
                exact hbad k' h'
  · exact fun _ => h.probing.unchanged

/-! ## `sys_unlink` -/

theorem isdiremptyLoop_wp {dp : Nat} (h : InDir p dp k) {Q : Bool → State → Prop} (n : Nat) :
    ∀ {j : Nat}, j + n ≤ (k.node dp).slots → (∀ r, Q r k) →
      Ends p (Sys.isdiremptyLoop dp n (DIRENT * j)) Q Anyhow k := by
  induction n with
  | zero => exact fun _ hQ => hQ true
  | succ n ih =>
      intro j hj hQ
      rw [Sys.isdiremptyLoop, Ends, Prog.wp_bind]
      apply readDirent_wp h (by omega)
      show Ends p (if direntInum ((k.node dp).dirent j) ≠ 0 then _ else _) Q Anyhow k
      by_cases hused : direntInum ((k.node dp).dirent j) ≠ 0
      · rw [if_pos hused]
        exact hQ false
      · rw [if_neg hused]
        exact ih (j := j + 1) (by omega) hQ

theorem isdirempty_probe {dp : Nat} (h : Probing p k₀ idle held seen k) (h₀ : Steady p k₀)
    (hdp : dp ∈ seen) (htype : (k₀.dinode dp).type = .dir) {Q : Bool → State → Prop}
    (hQ : ∀ r, Q r k) : Ends p (Sys.isdirempty dp) Q Anyhow k := by
  have hin := h.inDir h₀ hdp htype
  refine h.stat hdp ?_
  have hsize : (k₀.dinode dp).size = (k.node dp).size := by
    rw [h.node]
    rfl
  rw [hsize, entries_eq hin, Nat.mul_comm]
  by_cases hslots : 2 ≤ (k.node dp).slots
  · exact isdiremptyLoop_wp hin _ (by omega) hQ
  · rw [show (k.node dp).slots - 2 = 0 by omega]
    exact hQ true

theorem unlinkBad_unchanged {dp : Nat} (h : Probing p k false [dp] [dp] k₁) (h₀ : Steady p k) :
    Ends p (Sys.unlinkBad dp) (fun r k' => r = -1 → Unchanged p k k') Anyhow k₁ := by
  apply (Prog.wp_bind _ _).2
  refine iunlockput_probe (List.forall_mem_nil _) h h₀ (List.mem_cons_self) fun k₂ h₂ => ?_
  rw [List.erase_cons_head] at h₂
  exact commit_unchanged (i := dp) h₂ .rfl

/-- Once the entry is cleared the call succeeds or the machine halts. -/
theorem unlinkEntry_returns {dp ip off : Nat} {type : InodeType} {Q : Int → State → Prop}
    (hQ : ∀ k', Q 0 k') : Ends p (Sys.unlinkEntry dp ip off type) Q Anyhow k := by
  unfold Sys.unlinkEntry
  refine ends_then fun r k₁ => ?_
  by_cases hr : r ≠ DIRENT
  · rw [if_pos hr]
    exact ends_panic
  · rw [if_neg hr]
    exact ends_then fun _ _ => ends_then fun _ _ => ends_then fun _ _ => ends_then fun _ _ =>
      ends_then fun _ k' => hQ k'

theorem sysUnlink_unchanged (h : AtRest p k) (hlive : (k.ptable p).state = .live)
    (path : Option (List UInt8)) :
    Ends p (Sys.sysUnlink path) (fun r k' => r = -1 → Unchanged p k k') Anyhow k := by
  have h₀ := h.steady hlive
  unfold Sys.sysUnlink
  split
  · exact fun _ => h.probing.unchanged
  · rename_i path
    apply (Prog.wp_bind _ _).2
    refine nameiparent_probe h.probing h₀ path (fun k₁ _ h₁ _ => h₁.unchanged)
      fun dp name k₁ _ htype h₁ => ?_
    refine h₁.act fun _ k₂ hbegin => ?_
    have h₂ := h₁.beginTrans hbegin
    refine h₂.act fun _ k₃ hlock => ?_
    have h₃ := h₂.ilock (List.mem_cons_self) hlock
    split
    · exact unlinkBad_unchanged h₃ h₀
    · apply (Prog.wp_bind _ _).2
      refine dirlookup_probe h₃ h₀ (List.mem_cons_self) htype (fun _ => ?_) fun ip off k₄ _ h₄ => ?_
      · exact unlinkBad_unchanged h₃ h₀
      · refine h₄.act fun _ k₅ hlock' => ?_
        have h₅ := h₄.ilock (List.mem_cons_self) hlock'
        refine h₅.stat (List.mem_cons_self) ?_
        have hentry : ∀ k', Ends p (Sys.unlinkEntry dp ip off (k.dinode ip).type)
            (fun r k' => r = -1 → Unchanged p k k') Anyhow k' :=
          fun _ => unlinkEntry_returns fun _ => nofun
        split
        · exact ends_panic
        · split
          · rename_i hdir
            apply (Prog.wp_bind _ _).2
            refine isdirempty_probe h₅ h₀ (List.mem_cons_self) hdir fun r => ?_
            cases r with
            | true => exact hentry _
            | false =>
                apply (Prog.wp_bind _ _).2
                have hseen : ∀ j ∈ [dp], j ∈ [ip, dp] ∧ j ∈ [ip, dp].erase ip := by simp
                refine iunlockput_probe hseen h₅ h₀ (List.mem_cons_self) fun k₆ h₆ => ?_
                rw [List.erase_cons_head] at h₆
                exact unlinkBad_unchanged h₆ h₀
          · exact hentry _

/-! ## `create` -/

/-- The path leads to a directory that does not have its last name. -/
def State.NewName (k : State) (p : Nat) (path : List UInt8) : Prop :=
  ∃ dp name, k.parentOf p path = some (dp, name) ∧ (k.node dp).entry name = none

/-- A new inode is made, or the machine halts. -/
theorem createNew_returns {dp : Nat} {name : List UInt8} {type : InodeType} {major minor : Int}
    {Q : Option Nat → State → Prop} (hQ : ∀ ip k', Q (some ip) k') :
    Ends p (Sys.createNew dp name type major minor) Q Anyhow k := by
  have hentry : ∀ ip k', Ends p (Sys.createEntry dp ip name) Q Anyhow k' := fun ip k' =>
    Prog.wp_imp (createEntry_returns dp ip name k') fun r k₁ hr => hr ▸ hQ ip k₁
  refine ends_then fun ip k₁ => ends_then fun _ k₂ => ends_then fun _ k₃ => ?_
  split
  · exact ends_then fun _ k₄ => hentry ip k₄
  · exact hentry ip k₃

/-- What `create` did before it makes a new inode: it looked, and either gave up, or found the
file, or goes on in the directory that is to have the name. -/
theorem create_probe (h : Probing p k₀ idle [] [] k) (h₀ : Steady p k₀) {path : List UInt8}
    {type : InodeType} {major minor : Int} {Q : Option Nat → State → Prop}
    (hnone : ∀ k', ¬k₀.NewName p path → Probing p k₀ idle [] [] k' → Q none k')
    (hfound : ∀ ip k', ¬k₀.NewName p path → Probing p k₀ idle [ip] [ip] k' → Q (some ip) k')
    (hnew : ∀ dp name k', k₀.NewName p path → (k₀.dinode dp).type = .dir →
      Probing p k₀ idle [dp] [dp] k' →
      Ends p (Sys.createNew dp name type major minor) Q Anyhow k') :
    Ends p (Sys.create path type major minor) Q Anyhow k := by
  unfold Sys.create
  apply (Prog.wp_bind _ _).2
  refine nameiparent_probe h h₀ path (fun k₁ hparent h₁ => hnone k₁ ?_ h₁)
    fun dp name k₁ hparent htype h₁ => ?_
  · rintro ⟨dp, name, hparent', -⟩
    rw [hparent] at hparent'
    cases hparent'
  refine h₁.act fun _ k₂ hlock => ?_
  have h₂ := h₁.ilock (List.mem_cons_self) hlock
  apply (Prog.wp_bind _ _).2
  refine dirlookup_probe h₂ h₀ (List.mem_cons_self) htype (fun hentry => ?_)
    fun ip off k₃ hentry h₃ => ?_
  · exact hnew dp name k₂ ⟨dp, name, hparent, hentry⟩ htype h₂
  · have hold : ¬k₀.NewName p path := by
      rintro ⟨dp', name', hparent', hentry'⟩
      rw [hparent] at hparent'
      cases hparent'
      rw [hentry] at hentry'
      cases hentry'
    apply (Prog.wp_bind _ _).2
    refine iunlockput_probe (List.forall_mem_nil _) h₃ h₀ (by simp) fun k₄ h₄ => ?_
    have herase : [ip, dp].erase dp = [ip] := by
      by_cases hself : ip = dp
      · rw [hself, List.erase_cons_head]
      · rw [List.erase_cons_tail (by simpa using hself), List.erase_cons_head]
    rw [herase] at h₄
    refine h₄.act fun _ k₅ hlock' => ?_
    have h₅ := h₄.ilock (List.mem_cons_self) hlock'
    refine h₅.stat (List.mem_cons_self) ?_
    split
    · exact hfound ip k₅ hold h₅
    · apply (Prog.wp_bind _ _).2
      refine iunlockput_probe (List.forall_mem_nil _) h₅ h₀ (List.mem_cons_self) fun k₆ h₆ => ?_
      rw [List.erase_cons_head] at h₆
      exact hnone k₆ hold h₆

theorem mkInode_unchanged (h : AtRest p k) (hlive : (k.ptable p).state = .live)
    (path : Option (List UInt8)) (type : InodeType) (major minor : Int) :
    Ends p (Sys.mkInode path type major minor) (fun r k' => r = -1 → Unchanged p k k')
      Anyhow k := by
  have h₀ := h.steady hlive
  have hsome : ∀ ip k', Ends p (Sys.iunlockput ip >>= fun _ => Sys.act .commitTrans >>= fun _ =>
      (pure 0 : Prog Int)) (fun r k' => r = -1 → Unchanged p k k') Anyhow k' :=
    fun _ _ => ends_then fun _ _ => ends_then fun _ _ => nofun
  refine h.probing.act fun _ k₁ hbegin => ?_
  have h₁ := h.probing.beginTrans hbegin
  split
  · exact commit_unchanged (i := 0) h₁ .rfl
  · apply (Prog.wp_bind _ _).2
    refine create_probe h₁ h₀ (fun k₂ _ h₂ => ?_) (fun ip k₂ _ _ => ?_) fun dp name k₂ _ _ _ => ?_
    · exact commit_unchanged (i := 0) h₂ .rfl
    · exact hsome ip k₂
    · exact createNew_returns fun ip k₃ => hsome ip k₃

/-! ## `sys_open` -/

/-- No `struct file` is free, or no descriptor. -/
def State.NoFile (k : State) (p : Nat) : Prop :=
  (∀ f, f < NFILE → (k.ftable f).ref ≠ 0) ∨ ∀ fd, fd < NOFILE → (k.ptable p).ofile fd ≠ none

/-- How `filealloc` ends. -/
theorem filealloc_cases {r : Option Nat} (hrun : (filealloc).run k = .ok r k') :
    (r = none ∧ k' = k ∧ ∀ f, f < NFILE → (k.ftable f).ref ≠ 0) ∨
    ∃ f, r = some f ∧ f < NFILE ∧ (k.ftable f).ref = 0 ∧
      k' = k.setFile f { k.ftable f with ref := 1 } := by
  unfold filealloc at hrun
  rw [run_get_bind] at hrun
  split at hrun
  · rename_i hnone
    cases hrun
    refine .inl ⟨rfl, rfl, fun f hf => ?_⟩
    have := List.find?_eq_none.1 hnone f (List.mem_range.2 hf)
    simpa using this
  · rename_i f hsome
    cases hrun
    have hfree := List.find?_some hsome
    exact .inr ⟨f, rfl, List.mem_range.1 (List.mem_of_find?_eq_some hsome),
      by simpa using hfree, rfl⟩

/-- How `fdalloc` ends. -/
theorem fdalloc_cases {f : Nat} {r : Option Nat} (hrun : (fdalloc f).run k = .ok r k') :
    (r = none ∧ k' = k ∧ ∀ fd, fd < NOFILE → k.proc.ofile fd ≠ none) ∨
    ∃ fd, r = some fd ∧ fd < NOFILE ∧ k.proc.ofile fd = none := by
  unfold fdalloc at hrun
  rw [run_get_bind] at hrun
  split at hrun
  · rename_i hnone
    cases hrun
    refine .inl ⟨rfl, rfl, fun fd hfd => ?_⟩
    have := List.find?_eq_none.1 hnone fd (List.mem_range.2 hfd)
    simpa using this
  · rename_i fd hsome
    cases hrun
    have hfree := List.find?_some hsome
    exact .inr ⟨fd, rfl, List.mem_range.1 (List.mem_of_find?_eq_some hsome), by simpa using hfree⟩

/-- How `sys_open`'s search for a file and a descriptor ends: a file that is given back was none
in use. -/
theorem fileopen_cases {ip omode : Nat} {r : Option Nat} (hcur : k.cur = p)
    (hrun : (fileopen ip omode).run k = .ok r k') :
    (r = none ∧ k.NoFile p ∧ ∃ t, FilesKept k.ftable t ∧ k' = { k with ftable := t }) ∨
    ∃ fd, r = some fd ∧ ¬k.NoFile p := by
  subst hcur
  unfold fileopen at hrun
  obtain ⟨f?, k₁, halloc, hrest⟩ := run_bind_eq_ok hrun
  obtain ⟨rfl, rfl, hfull⟩ | ⟨f, rfl, hlt, hfree, rfl⟩ := filealloc_cases halloc
  · cases hrest
    exact .inl ⟨rfl, .inl hfull, _, .rfl, rfl⟩
  · obtain ⟨fd?, k₂, hfd, hrest'⟩ := run_bind_eq_ok hrest
    obtain ⟨rfl, rfl, hfull⟩ | ⟨fd, rfl, hlt', hnone⟩ := fdalloc_cases hfd
    · obtain ⟨_, k₃, hclose, hret⟩ := run_bind_eq_ok hrest'
      cases hret
      refine .inl ⟨rfl, .inr hfull, Function.update k.ftable f
        { k.ftable f with ref := 0, kind := .none }, fun g => ?_, ?_⟩
      · by_cases hg : g = f
        · subst hg
          rw [Function.update_self]
          exact ⟨hfree.symm, fun hne => absurd hfree hne⟩
        · rw [Function.update_of_ne hg]
          exact ⟨rfl, fun _ => rfl⟩
      · unfold fileclose at hclose
        simp only [run_get_bind, State.setFile, Function.update_self] at hclose
        rw [if_neg (by decide), if_neg (by decide)] at hclose
        cases hclose
        simp [Function.update_idem]
    · cases hrest'
      refine .inr ⟨fd, rfl, ?_⟩
      rintro (hfull | hfull)
      · exact hfull f hlt hfree
      · exact hfull fd hlt' hnone

/-- The end of `sys_open` on an inode that was there before. -/
theorem openFile_unchanged {ip omode : Nat} (h : Probing p k true [ip] [ip] k₁)
    (h₀ : Steady p k) :
    Ends p (Sys.openFile ip omode) (fun r k' => r = -1 → Unchanged p k k') Anyhow k₁ := by
  refine h.act fun r k₂ hrun => ?_
  obtain ⟨rfl, -, t, hkept, rfl⟩ | ⟨fd, rfl, -⟩ := fileopen_cases h.cur hrun
  · have h₂ : Probing p k true [ip] [ip] { k₁ with ftable := t } :=
      h.keep ⟨rfl, rfl, rfl, rfl, rfl, fun _ _ => rfl⟩ rfl rfl rfl hkept rfl h.log
    apply (Prog.wp_bind _ _).2
    refine iunlockput_probe (List.forall_mem_nil _) h₂ h₀ (List.mem_cons_self) fun k₃ h₃ _ => ?_
    rw [List.erase_cons_head] at h₃
    exact h₃.unchanged
  · refine ends_then fun _ k₃ hr => ?_
    have : (fd : Int) = -1 := hr
    omega

/-- The end of `sys_open` on an inode it has made. -/
theorem openFile_changed {ip omode : Nat} (huse : InUse ip k₁)
    (hfree : (k.dinode ip).type = .free) :
    Ends p (Sys.openFile ip omode)
      (fun r k' => r = -1 → k₁.NoFile p ∧ ¬Unchanged p k k') Anyhow k₁ := by
  refine ends_exec fun r k₂ hcode => ?_
  have hcur : ({ k₁ with cur := p } : State).cur = p := rfl
  obtain ⟨rfl, hfull, t, -, rfl⟩ | ⟨fd, rfl, -⟩ := fileopen_cases hcur hcode
  · have huse₂ : InUse ip { k₁ with cur := p, ftable := t } := huse
    refine (Prog.wp_bind _ _).2 (Prog.wp_imp (iunlockput_inUse huse₂) fun _ k₃ h₃ _ => ?_)
    refine ⟨hfull, fun hsame => h₃.1 ?_⟩
    show (k₃.node ip).type = .free
    rw [hsame.nodes]
    exact hfree
  · refine ends_then fun _ k₃ hr => ?_
    have : (fd : Int) = -1 := hr
    omega

/-- `sys_open` of a name that `O_CREATE` is to make, and then neither file nor descriptor for
it. -/
def State.MakesInVain (k : State) (p : Nat) (path : Option (List UInt8)) (omode : Nat) : Prop :=
  ∃ s, path = some s ∧ oCreate omode = true ∧ k.NewName p s ∧ k.NoFile p

theorem sysOpen_unchanged (h : AtRest p k) (hlive : (k.ptable p).state = .live)
    (path : Option (List UInt8)) (omode : Nat) :
    Ends p (Sys.sysOpen path omode)
      (fun r k' => r = -1 → (Unchanged p k k' ↔ ¬k.MakesInVain p path omode)) Anyhow k := by
  have h₀ := h.steady hlive
  unfold Sys.sysOpen
  split
  · refine fun _ => ⟨fun _ => ?_, fun _ => h.probing.unchanged⟩
    rintro ⟨s, hs, -⟩
    cases hs
  · rename_i path
    by_cases hcreate : oCreate omode = true
    · rw [if_pos hcreate]
      have hold : ¬k.NewName p path → ¬k.MakesInVain p (some path) omode := by
        rintro hold ⟨s, hs, -, hnew, -⟩
        cases hs
        exact hold hnew
      refine h.probing.act fun _ k₁ hbegin => ?_
      have h₁ := h.probing.beginTrans hbegin
      apply (Prog.wp_bind _ _).2
      refine create_probe h₁ h₀ (fun k₂ hnew h₂ => ?_) (fun ip k₂ hnew h₂ => ?_)
        fun dp name k₂ hnew htype h₂ => ?_
      · refine Prog.wp_imp (commit_unchanged (i := 0) h₂ .rfl) fun r k₃ h₃ hr => ?_
        exact ⟨fun _ => hold hnew, fun _ => h₃ hr⟩
      · refine h₂.act fun _ k₃ hcommit => ?_
        refine Prog.wp_imp (openFile_unchanged (h₂.commitTrans hcommit) h₀) fun r k₄ h₄ hr => ?_
        exact ⟨fun _ => hold hnew, fun _ => h₄ hr⟩
      · have htype₂ : (k₂.dinode dp).type = .dir := by
          rw [h₂.same.dinode]
          exact htype
        refine Prog.wp_imp (createNew_stays h₂.wf h₂.cur htype₂ name 0 0) ?_
        rintro _ k₃ ⟨inum, rfl, hfree, huse, hftable, hptable⟩
        rw [h₂.same.dinode] at hfree
        refine (Prog.wp_bind _ _).2 (Prog.wp_imp (commitTrans_sparing (i := inum) k₃)
          fun _ k₄ h₄ => ?_)
        refine Prog.wp_imp (openFile_changed (h₄.inUse huse) hfree) fun r k₅ h₅ hr => ?_
        obtain ⟨hfull, hchanged⟩ := h₅ hr
        refine ⟨fun hc => absurd hc hchanged, fun hc => absurd ⟨path, rfl, hcreate, hnew, ?_⟩ hc⟩
        -- Neither file nor descriptor was free when the call began.
        refine hfull.imp (fun hall f hf => ?_) fun hall fd hfd => ?_
        · have := hall f hf
          rwa [h₄.ftable, hftable, (h₂.files f).1] at this
        · have := hall fd hfd
          rwa [h₄.ptable, hptable, h₂.ptable] at this
    · rw [if_neg hcreate]
      have hnot : ¬k.MakesInVain p (some path) omode := by
        rintro ⟨-, -, hc, -⟩
        exact hcreate hc
      apply (Prog.wp_bind _ _).2
      refine namei_probe h.probing h₀ path fun r k₁ h₁ => ?_
      cases r with
      | none => exact fun _ => ⟨fun _ => hnot, fun _ => h₁.unchanged⟩
      | some ip =>
          refine h₁.act fun _ k₂ hlock => ?_
          have h₂ := h₁.ilock (List.mem_cons_self) hlock
          refine h₂.stat (List.mem_cons_self) ?_
          split
          · apply (Prog.wp_bind _ _).2
            refine iunlockput_probe (List.forall_mem_nil _) h₂ h₀ (List.mem_cons_self)
              fun k₃ h₃ _ => ⟨fun _ => hnot, fun _ => ?_⟩
            rw [Option.toList_some, List.singleton_append, List.erase_cons_head] at h₃
            exact h₃.unchanged
          · refine Prog.wp_imp (openFile_unchanged h₂ h₀) fun r k₃ h₃ hr => ?_
            exact ⟨fun _ => hnot, fun _ => h₃ hr⟩

end Calls

/-! ## All five calls -/

/-- The calls that change the tree of names. -/
inductive Call.NameSpace : Call → Prop
  | link (old new : Option (List UInt8)) : NameSpace (.link old new)
  | unlink (path : Option (List UInt8)) : NameSpace (.unlink path)
  | mkdir (path : Option (List UInt8)) : NameSpace (.mkdir path)
  | mknod (path : Option (List UInt8)) (major minor : Int) : NameSpace (.mknod path major minor)
  | open (path : Option (List UInt8)) (omode : Nat) : NameSpace (.open path omode)

/-- The call is an `open` that makes a file and then cannot have it. -/
def Call.Leaves (c : Call) (p : Nat) (k : State) : Prop :=
  ∃ path omode, c = .open path omode ∧ k.MakesInVain p path omode

/-- A call that returned -1 changed nothing, if and only if it was no `open` with `O_CREATE` of
a name that its directory did not have, while no `struct file` or no descriptor was free. -/
theorem failed_call_iff {p : Nat} {k k' : State} {c : Call} (h : AtRest p k) (hc : c.NameSpace)
    (hrun : (makeCall p c).run k = .ok (-1) k') : Unchanged p k k' ↔ ¬c.Leaves p k := by
  obtain ⟨hlive, hprog⟩ := makeCall_ok hrun
  -- Of the other calls nothing is left.
  have hother : (∀ path omode, c ≠ .open path omode) →
      Ends p c.prog (fun r k' => r = -1 → Unchanged p k k') Anyhow k →
      (Unchanged p k k' ↔ ¬c.Leaves p k) := by
    intro hne hends
    refine ⟨?_, fun _ => ok_of_wp (Prog.wp_run_of_true hends) hprog rfl⟩
    rintro - ⟨path, omode, hopen, -⟩
    exact hne path omode hopen
  cases hc with
  | link old new => exact hother nofun (sysLink_unchanged h hlive old new)
  | unlink path => exact hother nofun (sysUnlink_unchanged h hlive path)
  | mkdir path => exact hother nofun (mkInode_unchanged h hlive path _ _ _)
  | mknod path major minor => exact hother nofun (mkInode_unchanged h hlive path _ _ _)
  | «open» path omode =>
      have hopen := ok_of_wp (Prog.wp_run_of_true (sysOpen_unchanged h hlive path omode)) hprog rfl
      rw [hopen]
      refine not_congr ⟨fun hm => ⟨path, omode, rfl, hm⟩, ?_⟩
      rintro ⟨path', omode', heq, hm⟩
      cases heq
      exact hm

/-- The small disk, with all descriptors of process 0 open. -/
def busyDisk : State :=
  { smallDisk with
    icache := fun i => if i = 1 then ⟨18, none, false⟩ else ⟨0, none, false⟩
    ftable := fun f =>
      if f < 16 then ⟨.inode, 1, true, false, 1, 0⟩ else ⟨.none, 0, false, false, 0, 0⟩
    ptable := fun p => if p = 0 then ⟨.live, some 1, fun fd => if fd < 16 then some fd else none⟩
      else smallDisk.ptable p }

theorem busyDisk_atRest : AtRest 0 busyDisk := by
  have hcache : ∀ i, (busyDisk.icache i).valid = false := by
    intro i
    by_cases hi : i = 1
    · simp [busyDisk, hi]
    · simp [busyDisk, hi]
  have hsame : DiskSame smallDisk busyDisk := ⟨rfl, rfl, rfl, rfl, rfl, fun _ _ => rfl⟩
  have hone : ∀ i, (busyDisk.dinode i).type ≠ .free → i = 1 := by
    intro i hi
    by_contra hne
    exact hi (congrArg Dinode.type (smallDisk_dinode hne))
  refine ⟨smallDisk_wf.of_same hsame fun i hi => ?_, rfl, fun d hd => ?_, fun i hi hz => ?_,
    fun i => ?_, rfl, rfl⟩
  · rw [hcache] at hi
    cases hi
  · obtain rfl := hone d (by rw [hd]; decide)
    decide
  · obtain rfl := hone i hi
    decide
  · by_cases hi : i = 1
    · subst hi
      decide
    · have hzero : busyDisk.dinode i = Dinode.zero := smallDisk_dinode hi
      rw [hzero]
      decide

/-- What a call of process 0 answers, and what inode 2 is then. -/
def answer (c : Call) (k : State) : Option (Int × InodeType) :=
  match (makeCall 0 c).run k with
  | .ok r k' => some (r, (k'.dinode 2).type)
  | .fail _ _ => none

theorem answer_eq_some {c : Call} {k : State} {r : Int} {t : InodeType}
    (h : answer c k = some (r, t)) :
    ∃ k', (makeCall 0 c).run k = .ok r k' ∧ (k'.dinode 2).type = t := by
  unfold answer at h
  split at h
  · rename_i r' k' hrun
    obtain ⟨rfl, ht⟩ := Prod.mk.inj (Option.some.inj h)
    exact ⟨k', hrun, ht⟩
  · cases h

/-- The name "/x". -/
def slashX : List UInt8 := [47, 120]

theorem failed_call_open : ∃ k', (makeCall 0 (.open (some slashX) 0)).run busyDisk = .ok (-1) k' ∧
    Unchanged 0 busyDisk k' := by
  obtain ⟨k', hrun, -⟩ := answer_eq_some
    (show answer (.open (some slashX) 0) busyDisk = some (-1, .free) by decide)
  refine ⟨k', hrun, (failed_call_iff busyDisk_atRest (.open _ _) hrun).2 ?_⟩
  rintro ⟨path, omode, heq, -, -, hcreate, -⟩
  cases heq
  exact absurd hcreate (by decide)

/-- With `O_CREATE` the call fails as well, but inode 2 is a file now. -/
theorem failed_open_creates : AtRest 0 busyDisk ∧
    ∃ k', (makeCall 0 (.open (some slashX) 512)).run busyDisk = .ok (-1) k' ∧
      ¬Unchanged 0 busyDisk k' := by
  obtain ⟨k', hrun, htype⟩ := answer_eq_some
    (show answer (.open (some slashX) 512) busyDisk = some (-1, .file) by decide)
  refine ⟨busyDisk_atRest, k', hrun, fun hsame => ?_⟩
  have hnode : (k'.node 2).type = .file := htype
  rw [hsame.nodes] at hnode
  exact absurd hnode (by decide)

end Xv6.Kernel
