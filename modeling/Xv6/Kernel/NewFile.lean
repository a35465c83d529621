import Xv6.Kernel.Probe

/-!
# What a call on other inodes leaves alone

`Spares i` relates two states between which inode `i`, its cached copy, the descriptors and the
file table stayed as they were, whatever happened to the blocks.  Every function of the inode
layer that is called with another inode moves within it, even where the disk is full and
`balloc` hands out a block of the log.

## Main results

* `dirlink_sparing`: entering a name into a directory changes no other inode.
* `createNew_stays`: the inode that `create` makes stays in use as long as nobody unlinks it.
-/

namespace Xv6.Kernel

open Xv6.Verified
open Exec

/-- Inode `i`, the descriptors and the files are the same. -/
structure Spares (i : Nat) (k k' : State) : Prop where
  dinode : k'.dinode i = k.dinode i
  icopy : k'.icopy i = k.icopy i
  valid : (k'.icache i).valid = true → (k.icache i).valid = true
  ftable : k'.ftable = k.ftable
  ptable : k'.ptable = k.ptable

theorem Spares.rfl {i : Nat} {k : State} : Spares i k k :=
  ⟨Eq.refl _, Eq.refl _, id, Eq.refl _, Eq.refl _⟩

instance {i : Nat} : IsPreorder State (Spares i) where
  refl _ := .rfl
  trans _ _ _ h h' := ⟨h'.dinode.trans h.dinode, h'.icopy.trans h.icopy,
    fun hv => h.valid (h'.valid hv), h'.ftable.trans h.ftable, h'.ptable.trans h.ptable⟩

section Functions

variable {i ip : Nat}

theorem spares_setCopy (hne : i ≠ ip) (k : State) (d : Dinode) : Spares i k (k.setCopy ip d) :=
  { Spares.rfl with icopy := State.setCopy_of_ne k d hne }

theorem spares_setEntry (k : State) {e : CacheEntry}
    (hv : e.valid = true → (k.icache ip).valid = true) : Spares i k (k.setEntry ip e) := by
  refine { Spares.rfl with valid := fun hi => ?_ }
  by_cases hne : i = ip
  · subst hne
    rw [State.setEntry_self] at hi
    exact hv hi
  · rwa [State.setEntry_of_ne _ _ hne] at hi

theorem logWrite_spares (b : Nat) : Preserves (Spares i) (logWrite b) :=
  .bind .get fun _ => .ite (.stop _) (.ite (.stop _) (.modify fun _ => { Spares.rfl with }))

theorem bzero_spares (b : Nat) : Preserves (Spares i) (bzero b) :=
  .bind (.modify fun _ => { Spares.rfl with }) fun _ => logWrite_spares b

theorem balloc_spares : Preserves (Spares i) balloc := by
  refine .bind .get fun k => .bind (.modify fun _ => { Spares.rfl with }) fun _ => ?_
  cases firstFree k.bitmap k.sb.size 0 with
  | none => exact .stop _
  | some b =>
      exact .bind (.modify fun _ => { Spares.rfl with }) fun _ => .bind (logWrite_spares _)
        fun _ => .bind (bzero_spares b) fun _ => .pure b

theorem bfree_spares (b : Nat) : Preserves (Spares i) (bfree b) :=
  .bind .get fun _ => .ite (.stop _)
    (.bind (.modify fun _ => { Spares.rfl with }) fun _ => logWrite_spares _)

variable (hne : i ≠ ip)
include hne

theorem setAddr_spares (s b : Nat) : Preserves (Spares i) (setAddr ip s b) :=
  .modify fun k => spares_setCopy hne k _

theorem iupdate_spares : Preserves (Spares i) (iupdate ip) :=
  .bind (.modify fun _ => { Spares.rfl with dinode := Function.update_of_ne hne _ _ })
    fun _ => logWrite_spares _

theorem bmapDirect_spares (bn : Nat) : Preserves (Spares i) (bmapDirect ip bn) :=
  .bind .get fun _ => .ite
    (.bind balloc_spares fun b => .bind (setAddr_spares hne bn b) fun _ => .pure b) (.pure _)

omit hne in
theorem bmapEntry_spares (ind j : Nat) : Preserves (Spares i) (bmapEntry ind j) :=
  .bind .get fun _ => .ite (.bind balloc_spares fun b =>
    .bind (.modify fun _ => { Spares.rfl with }) fun _ => .bind (logWrite_spares _)
      fun _ => .pure b) (.pure _)

theorem bmap_spares (bn : Nat) : Preserves (Spares i) (bmap ip bn) :=
  .ite (bmapDirect_spares hne bn)
    (.ite (.bind (bmapDirect_spares hne _) fun ind => bmapEntry_spares ind _) (.stop _))

theorem itrunc_spares : Preserves (Spares i) (itrunc ip) := by
  have hdirect : Preserves (Spares i) (truncDirect ip) :=
    .loopTo (fun s => .bind .get fun _ => .ite (.pure ())
      (.bind (bfree_spares _) fun _ => setAddr_spares hne s 0)) _
  have hindirect : Preserves (Spares i) (truncIndirect ip) :=
    .bind .get fun _ => .ite (.pure ()) (.bind
      (.loopTo (fun _ => .ite (.pure ()) (bfree_spares _)) _) fun _ =>
        .bind (bfree_spares _) fun _ => setAddr_spares hne _ 0)
  exact .bind hdirect fun _ => .bind hindirect fun _ =>
    .bind (.modify fun k => spares_setCopy hne k _) fun _ => iupdate_spares hne

theorem iputFree_spares : Preserves (Spares i) (iputFree ip) :=
  .bind (itrunc_spares hne) fun _ => .bind (.modify fun k => spares_setCopy hne k _) fun _ =>
    .bind (iupdate_spares hne) fun _ => .modify fun k => spares_setEntry k nofun

theorem readi_spares (off n : Nat) : Preserves (Spares i) (readi ip off n) := by
  have hloop : ∀ fuel off n, Preserves (Spares i) (readLoop ip fuel off n) := by
    intro fuel
    induction fuel with
    | zero => exact fun _ _ => .pure []
    | succ fuel ih =>
        intro off n
        exact .ite (.pure []) (.bind (bmap_spares hne _) fun b => .bind .get fun k =>
          .bind (ih _ _) fun _ => .pure _)
  refine .bind .get fun k => .ite (.ite (.pure _) ?_) (.ite (.pure _)
    (.bind (hloop _ _ _) fun _ => .pure _))
  split
  · exact .pure _
  · exact .bind (.modify fun _ => { Spares.rfl with }) fun _ => .pure _

theorem writei_spares (src : Nat → UInt8) (off n : Nat) :
    Preserves (Spares i) (writei ip src off n) := by
  have hloop : ∀ fuel src off n, Preserves (Spares i) (writeLoop ip fuel src off n) := by
    intro fuel
    induction fuel with
    | zero => exact fun _ _ _ => .pure ()
    | succ fuel ih =>
        intro src off n
        exact .ite (.pure ()) (.bind (bmap_spares hne _) fun b =>
          .bind (.modify fun _ => { Spares.rfl with }) fun _ => .bind (logWrite_spares b)
            fun _ => ih _ _ _)
  have hgrow : Preserves (Spares i) (growSize ip (off + n) n) :=
    .bind .get fun _ => .ite
      (.bind (.modify fun k => spares_setCopy hne k _) fun _ => iupdate_spares hne) (.pure ())
  refine .bind .get fun k => .ite (.ite (.pure _) ?_) (.ite (.pure _) (.ite (.pure _)
    (.bind (hloop _ _ _ _) fun _ => .bind hgrow fun _ => .pure _)))
  split
  · exact .pure _
  · exact .bind (.modify fun _ => { Spares.rfl with }) fun _ => .pure _

end Functions

/-! ## Programs -/

/-- However it ends, the program spares inode `i`. -/
def Sparing (i p : Nat) {α : Type} (m : Prog α) : Prop :=
  ∀ k, Ends p m (fun _ k' => Spares i k k') Anyhow k

section Programs

variable {i p : Nat} {α β : Type}

theorem Sparing.ret (a : α) : Sparing i p (pure a : Prog α) := fun _ => .rfl

theorem Sparing.bind {m : Prog α} {f : α → Prog β} (hm : Sparing i p m)
    (hf : ∀ a, Sparing i p (f a)) : Sparing i p (m >>= f) := by
  intro k
  refine (Prog.wp_bind _ _).2 (Prog.wp_imp (hm k) fun a k₁ h₁ => ?_)
  exact Prog.wp_imp (hf a k₁) fun _ k₂ h₂ => trans_of (Spares i) h₁ h₂

theorem Sparing.act {a : Act} (h : Preserves (Spares i) a.code) : Sparing i p (Sys.act a) := by
  have hexec : Preserves (Spares i) (Act.exec p a) :=
    .bind .get fun _ => .ite (.bind (.modify fun _ => { Spares.rfl with }) fun _ => h) (.stop _)
  exact fun k _ => wp_mono (hexec.wp k) (fun _ _ h => h) fun _ _ _ => trivial

theorem Sparing.panic {m : Panic} : Sparing i p (Sys.panic m : Prog α) := fun _ => ends_panic

theorem stat_sparing (j : Nat) : Sparing i p (Sys.act (.stat j)) :=
  .act (.bind .get fun _ => .pure _)

theorem iget_sparing (j : Nat) : Sparing i p (Sys.act (.iget j)) :=
  .act (.bind .get fun _ => .ite (.modify fun k => spares_setEntry k id)
    (.ite (.stop _) (.modify fun k => spares_setEntry k nofun)))

theorem iunlock_sparing (j : Nat) : Sparing i p (Sys.act (.iunlock j)) :=
  .act (.bind .get fun _ => .ite (.stop _) (.modify fun k => spares_setEntry k id))

theorem commitTrans_sparing : Sparing i p (Sys.act .commitTrans) :=
  .act (.modify fun _ => { Spares.rfl with })

variable {dp : Nat} (hne : i ≠ dp)
include hne

theorem iunlockput_sparing : Sparing i p (Sys.iunlockput dp) := by
  have hcheck : Sparing i p (Sys.act (.iputCheck dp)) :=
    .act (.bind .get fun _ => .ite
      (.ite (.stop _) (.bind (.modify fun k => spares_setEntry k id) fun _ => .pure _))
      (.bind (.modify fun k => spares_setEntry k id) fun _ => .pure _))
  refine .bind (iunlock_sparing dp) fun _ => .bind hcheck fun r => ?_
  cases r with
  | true => exact .act (iputFree_spares hne)
  | false => exact .ret ()

theorem readDirent_sparing (off : Nat) (m : Panic) : Sparing i p (Sys.readDirent dp off m) := by
  refine .bind (.act (readi_spares hne _ _)) fun r => ?_
  cases r with
  | none => exact .panic
  | some de =>
      dsimp only
      split
      · exact .ret _
      · exact .panic

theorem dirlookup_sparing (name : List UInt8) : Sparing i p (Sys.dirlookup dp name) := by
  have hloop : ∀ n off, Sparing i p (Sys.dirlookupLoop dp name n off) := by
    intro n
    induction n with
    | zero => exact fun _ => .ret _
    | succ n ih =>
        intro off
        refine .bind (readDirent_sparing hne _ _) fun de => ?_
        split
        · exact .bind (iget_sparing _) fun _ => .ret _
        · exact ih _
  refine .bind (stat_sparing dp) fun d => ?_
  split
  · exact .panic
  · exact hloop _ _

theorem emptyLoop_sparing (n : Nat) : ∀ off, Sparing i p (Sys.emptyLoop dp n off) := by
  induction n with
  | zero => exact fun _ => .ret _
  | succ n ih =>
      intro off
      refine .bind (readDirent_sparing hne _ _) fun de => ?_
      split
      · exact .ret _
      · exact ih _

/-- Entering a name changes the directory, or halts the machine. -/
theorem createEntry_sparing (inum : Nat) (name : List UInt8) :
    Sparing i p (Sys.createEntry dp inum name) := by
  intro k
  unfold Sys.createEntry Sys.dirlink
  refine (Prog.wp_bind _ _).2 ((Prog.wp_bind _ _).2 ?_)
  refine Prog.wp_imp (dirlookup_sparing hne name k) fun r k₁ h₁ => ?_
  cases r with
  | some x => exact ends_then fun _ _ => ends_panic
  | none =>
      have hrest : Sparing i p ((do
          let d ← Sys.act (.stat dp)
          let off ← Sys.emptyLoop dp (Sys.entries d.size) 0
          let r ← Sys.act (.writei dp (dirent inum name) off)
          if r ≠ DIRENT then Sys.panic .dirlink else return true) >>= fun r => do
            if r then do
              Sys.iunlockput dp
              return some inum
            else Sys.panic .createDirlink) := by
        refine .bind (.bind (stat_sparing dp) fun d => .bind (emptyLoop_sparing hne _ _) fun off =>
          .bind (.act (writei_spares hne _ _ _)) fun r => ?_) fun r => ?_
        · split
          · exact .panic
          · exact .ret _
        · split
          · exact .bind (iunlockput_sparing hne) fun _ => .ret _
          · exact .panic
      refine Prog.wp_imp ((Prog.wp_bind _ _).1 (hrest k₁)) fun r k₂ h₂ => ?_
      exact Prog.wp_imp h₂ fun _ k₃ h₃ => trans_of (Spares i) h₁ h₃

end Programs

/-! ## A new inode -/

/-- Inode `i` is in use, has a link, and its cached copy is what the disk has. -/
def InUse (i : Nat) (k : State) : Prop :=
  (k.dinode i).type ≠ .free ∧ (k.dinode i).nlink ≠ 0 ∧ k.icopy i = k.dinode i

section Create

variable {i p dp : Nat} {k k' : State}

theorem Spares.inUse (h : Spares i k k') (hi : InUse i k) : InUse i k' := by
  unfold InUse
  rw [h.dinode, h.icopy]
  exact hi

/-- Letting go of an inode that has a link frees nothing. -/
theorem iunlockput_inUse (h : InUse i k) :
    Ends p (Sys.iunlockput i) (fun _ k' => InUse i k') Anyhow k := by
  refine (Prog.wp_bind _ _).2 (Prog.wp_imp (iunlock_sparing (i := i) i k) fun _ k₁ h₁ => ?_)
  have huse := h₁.inUse h
  refine ends_exec fun r k₂ hcheck => ?_
  obtain ⟨-, ⟨-, -, hlink⟩, -⟩ | ⟨rfl, -, rfl⟩ := iputCheck_ok hcheck
  · have hcopy : (k₁.icopy i).nlink = 0 := hlink
    rw [huse.2.2] at hcopy
    exact absurd hcopy huse.2.1
  · exact huse

/-- What `create` stores into its inode reaches the disk. -/
theorem initInode_stored (k : State) (ip : Nat) (major minor : Int) :
    wp (initInode ip major minor)
      (fun _ k' => Stored ip { k.icopy ip with major := major, minor := minor, nlink := 1 } k k')
      Anyhow k := by
  unfold initInode
  rw [wp_bind, wp_modify]
  exact wp_mono (iupdate_spec k ip _) (fun _ _ h => h) fun _ _ _ => trivial

theorem createEntry_returns (dp ip : Nat) (name : List UInt8) (k : State) :
    Ends p (Sys.createEntry dp ip name) (fun r _ => r = some ip) Anyhow k := by
  refine ends_then fun r k₁ => ?_
  cases r with
  | true => exact ends_then fun _ _ => rfl
  | false => exact ends_panic

/-- The inode of a new file is one that was free, and it is in use from then on. -/
theorem createNew_stays (hwf : Wf k) (hcur : k.cur = p)
    (hdp : (k.dinode dp).type = .dir) (name : List UInt8) (major minor : Int) :
    Ends p (Sys.createNew dp name .file major minor)
      (fun r k' => ∃ inum, r = some inum ∧ (k.dinode inum).type = .free ∧ InUse inum k' ∧
        k'.ftable = k.ftable ∧ k'.ptable = k.ptable) Anyhow k := by
  refine ends_act hcur fun inum k₁ halloc => ?_
  have ha := ok_of_wp (ialloc_spec hwf) halloc
  have hne : inum ≠ dp := by
    rintro rfl
    have := ha.free
    rw [hdp] at this
    cases this
  have htype : (k₁.dinode inum).type = .file := by
    show (k₁.node inum).type = .file
    rw [ha.node, Function.update_self]
  have hftable : k₁.ftable = k.ftable := ha.frame.ftable
  have hptable : k₁.ptable = k.ptable := ha.frame.ptable
  have hcur₁ : k₁.cur = p := ha.frame.cur.trans hcur
  refine ends_act hcur₁ fun _ k₂ hlock => ?_
  obtain ⟨-, -, hk₂⟩ := ilock_ok hlock
  have hcopy : k₂.icopy inum = k₁.dinode inum := by
    rw [hk₂]
    dsimp only
    split
    · rename_i hv
      exact ha.wf.coherent inum hv
    · exact Function.update_self _ _ _
  have hptable₂ : k₂.ptable = k.ptable := by rw [hk₂, ← hptable]
  refine ends_act (by rw [hk₂]; exact hcur₁) fun _ k₃ hinit => ?_
  have hstored := ok_of_wp (initInode_stored k₂ inum major minor) hinit
  have huse : InUse inum k₃ := by
    refine ⟨?_, ?_, ?_⟩
    · rw [hstored.dinode, Function.update_self]
      show (k₂.icopy inum).type ≠ .free
      rw [hcopy, htype]
      decide
    · rw [hstored.dinode, Function.update_self]
      exact one_ne_zero
    · rw [hstored.dinode, hstored.icopy, Function.update_self, Function.update_self]
  rw [if_neg (by decide)]
  refine Prog.wp_mono (Prog.wp_and (createEntry_sparing hne inum name k₃)
    (createEntry_returns dp inum name k₃)) (fun r k₄ h₄ => ?_) fun _ _ _ => trivial
  refine ⟨inum, h₄.2, ha.free, h₄.1.inUse huse, ?_, ?_⟩
  · rw [h₄.1.ftable, hstored.frame.ftable, hk₂, ← hftable]
  · rw [h₄.1.ptable, hstored.frame.ptable, hptable₂]

end Create

end Xv6.Kernel
