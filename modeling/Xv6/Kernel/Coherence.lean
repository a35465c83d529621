import Xv6.Kernel.Blocks
import Xv6.Kernel.Icache

/-!
# The inode cache

`icache.inode` is an array of `NINODE` in-memory inodes.  `iget` searches it under
`icache.lock`, `ilock` sets `I_BUSY`, and what a process then does to the inode is code
of `Icache`, step by step.  Processes take turns after every step.

* A reference has a name, and `refs e` lists the references to entry `e`: `ref` is how
  many there are.  Whoever calls `idup`, `ilock` or `iput` has one, and the one a process
  locked the inode by is not dropped while it has it locked.
* A `Session` is what a process that has set `I_BUSY` is doing.  A process may go on with
  one inode or with another, so a session is a process's and an entry's.

The disk is what the buffer cache shows, by device.

## Main results

* `Inv.act`: each step keeps the invariant.
* `icache_coherent`: in every interleaving an inode has one entry, a busy entry has one
  process, and an idle valid entry is as on the disk.
-/

namespace Xv6.Kernel.Icache

open Xv6.Verified
open Exec

/-- An inode: `dev` and `inum`. -/
abbrev Key := Nat × Nat

/-- `struct inode`; the flags are `I_BUSY` and `I_VALID`. -/
structure Entry where
  key : Key
  ref : Nat
  busy : Bool
  valid : Bool
  copy : Dinode

/-- What a process does with an entry it has made busy: read the inode from the disk,
run a function, free the inode in `iput`.  `halted` is the panic of `ilock`. -/
inductive Phase where
  | loading
  | halted
  | running (todo : Code Unit)
  | freeing (todo : Code Unit)

/-- A process's use of a busy entry, and the reference it has for it. -/
structure Session where
  via : Nat
  phase : Phase

/-- The cache, the disk and the processes. -/
structure State where
  entry : Nat → Entry
  dinode : Key → Dinode
  size : Nat → Nat
  bitmap : Nat → Nat → Bool
  data : Nat → Nat → Block
  refs : Nat → List Nat
  session : Nat → Nat → Option Session

/-- Code of the cache. -/
abbrev M := Exec Stop State

namespace State

/-- Replace entry `e`. -/
def setEntry (s : State) (e : Nat) (x : Entry) : State :=
  { s with entry := Function.update s.entry e x }

/-- Replace the references to entry `e`. -/
def setRefs (s : State) (e : Nat) (ts : List Nat) : State :=
  { s with refs := Function.update s.refs e ts }

/-- Replace what process `p` does with entry `e`. -/
def setSession (s : State) (p e : Nat) (x : Option Session) : State :=
  { s with session := Function.update s.session p (Function.update (s.session p) e x) }

/-- Replace block `b` of device `dev`. -/
def setData (s : State) (dev b : Nat) (c : Block) : State :=
  { s with data := Function.update s.data dev (Function.update (s.data dev) b c) }

/-- Replace the bitmap bit of block `b` of device `dev`. -/
def setBit (s : State) (dev b : Nat) (used : Bool) : State :=
  { s with bitmap := Function.update s.bitmap dev (Function.update (s.bitmap dev) b used) }

/-- The inode of entry `e`, in memory and on the disk. -/
def view (s : State) (e : Nat) : View := ⟨(s.entry e).copy, s.dinode (s.entry e).key⟩

end State

/-! ## The code -/

/-- One step of code that has entry `e` locked. -/
def Op.exec (e : Nat) : (a : Op) → M a.Res
  | .copy => do
      let s ← get
      return (s.entry e).copy
  | .set d => modify fun s => s.setEntry e { s.entry e with copy := d }
  | .iupdate => modify fun s =>
      { s with dinode := Function.update s.dinode (s.entry e).key (s.entry e).copy }
  | .balloc => do
      let s ← get
      let dev := (s.entry e).key.1
      match firstFree (s.bitmap dev) (s.size dev) 0 with
      | none => stop (.panic .ballocOutOfBlocks)
      | some b => do
          modify fun s => (s.setBit dev b true).setData dev b Block.zero
          return b
  | .bfree b => do
      let s ← get
      let dev := (s.entry e).key.1
      if s.bitmap dev b = false then stop (.panic .freeingFreeBlock)
      else modify fun s => s.setBit dev b false
  | .word b j => do
      let s ← get
      return (s.data (s.entry e).key.1 b).word j
  | .setWord b j v => modify fun s =>
      s.setData (s.entry e).key.1 b ((s.data (s.entry e).key.1 b).setWord j v)
  | .copyIn b off m src => modify fun s =>
      s.setData (s.entry e).key.1 b ((s.data (s.entry e).key.1 b).copyIn off m src)
  | .panic m => stop (.panic m)

/-- `iget`: the entry the inode has, or else the first unused one.  The new reference is
`t`. -/
def iget (t : Nat) (key : Key) : M Unit := do
  let s ← get
  match firstFrom (fun e => decide (0 < (s.entry e).ref ∧ (s.entry e).key = key)) NINODE 0 with
  | some e =>
      modify fun s =>
        (s.setEntry e { s.entry e with ref := (s.entry e).ref + 1 }).setRefs e (t :: s.refs e)
  | none =>
      match firstFrom (fun e => decide ((s.entry e).ref = 0)) NINODE 0 with
      | none => stop (.panic .igetNoInodes)
      | some e =>
          modify fun s =>
            (s.setEntry e ⟨key, 1, false, false, (s.entry e).copy⟩).setRefs e [t]

/-- `idup`: `t` is the new reference. -/
def idup (e t : Nat) : M Unit :=
  modify fun s =>
    (s.setEntry e { s.entry e with ref := (s.entry e).ref + 1 }).setRefs e (t :: s.refs e)

/-- `ilock`, up to the point where the inode is read from the disk. -/
def ilock (p e t : Nat) : M Unit := do
  let s ← get
  if (s.entry e).ref < 1 then stop (.panic .ilock)
  else if (s.entry e).busy then stop .blocked
  else do
    modify fun s => s.setEntry e { s.entry e with busy := true }
    modify fun s => s.setSession p e
      (some ⟨t, if (s.entry e).valid then .running (pure ()) else .loading⟩)

/-- The rest of `ilock`. -/
def load (p e : Nat) (x : Session) : M Unit := do
  modify fun s =>
    s.setEntry e { s.entry e with copy := s.dinode (s.entry e).key, valid := true }
  modify fun s => s.setSession p e (some { x with
    phase := if (s.dinode (s.entry e).key).type = .free then .halted else .running (pure ()) })

/-- `iunlock`. -/
def iunlock (p e : Nat) : M Unit := do
  let s ← get
  if (s.entry e).busy = false ∨ (s.entry e).ref < 1 then stop (.panic .iunlock)
  else do
    modify fun s => s.setEntry e { s.entry e with busy := false }
    modify fun s => s.setSession p e none

/-- `iput` of reference `t`, up to the point where it frees the inode. -/
def iput (p e t : Nat) : M Unit := do
  let s ← get
  if (s.entry e).ref = 1 ∧ (s.entry e).valid ∧ (s.entry e).copy.nlink = 0 then
    if (s.entry e).busy then stop (.panic .iputBusy)
    else do
      modify fun s => s.setEntry e { s.entry e with busy := true }
      modify fun s => s.setSession p e (some ⟨t, .freeing iputFree⟩)
  else
    modify fun s =>
      (s.setEntry e { s.entry e with ref := (s.entry e).ref - 1 }).setRefs e ((s.refs e).erase t)

/-- The second critical section of `iput`. -/
def iputEnd (p e : Nat) (x : Session) : M Unit := do
  modify fun s => s.setEntry e
    { s.entry e with ref := (s.entry e).ref - 1, busy := false, valid := false }
  modify fun s => (s.setRefs e ((s.refs e).erase x.via)).setSession p e none

/-- One round of the loop of `ialloc`; `iget` is a step of its own. -/
def ialloc (key : Key) (type : InodeType) : M Unit :=
  modify fun s =>
    if (s.dinode key).type = .free then
      { s with dinode := Function.update s.dinode key { Dinode.zero with type := type } }
    else s

/-- The next step of the code of a session. -/
def next (p e via : Nat) (phase : Code Unit → Phase) (a : Op) (k : a.Res → Code Unit) :
    M Unit := do
  let r ← a.exec e
  modify fun s => s.setSession p e (some ⟨via, phase (k r)⟩)

/-! ## Interleavings -/

/-- What a process can do next. -/
inductive Act where
  | iget (t : Nat) (key : Key)
  | idup (e t : Nat)
  | ilock (p e t : Nat)
  | load (p e : Nat)
  | start (p e : Nat) (f : Func)
  | next (p e : Nat)
  | iunlock (p e : Nat)
  | iput (p e t : Nat)
  | iputEnd (p e : Nat)
  | ialloc (key : Key) (type : InodeType)

/-- Its code, as far as what the process is doing allows it.  A process that has the
inode locked and is in no function may call one. -/
def Act.code : Act → M Unit
  | .iget t key => Icache.iget t key
  | .idup e t => Icache.idup e t
  | .ilock p e t => Icache.ilock p e t
  | .load p e => do
      let s ← get
      match s.session p e with
      | some ⟨via, .loading⟩ => Icache.load p e ⟨via, .loading⟩
      | _ => stop .blocked
  | .start p e f => do
      let s ← get
      match s.session p e with
      | some ⟨via, .running (.ret ())⟩ =>
          modify fun s => s.setSession p e (some ⟨via, .running f.code⟩)
      | _ => stop .blocked
  | .next p e => do
      let s ← get
      match s.session p e with
      | some ⟨via, .running (.act a k)⟩ => Icache.next p e via .running a k
      | some ⟨via, .freeing (.act a k)⟩ => Icache.next p e via .freeing a k
      | _ => stop .blocked
  | .iunlock p e => do
      let s ← get
      match s.session p e with
      | some ⟨_, .running (.ret ())⟩ => Icache.iunlock p e
      | _ => stop .blocked
  | .iput p e t => Icache.iput p e t
  | .iputEnd p e => do
      let s ← get
      match s.session p e with
      | some ⟨via, .freeing (.ret ())⟩ => Icache.iputEnd p e ⟨via, .freeing (.ret ())⟩
      | _ => stop .blocked
  | .ialloc key type => Icache.ialloc key type

/-- Who calls `idup`, `ilock` or `iput` has a reference; the one `iput` drops is not one
by which the inode is locked or being freed. -/
def Act.Allowed (s : State) : Act → Prop
  | .idup e _ => s.refs e ≠ []
  | .ilock _ e t => t ∈ s.refs e
  | .iput _ e t => t ∈ s.refs e ∧ ∀ q x, s.session q e = some x → x.via ≠ t
  | _ => True

/-- The states that the processes' steps lead to, in any order. -/
inductive Steps (s : State) : State → Prop
  | refl : Steps s s
  | step {s₁ s₂ : State} (a : Act) (h : Steps s s₁) (hallowed : a.Allowed s₁)
      (hrun : a.code.run s₁ = .ok () s₂) : Steps s s₂

/-! ## The invariant -/

/-- What a session may go on with. -/
def Fine (v : View) : Phase → Prop
  | .loading => True
  | .halted => True
  | .running todo => Runs todo v fun _ v' => v'.Clean
  | .freeing todo => Runs todo v fun _ _ => True

/-- The invariant of one entry `x`: the inode is `d` on the disk, `ts` are the references
to the entry, `ss` is what each process does with it. -/
structure EntryInv (x : Entry) (d : Dinode) (ts : List Nat) (ss : Nat → Option Session) :
    Prop where
  count : x.ref = ts.length
  busy : x.busy = true ↔ ∃ p, ss p ≠ none
  single : ∀ p q, ss p ≠ none → ss q ≠ none → p = q
  via : ∀ p y, ss p = some y → y.via ∈ ts
  phase : ∀ p y, ss p = some y → Fine ⟨x.copy, d⟩ y.phase
  rest : 0 < x.ref → x.busy = false → x.valid = true → View.Clean ⟨x.copy, d⟩

/-- The invariant of the cache and the disk. -/
structure Inv (s : State) : Prop where
  entries : ∀ e, EntryInv (s.entry e) (s.dinode (s.entry e).key) (s.refs e) fun p => s.session p e
  unique : ∀ e e', 0 < (s.entry e).ref → 0 < (s.entry e').ref →
    (s.entry e).key = (s.entry e').key → e = e'
  inside : ∀ e, 0 < (s.entry e).ref → e < NINODE
  mapped : ∀ key, (s.dinode key).type ≠ .free → Mapped (s.dinode key)
  boot : ∀ dev, s.bitmap dev 0 = true

theorem pre_live {v : View} {a : Op} (h : discipline.pre v a) : v.disk.type ≠ .free := by
  cases a with
  | iupdate => exact h.1
  | bfree b => exact h.1
  | copy | set | balloc | word | setWord | copyIn | panic => exact h

/-- No step of a session depends on an inode that is free on the disk. -/
theorem Fine.of_free {v : View} {φ : Phase} (h : Fine v φ) (hfree : v.disk.type = .free)
    (d : Dinode) : Fine { v with disk := d } φ := by
  cases φ with
  | loading => trivial
  | halted => trivial
  | running todo =>
      cases todo with
      | ret u =>
          have hclean : v.Clean := h
          exact absurd (hclean.eq ▸ hfree) hclean.live
      | act a k => exact absurd hfree (pre_live h.1)
  | freeing todo =>
      cases todo with
      | ret u => trivial
      | act a k => exact absurd hfree (pre_live h.1)

section Entry

variable {x : Entry} {d : Dinode} {ts : List Nat} {ss : Nat → Option Session} {p t : Nat}
  {y : Session}

theorem EntryInv.of_free (h : EntryInv x d ts ss) (hfree : d.type = .free) (d' : Dinode) :
    EntryInv x d' ts ss := by
  refine ⟨h.count, h.busy, h.single, h.via, ?_, ?_⟩
  · intro p y hp
    exact (h.phase p y hp).of_free hfree d'
  · intro href hidle hvalid
    have hclean := h.rest href hidle hvalid
    have heq : x.copy = d := hclean.eq
    exact absurd (heq ▸ hfree) hclean.live

theorem EntryInv.none_of_unused (h : EntryInv x d ts ss) (hunused : x.ref = 0) (p : Nat) :
    ss p = none := by
  cases hp : ss p with
  | none => rfl
  | some y =>
      have hmem := h.via p y hp
      have hlen := h.count
      rw [hunused] at hlen
      rw [List.length_eq_zero_iff.1 hlen.symm] at hmem
      cases hmem

theorem EntryInv.of_unused (h : EntryInv x d ts ss) (hunused : x.ref = 0) (d' : Dinode) :
    EntryInv x d' ts ss := by
  have hnone := h.none_of_unused hunused
  refine ⟨h.count, h.busy, h.single, h.via, ?_, ?_⟩
  · intro p y hp
    rw [hnone p] at hp
    cases hp
  · intro href
    omega

/-- An entry that no process has made busy. -/
theorem EntryInv.idle (hcount : x.ref = ts.length) (hbusy : x.busy = false)
    (hnone : ∀ p, ss p = none) (hrest : x.valid = true → View.Clean ⟨x.copy, d⟩) :
    EntryInv x d ts ss := by
  refine ⟨hcount, ?_, ?_, ?_, ?_, fun _ _ => hrest⟩
  · constructor
    · intro h
      rw [hbusy] at h
      cases h
    · rintro ⟨p, hp⟩
      exact absurd (hnone p) hp
  · intro p q hp
    exact absurd (hnone p) hp
  · intro p y hp
    rw [hnone p] at hp
    cases hp
  · intro p y hp
    rw [hnone p] at hp
    cases hp

/-- An entry that process `p` has made busy. -/
theorem EntryInv.held (hcount : x.ref = ts.length) (hbusy : x.busy = true)
    (hother : ∀ q, q ≠ p → ss q = none) (hvia : y.via ∈ ts) (hφ : Fine ⟨x.copy, d⟩ y.phase) :
    EntryInv x d ts (Function.update ss p (some y)) := by
  have honly : ∀ q z, Function.update ss p (some y) q = some z → q = p ∧ z = y := by
    intro q z hq
    by_cases hqp : q = p
    · rw [hqp, Function.update_self] at hq
      exact ⟨hqp, (Option.some.inj hq).symm⟩
    · rw [Function.update_of_ne hqp, hother q hqp] at hq
      cases hq
  refine ⟨hcount, ⟨fun _ => ⟨p, ?_⟩, fun _ => hbusy⟩, ?_, ?_, ?_, ?_⟩
  · rw [Function.update_self]
    exact Option.some_ne_none _
  · intro q r hq hr
    obtain ⟨z, hz⟩ := Option.ne_none_iff_exists'.1 hq
    obtain ⟨z', hz'⟩ := Option.ne_none_iff_exists'.1 hr
    rw [(honly q z hz).1, (honly r z' hz').1]
  · intro q z hq
    rw [(honly q z hq).2]
    exact hvia
  · intro q z hq
    rw [(honly q z hq).2]
    exact hφ
  · intro _ hidle
    rw [hbusy] at hidle
    cases hidle

/-- An unused entry is recycled. -/
theorem EntryInv.recycle (h : EntryInv x d ts ss) (hunused : x.ref = 0) (key : Key) (t : Nat)
    (d' : Dinode) : EntryInv ⟨key, 1, false, false, x.copy⟩ d' [t] ss :=
  .idle rfl rfl (h.none_of_unused hunused) fun hvalid => nomatch hvalid

/-- One more reference. -/
theorem EntryInv.take (h : EntryInv x d ts ss) (href : 0 < x.ref) (t : Nat) :
    EntryInv { x with ref := x.ref + 1 } d (t :: ts) ss := by
  refine ⟨?_, h.busy, h.single, ?_, h.phase, fun _ => h.rest href⟩
  · rw [List.length_cons, ← h.count]
  · intro p y hp
    exact List.mem_cons_of_mem _ (h.via p y hp)

/-- One reference less. -/
theorem EntryInv.drop (h : EntryInv x d ts ss) (ht : t ∈ ts)
    (hother : ∀ p y, ss p = some y → y.via ≠ t) :
    EntryInv { x with ref := x.ref - 1 } d (ts.erase t) ss := by
  refine ⟨?_, h.busy, h.single, ?_, h.phase, fun href => h.rest (by simp only at href; omega)⟩
  · rw [List.length_erase_of_mem ht, ← h.count]
  · intro p y hp
    exact (List.mem_erase_of_ne (hother p y hp)).2 (h.via p y hp)

/-- A process makes the entry busy. -/
theorem EntryInv.enter (h : EntryInv x d ts ss) (hidle : x.busy = false) (ht : t ∈ ts)
    (p : Nat) {φ : Phase} (hφ : Fine ⟨x.copy, d⟩ φ) :
    EntryInv { x with busy := true } d ts (Function.update ss p (some ⟨t, φ⟩)) := by
  refine .held h.count rfl (fun q _ => ?_) ht hφ
  by_contra hq
  rw [h.busy.2 ⟨q, hq⟩] at hidle
  cases hidle

theorem EntryInv.only (h : EntryInv x d ts ss) (hp : ss p = some y) (q : Nat) (hq : q ≠ p) :
    ss q = none := by
  by_contra hsome
  exact hq (h.single q p hsome (hp ▸ Option.some_ne_none y))

/-- The process that has made the entry busy goes on. -/
theorem EntryInv.move (h : EntryInv x d ts ss) (hp : ss p = some y) {c d' : Dinode} {v : Bool}
    {φ : Phase} (hφ : Fine ⟨c, d'⟩ φ) :
    EntryInv { x with copy := c, valid := v } d' ts
      (Function.update ss p (some ⟨y.via, φ⟩)) :=
  .held h.count (h.busy.2 ⟨p, hp ▸ Option.some_ne_none y⟩) (h.only hp) (h.via p y hp) hφ

/-- The process that has made the entry busy leaves it, perhaps with its reference. -/
theorem EntryInv.leave (h : EntryInv x d ts ss) (hp : ss p = some y) {v : Bool} {n : Nat}
    {ts' : List Nat} (hcount : n = ts'.length) (hrest : v = true → View.Clean ⟨x.copy, d⟩) :
    EntryInv { x with ref := n, busy := false, valid := v } d ts' (Function.update ss p none) := by
  refine .idle hcount rfl (fun q => ?_) hrest
  by_cases hq : q = p
  · rw [hq, Function.update_self]
  · rw [Function.update_of_ne hq]
    exact h.only hp q hq

end Entry

/-! ## Each step keeps it -/

section Step

variable {s s' : State}

/-- A step that concerns one entry and, on the disk, its inode. -/
structure Only (s : State) (e : Nat) (s' : State) : Prop where
  entry : ∀ e', e' ≠ e → s'.entry e' = s.entry e'
  refs : ∀ e', e' ≠ e → s'.refs e' = s.refs e'
  session : ∀ p e', e' ≠ e → s'.session p e' = s.session p e'
  dinode : ∀ key, 0 < (s.entry e).ref ∧ key = (s.entry e).key ∨ s'.dinode key = s.dinode key

/-- It keeps the invariant if it keeps it for this entry. -/
theorem Inv.only {e : Nat} (h : Inv s) (he : e < NINODE) (hs : Only s e s')
    (hentry : EntryInv (s'.entry e) (s'.dinode (s'.entry e).key) (s'.refs e)
      fun p => s'.session p e)
    (hkey : (0 < (s.entry e).ref ∧ (s'.entry e).key = (s.entry e).key) ∨
      ∀ e', 0 < (s.entry e').ref → (s.entry e').key ≠ (s'.entry e).key)
    (hmapped : ∀ key, (s'.dinode key).type ≠ .free → Mapped (s'.dinode key))
    (hboot : ∀ dev, s'.bitmap dev 0 = true) : Inv s' := by
  have hnew : ∀ e', e' ≠ e → 0 < (s.entry e').ref → (s.entry e').key ≠ (s'.entry e).key := by
    intro e' hne href heq
    rcases hkey with ⟨hold, hsame⟩ | hfresh
    · exact hne (h.unique e' e href hold (heq.trans hsame))
    · exact hfresh e' href heq
  refine ⟨?_, ?_, ?_, hmapped, hboot⟩
  · intro e'
    by_cases hne : e' = e
    · rw [hne]
      exact hentry
    · have hother := h.entries e'
      simp only [hs.entry e' hne, hs.refs e' hne, hs.session _ e' hne]
      rcases hs.dinode (s.entry e').key with ⟨hold, heq⟩ | hsame
      · rcases Nat.eq_zero_or_pos (s.entry e').ref with hunused | href
        · exact hother.of_unused hunused _
        · exact absurd (h.unique e' e href hold heq) hne
      · rw [hsame]
        exact hother
  · intro e₁ e₂ h₁ h₂ heq
    by_cases hne₁ : e₁ = e
    · by_cases hne₂ : e₂ = e
      · rw [hne₁, hne₂]
      · rw [hs.entry e₂ hne₂] at h₂ heq
        rw [hne₁] at heq
        exact absurd heq.symm (hnew e₂ hne₂ h₂)
    · rw [hs.entry e₁ hne₁] at h₁ heq
      by_cases hne₂ : e₂ = e
      · rw [hne₂] at heq
        exact absurd heq (hnew e₁ hne₁ h₁)
      · rw [hs.entry e₂ hne₂] at h₂ heq
        exact h.unique e₁ e₂ h₁ h₂ heq
  · intro e' href
    by_cases hne : e' = e
    · rw [hne]
      exact he
    · rw [hs.entry e' hne] at href
      exact h.inside e' href

theorem setEntry_self (s : State) (e : Nat) (x : Entry) : (s.setEntry e x).entry e = x :=
  Function.update_self _ _ _

theorem setSession_apply (s : State) (p e q e' : Nat) (z : Option Session) :
    (s.setSession p e z).session q e' =
      if e' = e then Function.update (fun q => s.session q e) p z q else s.session q e' := by
  simp only [State.setSession, Function.update_apply]
  split
  · rename_i hq
    rw [hq, Function.update_apply]
  · split
    · rename_i he
      rw [he]
    · rfl

/-- A step under `icache.lock` does nothing to the disk. -/
theorem Inv.locked {e : Nat} {x : Entry} {ts : List Nat} {ss : Nat → Option Session}
    (h : Inv s) (he : e < NINODE) (hentry : s'.entry = Function.update s.entry e x)
    (hrefs : s'.refs = Function.update s.refs e ts)
    (hsession : ∀ q e', s'.session q e' = if e' = e then ss q else s.session q e')
    (hdisk : s'.dinode = s.dinode) (hbitmap : s'.bitmap = s.bitmap)
    (hinv : EntryInv x (s.dinode x.key) ts ss)
    (hkey : (0 < (s.entry e).ref ∧ x.key = (s.entry e).key) ∨
      ∀ e', 0 < (s.entry e').ref → (s.entry e').key ≠ x.key) : Inv s' := by
  have hself : s'.entry e = x := by
    rw [hentry, Function.update_self]
  apply h.only he
  · constructor
    · intro e' hne
      rw [hentry, Function.update_of_ne hne]
    · intro e' hne
      rw [hrefs, Function.update_of_ne hne]
    · intro q e' hne
      rw [hsession, if_neg hne]
    · intro key
      exact .inr (by rw [hdisk])
  · simp only [hsession, if_true]
    rw [hself, hdisk, hrefs, Function.update_self]
    exact hinv
  · rw [hself]
    exact hkey
  · rw [hdisk]
    exact h.mapped
  · rw [hbitmap]
    exact h.boot

theorem session_apply (s : State) (e q e' : Nat) :
    s.session q e' = if e' = e then s.session q e else s.session q e' := by
  split
  · rename_i he
    rw [he]
  · rfl

theorem Inv.iget (h : Inv s) {t : Nat} {key : Key} 
    (hrun : (Icache.iget t key).run s = .ok () s') : Inv s' := by
  rw [Icache.iget, run_get_bind] at hrun
  split at hrun
  · rename_i e hfound
    cases hrun
    have hhit := (firstFrom_eq_some.1 hfound).2.2.1
    rw [decide_eq_true_eq] at hhit
    exact h.locked (h.inside e hhit.1) rfl rfl (session_apply s e) rfl rfl
      ((h.entries e).take hhit.1 t)
      (.inl ⟨hhit.1, rfl⟩)
  · rename_i hnone
    split at hrun
    · cases hrun
    · rename_i e hfound
      cases hrun
      obtain ⟨-, he, hunused, -⟩ := firstFrom_eq_some.1 hfound
      rw [decide_eq_true_eq] at hunused
      refine h.locked (by omega) rfl rfl (session_apply s e) rfl rfl
        ((h.entries e).recycle hunused key t _) (.inr fun e' href heq => ?_)
      -- the array was searched to its end, so no entry in use has this key
      have hmiss := firstFrom_eq_none.1 hnone e'
        (Nat.zero_le _) (by have := h.inside e' href; omega)
      rw [decide_eq_false_iff_not] at hmiss
      exact hmiss ⟨href, heq⟩

theorem Inv.idup (h : Inv s) {e t : Nat} (ha : s.refs e ≠ [])
    (hrun : (Icache.idup e t).run s = .ok () s') : Inv s' := by
  cases hrun
  have href : 0 < (s.entry e).ref := by
    rw [(h.entries e).count]
    exact List.length_pos_iff.2 ha
  exact h.locked (h.inside e href) rfl rfl (session_apply s e) rfl rfl ((h.entries e).take href t)
    (.inl ⟨href, rfl⟩)

theorem Inv.ref_pos (h : Inv s) {e t : Nat} (ht : t ∈ s.refs e) : 0 < (s.entry e).ref := by
  rw [(h.entries e).count]
  exact List.length_pos_of_mem ht

theorem Inv.ilock (h : Inv s) {p e t : Nat} (ht : t ∈ s.refs e)
    (hrun : (Icache.ilock p e t).run s = .ok () s') : Inv s' := by
  have href := h.ref_pos ht
  rw [Icache.ilock, run_get_bind, run_ite, run_ite] at hrun
  split at hrun
  · cases hrun
  split at hrun
  · cases hrun
  rename_i hidle
  cases hrun
  have hidle : (s.entry e).busy = false := by simpa using hidle
  have hself : ((s.setEntry e { s.entry e with busy := true }).entry e).valid =
      (s.entry e).valid := by
    rw [setEntry_self]
  refine h.locked (h.inside e href) rfl (Function.update_eq_self _ _).symm
    (setSession_apply _ p e · · _) rfl rfl ((h.entries e).enter hidle ht p ?_) (.inl ⟨href, rfl⟩)
  rw [hself]
  split
  · rename_i hvalid
    exact (h.entries e).rest href hidle hvalid
  · trivial

/-- The reference by which a process made the entry busy keeps it in use. -/
theorem Inv.session_ref (h : Inv s) {p e : Nat} {y : Session} (hp : s.session p e = some y) :
    0 < (s.entry e).ref :=
  h.ref_pos ((h.entries e).via p y hp)

theorem Inv.load (h : Inv s) {p e : Nat} {y : Session} (hp : s.session p e = some y)
    (hrun : (Icache.load p e y).run s = .ok () s') : Inv s' := by
  have href := h.session_ref hp
  cases hrun
  simp only [setEntry_self]
  refine h.locked (h.inside e href) rfl (Function.update_eq_self _ _).symm
    (setSession_apply _ p e · · _) rfl rfl ((h.entries e).move hp ?_) (.inl ⟨href, rfl⟩)
  split
  · trivial
  · rename_i hlive
    exact ⟨rfl, h.mapped _ hlive, hlive⟩

/-- The process that has made the entry busy calls a function. -/
theorem Inv.start (h : Inv s) {p e via : Nat} {f : Func}
    (hp : s.session p e = some ⟨via, .running (.ret ())⟩) :
    Inv (s.setSession p e (some ⟨via, .running f.code⟩)) := by
  have href := h.session_ref hp
  have hclean : (s.view e).Clean := (h.entries e).phase p _ hp
  exact h.locked (h.inside e href) (Function.update_eq_self _ _).symm
    (Function.update_eq_self _ _).symm (setSession_apply _ p e · · _) rfl rfl
    ((h.entries e).move hp (f.runs hclean)) (.inl ⟨href, rfl⟩)

theorem Inv.iunlock (h : Inv s) {p e via : Nat}
    (hp : s.session p e = some ⟨via, .running (.ret ())⟩)
    (hrun : (Icache.iunlock p e).run s = .ok () s') : Inv s' := by
  have href := h.session_ref hp
  have hclean : (s.view e).Clean := (h.entries e).phase p _ hp
  rw [Icache.iunlock, run_get_bind, run_ite] at hrun
  split at hrun
  · cases hrun
  cases hrun
  exact h.locked (h.inside e href) rfl (Function.update_eq_self _ _).symm
    (setSession_apply _ p e · · _) rfl rfl
    ((h.entries e).leave hp (h.entries e).count fun _ => hclean) (.inl ⟨href, rfl⟩)

theorem Inv.iput (h : Inv s) {p e t : Nat} (ht : t ∈ s.refs e)
    (hother : ∀ q y, s.session q e = some y → y.via ≠ t)
    (hrun : (Icache.iput p e t).run s = .ok () s') : Inv s' := by
  have href := h.ref_pos ht
  rw [Icache.iput, run_get_bind, run_ite, run_ite] at hrun
  split at hrun
  · rename_i hlast
    split at hrun
    · cases hrun
    rename_i hidle
    cases hrun
    have hidle : (s.entry e).busy = false := by simpa using hidle
    have hclean : (s.view e).Clean := (h.entries e).rest href hidle hlast.2.1
    exact h.locked (h.inside e href) rfl (Function.update_eq_self _ _).symm
      (setSession_apply _ p e · · _) rfl rfl
      ((h.entries e).enter hidle ht p (iputFree_runs hclean)) (.inl ⟨href, rfl⟩)
  · cases hrun
    exact h.locked (h.inside e href) rfl rfl (session_apply s e) rfl rfl
      ((h.entries e).drop ht hother) (.inl ⟨href, rfl⟩)

theorem Inv.iputEnd (h : Inv s) {p e : Nat} {y : Session} (hp : s.session p e = some y)
    (hrun : (Icache.iputEnd p e y).run s = .ok () s') : Inv s' := by
  have href := h.session_ref hp
  have hcount : (s.entry e).ref - 1 = ((s.refs e).erase y.via).length := by
    rw [List.length_erase_of_mem ((h.entries e).via p y hp), (h.entries e).count]
  cases hrun
  exact h.locked (h.inside e href) rfl rfl (setSession_apply _ p e · · _) rfl rfl
    ((h.entries e).leave hp hcount fun hvalid => nomatch hvalid) (.inl ⟨href, rfl⟩)

/-- A free inode is nobody's, whatever becomes of it on the disk. -/
theorem Inv.ialloc (h : Inv s) {key : Key} {type : InodeType}
    (hrun : (Icache.ialloc key type).run s = .ok () s') : Inv s' := by
  cases hrun
  beta_reduce
  split
  · rename_i hfree
    refine ⟨fun e => ?_, h.unique, h.inside, fun key' hlive => ?_, h.boot⟩
    · by_cases hkey : (s.entry e).key = key
      · exact (h.entries e).of_free (hkey ▸ hfree) _
      · have hsame : Function.update s.dinode key { Dinode.zero with type := type }
            (s.entry e).key = s.dinode (s.entry e).key := Function.update_of_ne hkey _ _
        simp only [hsame]
        exact h.entries e
    · by_cases hkey : key' = key
      · simp only [hkey, Function.update_self]
        exact fun bn hbn => absurd hbn (Nat.not_lt_zero _)
      · simp only [Function.update_of_ne hkey] at hlive ⊢
        exact h.mapped key' hlive
  · exact h

/-! ### The steps of the code under the lock -/

/-- What one step of code under the lock does: to the view what the discipline says,
and nothing to other inodes. -/
structure Did (s : State) (e : Nat) (a : Op) (r : a.Res) (s' : State) : Prop where
  fits : discipline.fits (s.view e) a r
  view : s'.view e = discipline.next (s.view e) a r
  entry : s'.entry = Function.update s.entry e { s.entry e with copy := (s'.entry e).copy }
  dinode : ∀ key, key ≠ (s.entry e).key → s'.dinode key = s.dinode key
  refs : s'.refs = s.refs
  session : s'.session = s.session
  boot : ∀ dev, s'.bitmap dev 0 = true

theorem setBit_boot (hboot : ∀ dev, s.bitmap dev 0 = true) (dev : Nat) {b : Nat} (hb : b ≠ 0)
    (used : Bool) (dev' : Nat) : (s.setBit dev b used).bitmap dev' 0 = true := by
  simp only [State.setBit, Function.update_apply]
  split
  · rw [Function.update_of_ne hb.symm]
    exact hboot dev
  · exact hboot dev'

theorem Op.did {e : Nat} {a : Op} {r : a.Res} (hboot : ∀ dev, s.bitmap dev 0 = true)
    (hpre : discipline.pre (s.view e) a) (hrun : (a.exec e).run s = .ok r s') :
    Did s e a r s' := by
  have hself : s.entry = Function.update s.entry e { s.entry e with copy := (s.entry e).copy } :=
    (Function.update_eq_self _ _).symm
  cases a with
  | copy =>
      cases hrun
      exact ⟨rfl, rfl, hself, fun _ _ => rfl, rfl, rfl, hboot⟩
  | set d =>
      cases hrun
      refine ⟨trivial, ?_, ?_, fun _ _ => rfl, rfl, rfl, hboot⟩
      · simp only [State.view, setEntry_self]
        rfl
      · simp only [setEntry_self]
        rfl
  | iupdate =>
      cases hrun
      refine ⟨trivial, ?_, hself, fun key hkey => Function.update_of_ne hkey _ _, rfl, rfl, hboot⟩
      simp only [State.view, Function.update_self]
      rfl
  | balloc =>
      rw [Op.exec, run_get_bind] at hrun
      dsimp only at hrun
      split at hrun
      · cases hrun
      · rename_i b hb
        have hne : b ≠ 0 := by
          rintro rfl
          exact absurd (firstFree_some hb).2.2.1 (by rw [hboot]; decide)
        cases hrun
        exact ⟨hne, rfl, hself, fun _ _ => rfl, rfl, rfl, setBit_boot hboot _ hne true⟩
  | bfree b =>
      rw [Op.exec, run_get_bind, run_ite] at hrun
      split at hrun
      · cases hrun
      · cases hrun
        exact ⟨trivial, rfl, hself, fun _ _ => rfl, rfl, rfl, setBit_boot hboot _ hpre.2 false⟩
  | word b j =>
      cases hrun
      exact ⟨trivial, rfl, hself, fun _ _ => rfl, rfl, rfl, hboot⟩
  | setWord b j v =>
      cases hrun
      exact ⟨trivial, rfl, hself, fun _ _ => rfl, rfl, rfl, hboot⟩
  | copyIn b off m src =>
      cases hrun
      exact ⟨trivial, rfl, hself, fun _ _ => rfl, rfl, rfl, hboot⟩
  | panic m => cases hrun

/-- What is on the disk stays mapped. -/
theorem next_mapped {v : View} {a : Op} (r : a.Res) (hpre : discipline.pre v a)
    (h : v.disk.type ≠ .free → Mapped v.disk) :
    (discipline.next v a r).disk.type ≠ .free → Mapped (discipline.next v a r).disk := by
  cases a with
  | iupdate => exact hpre.2
  | copy | set | balloc | bfree | word | setWord | copyIn | panic => exact h

theorem Inv.next (h : Inv s) {p e via : Nat} {phase : Code Unit → Phase} {a : Op}
    {k : a.Res → Code Unit} (hp : s.session p e = some ⟨via, phase (.act a k)⟩)
    (hpre : discipline.pre (s.view e) a)
    (hfine : ∀ r, discipline.fits (s.view e) a r →
      Fine (discipline.next (s.view e) a r) (phase (k r)))
    (hrun : (Icache.next p e via phase a k).run s = .ok () s') : Inv s' := by
  obtain ⟨r, s₁, hexec, hset⟩ := run_bind_eq_ok hrun
  cases hset
  have hdid := Op.did h.boot hpre hexec
  have href := h.session_ref hp
  have hself : s₁.entry e = { s.entry e with copy := (s₁.entry e).copy } := by
    conv_lhs => rw [hdid.entry, Function.update_self]
  have hkey : (s₁.entry e).key = (s.entry e).key := by rw [hself]
  have hview : Fine ⟨(s₁.entry e).copy, s₁.dinode (s.entry e).key⟩ (phase (k r)) := by
    have hnext := hfine r hdid.fits
    rw [← hdid.view, State.view, hkey] at hnext
    exact hnext
  apply h.only (h.inside e href)
  · constructor
    · intro e' hne
      exact (congrFun hdid.entry e').trans (Function.update_of_ne hne _ _)
    · intro e' _
      exact congrFun hdid.refs e'
    · intro q e' hne
      rw [setSession_apply, if_neg hne, hdid.session]
    · intro key
      by_cases hsame : key = (s.entry e).key
      · exact .inl ⟨href, hsame⟩
      · exact .inr (hdid.dinode key hsame)
  · have hmove := (h.entries e).move (v := (s.entry e).valid) hp hview
    simp only [setSession_apply, if_true, hdid.session]
    have hentry : (s₁.setSession p e (some ⟨via, phase (k r)⟩)).entry e =
        { s.entry e with copy := (s₁.entry e).copy } := hself
    rw [hentry, show (s₁.setSession p e _).refs = s.refs from hdid.refs]
    exact hmove
  · exact .inl ⟨href, hkey⟩
  · intro key hlive
    by_cases hsame : key = (s.entry e).key
    · have hdisk : s₁.dinode key = (discipline.next (s.view e) a r).disk := by
        rw [← hdid.view, State.view, hkey, hsame]
      rw [show ((s₁.setSession p e _).dinode key) = s₁.dinode key from rfl, hdisk] at hlive ⊢
      exact next_mapped r hpre (h.mapped _) hlive
    · have hdisk := hdid.dinode key hsame
      rw [show ((s₁.setSession p e _).dinode key) = s₁.dinode key from rfl, hdisk] at hlive ⊢
      exact h.mapped key hlive
  · exact hdid.boot

/-- **One step keeps the invariant.** -/
theorem Inv.act (h : Inv s) {a : Act} (ha : a.Allowed s) (hrun : a.code.run s = .ok () s') :
    Inv s' := by
  cases a with
  | iget t key => exact h.iget hrun
  | idup e t => exact h.idup ha hrun
  | ilock p e t => exact h.ilock ha hrun
  | load p e =>
      rw [Act.code, run_get_bind] at hrun
      split at hrun
      · rename_i via hp
        exact h.load hp hrun
      · cases hrun
  | start p e f =>
      rw [Act.code, run_get_bind] at hrun
      split at hrun
      · rename_i via hp
        cases hrun
        exact h.start hp
      · cases hrun
  | next p e =>
      rw [Act.code, run_get_bind] at hrun
      split at hrun
      · rename_i via a k hp
        obtain ⟨hpre, hfine⟩ : Runs (.act a k) (s.view e) fun _ v => v.Clean :=
          (h.entries e).phase p _ hp
        exact h.next hp hpre hfine hrun
      · rename_i via a k hp
        obtain ⟨hpre, hfine⟩ : Runs (.act a k) (s.view e) fun _ _ => True :=
          (h.entries e).phase p _ hp
        exact h.next hp hpre hfine hrun
      · cases hrun
  | iunlock p e =>
      rw [Act.code, run_get_bind] at hrun
      split at hrun
      · rename_i via hp
        exact h.iunlock hp hrun
      · cases hrun
  | iput p e t => exact h.iput ha.1 ha.2 hrun
  | iputEnd p e =>
      rw [Act.code, run_get_bind] at hrun
      split at hrun
      · rename_i via hp
        exact h.iputEnd hp hrun
      · cases hrun
  | ialloc key type => exact h.ialloc hrun

end Step

/-! ## Runs -/

/-- After `iinit`: no entry is in use.  Every block below the size of a file is mapped,
and the boot block is marked as used in the bitmap. -/
structure Fresh (s : State) : Prop where
  entry : ∀ e, (s.entry e).ref = 0 ∧ (s.entry e).busy = false
  refs : ∀ e, s.refs e = []
  session : ∀ p e, s.session p e = none
  mapped : ∀ key, (s.dinode key).type ≠ .free → Mapped (s.dinode key)
  boot : ∀ dev, s.bitmap dev 0 = true

theorem Fresh.inv {s : State} (h : Fresh s) : Inv s where
  entries e := by
    have hunused := h.entry e
    refine ⟨?_, ?_, ?_, ?_, ?_, ?_⟩
    · rw [hunused.1, h.refs]
      rfl
    · simp [hunused.2, h.session]
    · intro p q hp
      exact absurd (h.session p e) hp
    · intro p y hp
      rw [h.session] at hp
      cases hp
    · intro p y hp
      rw [h.session] at hp
      cases hp
    · intro href
      rw [hunused.1] at href
      cases href
  unique e e' href := by
    rw [(h.entry e).1] at href
    cases href
  inside e href := by
    rw [(h.entry e).1] at href
    cases href
  mapped := h.mapped
  boot := h.boot

theorem Steps.inv {s s' : State} (hs : Steps s s') (h : Inv s) : Inv s' := by
  induction hs with
  | refl => exact h
  | step a _ ha hrun ih => exact ih.act ha hrun

/-- **The inode cache.**  In every interleaving an inode has at most one entry in use, a
busy entry is busy for exactly one process, and an entry in use that is valid and not
busy is as on the disk. -/
theorem icache_coherent {s₀ s : State} (h₀ : Fresh s₀) (hs : Steps s₀ s) :
    (∀ e e', 0 < (s.entry e).ref → 0 < (s.entry e').ref →
      (s.entry e).key = (s.entry e').key → e = e') ∧
    (∀ e p q, s.session p e ≠ none → s.session q e ≠ none → p = q) ∧
    (∀ e, (s.entry e).busy = true ↔ ∃ p, s.session p e ≠ none) ∧
    ∀ e, 0 < (s.entry e).ref → (s.entry e).valid = true → (s.entry e).busy = false →
      (s.entry e).copy = s.dinode (s.entry e).key := by
  have h := hs.inv h₀.inv
  refine ⟨h.unique, fun e => (h.entries e).single, fun e => (h.entries e).busy, ?_⟩
  intro e href hvalid hidle
  exact ((h.entries e).rest href hidle hvalid).eq

/-- A cache after `iinit`, and a disk with an empty file as inode 2. -/
def oneFile : State where
  entry _ := ⟨(0, 0), 0, false, false, Dinode.zero⟩
  dinode key := if key = (1, 2) then { Dinode.zero with type := .file, nlink := 1 } else Dinode.zero
  size _ := 20
  bitmap _ b := decide (b < 10)
  data _ _ := Block.zero
  refs _ := []
  session _ _ := none

theorem oneFile_fresh : Fresh oneFile := by
  refine ⟨fun e => ⟨rfl, rfl⟩, fun e => rfl, fun p e => rfl, fun key _ bn hbn => ?_, fun dev => rfl⟩
  have hsize : (oneFile.dinode key).size = 0 := by
    simp only [oneFile]
    split <;> rfl
  rw [hsize] at hbn
  exact absurd hbn (Nat.not_lt_zero _)

/-- Process 0 writes a byte to the file, and process 1 opens the file while `bmap` has
allocated a block that is not yet in the disk inode. -/
theorem icache_coherent_write : ∃ s, Steps oneFile s ∧ (s.entry 0).ref = 2 ∧
    (s.entry 0).busy = false ∧ (s.entry 0).valid = true ∧ (s.dinode (1, 2)).size = 1 ∧
    (s.dinode (1, 2)).addrs 0 = 10 ∧ (s.entry 0).copy = s.dinode (1, 2) := by
  have hopen : Steps oneFile _ := Steps.refl.step (.iget 7 (1, 2)) trivial rfl
  have hlock := hopen.step (.ilock 0 0 7) (List.mem_singleton.2 rfl) rfl
  have hload := hlock.step (.load 0 0) trivial rfl
  have hstart := hload.step (.start 0 0 (.writei (fun _ => 65) 0 1)) trivial rfl
  have halloc := (((((hstart.step (.next 0 0) trivial rfl).step (.next 0 0) trivial rfl).step
    (.next 0 0) trivial rfl).step (.next 0 0) trivial rfl).step (.next 0 0) trivial rfl)
  have hother := halloc.step (.iget 8 (1, 2)) trivial rfl
  have hend := (((hother.step (.next 0 0) trivial rfl).step (.next 0 0) trivial rfl).step
    (.next 0 0) trivial rfl).step (.next 0 0) trivial rfl
  have hunlock := hend.step (.iunlock 0 0) trivial rfl
  refine ⟨_, hunlock, rfl, rfl, rfl, rfl, rfl, ?_⟩
  exact (icache_coherent oneFile_fresh hunlock).2.2.2 0 (by decide) rfl rfl

end Xv6.Kernel.Icache
