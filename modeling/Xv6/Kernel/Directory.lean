import Xv6.Kernel.Dir
import Xv6.Kernel.Ops
import Xv6.Kernel.Starved
import Xv6.Verified.Slots

/-!
# A directory is a finite map

The entries of a directory are the slots of a table whose keys are names, as `namecmp`
compares them.  `dirlookup` searches the table, `dirlink` fills a slot, and `sys_unlink`
clears one.

## Main results

* `dirlookup_wp`, `dirlink_wp`, `zeroEntry_wp`: what each of them does to the table.
* `directory_is_map`: after any sequence of them the directory holds the map that the
  same sequence of insertions and removals makes.
-/

namespace Xv6.Kernel

open Xv6.Verified
open Exec

/-! ## Entries -/

/-- The bytes of entry `j`. -/
def Node.dirent (nd : Node) (j : Nat) : List UInt8 :=
  (List.range DIRENT).map fun o => nd.byte (DIRENT * j + o)

/-- Entry `j` as a slot: the name as `namecmp` sees it, and the inode number. -/
def Node.slot (nd : Node) (j : Nat) : Option (List UInt8 × Nat) :=
  if direntInum (nd.dirent j) = 0 then none
  else some (cstr (direntName (nd.dirent j)), direntInum (nd.dirent j))

/-- The number of entries. -/
def Node.slots (nd : Node) : Nat := nd.size / DIRENT

/-- The directory as a map from names to inode numbers. -/
def Node.names (nd : Node) : List UInt8 → Option Nat := tableMap nd.slot nd.slots

theorem direntInum_dirent {inum : Nat} (name : List UInt8) (h : inum < 65536) :
    direntInum (dirent inum name) = inum := by
  show (UInt8.ofNat inum).toNat + 256 * (UInt8.ofNat (inum / 256)).toNat = inum
  rw [UInt8.toNat_ofNat', UInt8.toNat_ofNat']
  omega

theorem cstr_append_zeros (name : List UInt8) (n : Nat) :
    cstr (cstr name ++ List.replicate n 0) = cstr name := by
  have hall : ∀ x ∈ cstr name, (x != 0) = true := by
    intro x hx
    exact List.all_eq_true.1 List.all_takeWhile x (List.mem_of_mem_take hx)
  have hzeros : (List.replicate n (0 : UInt8)).takeWhile (· != 0) = [] := by
    cases n with
    | zero => rfl
    | succ n => rfl
  have hlen : (cstr name).length ≤ DIRSIZ := List.length_take_le _ _
  show List.take DIRSIZ _ = _
  rw [List.takeWhile_append_of_pos hall, hzeros, List.append_nil, List.take_of_length_le hlen]

theorem cstr_direntName (inum : Nat) (name : List UInt8) :
    cstr (direntName (dirent inum name)) = cstr name :=
  cstr_append_zeros name _

theorem length_dirent (inum : Nat) (name : List UInt8) : (dirent inum name).length = DIRENT := by
  have hlen : (cstr name).length ≤ DIRSIZ := List.length_take_le _ _
  simp only [dirent, List.length_cons, List.length_append, List.length_replicate, DIRENT, DIRSIZ]
    at *
  omega

theorem map_getD_dirent {src : List UInt8} (h : src.length = DIRENT) :
    (List.range DIRENT).map (fun o => src.getD o 0) = src := by
  apply List.ext_getElem
  · rw [List.length_map, List.length_range, h]
  · intro o h₁ h₂
    simp [List.getElem?_eq_getElem h₂]

/-- Writing an entry replaces that entry. -/
theorem Node.dirent_write_self (nd : Node) {src : List UInt8} (h : src.length = DIRENT) (j : Nat) :
    (nd.write (fun o => src.getD o 0) (DIRENT * j) DIRENT).dirent j = src := by
  rw [← map_getD_dirent h]
  apply List.map_congr_left
  intro o ho
  have ho := List.mem_range.1 ho
  show (if DIRENT * j ≤ DIRENT * j + o ∧ DIRENT * j + o < DIRENT * j + DIRENT then _ else _) = _
  rw [if_pos (by omega), Nat.add_sub_cancel_left, map_getD_dirent h]

theorem Node.dirent_write_of_ne (nd : Node) (src : Nat → UInt8) {i j : Nat} (h : i ≠ j) :
    (nd.write src (DIRENT * j) DIRENT).dirent i = nd.dirent i := by
  apply List.map_congr_left
  intro o ho
  have ho := List.mem_range.1 ho
  show (if DIRENT * j ≤ DIRENT * i + o ∧ DIRENT * i + o < DIRENT * j + DIRENT then _ else _) = _
  rw [if_neg]
  simp only [DIRENT] at *
  omega

theorem Node.slot_congr {nd nd' : Node} {j : Nat} (h : nd.dirent j = nd'.dirent j) :
    nd.slot j = nd'.slot j := by
  rw [Node.slot, Node.slot, h]

theorem Node.slot_write_self (nd : Node) {inum : Nat} (name : List UInt8) (h : 0 < inum)
    (h' : inum < 65536) (j : Nat) :
    (nd.write (fun o => (Kernel.dirent inum name).getD o 0) (DIRENT * j) DIRENT).slot j =
      some (cstr name, inum) := by
  rw [Node.slot, Node.dirent_write_self nd (length_dirent inum name), direntInum_dirent name h',
    if_neg (by omega), cstr_direntName]

theorem Node.slot_zero_self (nd : Node) (j : Nat) :
    (nd.write (fun o => direntZero.getD o 0) (DIRENT * j) DIRENT).slot j = none := by
  rw [Node.slot, Node.dirent_write_self nd rfl, if_pos (by decide)]

/-- An entry is looked for by name. -/
theorem Node.holdsKey_iff (nd : Node) (name : List UInt8) (j : Nat) :
    (direntInum (nd.dirent j) ≠ 0 ∧ namecmp name (direntName (nd.dirent j)) = true) ↔
      holdsKey nd.slot (cstr name) j = true := by
  rw [holdsKey, Node.slot, namecmp, beq_iff_eq]
  by_cases h : direntInum (nd.dirent j) = 0
  · simp [h]
  · simp [h, eq_comm]

/-- What filling the first free entry does to the table. -/
theorem Node.filled (nd : Node) (hsize : nd.size % DIRENT = 0) {inum : Nat} (name : List UInt8)
    (h : 0 < inum) (h' : inum < 65536) :
    Filled nd.slot nd.slots
      (nd.write (fun o => (Kernel.dirent inum name).getD o 0)
        (DIRENT * freeSlot nd.slot nd.slots) DIRENT).slot
      (nd.write (fun o => (Kernel.dirent inum name).getD o 0)
        (DIRENT * freeSlot nd.slot nd.slots) DIRENT).slots
      (freeSlot nd.slot nd.slots) (cstr name) inum := by
  have hle := freeSlot_le nd.slot nd.slots
  refine ⟨nd.slot_write_self name h h' _, fun i hi _ => ?_, ?_⟩
  · exact Node.slot_congr (nd.dirent_write_of_ne _ hi)
  · show _ ∨ _ = _ ∧ max nd.size (_ + DIRENT) / DIRENT = nd.size / DIRENT + 1
    rcases Nat.lt_or_eq_of_le hle with hlt | heq
    · refine .inl ⟨hlt, freeSlot_empty hlt, ?_⟩
      show max nd.size (_ + DIRENT) / DIRENT = nd.size / DIRENT
      simp only [Node.slots, DIRENT] at *
      omega
    · refine .inr ⟨heq, ?_⟩
      rw [heq]
      simp only [Node.slots, DIRENT] at *
      omega

/-- What clearing an entry does to the table. -/
theorem Node.cleared (nd : Node) (j : Nat) :
    Cleared nd.slot nd.slots
      (nd.write (fun o => direntZero.getD o 0) (DIRENT * j) DIRENT).slot j :=
  ⟨nd.slot_zero_self j, fun _ hi _ => Node.slot_congr (nd.dirent_write_of_ne _ hi)⟩

/-! ## Looking up -/

/-- A process is at work on a directory: it has locked it, and the file system is well
formed. -/
structure InDir (p dp : Nat) (k : State) : Prop where
  wf : Wf k
  live : (k.ptable p).state = .live
  cur : k.cur = p
  valid : (k.icache dp).valid = true
  ref : 1 ≤ (k.icache dp).ref
  type : (k.dinode dp).type = .dir
  whole : (k.node dp).size % DIRENT = 0

/-- What the process has yet to do ends in `Q` or halts in `E`. -/
abbrev Ends (p : Nat) {α : Type} (m : Prog α) (Q : α → State → Prop) (E : Stop → State → Prop)
    (k : State) : Prop :=
  Prog.wp (Act.exec p) (fun _ _ => True) Q E m k

section Lookup

variable {p dp : Nat} {k : State} {name : List UInt8}

theorem InDir.exec (h : InDir p dp k) (a : Act) : (Act.exec p a).run k = a.code.run k := by
  rw [run_exec h.live, show ({ k with cur := p } : State) = k by rw [← h.cur]]

theorem InDir.size_le (h : InDir p dp k) : (k.node dp).size ≤ MAXFILE * BSIZE :=
  h.wf.fits dp (.inr h.type)

/-- Entries are read whole. -/
theorem InDir.read (h : InDir p dp k) {j : Nat} (hj : j < (k.node dp).slots) :
    (k.node dp).read (DIRENT * j) DIRENT = some ((k.node dp).dirent j) := by
  have hsize := h.size_le
  have hwhole := h.whole
  have hend : DIRENT * j + DIRENT ≤ (k.node dp).size := by
    simp only [Node.slots, DIRENT] at *
    omega
  have hmod : (DIRENT * j + DIRENT) % UINT = DIRENT * j + DIRENT := by
    apply Nat.mod_eq_of_lt
    simp only [DIRENT, MAXFILE, BSIZE, UINT] at *
    omega
  rw [Node.read, hmod, if_neg (by omega), if_neg (by omega)]
  rfl

theorem readDirent_wp (h : InDir p dp k) {j : Nat} (hj : j < (k.node dp).slots) {m : Panic}
    {Q : List UInt8 → State → Prop} {E : Stop → State → Prop} (hQ : Q ((k.node dp).dirent j) k) :
    Ends p (Sys.readDirent dp (DIRENT * j) m) Q E k := by
  have hsize := h.size_le
  have hlt : DIRENT * j < UINT := by
    simp only [Node.slots, DIRENT, MAXFILE, BSIZE, UINT] at *
    omega
  have hread : (Act.exec p (.readi dp (DIRENT * j) DIRENT)).run k =
      .ok (some ((k.node dp).dirent j)) k := by
    rw [h.exec, Act.code, Nat.mod_eq_of_lt hlt, Nat.mod_eq_of_lt (by decide),
      run_readi h.wf h.valid (.inr h.type) hlt (by decide), h.read hj]
  apply wp_act_ok hread
  have hlen : ((k.node dp).dirent j).length = DIRENT := by
    rw [Node.dirent, List.length_map, List.length_range]
  show Ends p (if ((k.node dp).dirent j).length = DIRENT then _ else _) Q E k
  rw [if_pos hlen]
  exact hQ

/-- The state with one more reference to an inode. -/
def State.held (k : State) (inum : Nat) : State :=
  if 0 < (k.icache inum).ref then
    k.setEntry inum { k.icache inum with ref := (k.icache inum).ref + 1 }
  else k.setEntry inum ⟨1, none, false⟩

theorem iget_wp (inum : Nat) {Q : Unit → State → Prop} {E : Stop → State → Prop}
    (hQ : Q () (k.held inum)) (hE : NINODE ≤ k.activeInodes → E (.panic .igetNoInodes) k) :
    wp (iget inum) Q E k := by
  unfold iget
  rw [wp_bind, wp_get, wp_ite]
  unfold State.held at hQ
  constructor
  · intro hpos
    rw [if_pos hpos] at hQ
    exact (wp_modify _).2 hQ
  · intro hpos
    rw [if_neg hpos] at hQ
    rw [wp_ite]
    exact ⟨fun hfull => (wp_stop _).2 (hE hfull), fun _ => (wp_modify _).2 hQ⟩

/-- The entry that `dirlookup` answers with. -/
def Node.found (nd : Node) (j : Nat) : Nat × Nat := (direntInum (nd.dirent j), DIRENT * j)

theorem dirlookupLoop_wp (h : InDir p dp k) {Q : Option (Nat × Nat) → State → Prop}
    {E : Stop → State → Prop} (n : Nat) : ∀ {j : Nat}, j + n = (k.node dp).slots →
      (firstFrom (holdsKey (k.node dp).slot (cstr name)) n j = none → Q none k) →
      (∀ i, firstFrom (holdsKey (k.node dp).slot (cstr name)) n j = some i →
        Q (some ((k.node dp).found i)) (k.held ((k.node dp).found i).1)) →
      (NINODE ≤ k.activeInodes → E (.panic .igetNoInodes) k) →
      Ends p (Sys.dirlookupLoop dp name n (DIRENT * j)) Q E k := by
  induction n with
  | zero => exact fun _ hnone _ _ => hnone rfl
  | succ n ih =>
      intro j hj hnone hsome hE
      rw [firstFrom] at hnone hsome
      rw [Sys.dirlookupLoop, Ends, Prog.wp_bind]
      apply readDirent_wp h (by omega)
      show Ends p (if direntInum ((k.node dp).dirent j) ≠ 0 ∧
        namecmp name (direntName ((k.node dp).dirent j)) = true then _ else _) Q E k
      by_cases hkey : holdsKey (k.node dp).slot (cstr name) j = true
      · rw [if_pos (((k.node dp).holdsKey_iff name j).2 hkey)]
        rw [if_pos hkey] at hsome
        have hQ := hsome j rfl
        intro _
        show wp (Act.exec p (.iget ((k.node dp).found j).1)) _ _ k
        have hget : wp (iget ((k.node dp).found j).1)
            (fun _ k' => Q (some ((k.node dp).found j)) k') E k := iget_wp _ hQ hE
        unfold wp at hget ⊢
        rw [h.exec]
        exact hget
      · rw [if_neg (fun hc => hkey (((k.node dp).holdsKey_iff name j).1 hc))]
        rw [if_neg hkey] at hnone hsome
        exact ih (by omega) hnone hsome hE

theorem entries_eq (h : InDir p dp k) : Sys.entries (k.node dp).size = (k.node dp).slots := by
  have hwhole := h.whole
  simp only [Sys.entries, Node.slots, DIRENT] at *
  omega

/-- `ip->type` and `ip->size` of the locked inode. -/
theorem InDir.stat (h : InDir p dp k) :
    (Act.exec p (.stat dp)).run k = .ok (k.dinode dp) k := by
  rw [h.exec, Act.code, run_get_bind, run_pure, h.wf.coherent dp h.valid]

/-- `dirlookup` searches the table. -/
theorem dirlookup_wp (h : InDir p dp k) {Q : Option (Nat × Nat) → State → Prop}
    {E : Stop → State → Prop}
    (hnone : slotOf (k.node dp).slot (k.node dp).slots (cstr name) = none → Q none k)
    (hsome : ∀ j, slotOf (k.node dp).slot (k.node dp).slots (cstr name) = some j →
      Q (some ((k.node dp).found j)) (k.held ((k.node dp).found j).1))
    (hE : NINODE ≤ k.activeInodes → E (.panic .igetNoInodes) k) :
    Ends p (Sys.dirlookup dp name) Q E k := by
  apply wp_act_ok h.stat
  show Ends p (if (k.dinode dp).type ≠ .dir then _ else _) Q E k
  rw [if_neg (by rw [h.type]; decide)]
  show Ends p (Sys.dirlookupLoop dp name (Sys.entries (k.node dp).size) (DIRENT * 0)) Q E k
  rw [entries_eq h]
  exact dirlookupLoop_wp h _ (Nat.zero_add _) hnone hsome hE

/-- Another reference count or lock does not concern the directory. -/
theorem InDir.setEntry (h : InDir p dp k) (i : Nat) {e : CacheEntry}
    (hvalid : e.valid = true → (k.icache i).valid = true)
    (hdp : i = dp → e.valid = true ∧ 1 ≤ e.ref) :
    InDir p dp (k.setEntry i e) ∧ (k.setEntry i e).node = k.node := by
  obtain ⟨hwf, -, hnode⟩ := h.wf.of_disk (DiskSame.setEntry k i e) fun j hj => by
    have hv : (k.icache j).valid = true := by
      by_cases hne : j = i
      · subst hne
        rw [State.setEntry_self] at hj
        exact hvalid hj
      · rwa [State.setEntry_of_ne _ _ hne] at hj
    exact ⟨h.wf.coherent j hv, h.wf.live j hv⟩
  have hself : ((k.setEntry i e).icache dp).valid = true ∧
      1 ≤ ((k.setEntry i e).icache dp).ref := by
    by_cases hne : dp = i
    · rw [hne, State.setEntry_self]
      exact hdp hne.symm
    · rw [State.setEntry_of_ne _ _ hne]
      exact ⟨h.valid, h.ref⟩
  refine ⟨⟨hwf, h.live, h.cur, hself.1, hself.2, h.type, ?_⟩, hnode⟩
  rw [hnode]
  exact h.whole

/-- A reference taken by `dirlookup` does not concern the directory. -/
theorem InDir.held (h : InDir p dp k) (inum : Nat) :
    InDir p dp (k.held inum) ∧ (k.held inum).node = k.node := by
  unfold State.held
  split
  · apply h.setEntry
    · exact fun hv => hv
    · rintro rfl
      exact ⟨h.valid, Nat.le_add_left _ _⟩
  · rename_i hnone
    apply h.setEntry
    · intro hv
      cases hv
    · rintro rfl
      exact absurd h.ref hnone

/-- Letting go of it again does not free the inode: it had other references, or has not
been read from the disk. -/
theorem iput_held_wp (h : InDir p dp k) (inum : Nat) {Q : Unit → State → Prop}
    {E : Stop → State → Prop}
    (hQ : ∀ k', InDir p dp k' → k'.node = k.node → k'.starved = k.starved → Q () k') :
    Ends p (Sys.iput inum) Q E (k.held inum) := by
  obtain ⟨hin, hnode⟩ := h.held inum
  have hstarved : (k.held inum).starved = k.starved := by
    unfold State.held
    split <;> rfl
  have hkeeps : ¬(((k.held inum).icache inum).ref = 1 ∧ ((k.held inum).icache inum).valid = true ∧
      ((k.held inum).icopy inum).nlink = 0) := by
    unfold State.held
    split
    · rw [State.setEntry_self]
      rintro ⟨href, -⟩
      simp only at href
      omega
    · rw [State.setEntry_self]
      rintro ⟨-, hv, -⟩
      cases hv
  have hcheck : (Act.exec p (.iputCheck inum)).run (k.held inum) = .ok false
      ((k.held inum).setEntry inum { (k.held inum).icache inum with
        ref := ((k.held inum).icache inum).ref - 1 }) := by
    rw [hin.exec, Act.code, iputCheck, run_get_bind, run_ite, if_neg hkeeps]
    rfl
  apply wp_act_ok hcheck
  obtain ⟨hin', hnode'⟩ := hin.setEntry inum (e := { (k.held inum).icache inum with
      ref := ((k.held inum).icache inum).ref - 1 }) (fun hv => hv) (by
    rintro rfl
    refine ⟨hin.valid, ?_⟩
    rw [State.held, if_pos (show 0 < (k.icache inum).ref from h.ref), State.setEntry_self]
    exact h.ref)
  exact hQ _ hin' (hnode'.trans hnode) hstarved

end Lookup

/-! ## Filling and clearing entries -/

/-- `sys_unlink`'s clearing of the entry that `dirlookup` found; false if there is none.
The reference to the inode stays with the caller. -/
def Sys.zeroEntry (dp : Nat) (name : List UInt8) : Prog Bool := do
  match ← Sys.dirlookup dp name with
  | none => return false
  | some (_, off) => do
      let r ← Sys.act (.writei dp direntZero off)
      if r ≠ DIRENT then Sys.panic .unlinkWritei else return true

/-- While data blocks are free, only `log_write` or a full inode cache halts an operation
on a directory. -/
def DirStop (e : Stop) (k' : State) : Prop :=
  k'.starved = false → LogStop e ∨ e = .panic .igetNoInodes

section Change

variable {p dp : Nat} {k : State} {name : List UInt8}

/-- The directory after an entry was written. -/
structure Entered (p dp j : Nat) (src : List UInt8) (k k' : State) : Prop where
  inDir : InDir p dp k'
  self : k'.node dp = (k.node dp).write (fun o => src.getD o 0) (DIRENT * j) DIRENT
  others : ∀ i, i ≠ dp → k'.node i = k.node i

theorem writeEntry_wp (h : InDir p dp k) {src : List UInt8} (hsrc : src.length = DIRENT) {j : Nat}
    (hj : j ≤ (k.node dp).slots) (hroom : DIRENT * j + DIRENT ≤ MAXFILE * BSIZE)
    {Q : Int → State → Prop} {E : Stop → State → Prop}
    (hQ : ∀ k', (k'.starved = false → Entered p dp j src k k') →
      ∀ r : Int, (k'.starved = false → r = DIRENT) → Q r k')
    (hE : ∀ e k', DirStop e k' → E e k') :
    wp (Act.exec p (.writei dp src (DIRENT * j))) Q E k := by
  have hoff : DIRENT * j ≤ (k.dinode dp).size := by
    have hwhole := h.whole
    show DIRENT * j ≤ (k.node dp).size
    simp only [Node.slots, DIRENT] at *
    omega
  have hlt : DIRENT * j < UINT := by
    simp only [DIRENT, MAXFILE, BSIZE, UINT] at *
    omega
  have hspec : wp (writei dp (fun o => src.getD o 0) (DIRENT * j) DIRENT) Q E k := by
    refine wp_mono (writei_spec h.wf h.valid (.inr h.type) hoff hroom) ?_ ?_
    · intro r k' hr
      apply hQ
      · intro hs
        obtain ⟨-, hwrote⟩ := hr hs
        have hself : k'.node dp =
            (k.node dp).write (fun o => src.getD o 0) (DIRENT * j) DIRENT := by
          rw [hwrote.node, Function.update_self]
        refine ⟨⟨hwrote.wf, ?_, ?_, ?_, ?_, ?_, ?_⟩, hself, fun i hi => ?_⟩
        · rw [hwrote.frame.ptable]
          exact h.live
        · rw [hwrote.frame.cur]
          exact h.cur
        · rw [hwrote.frame.icache]
          exact h.valid
        · rw [hwrote.frame.icache]
          exact h.ref
        · show (k'.node dp).type = .dir
          rw [hself]
          exact h.type
        · rw [hself]
          show max (k.node dp).size (DIRENT * j + DIRENT) % DIRENT = 0
          have hwhole := h.whole
          simp only [DIRENT] at *
          omega
        · rw [hwrote.node, Function.update_of_ne hi]
      · exact fun hs => (hr hs).1
    · intro e k' hstop
      exact hE e k' fun hs => .inl (hstop hs)
  have hexec : (Act.exec p (.writei dp src (DIRENT * j))).run k =
      (writei dp (fun o => src.getD o 0) (DIRENT * j) DIRENT).run k := by
    rw [h.exec, Act.code, Nat.mod_eq_of_lt hlt, hsrc, Nat.mod_eq_of_lt (by decide)]
  unfold wp at hspec ⊢
  rw [hexec]
  exact hspec

theorem emptyLoop_wp (h : InDir p dp k) {Q : Nat → State → Prop} {E : Stop → State → Prop}
    (n : Nat) : ∀ {j : Nat}, j + n = (k.node dp).slots →
      Q (DIRENT * (firstFrom (fun i => ((k.node dp).slot i).isNone) n j).getD (j + n)) k →
      Ends p (Sys.emptyLoop dp n (DIRENT * j)) Q E k := by
  induction n with
  | zero => exact fun _ hQ => hQ
  | succ n ih =>
      intro j hj hQ
      rw [firstFrom] at hQ
      rw [Sys.emptyLoop, Ends, Prog.wp_bind]
      apply readDirent_wp h (by omega)
      show Ends p (if direntInum ((k.node dp).dirent j) = 0 then _ else _) Q E k
      by_cases hfree : direntInum ((k.node dp).dirent j) = 0
      · rw [if_pos hfree]
        rwa [if_pos (by simp [Node.slot, hfree])] at hQ
      · rw [if_neg hfree]
        rw [if_neg (by simp [Node.slot, hfree])] at hQ
        have hnext := ih (j := j + 1) (by omega)
        rw [show j + 1 + n = j + (n + 1) by omega] at hnext
        exact hnext hQ

/-- What `dirlink` did. -/
structure Linked (p dp : Nat) (name : List UInt8) (inum : Nat) (k : State) (r : Bool)
    (k' : State) : Prop where
  inDir : InDir p dp k'
  present : slotOf (k.node dp).slot (k.node dp).slots (cstr name) ≠ none →
    r = false ∧ k'.node = k.node
  absent : slotOf (k.node dp).slot (k.node dp).slots (cstr name) = none →
    r = true ∧ Entered p dp (freeSlot (k.node dp).slot (k.node dp).slots) (dirent inum name) k k'

/-- **`dirlink`.**  It refuses a name that is there, and else fills the first empty entry. -/
theorem dirlink_wp (h : InDir p dp k) {inum : Nat}
    (hroom : slotOf (k.node dp).slot (k.node dp).slots (cstr name) = none →
      DIRENT * freeSlot (k.node dp).slot (k.node dp).slots + DIRENT ≤ MAXFILE * BSIZE) :
    Ends p (Sys.dirlink dp name inum)
      (fun r k' => k'.starved = false → Linked p dp name inum k r k') DirStop k := by
  rw [Sys.dirlink, Ends, Prog.wp_bind]
  apply dirlookup_wp h
  · intro hnone
    apply wp_act_ok h.stat
    apply (Prog.wp_bind _ _).2
    show Ends p (Sys.emptyLoop dp (Sys.entries (k.node dp).size) (DIRENT * 0)) _ _ _
    rw [entries_eq h]
    apply emptyLoop_wp h _ (Nat.zero_add _)
    rw [Nat.zero_add]
    intro _
    refine writeEntry_wp h (length_dirent inum name) (freeSlot_le _ _) (hroom hnone) ?_
      (fun _ _ hstop => hstop)
    intro k' hent r hr
    by_cases hs : k'.starved = true
    · exact wp_starved _ hs
    have hs := Bool.eq_false_iff.2 hs
    obtain rfl := hr hs
    have hent := hent hs
    intro _
    exact ⟨hent.inDir, fun hc => absurd hnone hc, fun _ => ⟨rfl, hent⟩⟩
  · intro j hsome
    show Ends p (Sys.iput ((k.node dp).found j).1 >>= fun _ => pure false) _ _ _
    rw [Ends, Prog.wp_bind]
    apply iput_held_wp h
    intro k' hin hnode _ _
    exact ⟨hin, fun _ => ⟨rfl, hnode⟩, fun hc => absurd (hc.symm.trans hsome) (by simp)⟩
  · exact fun _ _ => .inr rfl

/-- What the clearing of an entry did. -/
structure Zeroed (p dp : Nat) (name : List UInt8) (k : State) (r : Bool) (k' : State) : Prop where
  inDir : InDir p dp k'
  absent : slotOf (k.node dp).slot (k.node dp).slots (cstr name) = none →
    r = false ∧ k'.node = k.node
  present : ∀ j, slotOf (k.node dp).slot (k.node dp).slots (cstr name) = some j →
    r = true ∧ Entered p dp j direntZero k k'

/-- **Clearing an entry.** -/
theorem zeroEntry_wp (h : InDir p dp k) :
    Ends p (Sys.zeroEntry dp name)
      (fun r k' => k'.starved = false → Zeroed p dp name k r k') DirStop k := by
  rw [Sys.zeroEntry, Ends, Prog.wp_bind]
  apply dirlookup_wp h
  · intro hnone _
    exact ⟨h, fun _ => ⟨rfl, rfl⟩, fun j hj => absurd (hnone.symm.trans hj) (by simp)⟩
  · intro j hsome
    obtain ⟨hin, hnode⟩ := h.held ((k.node dp).found j).1
    have hj := (slotOf_eq_some hsome).1
    have hroom : DIRENT * j + DIRENT ≤ MAXFILE * BSIZE := by
      have hsize := h.size_le
      have hwhole := h.whole
      simp only [Node.slots, DIRENT, MAXFILE, BSIZE] at *
      omega
    intro _
    have hzero : direntZero.length = DIRENT := rfl
    refine writeEntry_wp hin hzero (by rw [hnode]; exact Nat.le_of_lt hj) hroom ?_
      (fun _ _ hstop => hstop)
    intro k' hent r hr
    by_cases hs : k'.starved = true
    · exact wp_starved _ hs
    have hs := Bool.eq_false_iff.2 hs
    obtain rfl := hr hs
    have hent := hent hs
    intro _
    refine ⟨hent.inDir, fun hc => absurd (hc.symm.trans hsome) (by simp), fun i hi => ⟨rfl, ?_⟩⟩
    obtain rfl : j = i := by
      rw [hsome] at hi
      exact Option.some.inj hi
    have hself := hent.self
    rw [hnode] at hself
    refine ⟨hent.inDir, hself, fun i hi => ?_⟩
    rw [hent.others i hi, hnode]
  · exact fun _ _ => .inr rfl

end Change

/-! ## Sequences -/

/-- An operation on a directory. -/
inductive DirOp where
  | link (name : List UInt8) (inum : Nat)
  | zero (name : List UInt8)

namespace DirOp

/-- The operation as the kernel does it. -/
def prog (dp : Nat) : DirOp → Prog Bool
  | link name inum => Sys.dirlink dp name inum
  | zero name => Sys.zeroEntry dp name

/-- What it should do: insert a new name or remove one that is there. -/
def apply (m : List UInt8 → Option Nat) : DirOp → Bool × (List UInt8 → Option Nat)
  | link name inum =>
      if m (cstr name) = none then (true, Function.update m (cstr name) (some inum)) else (false, m)
  | zero name =>
      if m (cstr name) = none then (false, m) else (true, Function.update m (cstr name) none)

/-- The number is that of an inode, and the entry has room in the directory. -/
def Fits (nd : Node) : DirOp → Prop
  | link name inum => 0 < inum ∧ inum < 65536 ∧ (nd.names (cstr name) = none →
      DIRENT * freeSlot nd.slot nd.slots + DIRENT ≤ MAXFILE * BSIZE)
  | zero _ => True

end DirOp

/-- What an operation that answered `r` did to the directory. -/
structure DirStep (p dp : Nat) (o : DirOp) (k : State) (r : Bool) (k' : State) : Prop where
  inDir : InDir p dp k'
  distinct : KeysDistinct (k'.node dp).slot (k'.node dp).slots
  names : (r, (k'.node dp).names) = o.apply (k.node dp).names
  refused : r = false → k'.node = k.node
  others : ∀ i, i ≠ dp → k'.node i = k.node i
  grows : (k'.node dp).size ≠ (k.node dp).size →
    (k'.node dp).size = (k.node dp).size + DIRENT ∧ ∀ j, j < (k.node dp).slots →
      (k.node dp).slot j ≠ none

section Step

variable {p dp : Nat} {k k' : State}

theorem Linked.dirStep {name : List UInt8} {inum : Nat} {r : Bool}
    (h : Linked p dp name inum k r k') (hk : InDir p dp k)
    (hd : KeysDistinct (k.node dp).slot (k.node dp).slots) (hpos : 0 < inum)
    (hlt : inum < 65536) : DirStep p dp (.link name inum) k r k' := by
  cases hs : slotOf (k.node dp).slot (k.node dp).slots (cstr name) with
  | none =>
      obtain ⟨rfl, hent⟩ := h.absent hs
      have hfilled := (k.node dp).filled hk.whole name hpos hlt
      rw [← hent.self] at hfilled
      have hnone : (k.node dp).names (cstr name) = none := tableMap_eq_none.2 hs
      refine ⟨h.inDir, hfilled.distinct hd hs, ?_, fun hr => absurd hr (by decide), hent.others, ?_⟩
      · rw [DirOp.apply, if_pos hnone]
        exact congrArg (Prod.mk true) (hfilled.map hd hs)
      · rw [hent.self]
        show max (k.node dp).size _ ≠ (k.node dp).size →
          max (k.node dp).size _ = (k.node dp).size + DIRENT ∧ _
        intro hsize
        have hwhole := hk.whole
        have hle := freeSlot_le (k.node dp).slot (k.node dp).slots
        have hfull : freeSlot (k.node dp).slot (k.node dp).slots = (k.node dp).slots := by
          simp only [Node.slots, DIRENT] at *
          omega
        refine ⟨?_, fun j hj => freeSlot_eq hfull hj⟩
        rw [hfull]
        simp only [Node.slots, DIRENT] at *
        omega
  | some j =>
      obtain ⟨rfl, hnode⟩ := h.present (by simp [hs])
      have hsome : (k.node dp).names (cstr name) ≠ none := by
        intro hc
        rw [tableMap_eq_none.1 hc] at hs
        cases hs
      refine ⟨h.inDir, by rw [hnode]; exact hd, ?_, fun _ => hnode, fun i _ => by rw [hnode], ?_⟩
      · rw [DirOp.apply, if_neg hsome, hnode]
      · rw [hnode]
        exact fun hc => absurd rfl hc

theorem Zeroed.dirStep {name : List UInt8} {r : Bool} (h : Zeroed p dp name k r k')
    (hk : InDir p dp k) (hd : KeysDistinct (k.node dp).slot (k.node dp).slots) :
    DirStep p dp (.zero name) k r k' := by
  cases hs : slotOf (k.node dp).slot (k.node dp).slots (cstr name) with
  | none =>
      obtain ⟨rfl, hnode⟩ := h.absent hs
      have hnone : (k.node dp).names (cstr name) = none := tableMap_eq_none.2 hs
      refine ⟨h.inDir, by rw [hnode]; exact hd, ?_, fun _ => hnode, fun i _ => by rw [hnode], ?_⟩
      · rw [DirOp.apply, if_pos hnone, hnode]
      · rw [hnode]
        exact fun hc => absurd rfl hc
  | some j =>
      obtain ⟨rfl, hent⟩ := h.present j hs
      obtain ⟨hj, v, hslot⟩ := slotOf_eq_some hs
      have hsome : (k.node dp).names (cstr name) ≠ none := by
        intro hc
        rw [tableMap_eq_none.1 hc] at hs
        cases hs
      have hsize : (k'.node dp).size = (k.node dp).size := by
        rw [hent.self]
        show max (k.node dp).size _ = (k.node dp).size
        have hwhole := hk.whole
        simp only [Node.slots, DIRENT] at *
        omega
      have hslots : (k'.node dp).slots = (k.node dp).slots := by rw [Node.slots, hsize]; rfl
      have hcleared := (k.node dp).cleared j
      rw [← hent.self] at hcleared
      refine ⟨h.inDir, ?_, ?_, fun hr => absurd hr (by decide), hent.others, fun hc =>
        absurd hsize hc⟩
      · rw [hslots]
        exact hcleared.distinct hd
      · rw [DirOp.apply, if_neg hsome]
        apply congrArg (Prod.mk true)
        show tableMap (k'.node dp).slot (k'.node dp).slots = _
        rw [hslots]
        exact hcleared.map hd hj hslot

/-- One operation on a directory. -/
theorem dirOp_wp (h : InDir p dp k) (hd : KeysDistinct (k.node dp).slot (k.node dp).slots)
    {o : DirOp} (ho : o.Fits (k.node dp)) :
    Ends p (o.prog dp) (fun r k' => k'.starved = false → DirStep p dp o k r k') DirStop k := by
  cases o with
  | link name inum =>
      obtain ⟨hpos, hlt, hroom⟩ := ho
      refine Prog.wp_imp (dirlink_wp h fun hs => hroom (tableMap_eq_none.2 hs)) ?_
      exact fun r k' hl hs => (hl hs).dirStep h hd hpos hlt
  | zero name =>
      refine Prog.wp_imp (zeroEntry_wp h) ?_
      exact fun r k' hz hs => (hz hs).dirStep h hd

/-- `dirlookup` is the lookup of the map. -/
theorem dirlookup_names_wp (h : InDir p dp k)
    (hd : KeysDistinct (k.node dp).slot (k.node dp).slots) (name : List UInt8) :
    Ends p (Sys.dirlookup dp name)
      (fun r k' => r.map Prod.fst = (k.node dp).names (cstr name) ∧ InDir p dp k' ∧
        k'.node = k.node)
      (fun e _ => e = .panic .igetNoInodes) k := by
  apply dirlookup_wp h
  · intro hs
    exact ⟨(tableMap_eq_none.2 hs).symm, h, rfl⟩
  · intro j hs
    refine ⟨?_, (h.held _).1, (h.held _).2⟩
    obtain ⟨hj, v, hslot⟩ := slotOf_eq_some hs
    have hv : (k.node dp).names (cstr name) = some v := (tableMap_eq_some hd).2 ⟨j, hj, hslot⟩
    rw [hv]
    unfold Node.slot at hslot
    split at hslot
    · cases hslot
    · exact congrArg (fun x => some x.2) (Option.some.inj hslot)
  · exact fun _ => rfl

end Step

/-- Operations on directory `dp` with the answers they gave.  In between, other things
may happen that leave the directory alone: transactions are opened and committed, other
inodes change. -/
inductive DirRun (p dp : Nat) (k : State) : List (DirOp × Bool) → State → Prop
  | refl : DirRun p dp k [] k
  | op {os : List (DirOp × Bool)} {k₁ k₂ : State} (o : DirOp) (r : Bool)
      (h : DirRun p dp k os k₁) (hfits : o.Fits (k₁.node dp))
      (hrun : ((o.prog dp).run (Act.exec p)).run k₁ = .ok r k₂) :
      DirRun p dp k (os ++ [(o, r)]) k₂
  | other {os : List (DirOp × Bool)} {k₁ k₂ : State} (h : DirRun p dp k os k₁)
      (hin : InDir p dp k₂) (hsame : k₂.node dp = k₁.node dp)
      (hfed : k₂.starved = false → k₁.starved = false) : DirRun p dp k os k₂

/-- The operations done to a map, with their answers. -/
def mapRun (m : List UInt8 → Option Nat) : List DirOp → List Bool × (List UInt8 → Option Nat)
  | [] => ([], m)
  | o :: os => ((o.apply m).1 :: (mapRun (o.apply m).2 os).1, (mapRun (o.apply m).2 os).2)

theorem mapRun_append (m : List UInt8 → Option Nat) (os : List DirOp) (o : DirOp) :
    mapRun m (os ++ [o]) =
      ((mapRun m os).1 ++ [(o.apply (mapRun m os).2).1], (o.apply (mapRun m os).2).2) := by
  induction os generalizing m with
  | nil => rfl
  | cons o' os ih =>
      rw [List.cons_append, mapRun, ih]
      rfl

section Run

variable {p dp : Nat} {k k' : State} {os : List (DirOp × Bool)}

theorem fed_before_op {o : DirOp} {r : Bool}
    (hrun : ((o.prog dp).run (Act.exec p)).run k = .ok r k') (hs : k'.starved = false) :
    k.starved = false := by
  cases hk : k.starved with
  | false => rfl
  | true =>
      exact (ok_of_wp (Prog.wp_run_of_true (wp_starved (Q := fun _ _ => False)
        (E := fun _ _ => False) _ hk)) hrun hs).elim

/-- The directory holds the map its operations made. -/
theorem DirRun.names (h : InDir p dp k) (hd : KeysDistinct (k.node dp).slot (k.node dp).slots)
    (hrun : DirRun p dp k os k') (hfed : k'.starved = false) :
    InDir p dp k' ∧ KeysDistinct (k'.node dp).slot (k'.node dp).slots ∧
      (os.map Prod.snd, (k'.node dp).names) = mapRun (k.node dp).names (os.map Prod.fst) := by
  induction hrun with
  | refl => exact ⟨h, hd, rfl⟩
  | op o r _ hfits hstep ih =>
      obtain ⟨hin, hd₁, hmap⟩ := ih (fed_before_op hstep hfed)
      have hnew := ok_of_wp (Prog.wp_run_of_true (dirOp_wp hin hd₁ hfits)) hstep hfed
      refine ⟨hnew.inDir, hnew.distinct, ?_⟩
      simp only [List.map_append, List.map_cons, List.map_nil]
      rw [mapRun_append, ← hmap]
      show _ = (_, (o.apply _).2)
      rw [← hnew.names]
  | other _ hin hsame hfed' ih =>
      obtain ⟨-, hd₁, hmap⟩ := ih (hfed' hfed)
      rw [hsame]
      exact ⟨hin, hd₁, hmap⟩

end Run

/-- **A directory is a finite map.**  While `balloc` finds free data blocks, any sequence
of `dirlink` and clearing of entries leaves the map that the same insertions and removals
make, with the same answers; `dirlookup` looks names up in it; and the next operation does
what `DirStep` says. -/
theorem directory_is_map {p dp : Nat} {k k' : State} {os : List (DirOp × Bool)}
    (h : InDir p dp k) (hd : KeysDistinct (k.node dp).slot (k.node dp).slots)
    (hrun : DirRun p dp k os k') (hfed : k'.starved = false) :
    (os.map Prod.snd, (k'.node dp).names) = mapRun (k.node dp).names (os.map Prod.fst) ∧
    KeysDistinct (k'.node dp).slot (k'.node dp).slots ∧ (k'.node dp).size % DIRENT = 0 ∧
    (∀ name, wp ((Sys.dirlookup dp name).run (Act.exec p))
      (fun r k'' => r.map Prod.fst = (k'.node dp).names (cstr name) ∧ k''.node = k'.node)
      (fun e _ => e = .panic .igetNoInodes) k') ∧
    (∀ o : DirOp, o.Fits (k'.node dp) → wp ((o.prog dp).run (Act.exec p))
      (fun r k'' => k''.starved = false → DirStep p dp o k' r k'') DirStop k') := by
  obtain ⟨hin, hd', hmap⟩ := hrun.names h hd hfed
  refine ⟨hmap, hd', hin.whole, fun name => ?_, fun o ho => ?_⟩
  · apply Prog.wp_run_of_true
    exact Prog.wp_imp (dirlookup_names_wp hin hd' name) fun r k'' hr => ⟨hr.1, hr.2.2⟩
  · exact Prog.wp_run_of_true (dirOp_wp hin hd' ho)

instance (nd : Node) : (o : DirOp) → Decidable (o.Fits nd)
  | .link name inum => inferInstanceAs (Decidable (0 < inum ∧ inum < 65536 ∧
      (nd.names (cstr name) = none →
        DIRENT * freeSlot nd.slot nd.slots + DIRENT ≤ MAXFILE * BSIZE)))
  | .zero _ => inferInstanceAs (Decidable True)

/-- The operations with their answers, if each fits and none halts, and the last state. -/
def runDirOps (p dp : Nat) : List DirOp → State → Option (List (DirOp × Bool) × State)
  | [], k => some ([], k)
  | o :: os, k =>
      if o.Fits (k.node dp) then
        match ((o.prog dp).run (Act.exec p)).run k with
        | .ok r k' => (runDirOps p dp os k').map fun x => ((o, r) :: x.1, x.2)
        | .fail _ _ => none
      else none

theorem DirRun.of_run {p dp : Nat} {k : State} (os : List DirOp) :
    ∀ {tr tr' : List (DirOp × Bool)} {k₁ k₂ : State}, DirRun p dp k tr k₁ →
      runDirOps p dp os k₁ = some (tr', k₂) →
      DirRun p dp k (tr ++ tr') k₂ ∧ tr'.map Prod.fst = os := by
  induction os with
  | nil =>
      intro tr tr' k₁ k₂ h hrun
      obtain ⟨rfl, rfl⟩ : [] = tr' ∧ k₁ = k₂ := by simpa [runDirOps] using hrun
      rw [List.append_nil]
      exact ⟨h, rfl⟩
  | cons o os ih =>
      intro tr tr' k₁ k₂ h hrun
      rw [runDirOps] at hrun
      split at hrun
      · rename_i hfits
        cases hop : ((o.prog dp).run (Act.exec p)).run k₁ with
        | fail e k' => simp [hop] at hrun
        | ok r k' =>
            simp only [hop] at hrun
            obtain ⟨⟨tr₁, k₃⟩, hrest, heq⟩ := Option.map_eq_some_iff.1 hrun
            obtain ⟨rfl, rfl⟩ : (o, r) :: tr₁ = tr' ∧ k₃ = k₂ := by simpa using heq
            rw [show tr ++ (o, r) :: tr₁ = tr ++ [(o, r)] ++ tr₁ by simp]
            obtain ⟨hall, hfst⟩ := ih (h.op o r hfits hop) hrest
            exact ⟨hall, by rw [List.map_cons, hfst]⟩
      · cases hrun

/-- The root directory of the small disk, locked in a transaction. -/
def lockRoot : List Op := [.beginTrans, .ilock 1]

/-- A new name goes into the root directory, then "." out of it. -/
def linkAndZero : List DirOp := [.link [97] 5, .zero dot]

theorem directory_is_map_link_and_zero :
    ∃ k k' tr, InDir 0 1 k ∧ DirRun 0 1 k tr k' ∧ tr.map Prod.fst = linkAndZero ∧
      tr.map Prod.snd = [true, true] ∧ (k'.node 1).names [97] = some 5 ∧
      (k'.node 1).names dot = none ∧ (k'.node 1).names dotdot = some 1 := by
  have hrun : ∃ k ∈ runOps lockRoot smallDisk, k.starved = false ∧ k.cur = 0 ∧
      (k.ptable 0).state = .live ∧ (k.icache 1).valid = true ∧ (k.icache 1).ref = 2 ∧
      (k.dinode 1).type = .dir ∧ (k.node 1).size = 32 ∧ (k.node 1).slot 0 = some (dot, 1) ∧
      (k.node 1).slot 1 = some (dotdot, 1) ∧
      (runDirOps 0 1 linkAndZero k).map (fun x => (x.1.map Prod.snd, x.2.starved)) =
        some ([true, true], false) := by
    decide +kernel
  obtain ⟨k, hk, hfed, hcur, hlive, hvalid, href, htype, hsize, hzero, hone, hends⟩ := hrun
  obtain ⟨⟨tr, k'⟩, hops, heq⟩ := Option.map_eq_some_iff.1 hends
  obtain ⟨hanswers, hfed'⟩ : tr.map Prod.snd = [true, true] ∧ k'.starved = false := by
    simpa using heq
  have hslots : (k.node 1).slots = 2 := by
    rw [Node.slots, hsize]
    decide
  have hin : InDir 0 1 k := by
    refine ⟨(Steps.of_runOps lockRoot .refl hk).wf smallDisk_wf hfed, hlive, hcur, hvalid, ?_,
      htype, ?_⟩
    · omega
    · rw [hsize]
      decide
  have hd : KeysDistinct (k.node 1).slot (k.node 1).slots := by
    rw [hslots]
    apply keysDistinct_of_listed (f := fun j => (if j = 0 then dot else dotdot, 1))
    · intro j hj
      obtain rfl | rfl : j = 0 ∨ j = 1 := by omega
      · exact hzero
      · exact hone
    · intro i j hi hj hkey
      obtain rfl | rfl : i = 0 ∨ i = 1 := by omega
      · obtain rfl | rfl : j = 0 ∨ j = 1 := by omega
        · rfl
        · cases hkey
      · obtain rfl | rfl : j = 0 ∨ j = 1 := by omega
        · cases hkey
        · rfl
  have hnames : ∀ key, (k.node 1).names key =
      if dot = key then some 1 else if dotdot = key then some 1 else none := by
    intro key
    rw [Node.names, hslots, tableMap, slotOf, firstFrom, firstFrom, firstFrom, holdsKey, holdsKey,
      hzero, hone]
    by_cases h₁ : dot = key
    · simp [h₁, hzero]
    · by_cases h₂ : dotdot = key <;> simp [h₁, h₂, hone]
  obtain ⟨hdirs, hfst⟩ : DirRun 0 1 k tr k' ∧ tr.map Prod.fst = linkAndZero :=
    DirRun.of_run linkAndZero .refl hops
  obtain ⟨hmap, -⟩ := directory_is_map hin hd hdirs hfed'
  rw [hfst] at hmap
  have hfinal : (k'.node 1).names =
      Function.update (Function.update (k.node 1).names [97] (some 5)) dot none := by
    have hfree : (k.node 1).names (cstr [97]) = none := by
      rw [hnames]
      decide
    have hdot : Function.update (k.node 1).names (cstr [97]) (some 5) (cstr dot) ≠ none := by
      rw [Function.update_of_ne (by decide), hnames]
      decide
    have hnames' := congrArg Prod.snd hmap
    simp only [linkAndZero, mapRun, DirOp.apply, hfree, if_true, if_neg hdot] at hnames'
    exact hnames'
  refine ⟨k, k', tr, hin, hdirs, hfst, hanswers, ?_, ?_, ?_⟩
  · rw [hfinal, Function.update_of_ne (by decide), Function.update_self]
  · rw [hfinal, Function.update_self]
  · rw [hfinal, Function.update_of_ne (by decide), Function.update_of_ne (by decide), hnames]
    decide

/-- Committing the transaction is one of the other things that may happen. -/
theorem DirRun.commit {p dp : Nat} {k k₁ k₂ : State} {os : List (DirOp × Bool)}
    (h : DirRun p dp k os k₁) (hin : InDir p dp k₁)
    (hrun : (Act.exec p .commitTrans).run k₁ = .ok () k₂) : DirRun p dp k os k₂ := by
  rw [hin.exec] at hrun
  obtain ⟨-, rfl⟩ : () = () ∧ _ = k₂ := by simpa [Act.code, commitTrans] using hrun
  have hd : DiskSame k₁ { k₁ with
      data := if k₁.log.lh = [] then k₁.data
        else Function.update k₁.data k₁.log.start
          (setHead (setHead (k₁.data k₁.log.start) k₁.log.lh) [])
      log := { k₁.log with lh := [], busy := none } } := by
    refine ⟨rfl, rfl, rfl, rfl, rfl, fun b hb => ?_⟩
    dsimp only
    split
    · rfl
    · exact Function.update_of_ne (Nat.ne_of_lt hb) _ _
  obtain ⟨hwf, -, hnode⟩ := hin.wf.of_disk hd fun i hi =>
    ⟨hin.wf.coherent i hi, hin.wf.live i hi⟩
  refine h.other ⟨hwf, hin.live, hin.cur, hin.valid, hin.ref, hin.type, ?_⟩ ?_ fun hs => hs
  · rw [hnode]
    exact hin.whole
  · rw [hnode]

/-! ## A full disk

`balloc` takes the log's blocks for data blocks when all others are in use.  An entry in
such a block is lost when the transaction is committed. -/

/-- Sixty-four entries; entry `j` has the one-byte name `j + 1`. -/
def fullBlock : Block := fun o =>
  if o % DIRENT = 0 then 1 else if o % DIRENT = 2 then UInt8.ofNat (o / DIRENT + 1) else 0

/-- The small disk with all data blocks in use.  The root directory fills its block and is
locked in a transaction. -/
def fullDisk : State :=
  { smallDisk with
    dinode := fun i =>
      if i = 1 then ⟨.dir, 0, 0, 1, 1024, fun s => if s = 0 then 4 else 0⟩ else Dinode.zero
    icopy := fun i =>
      if i = 1 then ⟨.dir, 0, 0, 1, 1024, fun s => if s = 0 then 4 else 0⟩ else Dinode.zero
    icache := fun i => if i = 1 then ⟨2, some 0, true⟩ else ⟨0, none, false⟩
    bitmap := fun b => decide (b < 50)
    data := fun b => if b = 4 then fullBlock else Block.zero
    log := ⟨50, 10, some 0, []⟩ }

theorem fullDisk_wf : Wf fullDisk := by
  have hcopy : fullDisk.icopy = fullDisk.dinode := rfl
  have hzero : ∀ i, i ≠ 1 → fullDisk.dinode i = Dinode.zero := fun _ hi => if_neg hi
  have hnodata : ∀ i, (fullDisk.dinode i).type.HasData → i = 1 := by
    intro i ht
    by_contra hi
    rw [hzero i hi] at ht
    rcases ht with ht | ht <;> cases ht
  have hvalid : ∀ i, (fullDisk.icache i).valid = true → i = 1 := by
    intro i hv
    by_contra hi
    rw [show fullDisk.icache i = ⟨0, none, false⟩ from if_neg hi] at hv
    cases hv
  have href : ∀ x, fullDisk.ref x = if x = (1, 0) then 4 else 0 := by
    rintro ⟨i, s⟩
    have hino : fullDisk.ino i = fullDisk.dinode i := by
      unfold State.ino
      split
      · rw [hcopy]
      · rfl
    simp only [State.ref, slotAddr, hino]
    by_cases hi : i = 1
    · subst hi
      simp [fullDisk]
      omega
    · rw [hzero i hi]
      simp [Dinode.zero, hi]
  refine ⟨⟨⟨?_, ?_⟩, ?_, ?_, rfl, by decide⟩, fun _ _ => rfl, ?_, ?_, ?_⟩
  · intro x y hx hxy
    rw [href] at hx
    rw [href, href] at hxy
    by_cases h1 : x = (1, 0)
    · by_cases h2 : y = (1, 0)
      · rw [h1, h2]
      · simp [h1, h2] at hxy
    · simp [h1] at hx
  · intro x hx
    rw [href] at hx ⊢
    split
    · decide
    · rename_i h1
      simp [h1] at hx
  · intro x hx
    rw [href] at hx ⊢
    split
    · decide
    · rename_i h1
      simp [h1] at hx
  · intro b hb
    have hstart : fullDisk.sb.dataStart = 4 := by decide
    rw [hstart] at hb
    exact decide_eq_true (by omega)
  · intro i hv
    rw [hvalid i hv]
    decide
  · intro i ht
    rw [hnodata i ht]
    decide
  · intro i ht o _ ho
    obtain rfl := hnodata i ht
    have hsize : o < 1024 := by simpa [fullDisk] using ho
    have hbn : o / BSIZE = 0 := Nat.div_eq_of_lt hsize
    rw [hbn, href]
    decide

/-- A name that is not in the root directory of the full disk. -/
def newName : List UInt8 := [200]

/-- Link the name, commit, and look the name up: whether it is gone. -/
def linkedIsGone : Bool :=
  match ((Sys.dirlink 1 newName 5).run (Act.exec 0)).run fullDisk with
  | .ok true k₁ =>
      match (Act.exec 0 .commitTrans).run k₁ with
      | .ok _ k₂ =>
          match ((Sys.dirlookup 1 newName).run (Act.exec 0)).run k₂ with
          | .ok none _ => true
          | _ => false
      | .fail _ _ => false
  | _ => false

theorem full_disk_loses_entry :
    ∃ k₁ k₂ k₃, InDir 0 1 fullDisk ∧
      KeysDistinct (fullDisk.node 1).slot (fullDisk.node 1).slots ∧
      (DirOp.link newName 5).Fits (fullDisk.node 1) ∧
      ((Sys.dirlink 1 newName 5).run (Act.exec 0)).run fullDisk = .ok true k₁ ∧
      (Act.exec 0 .commitTrans).run k₁ = .ok () k₂ ∧
      ((Sys.dirlookup 1 newName).run (Act.exec 0)).run k₂ = .ok none k₃ := by
  have hslot : ∀ j, j < 64 → (fullDisk.node 1).slot j = some ([UInt8.ofNat (j + 1)], 1) := by
    decide +kernel
  have hslots : (fullDisk.node 1).slots = 64 := by decide
  have hin : InDir 0 1 fullDisk :=
    ⟨fullDisk_wf, rfl, rfl, rfl, by decide, rfl, by decide⟩
  have hd : KeysDistinct (fullDisk.node 1).slot (fullDisk.node 1).slots := by
    rw [hslots]
    apply keysDistinct_of_listed hslot
    intro i j hi hj hkey
    have := congrArg UInt8.toNat (List.cons.inj hkey).1
    rw [UInt8.toNat_ofNat', UInt8.toNat_ofNat'] at this
    omega
  have hfits : (DirOp.link newName 5).Fits (fullDisk.node 1) := by
    decide +kernel
  have hgone : linkedIsGone = true := by decide +kernel
  unfold linkedIsGone at hgone
  split at hgone
  · rename_i k₁ hlink
    split at hgone
    · rename_i k₂ hcommit
      split at hgone
      · rename_i k₃ hlookup
        exact ⟨k₁, k₂, k₃, hin, hd, hfits, hlink, hcommit, hlookup⟩
      · cases hgone
    · cases hgone
  · cases hgone

end Xv6.Kernel
