import Xv6.Kernel.Directory

/-!
# Resolving a path

One process looks names up while nobody else is in the kernel.  `namei` walks from
directory to directory: it locks each, searches it, and lets go of it again, so that at the
end the process holds one reference to the inode it found and nothing else has changed.

## Main results

* `namei_wp`: `namei` finds what walking the directories' maps finds, and cannot halt.
* `readAt_wp`: reading the file found gives its bytes.
-/

namespace Xv6.Kernel

open Xv6.Verified
open Exec

/-! ## Walking the maps -/

/-- The elements of a path, each cut to `DIRSIZ` bytes. -/
def elements : Nat → List UInt8 → List (List UInt8)
  | 0, _ => []
  | fuel + 1, path =>
      match Sys.skipelem path with
      | none => []
      | some (name, rest) => name :: elements fuel rest

/-- The elements of a whole path. -/
def pathElements (path : List UInt8) : List (List UInt8) := elements (path.length + 1) path

/-- What a name means in an inode: nothing, if it is not a directory. -/
def Node.entry (nd : Node) (name : List UInt8) : Option Nat :=
  if nd.type = .dir then nd.names (cstr name) else none

/-- The inode that names lead to from inode `i`. -/
def State.walk (k : State) (i : Nat) (names : List (List UInt8)) : Option Nat :=
  names.foldlM (fun d name => (k.node d).entry name) i

/-- Nobody has an inode locked, the inode cache has room, and what the directories name is
there. -/
structure Browsable (p : Nat) (k : State) : Prop where
  wf : Wf k
  live : (k.ptable p).state = .live
  cur : k.cur = p
  idle : ∀ i, (k.icache i).busy = none
  room : k.activeInodes + 2 ≤ NINODE
  whole : ∀ d, (k.dinode d).type = .dir → (k.node d).size % DIRENT = 0
  named : ∀ d name i, (k.node d).entry name = some i → (k.dinode i).type ≠ .free
  linked : ∀ i, (k.dinode i).type ≠ .free → (k.dinode i).nlink ≠ 0
  root : (k.dinode ROOTINO).type ≠ .free
  cwd : ∃ c, (k.ptable p).cwd = some c ∧ 1 ≤ (k.icache c).ref ∧ (k.dinode c).type ≠ .free

/-- From state `k₀` the process has taken references to `held` and the lock `lock`. -/
structure Browsing (p : Nat) (k₀ : State) (held : List Nat) (lock : Option Nat) (k : State) :
    Prop where
  wf : Wf k
  same : DiskSame k₀ k
  node : k.node = k₀.node
  ptable : k.ptable = k₀.ptable
  cur : k.cur = p
  refs : ∀ i, (k.icache i).ref = (k₀.icache i).ref + held.count i
  busy : ∀ i, (k.icache i).busy = if lock = some i then some p else none
  valid : ∀ i, lock = some i → (k.icache i).valid = true
  kept : ∀ i, lock = some i → i ∈ held

section Browsing

variable {p : Nat} {k₀ k k' : State} {held : List Nat} {lock : Option Nat}

theorem DiskSame.trans {k₁ k₂ k₃ : State} (h : DiskSame k₁ k₂) (h' : DiskSame k₂ k₃) :
    DiskSame k₁ k₃ := by
  refine ⟨h'.sb.trans h.sb, h'.start.trans h.start, h'.size.trans h.size,
    h'.dinode.trans h.dinode, h'.bitmap.trans h.bitmap, fun b hb => ?_⟩
  rw [h'.data b (by rw [h.start]; exact hb), h.data b hb]

theorem Browsable.browsing (h : Browsable p k) : Browsing p k [] none k := by
  refine ⟨h.wf, .rfl k, rfl, rfl, h.cur, fun _ => rfl, fun i => ?_, fun _ hi => ?_, fun _ hi => ?_⟩
  · rw [h.idle i, if_neg (by simp)]
  · cases hi
  · cases hi

/-- Only the inode cache changes. -/
theorem Browsing.change {held' : List Nat} {lock' : Option Nat}
    (h : Browsing p k₀ held lock k) (hd : DiskSame k k') (hptable : k'.ptable = k.ptable)
    (hcur : k'.cur = k.cur)
    (hv : ∀ i, (k'.icache i).valid = true → k'.icopy i = k'.dinode i ∧ (k'.dinode i).type ≠ .free)
    (hrefs : ∀ i, (k'.icache i).ref = (k₀.icache i).ref + held'.count i)
    (hbusy : ∀ i, (k'.icache i).busy = if lock' = some i then some p else none)
    (hvalid : ∀ i, lock' = some i → (k'.icache i).valid = true)
    (hkept : ∀ i, lock' = some i → i ∈ held') : Browsing p k₀ held' lock' k' := by
  obtain ⟨hwf, -, hnode⟩ := h.wf.of_disk hd hv
  exact ⟨hwf, h.same.trans hd, hnode.trans h.node, hptable.trans h.ptable, hcur.trans h.cur, hrefs,
    hbusy, hvalid, hkept⟩

/-- One entry of the cache changes. -/
theorem Browsing.setEntry {held' : List Nat} {lock' : Option Nat} {i : Nat} {e : CacheEntry}
    (h : Browsing p k₀ held lock k) (hv : e.valid = true → (k.icache i).valid = true)
    (href : e.ref = (k₀.icache i).ref + held'.count i)
    (hheld : ∀ j, j ≠ i → held'.count j = held.count j)
    (hbusy : e.busy = if lock' = some i then some p else none)
    (hlock : ∀ j, j ≠ i → (lock' = some j ↔ lock = some j))
    (hself : lock' = some i → e.valid = true) (hkept : ∀ j, lock' = some j → j ∈ held') :
    Browsing p k₀ held' lock' (k.setEntry i e) := by
  apply h.change (DiskSame.setEntry k i e) rfl rfl
  · intro j hj
    have hvj : (k.icache j).valid = true := by
      by_cases hne : j = i
      · subst hne
        rw [State.setEntry_self] at hj
        exact hv hj
      · rwa [State.setEntry_of_ne _ _ hne] at hj
    exact ⟨h.wf.coherent j hvj, h.wf.live j hvj⟩
  · intro j
    by_cases hne : j = i
    · rw [hne, State.setEntry_self, href]
    · rw [State.setEntry_of_ne _ _ hne, h.refs, hheld j hne]
  · intro j
    by_cases hne : j = i
    · rw [hne, State.setEntry_self, hbusy]
    · rw [State.setEntry_of_ne _ _ hne, h.busy]
      simp only [hlock j hne]
  · intro j hj
    by_cases hne : j = i
    · rw [hne] at hj ⊢
      rw [State.setEntry_self]
      exact hself hj
    · rw [State.setEntry_of_ne _ _ hne]
      exact h.valid j ((hlock j hne).1 hj)
  · exact hkept

theorem Browsing.exec (h : Browsing p k₀ held lock k) (h₀ : Browsable p k₀) (a : Act) :
    (Act.exec p a).run k = a.code.run k := by
  have hlive : (k.ptable p).state = .live := by
    rw [h.ptable]
    exact h₀.live
  rw [run_exec hlive, show ({ k with cur := p } : State) = k by rw [← h.cur]]

/-- An act is the kernel function behind it. -/
theorem Browsing.act (h : Browsing p k₀ held lock k) (h₀ : Browsable p k₀) {a : Act}
    {Q : a.Res → State → Prop} {E : Stop → State → Prop} (hw : wp a.code Q E k) :
    wp (Act.exec p a) Q E k := by
  unfold wp at hw ⊢
  rw [h.exec h₀]
  exact hw

/-- The entries in use are those from the start and those of `held`. -/
theorem Browsing.active (h : Browsing p k₀ held lock k) :
    k.activeInodes ≤ k₀.activeInodes + held.length := by
  have hsb : k.sb = k₀.sb := h.same.sb
  unfold State.activeInodes
  rw [hsb, ← List.length_append]
  apply List.Nodup.length_le_of_subset (List.nodup_range.filter _)
  intro i hi
  obtain ⟨hmem, href⟩ := List.mem_filter.1 hi
  have href := of_decide_eq_true href
  rw [h.refs] at href
  apply List.mem_append.2
  by_cases hpos : 0 < (k₀.icache i).ref
  · exact .inl (List.mem_filter.2 ⟨hmem, decide_eq_true hpos⟩)
  · exact .inr (List.count_pos_iff.1 (by omega))

/-! ## The acts of a walk -/

/-- One more reference. -/
theorem Browsing.iget (h : Browsing p k₀ held lock k) (i : Nat) :
    Browsing p k₀ (i :: held) lock (k.held i) := by
  have hcount : ∀ j, j ≠ i → (i :: held).count j = held.count j := fun j hj =>
    List.count_cons_of_ne (Ne.symm hj)
  have hself : (i :: held).count i = held.count i + 1 := List.count_cons_self
  have hrefs := h.refs i
  have hkept : ∀ j, lock = some j → j ∈ i :: held := fun j hj =>
    List.mem_cons_of_mem _ (h.kept j hj)
  unfold State.held
  split
  · apply Browsing.setEntry h (e := { k.icache i with ref := (k.icache i).ref + 1 })
    · exact fun hv => hv
    · show (k.icache i).ref + 1 = _
      omega
    · exact hcount
    · exact h.busy i
    · exact fun _ _ => Iff.rfl
    · exact h.valid i
    · exact hkept
  · rename_i hfree
    have hnot : lock ≠ some i := by
      intro hc
      have := List.count_pos_iff.2 (h.kept i hc)
      omega
    apply Browsing.setEntry h (e := ⟨1, none, false⟩)
    · intro hv
      cases hv
    · show 1 = _
      omega
    · exact hcount
    · rw [if_neg hnot]
    · exact fun _ _ => Iff.rfl
    · exact fun hc => absurd hc hnot
    · exact hkept

theorem ilock_browse (h : Browsing p k₀ held none k) (h₀ : Browsable p k₀) {i : Nat}
    (hi : i ∈ held) (htype : (k₀.dinode i).type ≠ .free) {Q : Unit → State → Prop}
    {E : Stop → State → Prop} (hQ : ∀ k', Browsing p k₀ held (some i) k' → Q () k') :
    wp (Act.exec p (.ilock i)) Q E k := by
  have href : ¬(k.icache i).ref < 1 := by
    have := List.count_pos_iff.2 hi
    have := h.refs i
    omega
  have hbusy : (k.icache i).busy = none := h.busy i
  have hfree : (k.dinode i).type ≠ .free := by
    rw [h.same.dinode]
    exact htype
  apply h.act h₀
  show wp (ilock i) Q E k
  unfold ilock
  rw [wp_bind, wp_get, if_neg href, hbusy, if_neg (by decide), wp_bind, wp_modify]
  have hlocks : ∀ e : CacheEntry, e.busy = some p → ∀ j,
      (Function.update k.icache i e j).busy = if some i = some j then some p else none := by
    intro e he j
    by_cases hj : j = i
    · rw [hj, Function.update_self, if_pos rfl, he]
    · rw [Function.update_of_ne hj, h.busy, if_neg (by simp), if_neg (by simp [Ne.symm hj])]
  have hrefs : ∀ e : CacheEntry, e.ref = (k.icache i).ref → ∀ j,
      (Function.update k.icache i e j).ref = (k₀.icache j).ref + held.count j := by
    intro e he j
    by_cases hj : j = i
    · rw [hj, Function.update_self, he, h.refs]
    · rw [Function.update_of_ne hj, h.refs]
  have hkept : ∀ j, some i = some j → j ∈ held := by
    rintro j hj
    rw [← Option.some.inj hj]
    exact hi
  by_cases hv : (k.icache i).valid = true
  · rw [if_pos hv, wp_pure]
    apply hQ
    have hall : ∀ j, (Function.update k.icache i { k.icache i with busy := some k.cur } j).valid =
        (k.icache j).valid := by
      intro j
      by_cases hj : j = i
      · rw [hj, Function.update_self]
      · rw [Function.update_of_ne hj]
    apply h.change (DiskSame.setEntry k i _) rfl rfl
    · intro j hj
      have hj : (k.icache j).valid = true := (hall j).symm.trans hj
      exact ⟨h.wf.coherent j hj, h.wf.live j hj⟩
    · exact hrefs _ rfl
    · exact hlocks _ (congrArg some h.cur)
    · intro j hj
      obtain rfl := Option.some.inj hj
      exact (hall i).trans hv
    · exact hkept
  · rw [if_neg hv, wp_bind, wp_modify, if_neg hfree, wp_pure]
    apply hQ
    simp only [State.setEntry, State.setCopy, Function.update_self, Function.update_idem]
    obtain ⟨k', hk'⟩ : ∃ k' : State, k' = { k with
        icopy := Function.update k.icopy i (k.dinode i)
        icache := Function.update k.icache i ⟨(k.icache i).ref, some k.cur, true⟩ } := ⟨_, rfl⟩
    rw [← hk']
    have hsame : DiskSame k k' := by
      rw [hk']
      exact ⟨rfl, rfl, rfl, rfl, rfl, fun _ _ => rfl⟩
    have hcache : k'.icache = Function.update k.icache i ⟨(k.icache i).ref, some k.cur, true⟩ := by
      rw [hk']
    have hcopy : k'.icopy = Function.update k.icopy i (k.dinode i) := by rw [hk']
    apply h.change hsame (by rw [hk']) (by rw [hk'])
    · intro j hj
      rw [hsame.dinode, hcopy]
      by_cases hji : j = i
      · rw [hji, Function.update_self]
        exact ⟨rfl, hfree⟩
      · rw [hcache, Function.update_of_ne hji] at hj
        rw [Function.update_of_ne hji]
        exact ⟨h.wf.coherent j hj, h.wf.live j hj⟩
    · rw [hcache]
      exact hrefs _ rfl
    · rw [hcache]
      exact hlocks _ (congrArg some h.cur)
    · intro j hj
      obtain rfl := Option.some.inj hj
      rw [hcache, Function.update_self]
    · exact hkept

theorem iunlock_browse {i : Nat} (h : Browsing p k₀ held (some i) k) (h₀ : Browsable p k₀)
    {Q : Unit → State → Prop} {E : Stop → State → Prop}
    (hQ : ∀ k', Browsing p k₀ held none k' → Q () k') : wp (Act.exec p (.iunlock i)) Q E k := by
  have hbusy : (k.icache i).busy = some p := by
    rw [h.busy, if_pos rfl]
  have href : ¬(k.icache i).ref < 1 := by
    have := List.count_pos_iff.2 (h.kept i rfl)
    have := h.refs i
    omega
  apply h.act h₀
  show wp (iunlock i) Q E k
  unfold iunlock
  rw [wp_bind, wp_get, hbusy, if_neg (by simp [href]), wp_modify]
  apply hQ
  apply h.setEntry
  · exact fun hv => hv
  · exact h.refs i
  · exact fun _ _ => rfl
  · rfl
  · intro j hj
    simp [Ne.symm hj]
  · intro hc
    cases hc
  · intro j hc
    cases hc

/-- Letting go of an inode that has a link frees nothing. -/
theorem iput_browse {i : Nat} (h : Browsing p k₀ held none k) (h₀ : Browsable p k₀)
    (hi : i ∈ held) {Q : Unit → State → Prop} {E : Stop → State → Prop}
    (hQ : ∀ k', Browsing p k₀ (held.erase i) none k' → Q () k') : Ends p (Sys.iput i) Q E k := by
  have hcount := List.count_pos_iff.2 hi
  have hrefs := h.refs i
  have hkeeps : ¬((k.icache i).ref = 1 ∧ (k.icache i).valid = true ∧ (k.icopy i).nlink = 0) := by
    rintro ⟨-, hv, hlink⟩
    have hlive := h.wf.live i hv
    rw [h.wf.coherent i hv, h.same.dinode] at hlink
    rw [h.same.dinode] at hlive
    exact h₀.linked i hlive hlink
  have hnew : Browsing p k₀ (held.erase i) none
      (k.setEntry i { k.icache i with ref := (k.icache i).ref - 1 }) := by
    apply h.setEntry
    · exact fun hv => hv
    · rw [List.count_erase_self]
      show (k.icache i).ref - 1 = _
      omega
    · intro j hj
      exact List.count_erase_of_ne hj
    · exact h.busy i
    · exact fun _ _ => Iff.rfl
    · intro hc
      cases hc
    · intro j hc
      cases hc
  have hcheck : (Act.exec p (.iputCheck i)).run k =
      .ok false (k.setEntry i { k.icache i with ref := (k.icache i).ref - 1 }) := by
    rw [h.exec h₀, Act.code, iputCheck, run_get_bind, run_ite, if_neg hkeeps]
    rfl
  apply wp_act_ok hcheck
  exact hQ _ hnew

theorem iunlockput_browse {i : Nat} (h : Browsing p k₀ held (some i) k) (h₀ : Browsable p k₀)
    {Q : Unit → State → Prop} {E : Stop → State → Prop}
    (hQ : ∀ k', Browsing p k₀ (held.erase i) none k' → Q () k') :
    Ends p (Sys.iunlockput i) Q E k := by
  intro _
  apply iunlock_browse h h₀
  intro k' h'
  exact iput_browse h' h₀ (h.kept i rfl) hQ

/-- The locked directory. -/
theorem Browsing.inDir {d : Nat} (h : Browsing p k₀ held (some d) k) (h₀ : Browsable p k₀)
    (htype : (k₀.dinode d).type = .dir) : InDir p d k := by
  have href := h.refs d
  have hcount := List.count_pos_iff.2 (h.kept d rfl)
  refine ⟨h.wf, ?_, h.cur, h.valid d rfl, by omega, ?_, ?_⟩
  · rw [h.ptable]
    exact h₀.live
  · rw [h.same.dinode]
    exact htype
  · rw [h.node]
    exact h₀.whole d htype

/-- The fields of the locked inode. -/
theorem Browsing.stat {i : Nat} (h : Browsing p k₀ held (some i) k) (h₀ : Browsable p k₀) :
    (Act.exec p (.stat i)).run k = .ok (k₀.dinode i) k := by
  rw [h.exec h₀, Act.code, run_get_bind, run_pure, h.wf.coherent i (h.valid i rfl), h.same.dinode]

/-- What a walk found: the inode, or nothing. -/
def Found (p : Nat) (k₀ : State) (r : Option Nat) (k : State) : Prop :=
  Browsing p k₀ r.toList none k

theorem entry_none {d : Nat} {name : List UInt8} (hd : (k₀.node d).type = .dir)
    (h : slotOf (k₀.node d).slot (k₀.node d).slots (cstr name) = none) :
    (k₀.node d).entry name = none := by
  rw [Node.entry, if_pos hd]
  exact tableMap_eq_none.2 h

theorem entry_some {d j : Nat} {name : List UInt8} (hd : (k₀.node d).type = .dir)
    (h : slotOf (k₀.node d).slot (k₀.node d).slots (cstr name) = some j) :
    (k₀.node d).entry name = some ((k₀.node d).found j).1 := by
  rw [Node.entry, if_pos hd, Node.names, tableMap, h]
  obtain ⟨-, v, hslot⟩ := slotOf_eq_some h
  simp only [hslot, Option.map_some]
  unfold Node.slot at hslot
  split at hslot
  · cases hslot
  · exact congrArg (fun x => some x.2) (Option.some.inj hslot).symm

/-- The loop walks the maps, one directory after the other. -/
theorem namexLoop_wp (h₀ : Browsable p k₀) {E : Stop → State → Prop} (fuel : Nat) :
    ∀ {i : Nat} {path : List UInt8} {k : State}, Browsing p k₀ [i] none k →
      (k₀.dinode i).type ≠ .free →
      Ends p (Sys.namexLoop false fuel i path)
        (fun r k' => r.map Prod.fst = k₀.walk i (elements fuel path) ∧
          Found p k₀ (r.map Prod.fst) k') E k := by
  induction fuel with
  | zero => exact fun h _ => ⟨rfl, h⟩
  | succ fuel ih =>
      intro i path k h htype
      rw [Sys.namexLoop, elements]
      cases hskip : Sys.skipelem path with
      | none => exact ⟨rfl, h⟩
      | some x =>
          obtain ⟨name, rest⟩ := x
          simp only
          have hwalk : k₀.walk i (name :: elements fuel rest) =
              (k₀.node i).entry name >>= fun d => k₀.walk d (elements fuel rest) :=
            List.foldlM_cons
          intro _
          apply ilock_browse h h₀ (List.mem_cons_self) htype
          intro k₁ h₁
          apply wp_act_ok (h₁.stat h₀)
          by_cases hdir : (k₀.dinode i).type = .dir
          · rw [if_neg (not_not.2 hdir), if_neg (by simp)]
            apply (Prog.wp_bind _ _).2
            have hactive := h₁.active
            have hroom := h₀.room
            apply dirlookup_wp (h₁.inDir h₀ hdir)
            · intro hnone
              rw [h₁.node] at hnone
              apply (Prog.wp_bind _ _).2
              apply iunlockput_browse h₁ h₀
              intro k₂ h₂
              rw [List.erase_cons_head] at h₂
              rw [hwalk, entry_none hdir hnone]
              exact ⟨rfl, h₂⟩
            · intro j hsome
              rw [h₁.node] at hsome ⊢
              have hentry := entry_some hdir hsome
              apply (Prog.wp_bind _ _).2
              apply iunlockput_browse (h₁.iget _) h₀
              intro k₂ h₂
              have herase : (((k₀.node i).found j).1 :: [i]).erase i =
                  [((k₀.node i).found j).1] := by
                by_cases hself : ((k₀.node i).found j).1 = i
                · rw [hself, List.erase_cons_head]
                · rw [List.erase_cons_tail (by simpa using hself), List.erase_cons_head]
              rw [herase] at h₂
              rw [hwalk, hentry]
              exact ih h₂ (h₀.named i name _ hentry)
            · intro hfull
              simp only [List.length_cons, List.length_nil] at hactive
              omega
          · rw [if_pos hdir]
            apply (Prog.wp_bind _ _).2
            apply iunlockput_browse h₁ h₀
            intro k₂ h₂
            rw [List.erase_cons_head] at h₂
            have hentry : (k₀.node i).entry name = none := if_neg hdir
            rw [hwalk, hentry]
            exact ⟨rfl, h₂⟩

/-- Where `namex` starts. -/
def State.startOf (k : State) (p : Nat) (path : List UInt8) : Nat :=
  if path.head? = some Sys.slash then ROOTINO else (k.ptable p).cwd.getD ROOTINO

theorem namexStart_wp (h : Browsable p k) (path : List UInt8) {Q : Nat → State → Prop}
    {E : Stop → State → Prop}
    (hQ : ∀ k', Browsing p k [k.startOf p path] none k' →
      (k.dinode (k.startOf p path)).type ≠ .free → Q (k.startOf p path) k') :
    Ends p (Sys.namexStart path) Q E k := by
  have hb := h.browsing
  obtain ⟨c, hcwd, href, htype⟩ := h.cwd
  unfold Sys.namexStart
  by_cases habs : path.head? = some Sys.slash
  · have hstart : k.startOf p path = ROOTINO := if_pos habs
    rw [if_pos habs]
    rw [hstart] at hQ
    intro _
    apply hb.act h
    show wp (iget ROOTINO) _ _ _
    apply iget_wp
    · exact hQ _ (hb.iget ROOTINO) h.root
    · intro hfull
      have := h.room
      omega
  · have hstart : k.startOf p path = c := by
      rw [State.startOf, if_neg habs, hcwd]
      rfl
    rw [if_neg habs]
    rw [hstart] at hQ
    intro _
    apply hb.act h
    show wp idupCwd _ _ _
    have hheld : k.held c = k.setEntry c { k.icache c with ref := (k.icache c).ref + 1 } :=
      if_pos href
    have hproc : k.proc.cwd = some c := by
      rw [State.proc, h.cur]
      exact hcwd
    unfold idupCwd Kernel.cwd idup
    rw [wp_bind, wp_bind, wp_get, hproc]
    simp only
    rw [wp_pure, wp_bind, wp_modify, wp_pure, ← hheld]
    exact hQ _ (hb.iget c) htype

/-- **`namei`.**  The answer is where the names of the path lead; the process then has a
reference to that inode, and nothing else has changed. -/
theorem namei_wp (h : Browsable p k) (path : List UInt8) {E : Stop → State → Prop} :
    Ends p (Sys.namei path)
      (fun r k' => r = k.walk (k.startOf p path) (pathElements path) ∧ Found p k r k') E k := by
  unfold Sys.namei Sys.namex
  apply (Prog.wp_bind _ _).2
  apply (Prog.wp_bind _ _).2
  apply namexStart_wp h
  intro k₁ h₁ htype
  refine Prog.wp_imp (namexLoop_wp h (path.length + 1) h₁ htype) ?_
  rintro (_ | ⟨i, name⟩) k₂ ⟨hwalk, hfound⟩
  · exact ⟨hwalk, hfound⟩
  · exact ⟨hwalk, hfound⟩

/-- Open a file by its path, and read `n` bytes from offset `off`: the inode, its fields and
the bytes. -/
def Sys.readAt (path : List UInt8) (off n : Nat) :
    Prog (Option (Nat × Dinode × Option (List UInt8))) := do
  match ← Sys.namei path with
  | none => return none
  | some ip => do
      Sys.act (.ilock ip)
      let d ← Sys.act (.stat ip)
      let r ← Sys.act (.readi ip off n)
      return some (ip, d, r)

/-- Reading a file by its path. -/
theorem readAt_wp (h : Browsable p k) {path : List UInt8} {i off n : Nat}
    (hi : k.walk (k.startOf p path) (pathElements path) = some i)
    (hdata : (k.dinode i).type.HasData) (hoff : off < UINT) (hn : n < UINT)
    {E : Stop → State → Prop} :
    Ends p (Sys.readAt path off n)
      (fun r _ => r = some (i, k.dinode i, (k.node i).read off n)) E k := by
  unfold Sys.readAt
  apply (Prog.wp_bind _ _).2
  refine Prog.wp_imp (namei_wp h path) ?_
  rintro r k₁ ⟨hwalk, hfound⟩
  rw [hi] at hwalk
  subst hwalk
  have htype : (k.dinode i).type ≠ .free := by
    rcases hdata with ht | ht <;> rw [ht] <;> decide
  intro _
  apply ilock_browse hfound h (List.mem_cons_self) htype
  intro k₂ h₂
  apply wp_act_ok (h₂.stat h)
  have hread : (Act.exec p (.readi i off n)).run k₂ = .ok ((k.node i).read off n) k₂ := by
    rw [h₂.exec h, Act.code, Nat.mod_eq_of_lt hoff, Nat.mod_eq_of_lt hn,
      run_readi h₂.wf (h₂.valid i rfl) (by rw [h₂.same.dinode]; exact hdata) hoff hn, h₂.node]
  apply wp_act_ok hread
  rfl

end Browsing

end Xv6.Kernel
