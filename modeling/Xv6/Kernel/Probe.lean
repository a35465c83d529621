import Xv6.Kernel.Namei
import Xv6.Kernel.Runs
import Xv6.Kernel.Threads

/-!
# Looking without changing

What a system call does before it changes anything, and when it gives up: it walks paths,
locks inodes, searches directories and lets go of what it holds.  Whatever halts it on the
way, as long as it goes on the disk, the descriptors and the file table stay as they were, and
the references it has taken are the ones it has yet to give back.

Unlike in `Namei` nothing is assumed about room in the inode cache or other processes' locks,
and an inode without links may be in use.

## Main results

* `iput_probe`: letting go frees nothing, as an inode without links is held by someone else.
* `dirlookup_probe`, `nameiparent_probe`: what is found is what the directories say.
-/

namespace Xv6.Kernel

open Xv6.Verified
open Exec

/-- However the machine halts. -/
abbrev Anyhow (_ : Stop) (_ : State) : Prop := True

/-- The state a call starts from: directories consist of whole entries, and an inode that is not
free has a link or a reference. -/
structure Steady (p : Nat) (k : State) : Prop where
  live : (k.ptable p).state = .live
  whole : ∀ d, (k.dinode d).type = .dir → (k.node d).size % DIRENT = 0
  linked : ∀ i, (k.dinode i).type ≠ .free → (k.dinode i).nlink = 0 → 0 < (k.icache i).ref

/-- The same files are in use, and they are the same. -/
def FilesKept (t t' : Nat → File) : Prop :=
  ∀ f, (t' f).ref = (t f).ref ∧ ((t f).ref ≠ 0 → t' f = t f)

/-- From state `k₀` the process has taken references to `held`, of which it has read `seen` from
the disk; `idle` if it is in no transaction. -/
structure Probing (p : Nat) (k₀ : State) (idle : Bool) (held seen : List Nat) (k : State) :
    Prop where
  wf : Wf k
  same : DiskSame k₀ k
  node : k.node = k₀.node
  blocks : k.ref = k₀.ref
  ptable : k.ptable = k₀.ptable
  files : FilesKept k₀.ftable k.ftable
  cur : k.cur = p
  log : idle = true → k.log.busy = none ∧ k.log.lh = []
  refs : ∀ i, (k.icache i).ref = (k₀.icache i).ref + held.count i
  seen : ∀ i ∈ seen, (k.icache i).valid = true ∧ i ∈ held

section Probing

variable {p : Nat} {k₀ k k' : State} {idle : Bool} {held seen : List Nat} {α : Type}

theorem FilesKept.rfl {t : Nat → File} : FilesKept t t := fun _ => ⟨Eq.refl _, fun _ => Eq.refl _⟩

/-- What follows a run that is known to return. -/
theorem wp_of_returns {m : K α} {Q : α → State → Prop} (h : ∀ r k', m.run k = .ok r k' → Q r k') :
    wp m Q Anyhow k := by
  cases hrun : m.run k with
  | ok r k' => exact wp_of_ok hrun (h r k' hrun)
  | fail e k' => exact wp_of_fail hrun trivial

/-- A program may do anything if nothing is asked of its end. -/
theorem ends_any {m : Prog α} {Q : α → State → Prop} (h : ∀ r k', Q r k') :
    Ends p m Q Anyhow k := by
  induction m generalizing k with
  | ret a => exact h a k
  | act a g ih => exact fun _ => wp_of_returns fun r k' _ => ih r

/-- Whatever the first part does, the rest follows. -/
theorem ends_then {β : Type} {m : Prog α} {f : α → Prog β} {Q : β → State → Prop}
    (h : ∀ a k', Ends p (f a) Q Anyhow k') : Ends p (m >>= f) Q Anyhow k :=
  (Prog.wp_bind _ _).2 (ends_any h)

theorem ends_panic {m : Panic} {Q : α → State → Prop} : Ends p (Sys.panic m) Q Anyhow k :=
  fun _ => wp_of_returns fun r _ _ => r.elim

/-- An act is the kernel function behind it, and if that returns the rest follows. -/
theorem ends_exec {a : Act} {g : a.Res → Prog α} {Q : α → State → Prop}
    (hg : ∀ r k', a.code.run { k with cur := p } = .ok r k' → Ends p (g r) Q Anyhow k') :
    Ends p (Sys.act a >>= g) Q Anyhow k :=
  fun _ => wp_of_returns fun r k' hrun => hg r k' (exec_ok hrun).2

theorem ends_act {a : Act} {g : a.Res → Prog α} {Q : α → State → Prop} (hcur : k.cur = p)
    (hg : ∀ r k', a.code.run k = .ok r k' → Ends p (g r) Q Anyhow k') :
    Ends p (Sys.act a >>= g) Q Anyhow k := by
  refine ends_exec fun r k' hrun => hg r k' ?_
  rwa [show ({ k with cur := p } : State) = k by rw [← hcur]] at hrun

theorem Probing.start (hwf : Wf k) (hcur : k.cur = p)
    (hlog : idle = true → k.log.busy = none ∧ k.log.lh = []) : Probing p k idle [] [] k :=
  ⟨hwf, .rfl k, rfl, rfl, rfl, .rfl, hcur, hlog, fun _ => rfl, fun _ hi => nomatch hi⟩

theorem Probing.live (h : Probing p k₀ idle held seen k) (h₀ : Steady p k₀) :
    (k.ptable p).state = .live := by
  rw [h.ptable]
  exact h₀.live

theorem Probing.act (h : Probing p k₀ idle held seen k) {a : Act}
    {g : a.Res → Prog α} {Q : α → State → Prop}
    (hg : ∀ r k', a.code.run k = .ok r k' → Ends p (g r) Q Anyhow k') :
    Ends p (Sys.act a >>= g) Q Anyhow k := ends_act h.cur hg

/-- Only the inode cache changes. -/
theorem Probing.change {held' seen' : List Nat} (h : Probing p k₀ idle held seen k)
    (hd : DiskSame k k') (hptable : k'.ptable = k.ptable) (hfiles : k'.ftable = k.ftable)
    (hcur : k'.cur = k.cur) (hlog : k'.log = k.log)
    (hv : ∀ i, (k'.icache i).valid = true → k'.icopy i = k'.dinode i ∧ (k'.dinode i).type ≠ .free)
    (hrefs : ∀ i, (k'.icache i).ref = (k₀.icache i).ref + held'.count i)
    (hseen : ∀ i ∈ seen', (k'.icache i).valid = true ∧ i ∈ held') :
    Probing p k₀ idle held' seen' k' := by
  obtain ⟨hwf, href, hnode⟩ := h.wf.of_disk hd hv
  refine ⟨hwf, h.same.trans hd, hnode.trans h.node, href.trans h.blocks, hptable.trans h.ptable, ?_,
    hcur.trans h.cur, ?_, hrefs, hseen⟩
  · rw [hfiles]
    exact h.files
  · rw [hlog]
    exact h.log

/-- One entry of the cache changes. -/
theorem Probing.setEntry {held' seen' : List Nat} {i : Nat} {e : CacheEntry}
    (h : Probing p k₀ idle held seen k) (hv : e.valid = true → (k.icache i).valid = true)
    (href : e.ref = (k₀.icache i).ref + held'.count i)
    (hheld : ∀ j, j ≠ i → held'.count j = held.count j)
    (hself : i ∈ seen' → e.valid = true) (hseen : ∀ j ∈ seen', j ∈ held' ∧ (j ≠ i → j ∈ seen)) :
    Probing p k₀ idle held' seen' (k.setEntry i e) := by
  refine h.change (DiskSame.setEntry k i e) rfl rfl rfl rfl (fun j hj => ?_) (fun j => ?_)
    fun j hj => ⟨?_, (hseen j hj).1⟩
  · have hvj : (k.icache j).valid = true := by
      by_cases hne : j = i
      · subst hne
        rw [State.setEntry_self] at hj
        exact hv hj
      · rwa [State.setEntry_of_ne _ _ hne] at hj
    exact ⟨h.wf.coherent j hvj, h.wf.live j hvj⟩
  · by_cases hne : j = i
    · rw [hne, State.setEntry_self, href]
    · rw [State.setEntry_of_ne _ _ hne, h.refs, hheld j hne]
  · by_cases hne : j = i
    · rw [hne, State.setEntry_self]
      exact hself (hne ▸ hj)
    · rw [State.setEntry_of_ne _ _ hne]
      exact (h.seen j ((hseen j hj).2 hne)).1

/-! ## Acts -/

/-- One more reference. -/
theorem Probing.dup (h : Probing p k₀ idle held seen k) (i : Nat) :
    Probing p k₀ idle (i :: held) seen
      (k.setEntry i { k.icache i with ref := (k.icache i).ref + 1 }) := by
  apply h.setEntry
  · exact fun hv => hv
  · rw [List.count_cons_self, h.refs]
    exact Nat.add_assoc _ _ _
  · exact fun j hj => List.count_cons_of_ne (Ne.symm hj)
  · exact fun hi => (h.seen i hi).1
  · exact fun j hj => ⟨List.mem_cons_of_mem _ (h.seen j hj).2, fun _ => hj⟩

theorem Probing.iget (h : Probing p k₀ idle held seen k) (i : Nat) :
    Probing p k₀ idle (i :: held) seen (k.held i) := by
  have hrefs := h.refs i
  unfold State.held
  split
  · exact h.dup i
  · rename_i hfree
    apply h.setEntry (e := ⟨1, none, false⟩)
    · exact fun hv => nomatch hv
    · rw [List.count_cons_self]
      show 1 = _
      omega
    · exact fun j hj => List.count_cons_of_ne (Ne.symm hj)
    · intro hi
      have := List.count_pos_iff.2 (h.seen i hi).2
      omega
    · exact fun j hj => ⟨List.mem_cons_of_mem _ (h.seen j hj).2, fun _ => hj⟩

/-- `ilock` reads the inode from the disk if necessary. -/
theorem Probing.ilock (h : Probing p k₀ idle held seen k) {i : Nat} (hi : i ∈ held)
    (hrun : (ilock i).run k = .ok () k') : Probing p k₀ idle held (i :: seen) k' := by
  obtain ⟨-, hfree, hk'⟩ := ilock_ok hrun
  have hcache : k'.icache = Function.update k.icache i ⟨(k.icache i).ref, some k.cur, true⟩ := by
    rw [hk']
  have hcopy : k'.icopy = if (k.icache i).valid then k.icopy
      else Function.update k.icopy i (k.dinode i) := by
    rw [hk']
  have hsame : DiskSame k k' := by
    rw [hk']
    exact ⟨rfl, rfl, rfl, rfl, rfl, fun _ _ => rfl⟩
  refine h.change hsame (by rw [hk']) (by rw [hk']) (by rw [hk']) (by rw [hk']) (fun j hj => ?_)
    (fun j => ?_) fun j hj => ?_
  · rw [hsame.dinode, hcopy]
    by_cases hji : j = i
    · subst hji
      cases hv : (k.icache j).valid with
      | true => exact ⟨h.wf.coherent j hv, h.wf.live j hv⟩
      | false => exact ⟨Function.update_self _ _ _, hfree hv⟩
    · rw [hcache, Function.update_of_ne hji] at hj
      refine ⟨?_, h.wf.live j hj⟩
      cases (k.icache i).valid with
      | true => exact h.wf.coherent j hj
      | false =>
          refine Eq.trans ?_ (h.wf.coherent j hj)
          exact Function.update_of_ne hji _ _
  · rw [hcache]
    by_cases hji : j = i
    · rw [hji, Function.update_self]
      exact h.refs i
    · rw [Function.update_of_ne hji]
      exact h.refs j
  · rw [hcache]
    by_cases hji : j = i
    · rw [hji, Function.update_self]
      exact ⟨rfl, hi⟩
    · rw [Function.update_of_ne hji]
      exact h.seen j ((List.mem_cons.1 hj).resolve_left hji)

theorem Probing.iunlock (h : Probing p k₀ idle held seen k) {i : Nat}
    (hrun : (iunlock i).run k = .ok () k') : Probing p k₀ idle held seen k' := by
  rw [iunlock_ok hrun]
  apply h.setEntry
  · exact fun hv => hv
  · exact h.refs i
  · exact fun _ _ => rfl
  · exact fun hi => (h.seen i hi).1
  · exact fun j hj => ⟨(h.seen j hj).2, fun _ => hj⟩

/-- Letting go of an inode frees nothing: it has a link, or someone else holds it. -/
theorem iput_probe {i : Nat} {seen' : List Nat}
    (hseen : ∀ j ∈ seen', j ∈ seen ∧ j ∈ held.erase i) (h : Probing p k₀ idle held seen k)
    (h₀ : Steady p k₀) (hi : i ∈ held) {Q : Unit → State → Prop}
    (hQ : ∀ k', Probing p k₀ idle (held.erase i) seen' k' → Q () k') :
    Ends p (Sys.iput i) Q Anyhow k := by
  have hcount := List.count_pos_iff.2 hi
  have hrefs := h.refs i
  refine h.act fun r k' hrun => ?_
  obtain ⟨-, ⟨hlast, hv, hlink⟩, -⟩ | ⟨rfl, -, rfl⟩ := iputCheck_ok hrun
  · have hlive := h.wf.live i hv
    rw [h.wf.coherent i hv, h.same.dinode] at hlink
    rw [h.same.dinode] at hlive
    have := h₀.linked i hlive hlink
    omega
  · apply hQ
    apply h.setEntry
    · exact fun hv => hv
    · rw [List.count_erase_self]
      show (k.icache i).ref - 1 = _
      omega
    · exact fun j hj => List.count_erase_of_ne hj
    · exact fun hi' => (h.seen i (hseen i hi').1).1
    · exact fun j hj => ⟨(hseen j hj).2, fun _ => (hseen j hj).1⟩

theorem iunlockput_probe {i : Nat} {seen' : List Nat}
    (hseen : ∀ j ∈ seen', j ∈ seen ∧ j ∈ held.erase i) (h : Probing p k₀ idle held seen k)
    (h₀ : Steady p k₀) (hi : i ∈ held) {Q : Unit → State → Prop}
    (hQ : ∀ k', Probing p k₀ idle (held.erase i) seen' k' → Q () k') :
    Ends p (Sys.iunlockput i) Q Anyhow k :=
  h.act fun _ _ hrun => iput_probe hseen (h.iunlock hrun) h₀ hi hQ

/-- The directory the process has read. -/
theorem Probing.inDir {d : Nat} (h : Probing p k₀ idle held seen k) (h₀ : Steady p k₀)
    (hd : d ∈ seen) (htype : (k₀.dinode d).type = .dir) : InDir p d k := by
  obtain ⟨hvalid, hheld⟩ := h.seen d hd
  have href := h.refs d
  have hcount := List.count_pos_iff.2 hheld
  refine ⟨h.wf, h.live h₀, h.cur, hvalid, by omega, ?_, ?_⟩
  · rw [h.same.dinode]
    exact htype
  · rw [h.node]
    exact h₀.whole d htype

/-- The fields of an inode that has been read. -/
theorem Probing.stat (h : Probing p k₀ idle held seen k) {i : Nat} (hi : i ∈ seen)
    {g : Dinode → Prog α} {Q : α → State → Prop}
    (hg : Ends p (g (k₀.dinode i)) Q Anyhow k) : Ends p (Sys.act (.stat i) >>= g) Q Anyhow k := by
  refine h.act fun r k' hrun => ?_
  rw [Act.code, run_get_bind, run_pure, h.wf.coherent i (h.seen i hi).1, h.same.dinode] at hrun
  cases hrun
  exact hg

/-- What has been read from the disk is not free. -/
theorem Probing.not_free (h : Probing p k₀ idle held seen k) {i : Nat} (hi : i ∈ seen) :
    (k₀.dinode i).type ≠ .free := by
  rw [← h.same.dinode]
  exact h.wf.live i (h.seen i hi).1

/-- A search finds what the directory says, with a reference to it. -/
theorem dirlookup_probe {d : Nat} {name : List UInt8} (h : Probing p k₀ idle held seen k)
    (h₀ : Steady p k₀) (hd : d ∈ seen) (htype : (k₀.dinode d).type = .dir)
    {Q : Option (Nat × Nat) → State → Prop}
    (hnone : (k₀.node d).entry name = none → Q none k)
    (hsome : ∀ i off k', (k₀.node d).entry name = some i →
      Probing p k₀ idle (i :: held) seen k' → Q (some (i, off)) k') :
    Ends p (Sys.dirlookup d name) Q Anyhow k := by
  apply dirlookup_wp (h.inDir h₀ hd htype)
  · intro hslot
    rw [h.node] at hslot
    exact hnone (entry_none htype hslot)
  · intro j hslot
    rw [h.node] at hslot ⊢
    exact hsome _ _ _ (entry_some htype hslot) (h.iget _)
  · exact fun _ => trivial

/-! ## Paths -/

/-- The directory and the last name that names lead to from inode `i`. -/
def State.walkParent (k : State) (i : Nat) : List (List UInt8) → Option (Nat × List UInt8)
  | [] => none
  | [name] => if (k.node i).type = .dir then some (i, name) else none
  | name :: names => (k.node i).entry name >>= fun d => k.walkParent d names

/-- Where `nameiparent` leads. -/
def State.parentOf (k : State) (p : Nat) (path : List UInt8) : Option (Nat × List UInt8) :=
  k.walkParent (k.startOf p path) (pathElements path)

theorem dropWhile_slash {path : List UInt8} (h : path.dropWhile (· == Sys.slash) ≠ []) :
    ∃ c cs, path.dropWhile (· == Sys.slash) = c :: cs ∧ (c != Sys.slash) = true := by
  obtain ⟨c, cs, hcs⟩ := List.exists_cons_of_ne_nil h
  have hc := List.head?_dropWhile_not (fun x => x == Sys.slash) path
  rw [hcs] at hc
  exact ⟨c, cs, hcs, by simpa using hc⟩

theorem skipelem_some {path name rest : List UInt8}
    (h : Sys.skipelem path = some (name, rest)) :
    rest.length < path.length ∧ (rest ≠ [] → ∃ x, Sys.skipelem rest = some x) := by
  unfold Sys.skipelem at h
  simp only at h
  split at h
  · cases h
  · rename_i hne
    cases h
    obtain ⟨c, cs, hcs, hc⟩ := dropWhile_slash hne
    have hlen := (List.dropWhile_sublist (fun x => x == Sys.slash) (l := path)).length_le
    have hlen' := (List.dropWhile_sublist (fun x => x == Sys.slash)
      (l := (c :: cs).dropWhile (· != Sys.slash))).length_le
    have hlen'' := (List.dropWhile_sublist (fun x => x != Sys.slash) (l := cs)).length_le
    have hdrop : (c :: cs).dropWhile (· != Sys.slash) = cs.dropWhile (· != Sys.slash) :=
      List.dropWhile_cons_of_pos hc
    rw [hcs] at hlen ⊢
    rw [hdrop] at hlen' ⊢
    refine ⟨?_, fun hrest => ?_⟩
    · rw [List.length_cons] at hlen
      omega
    · obtain ⟨c', cs', hcs', hc'⟩ := dropWhile_slash hrest
      unfold Sys.skipelem
      simp only [hcs']
      rw [List.dropWhile_cons_of_neg (by simpa using hc'), if_neg (List.cons_ne_nil _ _)]
      exact ⟨_, rfl⟩

/-- The last name of a path is the one after which nothing follows. -/
theorem elements_eq_nil {fuel : Nat} {path name rest : List UInt8}
    (hskip : Sys.skipelem path = some (name, rest)) (hfuel : path.length < fuel + 1) :
    elements fuel rest = [] ↔ rest = [] := by
  obtain ⟨hlen, hmore⟩ := skipelem_some hskip
  obtain ⟨n, rfl⟩ : ∃ n, fuel = n + 1 := ⟨fuel - 1, by omega⟩
  rw [elements]
  constructor
  · intro h
    by_contra hne
    obtain ⟨x, hx⟩ := hmore hne
    rw [hx] at h
    cases h
  · rintro rfl
    rfl

/-- What `namex` does with the elements of the path. -/
def Sys.follow (parent : Bool) : Nat → List (List UInt8) → Prog (Option (Nat × List UInt8))
  | ip, [] => do
      if parent then do
        iput ip
        return none
      else return some (ip, [])
  | ip, name :: names => do
      act (.ilock ip)
      let d ← act (.stat ip)
      if d.type ≠ .dir then do
        iunlockput ip
        return none
      else if parent ∧ names = [] then do
        act (.iunlock ip)
        return some (ip, name)
      else do
        match ← dirlookup ip name with
        | none => do
            iunlockput ip
            return none
        | some (next, _) => do
            iunlockput ip
            follow parent next names

theorem namexLoop_follow {parent : Bool} {fuel i : Nat} {path : List UInt8}
    (hfuel : path.length < fuel) :
    Sys.namexLoop parent fuel i path = Sys.follow parent i (elements fuel path) := by
  induction fuel generalizing i path with
  | zero => exact absurd hfuel (by omega)
  | succ fuel ih =>
      rw [Sys.namexLoop, elements]
      cases hskip : Sys.skipelem path with
      | none => rfl
      | some x =>
          obtain ⟨name, rest⟩ := x
          have hlast := elements_eq_nil hskip hfuel
          obtain ⟨hlen, -⟩ := skipelem_some hskip
          dsimp only
          rw [Sys.follow]
          refine congrArg _ (funext fun _ => congrArg _ (funext fun d => ?_))
          by_cases hdir : d.type ≠ .dir
          · rw [if_pos hdir, if_pos hdir]
          · rw [if_neg hdir, if_neg hdir]
            by_cases hend : parent = true ∧ rest = []
            · rw [if_pos hend, if_pos (hend.imp_right hlast.2)]
            · rw [if_neg hend, if_neg fun h => hend (h.imp_right hlast.1)]
              refine congrArg _ (funext fun r => ?_)
              cases r with
              | none => rfl
              | some x =>
                  dsimp only
                  exact congrArg _ (funext fun _ => ih (by omega))

/-- The inode that the names lead to. -/
def State.followed (k : State) (parent : Bool) (i : Nat) (names : List (List UInt8)) :
    Option (Nat × List UInt8) :=
  if parent then k.walkParent i names else (k.walk i names).map fun d => (d, [])

theorem State.followed_stop {name : List UInt8} {names : List (List UInt8)} {parent : Bool}
    {i : Nat} (hdir : (k.node i).type ≠ .dir) : k.followed parent i (name :: names) = none := by
  have hentry : (k.node i).entry name = none := if_neg hdir
  cases parent with
  | false => simp [State.followed, State.walk, hentry]
  | true =>
      cases names with
      | nil => simp [State.followed, State.walkParent, hdir]
      | cons y ys => simp [State.followed, State.walkParent, hentry]

theorem State.followed_cons {name : List UInt8} {names : List (List UInt8)} {parent : Bool}
    {i : Nat} (hend : ¬(parent = true ∧ names = [])) : k.followed parent i (name :: names) =
      (k.node i).entry name >>= fun d => k.followed parent d names := by
  cases parent with
  | false =>
      cases hentry : (k.node i).entry name <;> simp [State.followed, State.walk, hentry]
  | true =>
      cases names with
      | nil => exact absurd ⟨rfl, rfl⟩ hend
      | cons y ys => rfl

/-- What a walk found, with a reference to it. -/
structure Followed (p : Nat) (k₀ : State) (idle : Bool) (held : List Nat) (parent : Bool)
    (want : Option (Nat × List UInt8)) (r : Option (Nat × List UInt8)) (k : State) : Prop where
  probing : Probing p k₀ idle ((r.map Prod.fst).toList ++ held) [] k
  result : r = want
  dir : parent = true → ∀ dp name, r = some (dp, name) → (k₀.dinode dp).type = .dir

theorem follow_probe (h₀ : Steady p k₀) {parent : Bool} (names : List (List UInt8)) :
    ∀ {i : Nat} {k : State}, Probing p k₀ idle (i :: held) [] k →
      Ends p (Sys.follow parent i names)
        (Followed p k₀ idle held parent (k₀.followed parent i names)) Anyhow k := by
  induction names with
  | nil =>
      intro i k h
      cases parent with
      | false => exact ⟨h, rfl, by simp⟩
      | true =>
          apply (Prog.wp_bind _ _).2
          refine iput_probe (List.forall_mem_nil _) h h₀ (List.mem_cons_self) fun k' h' => ?_
          rw [List.erase_cons_head] at h'
          exact ⟨h', rfl, by simp⟩
  | cons name names ih =>
      intro i k h
      rw [Sys.follow]
      refine h.act fun _ k₁ hlock => ?_
      have h₁ := h.ilock (List.mem_cons_self) hlock
      refine h₁.stat (List.mem_cons_self) ?_
      -- Giving up: nothing but the reference to `i` was taken.
      have hgive : ∀ want : Option (Nat × List UInt8), want = none →
          Ends p (Sys.iunlockput i >>= fun _ => (pure none : Prog _))
            (Followed p k₀ idle held parent want) Anyhow k₁ := by
        rintro want rfl
        apply (Prog.wp_bind _ _).2
        refine iunlockput_probe (List.forall_mem_nil _) h₁ h₀ (List.mem_cons_self)
          fun k' h' => ?_
        rw [List.erase_cons_head] at h'
        exact ⟨h', rfl, by simp⟩
      by_cases hdir : (k₀.dinode i).type = .dir
      · rw [if_neg (not_not.2 hdir)]
        by_cases hend : parent = true ∧ names = []
        · obtain ⟨rfl, rfl⟩ := hend
          rw [if_pos ⟨rfl, rfl⟩]
          refine h₁.act fun _ k₂ hunlock => ?_
          have h₂ := h₁.iunlock hunlock
          refine ⟨{ h₂ with seen := List.forall_mem_nil _ }, ?_, ?_⟩
          · simp [State.followed, State.walkParent, show (k₀.node i).type = .dir from hdir]
          · rintro - _ _ hr
            cases hr
            exact hdir
        · rw [if_neg hend, State.followed_cons hend]
          apply (Prog.wp_bind _ _).2
          refine dirlookup_probe h₁ h₀ (List.mem_cons_self) hdir (fun hentry => ?_)
            fun next off k₂ hentry h₂ => ?_
          · exact hgive _ (by rw [hentry]; rfl)
          · apply (Prog.wp_bind _ _).2
            refine iunlockput_probe (List.forall_mem_nil _) h₂ h₀ (by simp) fun k₃ h₃ => ?_
            have herase : (next :: i :: held).erase i = next :: held := by
              by_cases hself : next = i
              · rw [hself, List.erase_cons_head]
              · rw [List.erase_cons_tail (by simpa using hself), List.erase_cons_head]
            rw [herase] at h₃
            rw [hentry]
            exact ih h₃
      · rw [if_pos hdir]
        exact hgive _ (State.followed_stop hdir)

theorem namexLoop_probe (h₀ : Steady p k₀) {parent : Bool} {fuel i : Nat} {path : List UInt8}
    {k : State} (h : Probing p k₀ idle (i :: held) [] k) (hfuel : path.length < fuel) :
    Ends p (Sys.namexLoop parent fuel i path)
      (Followed p k₀ idle held parent (k₀.followed parent i (elements fuel path))) Anyhow k := by
  rw [namexLoop_follow hfuel]
  exact follow_probe h₀ _ h

/-- A walk starts with a reference to its first inode. -/
theorem namex_probe (h : Probing p k₀ idle held [] k) (h₀ : Steady p k₀) (path : List UInt8)
    {parent : Bool} :
    Ends p (Sys.namex path parent)
      (Followed p k₀ idle held parent (k₀.followed parent (k₀.startOf p path) (pathElements path)))
      Anyhow k := by
  unfold Sys.namex
  apply (Prog.wp_bind _ _).2
  have hloop : ∀ k', Probing p k₀ idle (k₀.startOf p path :: held) [] k' →
      Ends p (Sys.namexLoop parent (path.length + 1) (k₀.startOf p path) path)
        (Followed p k₀ idle held parent
          (k₀.followed parent (k₀.startOf p path) (pathElements path)))
        Anyhow k' := fun k' h' => namexLoop_probe h₀ h' (Nat.lt_succ_self _)
  unfold Sys.namexStart
  by_cases habs : path.head? = some Sys.slash
  · have hstart : k₀.startOf p path = ROOTINO := if_pos habs
    rw [if_pos habs]
    refine h.act fun _ k' hrun => ?_
    have hget := ok_of_wp (iget_wp (k := k) ROOTINO (Q := fun _ k' => k' = k.held ROOTINO)
      (E := Anyhow) rfl fun _ => trivial) hrun
    rw [hstart] at hloop ⊢
    rw [hget]
    exact hloop _ (h.iget ROOTINO)
  · rw [if_neg habs]
    show Ends p (Sys.act .idupCwd >>= pure) _ Anyhow k
    refine h.act fun i k' hrun => ?_
    obtain ⟨hcwd, rfl⟩ := idupCwd_ok hrun
    have hstart : k₀.startOf p path = i := by
      rw [State.proc, h.cur, h.ptable] at hcwd
      rw [State.startOf, if_neg habs, hcwd]
      rfl
    rw [hstart] at hloop ⊢
    exact hloop _ (h.dup i)

/-- `nameiparent` finds the directory and the last name that the path leads to. -/
theorem nameiparent_probe (h : Probing p k₀ idle held [] k) (h₀ : Steady p k₀)
    (path : List UInt8) {Q : Option (Nat × List UInt8) → State → Prop}
    (hnone : ∀ k', k₀.parentOf p path = none → Probing p k₀ idle held [] k' → Q none k')
    (hsome : ∀ dp name k', k₀.parentOf p path = some (dp, name) → (k₀.dinode dp).type = .dir →
      Probing p k₀ idle (dp :: held) [] k' → Q (some (dp, name)) k') :
    Ends p (Sys.nameiparent path) Q Anyhow k := by
  refine Prog.wp_imp (namex_probe h h₀ path) fun r k' hr => ?_
  have hparent : r = k₀.parentOf p path := hr.result
  cases r with
  | none => exact hnone k' hparent.symm hr.probing
  | some x =>
      obtain ⟨dp, name⟩ := x
      exact hsome dp name k' hparent.symm (hr.dir rfl dp name rfl) hr.probing

/-- `namei` finds an inode or nothing. -/
theorem namei_probe (h : Probing p k₀ idle held [] k) (h₀ : Steady p k₀) (path : List UInt8)
    {Q : Option Nat → State → Prop}
    (hQ : ∀ r k', Probing p k₀ idle (r.toList ++ held) [] k' → Q r k') :
    Ends p (Sys.namei path) Q Anyhow k := by
  unfold Sys.namei
  apply (Prog.wp_bind _ _).2
  refine Prog.wp_imp (namex_probe h h₀ path) fun r k' hr => ?_
  cases r with
  | none => exact hQ none k' hr.probing
  | some x => exact hQ (some x.1) k' hr.probing

end Probing

end Xv6.Kernel
