import Mathlib.Data.List.TakeWhile
import Xv6.Kernel.Probe
import Xv6.Verified.Strings

/-!
# Path splitting

`skipelem` and `namex` with their two `char *`: the path is the memory from the pointer on, where a
NUL byte ends the string, and `name` an array that is terminated only if there is room.

* `path_split`: the calls of `skipelem` split the path at its slashes, and `namex` follows what they
  give.
-/

namespace Xv6.Kernel.PathSplit

open Xv6.Verified
open Strings (Holds)

/-! ## The source -/

/-- `memmove` of `n` bytes to the array. -/
def memmove (name : Nat → UInt8) (s : List UInt8) (n : Nat) : Nat → UInt8 :=
  fun i => if i < n then s.getD i 0 else name i

/-- `skipelem`: the pointer that it returns, and the array. -/
def skipelem (path : List UInt8) (name : Nat → UInt8) : Option (List UInt8 × (Nat → UInt8)) :=
  let path := path.dropWhile (· == Sys.slash)
  if path.headD 0 = 0 then none
  else
    let s := path
    let path := path.dropWhile fun c => c != Sys.slash && c != 0
    let len := s.length - path.length
    let name :=
      if len ≥ DIRSIZ then memmove name s DIRSIZ
      else Function.update (memmove name s len) len 0
    some (path.dropWhile (· == Sys.slash), name)

/-- The calls of `skipelem` until it returns 0, with the array and the pointer after each. -/
def skipelems : Nat → List UInt8 → (Nat → UInt8) → Option (List ((Nat → UInt8) × List UInt8))
  | 0, _, _ => none
  | fuel + 1, path, name =>
      match skipelem path name with
      | none => some []
      | some (path, name) => (skipelems fuel path name).map ((name, path) :: ·)

/-- The array as `strncmp` with limit `DIRSIZ` reads it. -/
def bytes (name : Nat → UInt8) : List UInt8 := (List.range DIRSIZ).map name

/-- The loop of `namex`; nothing if it has not ended. -/
def namexLoop (nameiparent : Bool) :
    Nat → Nat → List UInt8 → (Nat → UInt8) → Prog (Option (Option (Nat × (Nat → UInt8))))
  | 0, _, _, _ => return none
  | fuel + 1, ip, path, name =>
      match skipelem path name with
      | none => do
          if nameiparent then do
            Sys.iput ip
            return some none
          else return some (some (ip, name))
      | some (path, name) => do
          Sys.act (.ilock ip)
          let d ← Sys.act (.stat ip)
          if d.type ≠ .dir then do
            Sys.iunlockput ip
            return some none
          else if nameiparent ∧ path.headD 0 = 0 then do
            Sys.act (.iunlock ip)
            return some (some (ip, name))
          else do
            match ← Sys.dirlookup ip (bytes name) with
            | none => do
                Sys.iunlockput ip
                return some none
            | some (next, _) => do
                Sys.iunlockput ip
                namexLoop nameiparent fuel next path name

/-- `namex`. -/
def namex (fuel : Nat) (path : List UInt8) (nameiparent : Bool) (name : Nat → UInt8) :
    Prog (Option (Option (Nat × (Nat → UInt8)))) := do
  let ip ← Sys.namexStart path
  namexLoop nameiparent fuel ip path name

/-! ## What they should do -/

/-- The components of a path: what stands between slashes, where something does. -/
def components (path : List UInt8) : List (List UInt8) :=
  (path.splitOnP (· == Sys.slash)).filter (· ≠ [])

/-- The array holds the component, cut to `DIRSIZ` bytes, with a NUL byte behind it exactly if it
is shorter. -/
structure Cut (name : Nat → UInt8) (c : List UInt8) : Prop where
  holds : Holds name (c.take DIRSIZ)
  ends : c.length < DIRSIZ → name c.length = 0
  terminated : (∃ i < DIRSIZ, name i = 0) ↔ c.length < DIRSIZ

/-- What a caller of `namex` looks at: the inode, and with `nameiparent` the name. -/
def view (nameiparent : Bool) (r : Option (Nat × (Nat → UInt8))) : Option (Nat × List UInt8) :=
  r.map fun x => (x.1, if nameiparent then cstr (bytes x.2) else [])

/-- Where `namex` should lead: with `nameiparent`, to the last name in the directory that the
others lead to, else to the inode that all of them lead to. -/
def target (k : State) (start : Nat) (nameiparent : Bool) (names : List (List UInt8)) :
    Option (Nat × List UInt8) :=
  if nameiparent then
    names.getLast? >>= fun name => k.walk start names.dropLast >>= fun d =>
      if (k.node d).type = .dir then some (d, name) else none
  else (k.walk start names).map fun d => (d, [])

/-! ## One component -/

variable {s junk e c rest : List UInt8} {name : Nat → UInt8} {fuel ip : Nat}

theorem dropWhile_nul {P : UInt8 → Bool} (hP : P 0 = false) (s junk : List UInt8) :
    (s ++ 0 :: junk).dropWhile P = s.dropWhile P ++ 0 :: junk := by
  induction s with
  | nil => exact List.dropWhile_cons_of_neg (by simp [hP])
  | cons b s ih =>
      rw [List.cons_append, List.dropWhile_cons, List.dropWhile_cons]
      split
      · exact ih
      · rfl

theorem dropWhile_plain (hs : 0 ∉ s) :
    (s.dropWhile fun c => c != Sys.slash && c != 0) = s.dropWhile (· != Sys.slash) := by
  induction s with
  | nil => rfl
  | cons b s ih =>
      rw [List.mem_cons, not_or] at hs
      have hb : (b != Sys.slash && b != 0) = (b != Sys.slash) := by
        rw [bne_iff_ne.2 (Ne.symm hs.1), Bool.and_true]
      rw [List.dropWhile_cons, List.dropWhile_cons, hb, ih hs.2]

/-- The array with an element of at most `DIRSIZ` bytes. -/
def store (name : Nat → UInt8) (e : List UInt8) : Nat → UInt8 :=
  fun i => if i < e.length then e.getD i 0 else if i = e.length ∧ i < DIRSIZ then 0 else name i

/-- What the two branches store. -/
theorem store_cut (c y : List UInt8) (name : Nat → UInt8) :
    (if c.length ≥ DIRSIZ then memmove name (c ++ y) DIRSIZ
      else Function.update (memmove name (c ++ y) c.length) c.length 0) =
    store name (c.take DIRSIZ) := by
  have hget : ∀ i < c.length, (c ++ y).getD i 0 = c.getD i 0 := fun i hi => by
    rw [List.getD_eq_getElem?_getD, List.getD_eq_getElem?_getD, List.getElem?_append_left hi]
  have htake : ∀ i < DIRSIZ, (c.take DIRSIZ).getD i 0 = c.getD i 0 := fun i hi => by
    rw [List.getD_eq_getElem?_getD, List.getD_eq_getElem?_getD, List.getElem?_take_of_lt hi]
  funext i
  unfold store
  rw [List.length_take]
  by_cases hlong : c.length ≥ DIRSIZ
  · rw [if_pos hlong, Nat.min_eq_left hlong, memmove]
    by_cases hi : i < DIRSIZ
    · rw [if_pos hi, if_pos hi, htake i hi, hget i (by omega)]
    · rw [if_neg hi, if_neg hi, if_neg (by omega)]
  · rw [if_neg hlong, Nat.min_eq_right (by omega)]
    by_cases hend : i = c.length
    · rw [hend, Function.update_self, if_neg (by omega), if_pos ⟨rfl, by omega⟩]
    · rw [Function.update_of_ne hend, memmove]
      by_cases hi : i < c.length
      · rw [if_pos hi, if_pos hi, htake i (by omega), hget i hi]
      · rw [if_neg hi, if_neg hi, if_neg (by omega)]

theorem skipelem_eq (hs : 0 ∉ s) : skipelem (s ++ 0 :: junk) name =
    (Sys.skipelem s).map fun x => (x.2 ++ 0 :: junk, store name x.1) := by
  have hplain : 0 ∉ s.dropWhile (· == Sys.slash) := fun h =>
    hs ((List.dropWhile_sublist _).subset h)
  unfold skipelem Sys.skipelem
  simp only [dropWhile_nul (P := (· == Sys.slash)) (by decide) s junk]
  generalize s.dropWhile (· == Sys.slash) = t at hplain
  by_cases ht : t = []
  · subst ht
    rfl
  · have hhead : (t ++ 0 :: junk).headD 0 ≠ 0 := by
      cases t with
      | nil => exact absurd rfl ht
      | cons b t =>
          rintro rfl
          exact hplain List.mem_cons_self
    have hsplit : t.takeWhile (· != Sys.slash) ++ t.dropWhile (· != Sys.slash) = t :=
      List.takeWhile_append_dropWhile
    rw [if_neg hhead, if_neg ht, dropWhile_nul (by decide), dropWhile_plain hplain,
      dropWhile_nul (by decide), Option.map_some]
    have hlen : (t ++ 0 :: junk).length - (t.dropWhile (· != Sys.slash) ++ 0 :: junk).length =
        (t.takeWhile (· != Sys.slash)).length := by
      have := congrArg List.length hsplit
      rw [List.length_append] at this ⊢
      rw [List.length_append]
      omega
    have hstore := store_cut (t.takeWhile (· != Sys.slash))
      (t.dropWhile (· != Sys.slash) ++ 0 :: junk) name
    rw [← List.append_assoc, hsplit] at hstore
    rw [hlen, hstore]

/-- A slash before a path changes nothing. -/
theorem components_slash (s : List UInt8) : components (Sys.slash :: s) = components s := by
  unfold components
  rw [List.splitOnP_cons_eq_if_modifyHead, if_pos (by decide)]
  rfl

theorem components_dropWhile (s : List UInt8) :
    components (s.dropWhile (· == Sys.slash)) = components s := by
  induction s with
  | nil => rfl
  | cons b s ih =>
      rw [List.dropWhile_cons]
      split
      · rename_i hb
        rw [ih, eq_of_beq hb, components_slash]
      · rfl

/-- The first component, and the others. -/
theorem components_skipelem (s : List UInt8) :
    (Sys.skipelem s = none ∧ components s = []) ∨
      ∃ c rest, Sys.skipelem s = some (c.take DIRSIZ, rest) ∧ c.Sublist s ∧
        components s = c :: components rest := by
  have hsub : (s.dropWhile (· == Sys.slash)).Sublist s := List.dropWhile_sublist _
  rw [← components_dropWhile s]
  unfold Sys.skipelem
  simp only
  have hslash := @dropWhile_slash s
  generalize s.dropWhile (· == Sys.slash) = t at hsub hslash
  by_cases ht : t = []
  · subst ht
    exact .inl ⟨rfl, rfl⟩
  · rw [if_neg ht]
    refine .inr ⟨_, _, rfl, (List.takeWhile_sublist _).trans hsub, ?_⟩
    rw [components_dropWhile]
    have hsplit : t.takeWhile (· != Sys.slash) ++ t.dropWhile (· != Sys.slash) = t :=
      List.takeWhile_append_dropWhile
    have hplain : ∀ b ∈ t.takeWhile (· != Sys.slash), (b == Sys.slash) = false := fun b hb => by
      simpa using List.mem_takeWhile_imp hb
    have hne : t.takeWhile (· != Sys.slash) ≠ [] := by
      obtain ⟨b, cs, rfl, hb⟩ := hslash ht
      rw [List.takeWhile_cons, if_pos hb]
      exact List.cons_ne_nil _ _
    cases hr : t.dropWhile (· != Sys.slash) with
    | nil =>
        rw [hr, List.append_nil] at hsplit
        rw [hsplit] at hplain hne ⊢
        unfold components
        rw [List.splitOnP_eq_singleton hplain, List.filter_cons_of_pos (by simpa using hne)]
        rfl
    | cons b r =>
        have hb : (b == Sys.slash) = true := by
          have hhead := List.head?_dropWhile_not (fun x => x != Sys.slash) t
          rw [hr] at hhead
          simpa using hhead
        rw [eq_of_beq hb, components_slash]
        rw [hr] at hsplit
        conv_lhs => rw [← hsplit]
        unfold components
        rw [List.splitOnP_append_cons_of_forall_mem hplain b hb,
          List.filter_cons_of_pos (by simpa using hne)]

/-- The names that the calls give are the components, cut to `DIRSIZ` bytes. -/
theorem elements_components (hfuel : s.length < fuel) :
    elements fuel s = (components s).map (·.take DIRSIZ) := by
  induction fuel generalizing s with
  | zero => exact absurd hfuel (by omega)
  | succ fuel ih =>
      rw [elements]
      rcases components_skipelem s with ⟨hskip, hnil⟩ | ⟨c, rest, hskip, -, hcons⟩
      · rw [hskip, hnil]
        rfl
      · obtain ⟨hlen, -⟩ := skipelem_some hskip
        rw [hskip, hcons, List.map_cons, ← ih (by omega)]

/-! ## The array -/

theorem store_cut_holds (hc : 0 ∉ c) : Cut (store name (c.take DIRSIZ)) c := by
  have hget : ∀ i, i < c.length → i < DIRSIZ → store name (c.take DIRSIZ) i = c.getD i 0 := by
    intro i hi hlt
    rw [store, if_pos (by rw [List.length_take]; omega), List.getD_eq_getElem?_getD,
      List.getD_eq_getElem?_getD, List.getElem?_take_of_lt hlt]
  have hends : c.length < DIRSIZ → store name (c.take DIRSIZ) c.length = 0 := by
    intro hlt
    rw [store, List.take_of_length_le (by omega), if_neg (by omega), if_pos ⟨rfl, hlt⟩]
  refine ⟨fun i hi => ?_, hends, ⟨?_, fun hlt => ⟨_, hlt, hends hlt⟩⟩⟩
  · rw [List.length_take] at hi
    rw [hget i (by omega) (by omega), List.getElem?_take_of_lt (by omega),
      List.getD_eq_getElem?_getD, List.getElem?_eq_getElem (by omega)]
    rfl
  · rintro ⟨i, hi, hzero⟩
    by_contra hlong
    rw [hget i (by omega) hi, List.getD_eq_getElem?_getD, List.getElem?_eq_getElem (by omega)]
      at hzero
    exact hc (hzero ▸ List.getElem_mem (by omega))

theorem cstr_store (he : 0 ∉ e) (hlen : e.length ≤ DIRSIZ) : cstr (bytes (store name e)) = e := by
  have hmap : bytes (store name e) =
      e ++ (List.range (DIRSIZ - e.length)).map fun j => store name e (e.length + j) := by
    have hrange : List.range DIRSIZ =
        List.range e.length ++ (List.range (DIRSIZ - e.length)).map (e.length + ·) := by
      rw [← List.range_add, Nat.add_sub_cancel' hlen]
    rw [bytes, hrange, List.map_append, List.map_map]
    refine congrArg (· ++ _) (List.ext_getElem (by simp) fun i _ hi => ?_)
    rw [List.getElem_map, List.getElem_range, store, if_pos hi, List.getD_eq_getElem?_getD,
      List.getElem?_eq_getElem hi]
    rfl
  have hrest : ((List.range (DIRSIZ - e.length)).map fun j =>
      store name e (e.length + j)).takeWhile (· != 0) = [] := by
    cases hn : DIRSIZ - e.length with
    | zero => rfl
    | succ n =>
        rw [List.range_succ_eq_map, List.map_cons, List.takeWhile_cons_of_neg]
        rw [Nat.add_zero, store, if_neg (by omega), if_pos ⟨rfl, by omega⟩]
        decide
  rw [cstr, hmap, List.takeWhile_append_of_pos, hrest, List.append_nil, List.take_of_length_le hlen]
  intro b hb
  rw [bne_iff_ne]
  rintro rfl
  exact he hb

theorem cstr_plain (he : 0 ∉ e) (hlen : e.length ≤ DIRSIZ) : cstr e = e := by
  have htake : e.takeWhile (· != 0) = e := by
    rw [List.takeWhile_eq_self_iff]
    intro b hb
    rw [bne_iff_ne]
    rintro rfl
    exact he hb
  rw [cstr, htake, List.take_of_length_le hlen]

/-! ## The calls of `skipelem` -/

/-- The pointer is at the end of the string exactly if no component follows. -/
theorem rest_end {path : List UInt8} (hs : 0 ∉ rest) (h : Sys.skipelem path = some (e, rest)) :
    (rest ++ 0 :: junk).headD 0 = 0 ↔ components rest = [] := by
  have hmore := (skipelem_some h).2
  have hempty : components rest = [] ↔ rest = [] := by
    constructor
    · intro hnil
      by_contra hne
      obtain ⟨x, hx⟩ := hmore hne
      rcases components_skipelem rest with ⟨hskip, -⟩ | ⟨c, r, -, -, hcons⟩
      · rw [hskip] at hx
        cases hx
      · rw [hcons] at hnil
        cases hnil
    · rintro rfl
      rfl
  rw [hempty]
  cases rest with
  | nil => exact iff_of_true rfl rfl
  | cons b r =>
      refine iff_of_false ?_ (List.cons_ne_nil _ _)
      rintro rfl
      exact hs List.mem_cons_self

theorem rest_plain (hs : 0 ∉ s) (h : Sys.skipelem s = some (e, rest)) : 0 ∉ rest := by
  unfold Sys.skipelem at h
  simp only at h
  split at h
  · cases h
  · cases h
    intro hmem
    exact hs ((List.dropWhile_sublist _).subset
      ((List.dropWhile_sublist _).subset ((List.dropWhile_sublist _).subset hmem)))

/-- Each call gives the next component; only after the last one the pointer is at the end. -/
theorem skipelems_components (hs : 0 ∉ s) (hfuel : s.length < fuel) :
    ∃ steps, skipelems fuel (s ++ 0 :: junk) name = some steps ∧
      List.Forall₂ (fun step c => Cut step.1 c) steps (components s) ∧
      ∀ i, ∀ step ∈ steps[i]?, step.2.headD 0 = 0 ↔ i + 1 = steps.length := by
  induction fuel generalizing s name with
  | zero => exact absurd hfuel (by omega)
  | succ fuel ih =>
      rw [skipelems, skipelem_eq hs]
      rcases components_skipelem s with ⟨hskip, hnil⟩ | ⟨c, rest, hskip, hsub, hcons⟩
      · rw [hskip, hnil]
        exact ⟨[], rfl, .nil, by simp⟩
      · obtain ⟨hlen, -⟩ := skipelem_some hskip
        have hplain := rest_plain hs hskip
        obtain ⟨steps, hsteps, hcut, hend⟩ :=
          @ih rest (store name (c.take DIRSIZ)) hplain (by omega)
        rw [hskip, hcons]
        refine ⟨(store name (c.take DIRSIZ), rest ++ 0 :: junk) :: steps, ?_, ?_, ?_⟩
        · show (skipelems fuel (rest ++ 0 :: junk) _).map _ = _
          rw [hsteps]
          rfl
        · exact .cons (store_cut_holds fun h => hs (hsub.subset h)) hcut
        · intro i step hstep
          cases i with
          | zero =>
              obtain rfl : (store name (c.take DIRSIZ), rest ++ 0 :: junk) = step := by
                simpa using hstep
              rw [rest_end hplain hskip, ← List.length_eq_zero_iff, ← hcut.length_eq,
                List.length_cons]
              omega
          | succ i =>
              rw [List.getElem?_cons_succ] at hstep
              rw [hend i step hstep, List.length_cons]
              omega

/-! ## `namex` -/

theorem dirlookup_congr {d : Nat} {n n' : List UInt8} (h : cstr n = cstr n') :
    Sys.dirlookup d n = Sys.dirlookup d n' := by
  have hcmp : ∀ m, namecmp n m = namecmp n' m := fun m => by rw [namecmp, namecmp, h]
  have hloop : ∀ m off, Sys.dirlookupLoop d n m off = Sys.dirlookupLoop d n' m off := by
    intro m
    induction m with
    | zero => exact fun _ => rfl
    | succ m ih =>
        intro off
        simp only [Sys.dirlookupLoop, hcmp, ih]
  simp only [Sys.dirlookup, hloop]

theorem bind_assoc {α β γ : Type} (m : Prog α) (f : α → Prog β) (g : β → Prog γ) :
    m >>= f >>= g = m >>= fun a => f a >>= g := by
  induction m with
  | ret a => rfl
  | act a k ih => exact congrArg (Prog.act a) (funext ih)

/-- The loop of `namex` ends, and does what is to be done with the components. -/
theorem namexLoop_components {parent : Bool} (hs : 0 ∉ s) (hfuel : s.length < fuel) :
    (namexLoop parent fuel ip (s ++ 0 :: junk) name >>= fun r => pure (r.map (view parent))) =
      (Sys.follow parent ip ((components s).map (·.take DIRSIZ)) >>= fun r => pure (some r)) := by
  induction fuel generalizing s name ip with
  | zero => exact absurd hfuel (by omega)
  | succ fuel ih =>
      rw [namexLoop, skipelem_eq hs]
      rcases components_skipelem s with ⟨hskip, hnil⟩ | ⟨c, rest, hskip, hsub, hcons⟩
      · rw [hskip, hnil]
        cases parent with
        | false => rfl
        | true =>
            show (Sys.iput ip >>= fun _ => pure (some none)) >>= _ =
              (Sys.iput ip >>= fun _ => pure none) >>= _
            rw [bind_assoc, bind_assoc]
            rfl
      · obtain ⟨hlen, -⟩ := skipelem_some hskip
        have hplain := rest_plain hs hskip
        have hc : 0 ∉ c.take DIRSIZ := fun h => hs (hsub.subset (List.mem_of_mem_take h))
        have hcut : (c.take DIRSIZ).length ≤ DIRSIZ := List.length_take_le _ _
        have hname : cstr (bytes (store name (c.take DIRSIZ))) = c.take DIRSIZ :=
          cstr_store hc hcut
        have hlast : (rest ++ 0 :: junk).headD 0 = 0 ↔
            (components rest).map (·.take DIRSIZ) = [] := by
          rw [rest_end hplain hskip, List.map_eq_nil_iff]
        rw [hskip, hcons, List.map_cons, Sys.follow]
        dsimp only [Option.map_some]
        simp only [bind_assoc]
        refine congrArg _ (funext fun _ => congrArg _ (funext fun d => ?_))
        by_cases hdir : d.type ≠ .dir
        · rw [if_pos hdir, if_pos hdir, bind_assoc, bind_assoc]
          rfl
        · rw [if_neg hdir, if_neg hdir]
          by_cases hend : parent = true ∧ (rest ++ 0 :: junk).headD 0 = 0
          · rw [if_pos hend, if_pos (hend.imp_right hlast.1), bind_assoc, bind_assoc]
            obtain ⟨rfl, -⟩ := hend
            refine congrArg _ (funext fun _ => ?_)
            show (pure (some (some (ip, cstr (bytes (store name (c.take DIRSIZ)))))) : Prog _) =
              pure (some (some (ip, c.take DIRSIZ)))
            rw [hname]
          · rw [if_neg hend, if_neg fun h => hend (h.imp_right hlast.2),
              dirlookup_congr (hname.trans (cstr_plain hc hcut).symm), bind_assoc, bind_assoc]
            refine congrArg _ (funext fun r => ?_)
            cases r with
            | none =>
                dsimp only
                rw [bind_assoc, bind_assoc]
                rfl
            | some x =>
                dsimp only
                rw [bind_assoc, bind_assoc]
                exact congrArg _ (funext fun _ => ih hplain (by omega))

theorem namex_components {parent : Bool} (hs : 0 ∉ s) :
    (namex (s.length + 1) (s ++ 0 :: junk) parent name >>= fun r => pure (r.map (view parent))) =
      (Sys.namexStart s >>= fun ip =>
        Sys.follow parent ip ((components s).map (·.take DIRSIZ)) >>= fun r => pure (some r)) := by
  have hstart : Sys.namexStart (s ++ 0 :: junk) = Sys.namexStart s := by
    cases s <;> rfl
  rw [namex, hstart, bind_assoc]
  exact congrArg _ (funext fun ip => namexLoop_components hs (Nat.lt_succ_self _))

theorem walkParent_target (k : State) (start : Nat) (names : List (List UInt8)) :
    k.walkParent start names = target k start true names := by
  induction names generalizing start with
  | nil => rfl
  | cons name names ih =>
      cases names with
      | nil => rfl
      | cons n ns =>
          have hwalk : ∀ l, k.walk start (name :: l) =
              (k.node start).entry name >>= fun d => k.walk d l := fun l => List.foldlM_cons
          show ((k.node start).entry name >>= fun d => k.walkParent d (n :: ns)) = _
          simp only [ih, target, if_true, List.getLast?_cons_cons, List.dropLast_cons_cons, hwalk]
          cases (k.node start).entry name with
          | some d => rfl
          | none => cases (n :: ns).getLast? <;> rfl

theorem followed_target (k : State) (parent : Bool) (start : Nat) (names : List (List UInt8)) :
    k.followed parent start names = target k start parent names := by
  cases parent with
  | false => rfl
  | true => exact walkParent_target k start names

/-- `namex` in a file system at rest: however it halts, if it returns it has found its target. -/
theorem namex_target {p : Nat} {k : State} {parent : Bool} (hs : 0 ∉ s) (hwf : Wf k)
    (hcur : k.cur = p) (hk : Steady p k) :
    Ends p (namex (s.length + 1) (s ++ 0 :: junk) parent name)
      (fun r _ => ∃ q, r = some q ∧ view parent q =
        target k (k.startOf p s) parent ((components s).map (·.take DIRSIZ))) Anyhow k := by
  have hprog : (Sys.namex s parent >>= fun r => pure (some r)) =
      (namex (s.length + 1) (s ++ 0 :: junk) parent name >>= fun r =>
        pure (r.map (view parent))) := by
    rw [namex_components hs, Sys.namex, bind_assoc]
    refine congrArg _ (funext fun ip => ?_)
    rw [namexLoop_follow (Nat.lt_succ_self _), elements_components (Nat.lt_succ_self _)]
  have hprobing : Probing p k false [] [] k := Probing.start hwf hcur (by simp)
  have hrun : Ends p (Sys.namex s parent >>= fun r => pure (some r)) (fun r _ => r =
      some (target k (k.startOf p s) parent ((components s).map (·.take DIRSIZ)))) Anyhow k := by
    refine (Prog.wp_bind _ _).2 (Prog.wp_imp (namex_probe hprobing hk s) fun r k' hr => ?_)
    refine congrArg some (hr.result.trans ?_)
    rw [pathElements, elements_components (Nat.lt_succ_self _), followed_target]
  rw [hprog] at hrun
  refine Prog.wp_imp ((Prog.wp_bind _ _).1 hrun) fun r k' hr => ?_
  cases r with
  | none => cases hr
  | some q => exact ⟨q, rfl, Option.some_inj.1 hr⟩

/-- The calls of `skipelem` on a string give its components, cut to `DIRSIZ` bytes, in order, and
only the last pointer is at the end.  `namex` ends and does with its inode what is to be done with
these: so it finds its target. -/
theorem path_split (s junk : List UInt8) (name : Nat → UInt8) (hs : 0 ∉ s) :
    (∃ steps, skipelems (s.length + 1) (s ++ 0 :: junk) name = some steps ∧
      List.Forall₂ (fun step c => Cut step.1 c) steps (components s) ∧
      ∀ i, ∀ step ∈ steps[i]?, step.2.headD 0 = 0 ↔ i + 1 = steps.length) ∧
    ∀ parent,
      (namex (s.length + 1) (s ++ 0 :: junk) parent name >>= fun r => pure (r.map (view parent))) =
        (Sys.namexStart s >>= fun ip =>
          Sys.follow parent ip ((components s).map (·.take DIRSIZ)) >>= fun r => pure (some r)) ∧
      ∀ p k, Wf k → k.cur = p → Steady p k →
        Ends p (namex (s.length + 1) (s ++ 0 :: junk) parent name)
          (fun r _ => ∃ q, r = some q ∧ view parent q =
            target k (k.startOf p s) parent ((components s).map (·.take DIRSIZ))) Anyhow k :=
  ⟨skipelems_components hs (Nat.lt_succ_self _), fun _ =>
    ⟨namex_components hs, fun _ _ hwf hcur hk => namex_target hs hwf hcur hk⟩⟩

/-- The path "/a//bc/". -/
theorem path_split_slashes :
    components [47, 97, 47, 47, 98, 99, 47] = [[97], [98, 99]] ∧
    ∃ steps, skipelems 8 [47, 97, 47, 47, 98, 99, 47, 0] (fun _ => 255) = some steps ∧
      List.Forall₂ (fun step c => Cut step.1 c) steps [[97], [98, 99]] ∧
      ∀ i, ∀ step ∈ steps[i]?, step.2.headD 0 = 0 ↔ i + 1 = steps.length :=
  ⟨by decide, (path_split [47, 97, 47, 47, 98, 99, 47] [] (fun _ => 255) (by decide)).1⟩

end Xv6.Kernel.PathSplit
