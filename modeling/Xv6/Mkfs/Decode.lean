import Xv6.Mkfs.Mounted
import Xv6.Kernel.Namei

/-!
# What the kernel reads from the image

The directories of the image are lists of entries, and `entryNamed` is what a name means in
one of them.  On a kernel that has mounted the image, `namei` walks these lists, and every
argument is found in its directory with its own bytes.

## Main results

* `kernel_reads_image`: directories, files and bitmap as the kernel sees them.
-/

namespace Xv6.Mkfs

open Xv6.Verified
open Xv6.Kernel
open Exec

/-! ## Entries of a directory -/

/-- A directory with these entries. -/
def encode (es : List (List UInt8 × Nat)) : List UInt8 := es.flatMap fun e => dirent e.2 e.1

/-- An entry's name as `namecmp` sees it, with its inode. -/
def asSlot (e : List UInt8 × Nat) : List UInt8 × Nat := (cstr e.1, e.2)

theorem length_encode (es : List (List UInt8 × Nat)) : (encode es).length = DIRENT * es.length := by
  induction es with
  | nil => rfl
  | cons e es ih =>
      show (dirent e.2 e.1 ++ encode es).length = _
      rw [List.length_append, length_dirent, ih, List.length_cons, Nat.mul_succ, Nat.add_comm]

/-- The bytes of entry `j`. -/
theorem getD_encode (es : List (List UInt8 × Nat)) (m : Nat) {o : Nat} (ho : o < DIRENT) :
    ∀ j, (encode es ++ List.replicate m 0).getD (DIRENT * j + o) 0 =
      match es[j]? with
      | none => 0
      | some e => (dirent e.2 e.1).getD o 0 := by
  induction es with
  | nil =>
      intro j
      show (List.replicate m (0 : UInt8)).getD _ 0 = 0
      rw [List.getD_eq_getElem?_getD, List.getElem?_replicate]
      split <;> rfl
  | cons e es ih =>
      intro j
      show (dirent e.2 e.1 ++ encode es ++ List.replicate m 0).getD _ 0 = _
      rw [List.append_assoc, List.getD_eq_getElem?_getD]
      cases j with
      | zero =>
          rw [Nat.mul_zero, Nat.zero_add,
            List.getElem?_append_left (by rw [length_dirent]; exact ho)]
          rfl
      | succ j =>
          rw [List.getElem?_append_right (by rw [length_dirent, Nat.mul_succ]; omega),
            length_dirent,
            show DIRENT * (j + 1) + o - DIRENT = DIRENT * j + o by rw [Nat.mul_succ]; omega,
            List.getElem?_cons_succ, ← ih j, List.getD_eq_getElem?_getD]

/-- The entries of a directory as the slots of a table. -/
theorem slot_encode {es : List (List UInt8 × Nat)} (hes : ∀ e, e ∈ es → 0 < e.2 ∧ e.2 < 65536)
    (m j : Nat) :
    (fileNode (.dir, encode es ++ List.replicate m 0)).slot j = (es.map asSlot)[j]? := by
  have hbytes : (fileNode (.dir, encode es ++ List.replicate m 0)).dirent j =
      (List.range DIRENT).map fun o => match es[j]? with
        | none => 0
        | some e => (dirent e.2 e.1).getD o 0 := by
    apply List.map_congr_left
    intro o ho
    exact getD_encode es m (List.mem_range.1 ho) j
  rw [Node.slot, hbytes, List.getElem?_map]
  cases he : es[j]? with
  | none =>
      simp only
      rw [if_pos (by decide)]
      rfl
  | some e =>
      obtain ⟨hpos, hlt⟩ := hes e (List.mem_of_getElem? he)
      simp only
      rw [map_getD_dirent (length_dirent _ _), direntInum_dirent _ hlt, if_neg (by omega),
        cstr_direntName]
      rfl

/-- A directory is searched from its first entry on. -/
theorem names_encode {es : List (List UInt8 × Nat)} (hes : ∀ e, e ∈ es → 0 < e.2 ∧ e.2 < 65536)
    (m : Nat) (key : List UInt8) :
    (fileNode (.dir, encode es ++ List.replicate m 0)).names key =
      (es.find? fun e => decide (cstr e.1 = key)).map Prod.snd := by
  have hlen : (es.map asSlot).length ≤
      (fileNode (.dir, encode es ++ List.replicate m 0)).slots := by
    show _ ≤ (encode es ++ List.replicate m 0).length / DIRENT
    rw [List.length_map, List.length_append, length_encode]
    simp only [DIRENT]
    omega
  rw [Node.names, tableMap_of_list (fun j _ => slot_encode hes m j) hlen, List.find?_map,
    Option.map_map]
  rfl

/-! ## The directories of the image -/

/-- The entries of the directories every image has. -/
def baseEntries : Nat → List (List UInt8 × Nat)
  | 1 => [(dot, 1), (dotdot, 1), ([98, 105, 110], 2), ([117, 115, 114], 3), ([101, 116, 99], 4),
      ([100, 101, 118], 6)]
  | 2 => [(dot, 2), (dotdot, 1)]
  | 3 => [(dot, 3), (dotdot, 1), ([98, 105, 110], 5), ([115, 104, 97, 114, 101], 7)]
  | 4 => [(dot, 4), (dotdot, 1)]
  | 5 => [(dot, 5), (dotdot, 3)]
  | 6 => [(dot, 6), (dotdot, 1)]
  | 7 => [(dot, 7), (dotdot, 3), ([105, 99, 111, 110, 115], 8)]
  | 8 => [(dot, 8), (dotdot, 7)]
  | _ => []

/-- The entries of the arguments that go to directory `d`; the first argument has inode
`i`. -/
def newEntries (d : Nat) : Nat → List Input → List (List UInt8 × Nat)
  | _, [] => []
  | i, f :: fs =>
      if Plan.target f = d then (Plan.fileName f, i) :: newEntries d (i + 1) fs
      else newEntries d (i + 1) fs

/-- The entries of directory `d`. -/
def dirEntries (files : List Input) (d : Nat) : List (List UInt8 × Nat) :=
  baseEntries d ++ newEntries d 9 files

/-- What a name means in directory `d`. -/
def entryNamed (files : List Input) (d : Nat) (name : List UInt8) : Option Nat :=
  ((dirEntries files d).find? fun e => decide (cstr e.1 = cstr name)).map Prod.snd

theorem encode_append (es es' : List (List UInt8 × Nat)) :
    encode (es ++ es') = encode es ++ encode es' := List.flatMap_append

/-- The arguments' entries follow those of the directory. -/
theorem addFiles_dir {d : Nat} (hd : d < 9) (fs : List Input) :
    ∀ {P : Plan} {t : InodeType} {bs : List UInt8}, 9 ≤ P.next → P.node d = some (t, bs) →
      (P.addFiles fs).node d = some (t, bs ++ encode (newEntries d P.next fs)) := by
  induction fs with
  | nil =>
      intro P t bs _ hx
      show P.node d = some (t, bs ++ [])
      rw [List.append_nil, hx]
  | cons f fs ih =>
      intro P t bs hnext hx
      have hne : d ≠ P.next := by omega
      have hold : (P.alloc .file).node d = some (t, bs) := by
        rw [Plan.node_alloc_of_ne _ _ hne, hx]
      show ((P.addFile f).addFiles fs).node d = _
      rw [newEntries]
      split
      · rename_i htarget
        have hstep : (P.addFile f).node d = some (t, bs ++ dirent P.next (Plan.fileName f)) := by
          show (((P.alloc .file).append (Plan.target f) _).append P.next f.bytes).node d = _
          rw [Plan.node_append_of_ne _ _ hne, htarget, Plan.node_append_self hold]
        rw [ih (Nat.le_succ_of_le hnext) hstep, List.append_assoc]
        rfl
      · rename_i htarget
        have hstep : (P.addFile f).node d = some (t, bs) := by
          show (((P.alloc .file).append (Plan.target f) _).append P.next f.bytes).node d = _
          rw [Plan.node_append_of_ne _ _ hne, Plan.node_append_of_ne _ _ (Ne.symm htarget), hold]
        exact ih (Nat.le_succ_of_le hnext) hstep

/-- A file stays as it is when others are added. -/
theorem addFiles_old {i : Nat} (hi : 9 ≤ i) (fs : List Input) :
    ∀ {P : Plan}, i < P.next → (P.addFiles fs).node i = P.node i := by
  induction fs with
  | nil => exact fun _ => rfl
  | cons f fs ih =>
      intro P hlt
      have hmem := target_mem f
      show ((P.addFile f).addFiles fs).node i = _
      rw [ih (Nat.lt_succ_of_lt hlt)]
      show (((P.alloc .file).append (Plan.target f) _).append P.next f.bytes).node i = _
      rw [Plan.node_append_of_ne _ _ (by omega), Plan.node_append_of_ne _ _ (by omega),
        Plan.node_alloc_of_ne _ _ (by omega)]

/-- Argument `n` becomes a file with its bytes. -/
theorem addFiles_file (fs : List Input) : ∀ {P : Plan} {n : Nat} {f : Input}, 9 ≤ P.next →
    fs[n]? = some f → (P.addFiles fs).node (P.next + n) = some (.file, f.bytes) := by
  induction fs with
  | nil =>
      intro P n f _ hf
      cases hf
  | cons f' fs ih =>
      intro P n f hnext hf
      have hmem := target_mem f'
      show ((P.addFile f').addFiles fs).node _ = _
      cases n with
      | zero =>
          obtain rfl := Option.some.inj hf
          rw [Nat.add_zero, addFiles_old hnext fs (Nat.lt_succ_self _)]
          show (((P.alloc .file).append (Plan.target f') _).append P.next f'.bytes).node _ = _
          have hself : ((P.alloc .file).append (Plan.target f')
              (dirent P.next (Plan.fileName f'))).node P.next = some (.file, []) := by
            rw [Plan.node_append_of_ne _ _ (by omega), Plan.node_alloc_self]
          rw [Plan.node_append_self hself, List.nil_append]
      | succ n =>
          have hnext' : (P.addFile f').next = P.next + 1 := rfl
          have hrest := ih (P := P.addFile f') (n := n) (by omega) hf
          rw [hnext', Nat.add_assoc, Nat.add_comm 1 n] at hrest
          exact hrest

theorem dirs_node : ∀ d, 1 ≤ d → d < 9 →
    Plan.dirs.node d = some (.dir, encode (baseEntries d)) := by
  decide +kernel

/-- The zeroes the root directory is filled up with. -/
def padding (d : Nat) : Nat := if d = ROOTINO then 928 else 0

/-- The directories of the plan. -/
theorem plan_dir (files : List Input) {d : Nat} (hd : 1 ≤ d) (hd' : d < 9) :
    (plan files).node d =
      some (.dir, encode (dirEntries files d) ++ List.replicate (padding d) 0) := by
  have hnode := addFiles_dir hd' files (Nat.le_refl 9) (dirs_node d hd hd')
  rw [show Plan.dirs.next = 9 from rfl, ← encode_append] at hnode
  show (Plan.roundRoot _).node d = _
  unfold Plan.roundRoot
  by_cases hroot : d = ROOTINO
  · subst hroot
    have hlen : (Plan.dirs.addFiles files).length ROOTINO = 96 := by
      rw [Plan.length, addFiles_root files (Nat.le_refl _)]
      rfl
    rw [Plan.node_append_self hnode, hlen]
    rfl
  · rw [Plan.node_append_of_ne _ _ hroot, hnode, padding, if_neg hroot, List.replicate_zero,
      List.append_nil]
    rfl

/-- The files of the plan. -/
theorem plan_file {files : List Input} {n : Nat} {f : Input} (hf : files[n]? = some f) :
    (plan files).node (9 + n) = some (.file, f.bytes) := by
  show (Plan.roundRoot _).node _ = _
  unfold Plan.roundRoot
  rw [Plan.node_append_of_ne _ _ (by simp only [ROOTINO]; omega)]
  exact addFiles_file files (Nat.le_refl 9) hf

/-- The plan has no other inodes. -/
theorem plan_none (files : List Input) {i : Nat} (hi : i = 0 ∨ 9 + files.length ≤ i) :
    (plan files).node i = none := by
  obtain ⟨hwf, -, hnext⟩ := Plan.dirs_wf.addFiles files
  have hdirs : Plan.dirs.next = 9 := rfl
  by_contra hc
  have hin : 1 ≤ i ∧ i < (Plan.dirs.addFiles files).next :=
    ((hwf.append ROOTINO (List.replicate _ 0)).2 i).1 hc
  omega

/-! ## Entries name what is there -/

theorem mem_baseEntries {d : Nat} {e : List UInt8 × Nat} (he : e ∈ baseEntries d) :
    1 ≤ e.2 ∧ e.2 < 9 := by
  have hsmall : ∀ d, d < 9 → ∀ e ∈ baseEntries d, 1 ≤ e.2 ∧ e.2 < 9 := by decide
  by_cases hd : d < 9
  · exact hsmall d hd e he
  · rw [baseEntries] at he
    · cases he
    all_goals omega

theorem mem_newEntries {d : Nat} (fs : List Input) : ∀ {i : Nat} {e : List UInt8 × Nat},
    e ∈ newEntries d i fs ↔
      ∃ n f, fs[n]? = some f ∧ Plan.target f = d ∧ e = (Plan.fileName f, i + n) := by
  induction fs with
  | nil =>
      intro i e
      constructor
      · intro he
        cases he
      · rintro ⟨n, f, hf, -⟩
        cases hf
  | cons f' fs ih =>
      intro i e
      have hrest : e ∈ newEntries d (i + 1) fs ↔ ∃ n f, (f' :: fs)[n + 1]? = some f ∧
          Plan.target f = d ∧ e = (Plan.fileName f, i + (n + 1)) := by
        rw [ih]
        simp only [List.getElem?_cons_succ, Nat.add_assoc, Nat.add_comm 1]
      rw [newEntries]
      constructor
      · intro he
        split at he
        · rename_i htarget
          rcases List.mem_cons.1 he with rfl | he
          · exact ⟨0, f', rfl, htarget, rfl⟩
          · obtain ⟨n, f, hf⟩ := hrest.1 he
            exact ⟨n + 1, f, hf⟩
        · obtain ⟨n, f, hf⟩ := hrest.1 he
          exact ⟨n + 1, f, hf⟩
      · rintro ⟨n, f, hf, htarget, heq⟩
        cases n with
        | zero =>
            obtain rfl := Option.some.inj hf
            rw [if_pos htarget, heq]
            exact List.mem_cons_self
        | succ n =>
            have he := hrest.2 ⟨n, f, hf, htarget, heq⟩
            split
            · exact List.mem_cons_of_mem _ he
            · exact he

theorem mem_dirEntries {files : List Input} {d : Nat} {e : List UInt8 × Nat}
    (he : e ∈ dirEntries files d) : 1 ≤ e.2 ∧ e.2 < 9 + files.length := by
  rcases List.mem_append.1 he with he | he
  · have := mem_baseEntries he
    omega
  · obtain ⟨n, f, hf, -, rfl⟩ := (mem_newEntries files).1 he
    have := (List.getElem?_eq_some_iff.1 hf).1
    simp only
    omega

/-- Only the eight directories have entries. -/
theorem dirEntries_nil (files : List Input) {d : Nat} (hd : d = 0 ∨ 9 ≤ d) :
    dirEntries files d = [] := by
  apply List.eq_nil_iff_forall_not_mem.2
  intro e he
  rcases List.mem_append.1 he with he | he
  · rw [baseEntries] at he
    · cases he
    all_goals omega
  · obtain ⟨n, f, -, htarget, -⟩ := (mem_newEntries files).1 he
    have := target_mem f
    omega

section Mounted

variable {files : List Input} {g : Image}

theorem Fresh.few (h : Fresh (plan files) g) : 9 + files.length ≤ ninodes := by
  obtain ⟨-, -, hnext⟩ := Plan.dirs_wf.addFiles files
  have hdirs : Plan.dirs.next = 9 := rfl
  have hin : (Plan.dirs.addFiles files).next ≤ ninodes := h.inodes
  omega

/-- The inodes by their numbers: the directories, the arguments, and nothing else. -/
theorem Fresh.type (h : Fresh (plan files) g) (i : Nat) :
    ((kernelOn g).dinode i).type =
      if 1 ≤ i ∧ i < 9 then .dir else if 9 ≤ i ∧ i < 9 + files.length then .file else .free := by
  split
  · rename_i hi
    have hnode := h.node (plan_dir files hi.1 hi.2)
    exact congrArg Node.type hnode
  · rename_i hi
    split
    · rename_i hfile
      obtain ⟨f, hf⟩ : ∃ f, files[i - 9]? = some f :=
        ⟨_, List.getElem?_eq_getElem (show i - 9 < files.length by omega)⟩
      have hplan := plan_file hf
      rw [show 9 + (i - 9) = i by omega] at hplan
      exact congrArg Node.type (h.node hplan)
    · rename_i hfile
      rw [h.free (plan_none files (by omega))]
      rfl

/-- Names mean what the lists of entries say. -/
theorem Fresh.entry (h : Fresh (plan files) g) (d : Nat) (name : List UInt8) :
    ((kernelOn g).node d).entry name = entryNamed files d name := by
  have hfew := h.few
  by_cases hd : 1 ≤ d ∧ d < 9
  · have hdir : ∀ bs, (fileNode (.dir, bs)).entry name = (fileNode (.dir, bs)).names (cstr name) :=
      fun _ => if_pos rfl
    rw [h.node (plan_dir files hd.1 hd.2), hdir, names_encode]
    · rfl
    · intro e he
      have := mem_dirEntries he
      simp only [ninodes] at hfew
      omega
  · have htype : ((kernelOn g).node d).type ≠ .dir := by
      show ((kernelOn g).dinode d).type ≠ .dir
      rw [h.type, if_neg hd]
      split <;> decide
    rw [Node.entry, if_neg htype, entryNamed, dirEntries_nil files (by omega)]
    rfl

theorem mount_refs (disk : Nat → Block) (i : Nat) :
    (mount disk).icache i = if i = ROOTINO then ⟨1, none, false⟩ else ⟨0, none, false⟩ := rfl

/-- The new file system can be browsed. -/
theorem Fresh.browsable (h : Fresh (plan files) g) : Browsable 0 (kernelOn g) := by
  have hused : ∀ i, ((kernelOn g).dinode i).type ≠ .free → ∃ x, (plan files).node i = some x := by
    intro i ht
    apply Option.ne_none_iff_exists'.1
    intro hnone
    exact ht (by rw [h.free hnone]; rfl)
  have hroot : ((kernelOn g).dinode ROOTINO).type = .dir := by
    rw [h.type, if_pos (by decide)]
  have hactive : (kernelOn g).activeInodes ≤ [ROOTINO].length := by
    apply List.Nodup.length_le_of_subset (List.nodup_range.filter _)
    intro i hi
    have hpos := of_decide_eq_true (List.mem_filter.1 hi).2
    rw [mount_refs] at hpos
    split at hpos
    · rename_i hi
      rw [hi]
      exact List.mem_cons_self
    · cases hpos
  refine ⟨h.wf, rfl, rfl, fun i => ?_, ?_, fun d hd => ?_, fun d name i hentry => ?_,
    fun i hi => ?_,
    by rw [hroot]; decide, ⟨ROOTINO, rfl, Nat.le_refl _, by rw [hroot]; decide⟩⟩
  · rw [mount_refs]
    split <;> rfl
  · exact Nat.le_trans (Nat.add_le_add_right hactive 2) (by decide)
  · rw [h.type] at hd
    split at hd
    · rename_i hd'
      rw [h.node (plan_dir files hd'.1 hd'.2)]
      show (encode _ ++ List.replicate (padding d) 0).length % DIRENT = 0
      rw [List.length_append, length_encode, List.length_replicate, padding]
      split <;> simp only [DIRENT] <;> omega
    · split at hd <;> cases hd
  · rw [h.entry, entryNamed] at hentry
    obtain ⟨e, he, rfl⟩ := Option.map_eq_some_iff.1 hentry
    have := mem_dirEntries (List.mem_of_find?_eq_some he)
    rw [h.type]
    split
    · decide
    · rw [if_pos (by omega)]
      decide
  · obtain ⟨x, hx⟩ := hused i hi
    have hnode := congrArg Node.nlink (h.node hx)
    have hlink : ((kernelOn g).dinode i).nlink = 1 := hnode
    rw [hlink]
    decide

end Mounted

/-! ## Paths of the arguments -/

theorem skipelem_slash (path : List UInt8) :
    Sys.skipelem (Sys.slash :: path) = Sys.skipelem path := by
  unfold Sys.skipelem
  rw [List.dropWhile_cons_of_pos (by decide)]

section Skip

variable {name rest : List UInt8}

theorem takeWhile_name (h : Sys.slash ∉ name) (rest : List UInt8) :
    (name ++ rest).takeWhile (· != Sys.slash) = name ++ rest.takeWhile (· != Sys.slash) := by
  apply List.takeWhile_append_of_pos
  intro x hx
  simp only [bne_iff_ne]
  rintro rfl
  exact h hx

theorem dropWhile_name (h : Sys.slash ∉ name) (rest : List UInt8) :
    (name ++ rest).dropWhile (· != Sys.slash) = rest.dropWhile (· != Sys.slash) := by
  apply List.dropWhile_append_of_pos
  intro x hx
  simp only [bne_iff_ne]
  rintro rfl
  exact h hx

theorem dropWhile_slash (hname : name ≠ []) (h : Sys.slash ∉ name) (rest : List UInt8) :
    (name ++ rest).dropWhile (· == Sys.slash) = name ++ rest := by
  cases name with
  | nil => exact absurd rfl hname
  | cons x xs =>
      rw [List.cons_append, List.dropWhile_cons_of_neg]
      simp only [beq_iff_eq]
      rintro rfl
      exact h List.mem_cons_self

/-- An element that another one follows. -/
theorem skipelem_dir (hname : name ≠ []) (h : Sys.slash ∉ name) (path : List UInt8) :
    Sys.skipelem (name ++ Sys.slash :: path) =
      some (name.take DIRSIZ, path.dropWhile (· == Sys.slash)) := by
  unfold Sys.skipelem
  simp only [dropWhile_slash hname h, takeWhile_name h, dropWhile_name h]
  rw [if_neg (by simp), List.takeWhile_cons_of_neg (by decide), List.append_nil,
    List.dropWhile_cons_of_neg (by decide), List.dropWhile_cons_of_pos (by decide)]

/-- The last element. -/
theorem skipelem_name (hname : name ≠ []) (h : Sys.slash ∉ name) :
    Sys.skipelem name = some (name.take DIRSIZ, []) := by
  have htake := takeWhile_name h []
  have hdrop := dropWhile_name h []
  have hslash := dropWhile_slash hname h []
  rw [List.append_nil] at htake hdrop hslash
  unfold Sys.skipelem
  simp only [hslash, htake, hdrop]
  rw [if_neg hname, List.takeWhile_nil, List.append_nil]
  rfl

theorem dropWhile_slash_name (hname : name ≠ []) (h : Sys.slash ∉ name) :
    name.dropWhile (· == Sys.slash) = name := by
  have hslash := dropWhile_slash hname h []
  rwa [List.append_nil] at hslash

end Skip

/-- The path of the directory an argument goes to. -/
def dirPath (d : Nat) : List UInt8 :=
  if d = 2 then [47, 98, 105, 110, 47]
  else if d = 4 then [47, 101, 116, 99, 47]
  else [47, 117, 115, 114, 47, 115, 104, 97, 114, 101, 47, 105, 99, 111, 110, 115, 47]

/-- "/bin/", "/etc/" or "/usr/share/icons/" and the name of the file. -/
def filePath (f : Input) : List UInt8 := dirPath (Plan.target f) ++ Plan.fileName f

/-- What the argument of `mkfs` is called: it names a file, not a directory. -/
structure Named (f : Input) : Prop where
  nonempty : Plan.fileName f ≠ []
  noNul : 0 ∉ Plan.fileName f
  noSlash : Sys.slash ∉ Plan.fileName f
  notDot : Plan.fileName f ≠ dot
  notDotdot : Plan.fileName f ≠ dotdot

theorem elements_last {name : List UInt8} (hname : name ≠ []) (h : Sys.slash ∉ name) (fuel : Nat) :
    elements (fuel + 2) name = [name.take DIRSIZ] := by
  have hnil : Sys.skipelem [] = none := rfl
  rw [elements, skipelem_name hname h]
  simp only
  rw [elements, hnil]

theorem elements_dir {name path : List UInt8} (hname : name ≠ []) (h : Sys.slash ∉ name)
    (hpath : path.dropWhile (· == Sys.slash) = path) (fuel : Nat) :
    elements (fuel + 1) (name ++ Sys.slash :: path) = name.take DIRSIZ :: elements fuel path := by
  rw [elements, skipelem_dir hname h, hpath]

theorem elements_slash (path : List UInt8) (fuel : Nat) :
    elements (fuel + 1) (Sys.slash :: path) = elements (fuel + 1) path := by
  rw [elements, skipelem_slash, elements]

/-- The elements of a file's path. -/
theorem pathElements_file {f : Input} (h : Named f) :
    pathElements (filePath f) =
      (if Plan.target f = 2 then [[98, 105, 110]]
        else if Plan.target f = 4 then [[101, 116, 99]]
        else [[117, 115, 114], [115, 104, 97, 114, 101], [105, 99, 111, 110, 115]]) ++
      [(Plan.fileName f).take DIRSIZ] := by
  obtain ⟨name, hname⟩ : ∃ name, name = Plan.fileName f := ⟨_, rfl⟩
  have hne := h.nonempty
  have hslash := h.noSlash
  rw [← hname] at hne hslash
  have hself := dropWhile_slash_name hne hslash
  unfold pathElements filePath dirPath
  rw [← hname]
  split
  · show elements (name.length + 6) (Sys.slash :: ([98, 105, 110] ++ Sys.slash :: name)) = _
    rw [elements_slash, elements_dir (by decide) (by decide) hself, elements_last hne hslash]
    rfl
  · split
    · show elements (name.length + 6) (Sys.slash :: ([101, 116, 99] ++ Sys.slash :: name)) = _
      rw [elements_slash, elements_dir (by decide) (by decide) hself, elements_last hne hslash]
      rfl
    · show elements (name.length + 18) (Sys.slash :: ([117, 115, 114] ++ Sys.slash ::
        ([115, 104, 97, 114, 101] ++ Sys.slash ::
          ([105, 99, 111, 110, 115] ++ Sys.slash :: name)))) = _
      rw [elements_slash, elements_dir (by decide) (by decide) (by rfl),
        elements_dir (by decide) (by decide) (by rfl), elements_dir (by decide) (by decide) hself,
        elements_last hne hslash]
      rfl

/-! ## Finding the arguments -/

theorem cstr_of_noNul {name : List UInt8} (h : 0 ∉ name) : cstr name = name.take DIRSIZ := by
  unfold cstr
  congr 1
  have hall : (name ++ []).takeWhile (· != (0 : UInt8)) = name ++ [].takeWhile (· != 0) := by
    apply List.takeWhile_append_of_pos
    intro x hx
    simp only [bne_iff_ne]
    rintro rfl
    exact h hx
  rwa [List.append_nil, List.takeWhile_nil, List.append_nil] at hall

theorem cstr_take {name : List UInt8} (h : 0 ∉ name) :
    cstr (name.take DIRSIZ) = name.take DIRSIZ := by
  rw [cstr_of_noNul fun hc => h (List.mem_of_mem_take hc), List.take_take, Nat.min_self]

/-- A short name is not cut. -/
theorem take_ne {name short : List UInt8} (hshort : short.length < DIRSIZ) (h : name ≠ short) :
    name.take DIRSIZ ≠ short := by
  intro heq
  have hlen := congrArg List.length heq
  rw [List.length_take] at hlen
  apply h
  rw [← heq, List.take_of_length_le (by omega)]

/-- The arguments of `mkfs`: their names are distinct on the bytes that are stored, and they
fit the inodes and the data blocks. -/
structure Acceptable (files : List Input) : Prop where
  named : ∀ f, f ∈ files → Named f
  distinct : ∀ (i j : Nat) (f f' : Input), files[i]? = some f → files[j]? = some f' →
    Plan.target f = Plan.target f' →
      (Plan.fileName f).take DIRSIZ = (Plan.fileName f').take DIRSIZ → i = j
  sizes : ∀ f, f ∈ files → f.bytes.length ≤ MAXFILE * BSIZE
  inodes : files.length ≤ 191
  blocks : blocksNeeded files ≤ size - nlog

section Acceptable

variable {files : List Input} {n : Nat} {f : Input}

/-- An argument is found in its directory. -/
theorem Acceptable.entry (h : Acceptable files) (hf : files[n]? = some f) :
    entryNamed files (Plan.target f) ((Plan.fileName f).take DIRSIZ) = some (9 + n) := by
  have hnamed := h.named f (List.mem_of_getElem? hf)
  have hkey := cstr_take hnamed.noNul
  have hmem : (Plan.fileName f, 9 + n) ∈ dirEntries files (Plan.target f) :=
    List.mem_append_right _ ((mem_newEntries files).2 ⟨n, f, hf, rfl, rfl⟩)
  unfold entryNamed
  rw [hkey]
  cases hfind : (dirEntries files (Plan.target f)).find?
      fun e => decide (cstr e.1 = (Plan.fileName f).take DIRSIZ) with
  | none =>
      have hno := List.find?_eq_none.1 hfind _ hmem
      exact absurd (decide_eq_true (cstr_of_noNul hnamed.noNul)) hno
  | some e =>
      have he : cstr e.1 = (Plan.fileName f).take DIRSIZ := by
        have hsome := List.find?_some hfind
        exact of_decide_eq_true hsome
      rcases List.mem_append.1 (List.mem_of_find?_eq_some hfind) with hbase | hnew
      · -- the directory's own two entries have other names
        have hdots : ∀ d, d = 2 ∨ d = 4 ∨ d = 8 → ∀ e ∈ baseEntries d,
            cstr e.1 = dot ∨ cstr e.1 = dotdot := by
          rintro d (rfl | rfl | rfl) <;> decide
        rcases hdots _ (target_mem f) e hbase with hdot | hdot
        · exact absurd (he.symm.trans hdot) (take_ne (by decide) hnamed.notDot)
        · exact absurd (he.symm.trans hdot) (take_ne (by decide) hnamed.notDotdot)
      · obtain ⟨n', f', hf', htarget, rfl⟩ := (mem_newEntries files).1 hnew
        rw [cstr_of_noNul (h.named f' (List.mem_of_getElem? hf')).noNul] at he
        rw [h.distinct n' n f' f hf' hf htarget he]
        rfl

theorem entryNamed_base (files : List Input) {d i : Nat} {name : List UInt8}
    (h : ((baseEntries d).find? fun e => decide (cstr e.1 = cstr name)).map Prod.snd = some i) :
    entryNamed files d name = some i := by
  obtain ⟨e, he, rfl⟩ := Option.map_eq_some_iff.1 h
  rw [entryNamed, dirEntries, List.find?_append, he]
  rfl

/-- A walk whose first name is one of the directory's own entries. -/
theorem foldlM_base {d i : Nat} {name : List UInt8} (names : List (List UInt8))
    (h : entryNamed files d name = some i) :
    (name :: names).foldlM (entryNamed files) d = names.foldlM (entryNamed files) i := by
  rw [List.foldlM_cons, h]
  rfl

/-- The path of an argument leads to its inode. -/
theorem Acceptable.path (h : Acceptable files) (hf : files[n]? = some f) :
    (pathElements (filePath f)).foldlM (entryNamed files) ROOTINO = some (9 + n) := by
  have hentry := h.entry hf
  have hlast : ∀ i, [(Plan.fileName f).take DIRSIZ].foldlM (entryNamed files) i =
      entryNamed files i ((Plan.fileName f).take DIRSIZ) := by
    intro i
    rw [List.foldlM_cons]
    cases entryNamed files i ((Plan.fileName f).take DIRSIZ) <;> rfl
  rw [pathElements_file (h.named f (List.mem_of_getElem? hf))]
  rcases target_mem f with ht | ht | ht
  · rw [ht] at hentry ⊢
    rw [if_pos rfl, List.singleton_append,
      foldlM_base _ (entryNamed_base files (i := 2) (by decide)), hlast, hentry]
  · rw [ht] at hentry ⊢
    rw [if_neg (by decide), if_pos rfl, List.singleton_append,
      foldlM_base _ (entryNamed_base files (i := 4) (by decide)), hlast, hentry]
  · rw [ht] at hentry ⊢
    rw [if_neg (by decide), if_neg (by decide), List.cons_append, List.cons_append,
      List.singleton_append, foldlM_base _ (entryNamed_base files (i := 3) (by decide)),
      foldlM_base _ (entryNamed_base files (i := 7) (by decide)),
      foldlM_base _ (entryNamed_base files (i := 8) (by decide)), hlast, hentry]

end Acceptable

/-- What the kernel, mounted on the image, sees of `files`. -/
structure Decoded (files : List Input) (g : Image) : Prop where
  /-- The directories are the eight that `mkfs` makes; every other inode in use is an
  argument. -/
  types : ∀ i, ((kernelOn g).dinode i).type =
    if 1 ≤ i ∧ i < 9 then .dir else if 9 ≤ i ∧ i < 9 + files.length then .file else .free
  /-- Their entries are those `mkfs` wrote. -/
  entries : ∀ d name, ((kernelOn g).node d).entry name = entryNamed files d name
  /-- `namei` walks them. -/
  paths : ∀ path, wp ((Sys.namei path).run (Act.exec 0))
    (fun r _ => r = (pathElements path).foldlM (entryNamed files) ROOTINO) (fun _ _ => False)
    (kernelOn g)
  /-- Argument `n` is found in its directory and read. -/
  files : ∀ (n : Nat) (f : Input), files[n]? = some f → ∀ off m : Nat,
    off ≤ f.bytes.length → off + m < UINT →
      wp ((Sys.readAt (filePath f) off m).run (Act.exec 0))
        (fun r _ => ∃ d, r = some (9 + n, d, some ((f.bytes.drop off).take m)) ∧
          d.type = .file ∧ d.size = f.bytes.length ∧ d.nlink = 1) (fun _ _ => False) (kernelOn g)
  /-- The bitmap has the bits of the metadata and of the inodes' blocks. -/
  bitmap : ∀ b, b < size → ((kernelOn g).bitmap b = true ↔
    b < (kernelOn g).sb.dataStart ∨ ∃ x, (kernelOn g).ref x ≠ 0 ∧ (kernelOn g).ref x = b)

/-- Reading a file gives its bytes. -/
theorem read_fileNode {t : InodeType} {bs : List UInt8} {off m : Nat} (hoff : off ≤ bs.length)
    (hm : off + m < UINT) :
    (fileNode (t, bs)).read off m = some ((bs.drop off).take m) := by
  have hmod : (off + m) % UINT = off + m := Nat.mod_eq_of_lt hm
  have hsize : (fileNode (t, bs)).size = bs.length := rfl
  rw [Node.read, hmod, hsize, if_neg (by omega)]
  congr 1
  apply List.ext_getElem
  · rw [List.length_map, List.length_range, List.length_take, List.length_drop]
    split <;> omega
  · intro o h₁ h₂
    rw [List.length_take, List.length_drop] at h₂
    rw [List.getElem_map, List.getElem_range, List.getElem_take, List.getElem_drop]
    show bs.getD (off + o) 0 = _
    rw [List.getD_eq_getElem?_getD, List.getElem?_eq_getElem (by omega)]
    rfl

section Decode

variable {files : List Input} {g : Image}

/-- From the root the maps are the lists of entries. -/
theorem Fresh.walk (h : Fresh (plan files) g) (path : List UInt8) :
    (kernelOn g).walk ((kernelOn g).startOf 0 path) (pathElements path) =
      (pathElements path).foldlM (entryNamed files) ROOTINO := by
  have hstart : (kernelOn g).startOf 0 path = ROOTINO := by
    unfold State.startOf
    split <;> rfl
  have hmap : (fun d name => ((kernelOn g).node d).entry name) = entryNamed files := by
    funext d name
    exact h.entry d name
  rw [hstart, State.walk, hmap]

theorem Fresh.decoded (h : Fresh (plan files) g) (hacc : Acceptable files) : Decoded files g := by
  refine ⟨h.type, h.entry, fun path => ?_, fun n f hf off m hoff hm => ?_,
    fun b hb => h.bitmap_exact hb⟩
  · apply Prog.wp_run_of_true
    refine Prog.wp_imp (namei_wp h.browsable path) ?_
    intro r k hr
    rw [hr.1, h.walk]
  · apply Prog.wp_run_of_true
    have hnode := h.node (plan_file hf)
    have htype : ((kernelOn g).dinode (9 + n)).type = .file := congrArg Node.type hnode
    have hi := (h.walk (filePath f)).trans (hacc.path hf)
    refine Prog.wp_imp (readAt_wp h.browsable hi (.inl htype) (by omega) (by omega)) ?_
    intro r _ hr
    rw [hr, hnode, read_fileNode hoff hm]
    exact ⟨_, rfl, htype, congrArg Node.size hnode, congrArg Node.nlink hnode⟩

/-- **The kernel decodes what `mkfs` encodes.** -/
theorem kernel_reads_image (h : Acceptable files) : ∃ g, Writes files g ∧ Decoded files g := by
  have hinodes := h.inodes
  have hblocks := h.blocks
  have hroom : 9 + files.length ≤ inodeSlots := by
    simp only [inodeSlots]
    omega
  have hfits : blocksNeeded files ≤ size := Nat.le_trans hblocks (by decide)
  obtain ⟨g, hg⟩ := exists_writes hroom (fun f hf hslash => (h.named f hf).noSlash hslash)
    (addFiles_small hroom h.sizes hfits)
  exact ⟨g, hg, (hg.fresh hinodes hblocks).decoded h⟩

end Decode

/-- A program for /bin, a settings file for /etc and an icon. -/
def threeFiles : List Input :=
  [⟨[108, 115], [1, 2, 3]⟩, ⟨[101, 116, 99, 47, 108, 115], [4]⟩, ⟨[103, 117, 105, 47, 97], []⟩]

theorem kernel_reads_image_three_files : ∃ g, Writes threeFiles g ∧ Decoded threeFiles g := by
  have hnames : ∀ f ∈ threeFiles, Plan.fileName f ≠ [] ∧ 0 ∉ Plan.fileName f ∧
      Sys.slash ∉ Plan.fileName f ∧ Plan.fileName f ≠ dot ∧ Plan.fileName f ≠ dotdot := by
    decide
  have hplaces : ∀ i < 3, (threeFiles[i]?).map Plan.target = some (2 * 2 ^ i) := by decide
  have hinj : ∀ i < 3, ∀ j < 3, 2 * 2 ^ i = 2 * 2 ^ j → i = j := by decide
  have hcount : ∀ d, d = 2 ∨ d = 4 ∨ d = 8 → Plan.countIn d threeFiles = 1 := by
    rintro d (rfl | rfl | rfl) <;> decide
  have hbytes : Plan.bytesNeeded threeFiles = 2 := by decide
  have hblocks : blocksNeeded threeFiles = metablocks + 10 := by
    rw [blocksNeeded, hcount 2 (by decide), hcount 4 (by decide), hcount 8 (by decide), hbytes]
    rfl
  apply kernel_reads_image
  refine ⟨fun f hf => ?_, fun i j f f' hi hj htarget _ => ?_, by decide, by decide, ?_⟩
  · obtain ⟨h₁, h₂, h₃, h₄, h₅⟩ := hnames f hf
    exact ⟨h₁, h₂, h₃, h₄, h₅⟩
  · have hilt : i < 3 := (List.getElem?_eq_some_iff.1 hi).1
    have hjlt : j < 3 := (List.getElem?_eq_some_iff.1 hj).1
    have hpi := hplaces i hilt
    have hpj := hplaces j hjlt
    rw [hi] at hpi
    rw [hj] at hpj
    apply hinj i hilt j hjlt
    rw [← Option.some.inj hpi, ← Option.some.inj hpj, htarget]
  · rw [hblocks]
    decide

end Xv6.Mkfs
