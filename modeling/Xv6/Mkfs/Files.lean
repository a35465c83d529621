import Xv6.Mkfs.Append
import Xv6.Verified.Counting

/-!
# What `mkfs` builds

A `Plan` is the image as a list of files: the type and the bytes of each inode.  `Built`
relates it to the sectors, and each function of `mkfs` does to the image what its
counterpart does to the plan.  `main` can fail only if a file is too large, the blocks run
out, or a name has a slash.
-/

namespace Xv6.Mkfs

open Xv6.Verified
open Xv6.Kernel
open Exec
open Finset

/-! ## Inodes of the image -/

/-- How many inodes the inode blocks have room for, all in front of the bitmap. -/
abbrev inodeSlots : Nat := 208

/-- Inode `i` as it stands in the image. -/
def inoOf (sec : Nat → Block) (i : Nat) : Dinode :=
  if i < inodeSlots then dinodeAt (sec (i2b i)) (i % IPB) else Dinode.zero

theorem i2b_lt {i : Nat} (h : i < inodeSlots) : 2 ≤ i2b i ∧ i2b i < 15 := by
  simp only [i2b, IPB, inodeSlots] at *
  omega

/-- What `winode` makes of the sectors. -/
def putInode (sec : Nat → Block) (inum : Nat) (d : Dinode) : Nat → Block :=
  Function.update sec (i2b inum) (setDinode (sec (i2b inum)) (inum % IPB) d)

theorem inoOf_putInode (sec : Nat → Block) {inum : Nat} (h : inum < inodeSlots) {d : Dinode}
    (hd : d.Encodable) : inoOf (putInode sec inum d) = Function.update (inoOf sec) inum d := by
  funext i
  by_cases hi : i = inum
  · subst hi
    rw [Function.update_self, inoOf, if_pos h, putInode, Function.update_self,
      dinodeAt_setDinode_self _ _ hd]
  · rw [Function.update_of_ne hi]
    unfold inoOf putInode
    split
    · by_cases hb : i2b i = i2b inum
      · rw [hb, Function.update_self, dinodeAt_setDinode_of_ne]
        simp only [i2b, IPB] at *
        omega
      · rw [Function.update_of_ne hb]
    · rfl

theorem putInode_of_ne (sec : Nat → Block) {inum b : Nat} (d : Dinode) (h : b ≠ i2b inum) :
    putInode sec inum d b = sec b := Function.update_of_ne h _ _

section Above

variable {sec sec' : Nat → Block} {ino : Nat → Dinode} {free : Nat}

/-- Sectors in front of the data blocks do not matter to the table. -/
theorem Table.above (h : Table sec ino free) (hsec : ∀ b, metablocks ≤ b → sec' b = sec b) :
    refOf sec' ino = refOf sec ino ∧ Table sec' ino free ∧
      ∀ i o, byteOf sec' (ino i) o = byteOf sec (ino i) o := by
  have hrefs : refOf sec' ino = refOf sec ino := by
    funext x
    apply refOf_congr rfl
    intro hind
    apply hsec
    have := h.range (x.1, NDIRECT) (by rw [refOf_of_le _ (Nat.le_refl _)]; exact hind)
    rw [refOf_of_le _ (Nat.le_refl _)] at this
    exact this.1
  refine ⟨hrefs, ⟨?_, ?_, ?_, ?_, h.low⟩, fun i o => byteOf_congr (by rw [hrefs]) fun h0 => ?_⟩
  · rw [hrefs]
    exact h.inj
  · rw [hrefs]
    exact h.range
  · rw [hrefs]
    exact h.cover
  · intro b hb
    rw [hsec b (Nat.le_trans h.low hb)]
    exact h.clean b hb
  · exact hsec _ (h.range _ h0).1

/-- The fields other than the addresses do not matter to the table. -/
theorem refOf_fields (sec : Nat → Block) {ino ino' : Nat → Dinode}
    (h : ∀ i, (ino' i).addrs = (ino i).addrs) :
    refOf sec ino' = refOf sec ino := by
  funext x
  exact refOf_congr (h x.1) fun _ => rfl

theorem byteOf_fields {d d' : Dinode} (h : d'.addrs = d.addrs) (o : Nat) :
    byteOf sec d' o = byteOf sec d o := by
  have hslot : ∀ s, slotAddr sec d' s = slotAddr sec d s := by
    intro s
    simp only [slotAddr, h]
  simp only [byteOf, hslot]

theorem Table.fields {ino' : Nat → Dinode} (h : Table sec ino free)
    (hino : ∀ i, (ino' i).addrs = (ino i).addrs) : Table sec ino' free := by
  refine ⟨?_, ?_, ?_, h.clean, h.low⟩
  · rw [refOf_fields sec hino]
    exact h.inj
  · rw [refOf_fields sec hino]
    exact h.range
  · rw [refOf_fields sec hino]
    exact h.cover

end Above

/-! ## Plans -/

/-- The files of an image. -/
structure Plan where
  node : Nat → Option (InodeType × List UInt8)
  next : Nat

namespace Plan

/-- The number of bytes of inode `i`. -/
def length (P : Plan) (i : Nat) : Nat :=
  match P.node i with
  | none => 0
  | some x => x.2.length

/-- The next inode. -/
def alloc (P : Plan) (t : InodeType) : Plan :=
  ⟨Function.update P.node P.next (some (t, [])), P.next + 1⟩

/-- More bytes for inode `i`. -/
def append (P : Plan) (i : Nat) (xs : List UInt8) : Plan :=
  { P with node := Function.update P.node i ((P.node i).map fun x => (x.1, x.2 ++ xs)) }

/-- The first block that is not in use. -/
def free (P : Plan) : Nat := metablocks + ∑ i ∈ range inodeSlots, need (P.length i)

/-- The plan fits the image. -/
structure Small (P : Plan) : Prop where
  files : ∀ i, P.length i ≤ MAXFILE * BSIZE
  blocks : P.free ≤ size

/-- Every file of `P` is at most as large as in `P'`. -/
def Le (P P' : Plan) : Prop := ∀ i, P.length i ≤ P'.length i

theorem Le.trans {P P' P'' : Plan} (h : P.Le P') (h' : P'.Le P'') : P.Le P'' :=
  fun i => Nat.le_trans (h i) (h' i)

theorem Le.free {P P' : Plan} (h : P.Le P') : P.free ≤ P'.free :=
  Nat.add_le_add_left (sum_le_sum fun i _ => need_mono (h i)) _

theorem Le.small {P P' : Plan} (h : P.Le P') (hs : P'.Small) : P.Small :=
  ⟨fun i => Nat.le_trans (h i) (hs.files i), Nat.le_trans h.free hs.blocks⟩

theorem length_append_self {P : Plan} {i : Nat} {x : InodeType × List UInt8}
    (h : P.node i = some x) (xs : List UInt8) :
    (P.append i xs).length i = P.length i + xs.length := by
  simp [length, append, h]

theorem length_append_of_ne (P : Plan) {i j : Nat} (xs : List UInt8) (h : j ≠ i) :
    (P.append i xs).length j = P.length j := by
  simp [length, append, Function.update_of_ne h]

theorem le_append (P : Plan) (i : Nat) (xs : List UInt8) : P.Le (P.append i xs) := by
  intro j
  by_cases hj : j = i
  · subst hj
    cases h : P.node j with
    | none => simp [length, h]
    | some x =>
        rw [length_append_self h]
        omega
  · rw [length_append_of_ne P xs hj]

theorem le_alloc {P : Plan} (t : InodeType) (h : P.node P.next = none) : P.Le (P.alloc t) := by
  intro j
  by_cases hj : j = P.next
  · subst hj
    simp [length, h]
  · simp [length, alloc, Function.update_of_ne hj]

theorem free_append {P : Plan} {i : Nat} {x : InodeType × List UInt8} (h : P.node i = some x)
    (hi : i < inodeSlots) (xs : List UInt8) :
    (P.append i xs).free + need (P.length i) = P.free + need (P.length i + xs.length) := by
  have hsum := sum_change (f := fun j => need (P.length j))
    (g := fun j => need ((P.append i xs).length j)) hi
    fun j hj => by rw [length_append_of_ne P xs hj]
  rw [length_append_self h] at hsum
  unfold free
  omega

theorem free_alloc {P : Plan} (t : InodeType) (h : P.node P.next = none) :
    (P.alloc t).free = P.free := by
  have hsame : ∀ j, (P.alloc t).length j = P.length j := by
    intro j
    by_cases hj : j = P.next
    · subst hj
      simp [length, alloc, h]
    · simp [length, alloc, Function.update_of_ne hj]
  unfold free
  simp only [hsame]

end Plan

/-! ## The image of a plan -/

/-- Inode `i` is the file `x`. -/
structure Holds (sec : Nat → Block) (ino : Nat → Dinode) (i : Nat) (x : InodeType × List UInt8) :
    Prop where
  inode : ino i = ⟨x.1, 0, 0, 1, x.2.length, (ino i).addrs⟩
  slots : ∀ s, NDIRECT < s → (ino i).addrs s = 0
  sized : Sized (refOf sec ino) i x.2.length
  bytes : ∀ o, byteOf sec (ino i) o = x.2.getD o 0
  fits : x.2.length ≤ MAXFILE * BSIZE

/-- With the inodes `ino`, the sectors hold the files of the plan and nothing else. -/
structure BuiltOn (P : Plan) (ino : Nat → Dinode) (g : Image) : Prop where
  table : Table g.sector ino g.freeblock
  files : ∀ i x, P.node i = some x → Holds g.sector ino i x
  unused : ∀ i, P.node i = none → ino i = Dinode.zero
  alloc : ∀ i, P.node i ≠ none ↔ 1 ≤ i ∧ i < P.next
  next : g.freeinode = P.next
  first : 1 ≤ P.next
  room : P.next ≤ inodeSlots
  free : g.freeblock = P.free
  full : g.freeblock ≤ size
  used : g.usedblocks = g.freeblock
  boot : ∀ b, b < 2 → g.sector b = blank.sector b

/-- The image holds the files of the plan and nothing else. -/
abbrev Built (P : Plan) (g : Image) : Prop := BuiltOn P (inoOf g.sector) g

section Built

variable {P : Plan} {g : Image} {ino : Nat → Dinode}

theorem BuiltOn.fresh (h : BuiltOn P ino g) : P.node P.next = none := by
  by_contra hc
  have := (h.alloc P.next).1 hc
  omega

theorem BuiltOn.lt (h : BuiltOn P ino g) {i : Nat} (hi : P.node i ≠ none) : i < inodeSlots :=
  Nat.lt_of_lt_of_le ((h.alloc i).1 hi).2 h.room

/-- An address is a block of the image. -/
theorem Table.addrs_lt {sec : Nat → Block} {free : Nat} (h : Table sec ino free)
    (hfree : free ≤ size) (i : Nat) {s : Nat} (hs : s ≤ NDIRECT) : (ino i).addrs s < UINT := by
  by_cases h0 : (ino i).addrs s = 0
  · rw [h0]
    decide
  · have hrange := h.range (i, s) (by rw [refOf_of_le _ hs]; exact h0)
    rw [refOf_of_le _ hs] at hrange
    simp only [size, UINT] at *
    omega

/-- A file's inode can be stored. -/
theorem Holds.encodable {i : Nat} {x : InodeType × List UInt8} (h : Holds g.sector ino i x)
    (ht : Table g.sector ino g.freeblock) (hfull : g.freeblock ≤ size) : (ino i).Encodable := by
  have hsize : (ino i).size = x.2.length := by rw [h.inode]
  refine ⟨?_, ?_, ?_, ?_, ?_, h.slots⟩
  · rw [h.inode]
    show (-32768 : Int) ≤ 0 ∧ (0 : Int) < 32768
    decide
  · rw [h.inode]
    show (-32768 : Int) ≤ 0 ∧ (0 : Int) < 32768
    decide
  · rw [h.inode]
    show (-32768 : Int) ≤ 1 ∧ (1 : Int) < 32768
    decide
  · have hfits := h.fits
    simp only [hsize, MAXFILE, BSIZE, UINT] at *
    omega
  · intro s
    by_cases hs : s ≤ NDIRECT
    · exact ht.addrs_lt hfull i hs
    · rw [h.slots s (by omega)]
      decide

/-- Writing the inode that has changed makes the image that of the plan. -/
theorem BuiltOn.winode {inum : Nat} {d : Dinode} {x : InodeType × List UInt8}
    (h : BuiltOn P (Function.update (inoOf g.sector) inum d) g) (hx : P.node inum = some x)
    {Q : Unit → Image → Prop} {E : Abort → Image → Prop}
    (hQ : ∀ g', Built P g' → Q () g') : wp (winode inum d) Q E g := by
  have hlt := h.lt (i := inum) (by simp [hx])
  have hlow := i2b_lt hlt
  have hmeta := metablocks_eq
  have hself : Function.update (inoOf g.sector) inum d inum = d := Function.update_self _ _ _
  have henc := (h.files inum x hx).encodable h.table h.full
  rw [hself] at henc
  have hino := inoOf_putInode g.sector hlt henc
  have habove : ∀ b, metablocks ≤ b → putInode g.sector inum d b = g.sector b :=
    fun b hb => putInode_of_ne _ _ (by omega)
  obtain ⟨hrefs, htable, hbytes⟩ := h.table.above habove
  rw [← hino] at h hrefs htable hbytes
  unfold Mkfs.winode
  rw [wp_bind]
  apply wp_rsect
  · intro _
    unfold wsect
    rw [wp_modify]
    apply hQ
    refine ⟨htable, ?_, h.unused, h.alloc, h.next, h.first, h.room, h.free, h.full, h.used, ?_⟩
    · intro i x hx
      have hold := h.files i x hx
      refine ⟨hold.inode, hold.slots, ?_, ?_, hold.fits⟩
      · show Sized (refOf (putInode g.sector inum d) (inoOf (putInode g.sector inum d))) _ _
        rw [hrefs]
        exact hold.sized
      · intro o
        exact (hbytes i o).trans (hold.bytes o)
    · intro b hb
      exact (putInode_of_ne _ _ (by omega)).trans (h.boot b hb)
  · intro hc
    simp only [size] at hc
    omega

/-- A new inode has no blocks. -/
theorem BuiltOn.alloc_on (h : BuiltOn P ino g) (hroom : P.next < inodeSlots) (t : InodeType) :
    BuiltOn (P.alloc t) (Function.update ino P.next { Dinode.zero with type := t, nlink := 1 })
      { g with freeinode := g.freeinode + 1 } := by
  have hzero := h.unused _ h.fresh
  have haddrs : ∀ i, (Function.update ino P.next
      { Dinode.zero with type := t, nlink := 1 } i).addrs = (ino i).addrs := by
    intro i
    by_cases hi : i = P.next
    · rw [hi, Function.update_self, hzero]
    · rw [Function.update_of_ne hi]
  have hrefs := refOf_fields g.sector haddrs
  have hnone : ∀ s, refOf g.sector ino (P.next, s) = 0 := by
    intro s
    by_cases hs : s ≤ NDIRECT
    · rw [refOf_of_le _ hs, hzero]
      rfl
    · exact refOf_of_no_indirect (by omega) (by rw [hzero]; rfl)
  have hnode : ∀ i, (P.alloc t).node i = Function.update P.node P.next (some (t, [])) i :=
    fun _ => rfl
  refine ⟨h.table.fields haddrs, ?_, ?_, ?_, ?_, ?_, hroom, ?_, h.full, h.used, h.boot⟩
  · intro i x hx
    rw [hnode] at hx
    by_cases hi : i = P.next
    · subst hi
      rw [Function.update_self] at hx
      obtain rfl := Option.some.inj hx
      refine ⟨by rw [Function.update_self]; rfl, ?_, ?_, ?_, Nat.zero_le _⟩
      · intro s _
        rw [Function.update_self]
        rfl
      · show Sized (refOf g.sector _) _ _
        rw [hrefs]
        constructor
        · intro b _
          rw [hnone]
          simp
        · rw [hnone]
          simp
      · intro o
        show byteOf g.sector _ o = _
        rw [byteOf_fields (haddrs P.next)]
        exact if_pos (hnone _)
    · rw [Function.update_of_ne hi] at hx
      have hold := h.files i x hx
      have hsame : Function.update ino P.next { Dinode.zero with type := t, nlink := 1 } i =
          ino i :=
        Function.update_of_ne hi _ _
      refine ⟨by rw [hsame]; exact hold.inode, by rw [hsame]; exact hold.slots, ?_, ?_, hold.fits⟩
      · show Sized (refOf g.sector _) _ _
        rw [hrefs]
        exact hold.sized
      · rw [hsame]
        exact hold.bytes
  · intro i hi
    rw [hnode] at hi
    by_cases hne : i = P.next
    · subst hne
      rw [Function.update_self] at hi
      cases hi
    · rw [Function.update_of_ne hne] at hi ⊢
      exact h.unused i hi
  · intro i
    rw [hnode]
    show _ ↔ 1 ≤ i ∧ i < P.next + 1
    by_cases hi : i = P.next
    · subst hi
      rw [Function.update_self]
      have := h.first
      constructor
      · intro _
        omega
      · simp
    · rw [Function.update_of_ne hi, h.alloc]
      omega
  · show g.freeinode + 1 = P.next + 1
    rw [h.next]
  · exact Nat.le_add_left _ _
  · show g.freeblock = (P.alloc t).free
    rw [Plan.free_alloc t h.fresh]
    exact h.free

/-- **`ialloc`.** -/
theorem ialloc_wp (h : Built P g) (hroom : P.next < inodeSlots) (t : InodeType)
    {Q : Nat → Image → Prop} {E : Abort → Image → Prop}
    (hQ : ∀ g', Built (P.alloc t) g' → Q P.next g') : wp (ialloc t) Q E g := by
  unfold ialloc
  rw [wp_bind, wp_get, wp_bind, wp_modify, wp_bind, h.next]
  have hnew := h.alloc_on hroom t
  rw [h.next] at hnew
  apply BuiltOn.winode hnew (x := (t, []))
  · exact Function.update_self _ _ _
  · intro g' hg'
    exact (wp_pure _).2 (hQ g' hg')

/-- The blocks of the longer file are there. -/
theorem Extended.built {inum : Nat} {t : InodeType} {bs xs : List UInt8} {d : Dinode} {g' : Image}
    (h : BuiltOn P ino g) (hx : P.node inum = some (t, bs))
    (he : Extended inum bs.length xs.length (fun o => xs.getD o 0) ino g d g') :
    BuiltOn (P.append inum xs)
      (Function.update ino inum { d with size := bs.length + xs.length }) g' := by
  have hold := h.files inum _ hx
  have haddrs : ∀ i, (Function.update ino inum { d with size := bs.length + xs.length } i).addrs =
      (Function.update ino inum d i).addrs := by
    intro i
    by_cases hi : i = inum
    · rw [hi, Function.update_self, Function.update_self]
    · rw [Function.update_of_ne hi, Function.update_of_ne hi]
  have hrefs := refOf_fields g'.sector haddrs
  have hself : (P.append inum xs).node inum = some (t, bs ++ xs) := by
    show Function.update P.node inum _ inum = _
    rw [Function.update_self, hx]
    rfl
  have hother : ∀ i, i ≠ inum → (P.append inum xs).node i = P.node i :=
    fun i hi => Function.update_of_ne hi _ _
  refine ⟨he.table.fields haddrs, ?_, ?_, ?_, ?_, h.first, h.room, ?_, he.full, he.used, ?_⟩
  · intro i x hi
    by_cases hne : i = inum
    · subst hne
      rw [hself] at hi
      obtain rfl := Option.some.inj hi
      refine ⟨?_, ?_, ?_, ?_, ?_⟩
      · rw [Function.update_self, he.fields, hold.inode, List.length_append]
      · intro s hs
        rw [Function.update_self]
        exact (he.slots s hs).trans (hold.slots s hs)
      · rw [hrefs, List.length_append]
        exact he.sized
      · intro o
        have hsame : byteOf g'.sector { d with size := bs.length + xs.length } o =
            byteOf g'.sector d o := byteOf_fields rfl o
        rw [Function.update_self, hsame, he.bytes, hold.bytes]
        simp only [List.getD_eq_getElem?_getD, List.getElem?_append]
        by_cases hlt : o < bs.length
        · rw [if_neg (by omega), if_pos hlt]
        · rw [if_neg hlt]
          by_cases hin : bs.length ≤ o ∧ o < bs.length + xs.length
          · rw [if_pos hin]
          · rw [if_neg hin, List.getElem?_eq_none (by omega), List.getElem?_eq_none (by omega)]
      · rw [List.length_append]
        rcases Nat.eq_zero_or_pos xs.length with hz | hpos
        · rw [hz]
          exact hold.fits
        · exact he.fits hpos
    · rw [hother i hne] at hi
      have hfile := h.files i x hi
      refine ⟨?_, ?_, ?_, ?_, hfile.fits⟩
      · rw [Function.update_of_ne hne]
        exact hfile.inode
      · rw [Function.update_of_ne hne]
        exact hfile.slots
      · rw [hrefs]
        constructor
        · intro b hb
          rw [he.others i _ hne]
          exact hfile.sized.blocks b hb
        · rw [he.others i _ hne]
          exact hfile.sized.indirect
      · intro o
        rw [Function.update_of_ne hne, he.kept i o hne]
        exact hfile.bytes o
  · intro i hi
    have hne : i ≠ inum := by
      rintro rfl
      rw [hself] at hi
      cases hi
    rw [Function.update_of_ne hne]
    exact h.unused i (hother i hne ▸ hi)
  · intro i
    by_cases hne : i = inum
    · subst hne
      show _ ↔ 1 ≤ i ∧ i < P.next
      rw [hself, ← h.alloc, hx]
      simp
    · rw [hother i hne, h.alloc]
      rfl
  · rw [he.inodes]
    exact h.next
  · have hlen : P.length inum = bs.length := by simp [Plan.length, hx]
    have hfree := Plan.free_append hx (h.lt (by simp [hx])) xs
    have hcount := he.count
    have hbase := h.free
    rw [hlen] at hfree
    omega
  · intro b hb
    have hmeta := metablocks_eq
    rw [he.below b (by omega)]
    exact h.boot b hb

/-- **`iappend`.**  It fails only if the longer file does not fit. -/
theorem iappend_wp (h : Built P g) {inum : Nat} {t : InodeType} {bs : List UInt8}
    (hx : P.node inum = some (t, bs)) (xs : List UInt8) {Q : Unit → Image → Prop}
    {E : Abort → Image → Prop} (hQ : ∀ g', Built (P.append inum xs) g' → Q () g')
    (hE : ∀ a g', ¬(P.append inum xs).Small → E a g') : wp (iappend inum xs) Q E g := by
  have hlt := h.lt (i := inum) (by simp [hx])
  have hlow := i2b_lt hlt
  have hold := h.files inum _ hx
  have hsize : (inoOf g.sector inum).size = bs.length := by rw [hold.inode]
  have hread : dinodeAt (g.sector (i2b inum)) (inum % IPB) = inoOf g.sector inum :=
    (if_pos hlt).symm
  unfold iappend rinode
  rw [wp_bind, wp_bind]
  apply wp_rsect
  · intro _
    rw [wp_pure, hread, wp_bind, hsize]
    refine wp_mono (appendLoop_wp xs.length (Nat.le_refl _) h.table h.used h.full
      hold.sized) ?_ ?_
    · rintro ⟨d, off⟩ g' ⟨rfl, he⟩
      have hbuilt := he.built h hx
      have hsec : inoOf g'.sector = inoOf g.sector := by
        funext i
        unfold inoOf
        split
        · rename_i hi
          have hmeta := metablocks_eq
          have := i2b_lt hi
          rw [he.below _ (by omega)]
        · rfl
      rw [← hsec] at hbuilt
      apply BuiltOn.winode hbuilt (x := (t, bs ++ xs)) _ hQ
      show Function.update P.node inum _ inum = _
      rw [Function.update_self, hx]
      rfl
    · intro a g' hex
      apply hE
      intro hsmall
      have hlen : P.length inum = bs.length := by simp [Plan.length, hx]
      have hfile := hsmall.files inum
      have hblocks := hsmall.blocks
      have hfree := Plan.free_append hx hlt xs
      have hbase := h.free
      rw [Plan.length_append_self hx, hlen] at hfile
      rw [hlen] at hfree
      have hmono : need bs.length ≤ need (bs.length + xs.length) := need_mono (by omega)
      rcases hex with hex | hex <;> omega
  · intro hc
    simp only [size] at hc
    omega

end Built

end Xv6.Mkfs
