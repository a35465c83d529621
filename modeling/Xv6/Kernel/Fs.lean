import Xv6.Kernel.State

/-!
# Blocks, inodes and inode contents

`kernel/fs.c` up to the directory layer, function by function.  Loops over a
fixed range are `loopTo`; the transfer loops of `readi` and `writei`, which move
at least one byte a round, recurse on the bytes left.
-/

namespace Xv6.Kernel

open Xv6.Verified
open Exec

/-! ## The log, as the file system calls it -/

/-- `log_write`. -/
def logWrite (b : Nat) : K Unit := do
  let k ← get
  if k.log.Full then panic .tooBigTransaction
  else if k.log.busy.isNone then panic .writeOutsideTrans
  else modify fun k => k.logged b

/-- `begin_trans`: waits while a transaction is active. -/
def beginTrans : K Unit := do
  let k ← get
  if k.log.busy.isSome then stop .blocked
  else modify fun k => { k with log := { k.log with busy := some k.cur } }

/-- `commit_trans`.  Installing copies each slot to its home block, whose cached
contents it already is; what changes is the header block. -/
def commitTrans : K Unit :=
  modify fun k =>
    { k with
      data :=
        if k.log.lh = [] then k.data
        else Function.update k.data k.log.start
          (setHead (setHead (k.data k.log.start) k.log.lh) [])
      log := { k.log with lh := [], busy := none } }

/-! ## Blocks -/

/-- `bzero`. -/
def bzero (b : Nat) : K Unit := do
  modify fun k => k.setData b Block.zero
  logWrite b

/-- The first clear bit among `n` bits from `b` on. -/
def firstFree (bitmap : Nat → Bool) : Nat → Nat → Option Nat
  | 0, _ => none
  | n + 1, b => if bitmap b then firstFree bitmap n (b + 1) else some b

/-- No block of the data region is free. -/
def State.dataFull (k : State) : Bool :=
  (firstFree k.bitmap (k.log.start - k.sb.dataStart) k.sb.dataStart).isNone

/-- `balloc`: the scan runs over all `sb.size` bits. -/
def balloc : K Nat := do
  let k ← get
  modify fun k => { k with starved := k.starved || k.dataFull }
  match firstFree k.bitmap k.sb.size 0 with
  | none => panic .ballocOutOfBlocks
  | some b => do
      modify fun k =>
        { k with bitmap := Function.update k.bitmap b true, allocs := k.allocs ++ [b] }
      logWrite (k.sb.bblock b)
      bzero b
      return b

/-- `bfree`. -/
def bfree (b : Nat) : K Unit := do
  let k ← get
  if k.bitmap b = false then panic .freeingFreeBlock
  else do
    modify fun k => { k with bitmap := Function.update k.bitmap b false }
    logWrite (k.sb.bblock b)

/-! ## The inode cache -/

/-- Cache entries in use. -/
def State.activeInodes (k : State) : Nat :=
  ((List.range k.sb.ninodes).filter fun i => decide (0 < (k.icache i).ref)).length

/-- `iget`: take a reference, recycling an unused entry for a new inode. -/
def iget (inum : Nat) : K Unit := do
  let k ← get
  if 0 < (k.icache inum).ref then
    modify fun k =>
      k.setEntry inum { k.icache inum with ref := (k.icache inum).ref + 1 }
  else if NINODE ≤ k.activeInodes then panic .igetNoInodes
  else modify fun k => k.setEntry inum ⟨1, none, false⟩

/-- `idup`. -/
def idup (ip : Nat) : K Unit :=
  modify fun k => k.setEntry ip { k.icache ip with ref := (k.icache ip).ref + 1 }

/-- `ilock`: wait for the inode, then read it from the disk if necessary. -/
def ilock (ip : Nat) : K Unit := do
  let k ← get
  if (k.icache ip).ref < 1 then panic .ilock
  else if (k.icache ip).busy.isSome then stop .blocked
  else do
    modify fun k => k.setEntry ip { k.icache ip with busy := some k.cur }
    if (k.icache ip).valid then pure ()
    else do
      modify fun k =>
        (k.setCopy ip (k.dinode ip)).setEntry ip { k.icache ip with valid := true }
      if (k.dinode ip).type = .free then panic .ilockNoType
      else pure ()

/-- `iunlock`. -/
def iunlock (ip : Nat) : K Unit := do
  let k ← get
  if (k.icache ip).busy.isNone ∨ (k.icache ip).ref < 1 then panic .iunlock
  else modify fun k => k.setEntry ip { k.icache ip with busy := none }

/-- `iupdate`: copy the in-memory inode to the disk. -/
def iupdate (ip : Nat) : K Unit := do
  modify fun k => { k with dinode := Function.update k.dinode ip (k.icopy ip) }
  logWrite (iblock ip)

/-- `ip->nlink++` or `ip->nlink--`, then `iupdate(ip)`: the field is a `short`. -/
def bumpNlink (ip : Nat) (δ : Int) : K Unit := do
  modify fun k =>
    k.setCopy ip { k.icopy ip with nlink := toShort ((k.icopy ip).nlink + δ) }
  iupdate ip

/-- What `create` stores into a new inode, then `iupdate(ip)`. -/
def initInode (ip : Nat) (major minor : Int) : K Unit := do
  modify fun k =>
    k.setCopy ip { k.icopy ip with major := major, minor := minor, nlink := 1 }
  iupdate ip

/-- The first free inode among `n` from `i` on. -/
def firstFreeInode (dinode : Nat → Dinode) : Nat → Nat → Option Nat
  | 0, _ => none
  | n + 1, i =>
      if (dinode i).type = .free then some i else firstFreeInode dinode n (i + 1)

/-- `ialloc`. -/
def ialloc (type : InodeType) : K Nat := do
  let k ← get
  match firstFreeInode k.dinode (k.sb.ninodes - 1) 1 with
  | none => panic .iallocNoInodes
  | some inum => do
      modify fun k =>
        { k with dinode := Function.update k.dinode inum { Dinode.zero with type := type } }
      logWrite (iblock inum)
      iget inum
      return inum

/-! ## Inode content -/

/-- `ip->addrs[s] = b`. -/
def setAddr (ip s b : Nat) : K Unit :=
  modify fun k =>
    k.setCopy ip { k.icopy ip with addrs := Function.update (k.icopy ip).addrs s b }

/-- The direct case of `bmap`. -/
def bmapDirect (ip bn : Nat) : K Nat := do
  let k ← get
  if (k.icopy ip).addrs bn = 0 then do
    let addr ← balloc
    setAddr ip bn addr
    return addr
  else return (k.icopy ip).addrs bn

/-- The indirect case of `bmap`, once the indirect block is `ind`. -/
def bmapEntry (ind j : Nat) : K Nat := do
  let k ← get
  if (k.data ind).word j = 0 then do
    let addr ← balloc
    modify fun k => k.setData ind ((k.data ind).setWord j addr)
    logWrite ind
    return addr
  else return (k.data ind).word j

/-- `bmap`: the block of the inode's `bn`-th block, allocated if there is none.
Slot `NDIRECT` of `addrs`, the indirect block, is filled the same way as the
direct slots. -/
def bmap (ip bn : Nat) : K Nat :=
  if bn < NDIRECT then bmapDirect ip bn
  else if bn - NDIRECT < NINDIRECT then do
    let ind ← bmapDirect ip NDIRECT
    bmapEntry ind (bn - NDIRECT)
  else panic .bmapOutOfRange

/-- `itrunc`'s loop over the direct blocks. -/
def truncDirect (ip : Nat) : K Unit :=
  loopTo (fun i => do
    let k ← get
    if (k.icopy ip).addrs i = 0 then pure ()
    else do
      bfree ((k.icopy ip).addrs i)
      setAddr ip i 0) NDIRECT

/-- `itrunc`'s loop over the entries of an indirect block with contents `a`. -/
def truncEntries (a : Block) : K Unit :=
  loopTo (fun j => if a.word j = 0 then pure () else bfree (a.word j)) NINDIRECT

/-- `itrunc`'s treatment of the indirect block. -/
def truncIndirect (ip : Nat) : K Unit := do
  let k ← get
  if (k.icopy ip).addrs NDIRECT = 0 then pure ()
  else do
    truncEntries (k.data ((k.icopy ip).addrs NDIRECT))
    bfree ((k.icopy ip).addrs NDIRECT)
    setAddr ip NDIRECT 0

/-- `itrunc`. -/
def itrunc (ip : Nat) : K Unit := do
  truncDirect ip
  truncIndirect ip
  modify fun k => k.setCopy ip { k.icopy ip with size := 0 }
  iupdate ip

/-- The test of `iput`: drop the reference, unless it is the last one to an
inode without links.  Then the inode is marked busy and must be freed. -/
def iputCheck (ip : Nat) : K Bool := do
  let k ← get
  if (k.icache ip).ref = 1 ∧ (k.icache ip).valid ∧ (k.icopy ip).nlink = 0 then
    if (k.icache ip).busy.isSome then panic .iputBusy
    else do
      modify fun k => k.setEntry ip { k.icache ip with busy := some k.cur }
      return true
  else do
    modify fun k => k.setEntry ip { k.icache ip with ref := (k.icache ip).ref - 1 }
    return false

/-- The freeing part of `iput`. -/
def iputFree (ip : Nat) : K Unit := do
  itrunc ip
  modify fun k => k.setCopy ip { k.icopy ip with type := .free }
  iupdate ip
  modify fun k => k.setEntry ip ⟨(k.icache ip).ref - 1, none, false⟩

/-- The transfer loop of `readi`, with `n` bytes left. -/
def readLoop (ip : Nat) : Nat → Nat → Nat → K (List UInt8)
  | 0, _, _ => return []
  | fuel + 1, off, n =>
      if n = 0 then return []
      else do
        let b ← bmap ip (off / BSIZE)
        let k ← get
        let m := min n (BSIZE - off % BSIZE)
        let rest ← readLoop ip fuel (off + m) (n - m)
        return (List.range m).map (fun o => k.data b (off % BSIZE + o)) ++ rest

/-- `readi`: `none` is the return value -1, `some` the bytes it stored. -/
def readi (ip off n : Nat) : K (Option (List UInt8)) := do
  let k ← get
  let d := k.icopy ip
  if d.type = .dev then
    if d.major < 0 ∨ NDEV ≤ d.major then return none
    else
      match (k.devsw d.major.toNat).read with
      | none => return none
      | some f => do
          modify fun k => { k with devCalls := k.devCalls + 1 }
          return f k.devCalls n
  else if off > d.size ∨ (off + n) % UINT < off then return none
  else do
    let n := if (off + n) % UINT > d.size then d.size - off else n
    let bytes ← readLoop ip n off n
    return some bytes

/-- The transfer loop of `writei`, with `n` bytes left. -/
def writeLoop (ip : Nat) : Nat → (Nat → UInt8) → Nat → Nat → K Unit
  | 0, _, _, _ => return ()
  | fuel + 1, src, off, n =>
      if n = 0 then return ()
      else do
        let b ← bmap ip (off / BSIZE)
        let m := min n (BSIZE - off % BSIZE)
        modify fun k => k.setData b ((k.data b).copyIn (off % BSIZE) m src)
        logWrite b
        writeLoop ip fuel (fun o => src (o + m)) (off + m) (n - m)

/-- The end of `writei`: record that the file now reaches `off`. -/
def growSize (ip off n : Nat) : K Unit := do
  let k ← get
  if n > 0 ∧ off > (k.icopy ip).size then do
    modify fun k => k.setCopy ip { k.icopy ip with size := off }
    iupdate ip
  else pure ()

/-- `writei`: the return value. -/
def writei (ip : Nat) (src : Nat → UInt8) (off n : Nat) : K Int := do
  let k ← get
  let d := k.icopy ip
  if d.type = .dev then
    if d.major < 0 ∨ NDEV ≤ d.major then return -1
    else
      match (k.devsw d.major.toNat).write with
      | none => return -1
      | some f => do
          modify fun k => { k with devCalls := k.devCalls + 1 }
          return f k.devCalls n
  else if off > d.size ∨ (off + n) % UINT < off then return -1
  else if (off + n) % UINT > MAXFILE * BSIZE then return -1
  else do
    writeLoop ip n src off n
    growSize ip (off + n) n
    return n

end Xv6.Kernel
