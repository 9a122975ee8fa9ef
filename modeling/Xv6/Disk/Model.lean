import Mathlib.Data.List.Dedup
import Mathlib.Tactic.Simps.Basic
import Xv6.Framework.Bytes
import Xv6.Framework.Cmd
import Xv6.Param

/-!
# Blocks, inodes and their contents (`fs.c`)

The functions of `fs.c` that work on the blocks of the disk: the free map, the
inodes on disk and the contents of an inode, as one process runs them that has
locked the inode `ip`.

`block` has the blocks as the buffer cache has them. Of the cache itself there
is what can stop the code: a block that the process has locked already, so that
it waits for itself, and the buffers in use, which are those that are locked
(`held`) and those that the log has pinned (`lh`). There is only one disk, so
`dev` is left out.

A loop of the source is a recursion that has as many turns as the loop at most;
the tests of the loop are those of the source.
-/

namespace Xv6.Disk

open Function

/-- The bits of a block of the free map. -/
abbrev bpb : Nat := bsize * 8
/-- The size of `struct dinode`. -/
abbrev dinodeSize : Nat := 64
/-- The inodes of a block. -/
abbrev ipb : Nat := bsize / dinodeSize

/-- `struct superblock`. -/
structure Superblock where
  size : Nat
  ninodes : Nat
  nlog : Nat
  logstart : Nat
  inodestart : Nat
  bmapstart : Nat
  deriving DecidableEq

/-- The block that has inode `i`. -/
def iblock (i : Nat) (sb : Superblock) : Nat := i / ipb + sb.inodestart

/-- The block of the free map that has the bit for block `b`. -/
def bblock (b : Nat) (sb : Superblock) : Nat := b / bpb + sb.bmapstart

/-- What `struct inode` and `struct dinode` have in common. -/
structure Inode where
  type : BitVec 16
  major : BitVec 16
  minor : BitVec 16
  nlink : BitVec 16
  size : Nat
  /-- The first `NDIRECT + 1` of them are there. -/
  addrs : Nat → Nat

/-- The inode with another address. -/
def Inode.setAddr (x : Inode) (k addr : Nat) : Inode := { x with addrs := update x.addrs k addr }

@[simp] theorem Inode.setAddr_self (x : Inode) (k addr : Nat) : (x.setAddr k addr).addrs k = addr := update_self ..

theorem Inode.setAddr_of_ne (x : Inode) {k j : Nat} (addr : Nat) (h : j ≠ k) : (x.setAddr k addr).addrs j = x.addrs j :=
  update_of_ne h ..

def Inode.withSize (x : Inode) (size : Nat) : Inode := { x with size }

/-- `log.outstanding` and `log.lh.block`. -/
structure Log where
  outstanding : Nat
  lh : List Nat

structure State where
  sb : Superblock
  block : Nat → Bytes
  held : List Nat
  log : Log
  inum : Nat
  ip : Inode

namespace State

@[simps -fullyApplied sb held log inum ip]
def setBlock (s : State) (b : Nat) (data : Bytes) : State := { s with block := update s.block b data }

def withHeld (s : State) (held : List Nat) : State := { s with held }

def withLh (s : State) (lh : List Nat) : State := { s with log := { s.log with lh } }

def withIp (s : State) (ip : Inode) : State := { s with ip }

end State

abbrev DCmd := Cmd State

/-! ## `bio.c` and `log.c` -/

/-- The buffers in use, by their blocks. -/
def State.inUse (s : State) : List Nat := (s.held ++ s.log.lh).dedup

def bread (b : Nat) : DCmd Unit := do
  let s ← .get id
  if b ∈ s.held then .hang
  else if b ∉ s.inUse ∧ nbuf ≤ s.inUse.length then .panic "bget: no buffers"
  else Cmd.modify fun s => s.withHeld (b :: s.held)

def brelse (b : Nat) : DCmd Unit := Cmd.modify fun s => s.withHeld (s.held.erase b)

/-- The bytes of a block. -/
def data (b : Nat) : DCmd Bytes := .get (·.block b)

def setData (b : Nat) (m : Bytes) : DCmd Unit := Cmd.modify (·.setBlock b m)

def logWrite (b : Nat) : DCmd Unit := do
  let s ← .get id
  if s.log.lh.length ≥ logsize ∨ (s.log.lh.length : Int) ≥ (s.sb.nlog : Int) - 1 then .panic "too big a transaction"
  else if s.log.outstanding < 1 then .panic "log_write outside of trans"
  else if b ∈ s.log.lh then return
  else Cmd.modify fun s => s.withLh (s.log.lh ++ [b])

/-- The end of a change of a locked buffer. -/
def writeBack (b : Nat) (m : Bytes) : DCmd Unit := do
  setData b m
  logWrite b
  brelse b

/-! ## Blocks -/

def bzero (b : Nat) : DCmd Unit := do
  bread b
  writeBack b fun _ => 0

/-- The bit of block `b` in the byte. -/
def mask (bi : Nat) : Nat := 1 <<< (bi % 8)

/-- Is bit `bi` of the block set? -/
def testBit (m : Bytes) (bi : Nat) : Bool := (m (bi / 8)).toNat &&& mask bi ≠ 0

def setBit (m : Bytes) (bi : Nat) : Bytes :=
  update m (bi / 8) (UInt8.ofNat ((m (bi / 8)).toNat ||| mask bi))

/-- The inner loop of `balloc`, from bit `bi` on: the first bit that is 0. -/
def freeBit (m : Bytes) (b size : Nat) : Nat → Nat → Option Nat
  | 0, _ => none
  | turns + 1, bi =>
    if bi < bpb ∧ b + bi < size then
      if testBit m bi then freeBit m b size turns (bi + 1) else some bi
    else none

/-- The loop of `balloc`. -/
def ballocFrom : Nat → Nat → DCmd Nat
  | 0, _ => .hang
  | turns + 1, b => do
    let sb ← .get State.sb
    if b < sb.size then
      bread (bblock b sb)
      let m ← data (bblock b sb)
      match freeBit m b sb.size bpb 0 with
      | some bi =>
        writeBack (bblock b sb) (setBit m bi)
        bzero (b + bi)
        return b + bi
      | none =>
        brelse (bblock b sb)
        ballocFrom turns (b + bpb)
    else .panic "balloc: out of blocks"

/-- Allocate a zeroed disk block. -/
def balloc : DCmd Nat := do
  let sb ← .get State.sb
  ballocFrom (sb.size / bpb + 2) 0

/-! ## Inodes -/

/-- The addresses of a `struct dinode` that begins at `o`. -/
def getAddrs (m : Bytes) (o : Nat) : Nat → Nat := fun k => if k < ndirect + 1 then getLE m (o + 12 + 4 * k) 4 else 0

/-- The first `n` addresses stored in a `struct dinode` that begins at `o`. -/
def putAddrs (m : Bytes) (o : Nat) (addrs : Nat → Nat) : Nat → Bytes
  | 0 => m
  | n + 1 => putLE (putAddrs m o addrs n) (o + 12 + 4 * n) 4 (addrs n)

/-- The `struct dinode` that begins at `o`. -/
def getDinode (m : Bytes) (o : Nat) : Inode where
  type := .ofNat 16 (getLE m o 2)
  major := .ofNat 16 (getLE m (o + 2) 2)
  minor := .ofNat 16 (getLE m (o + 4) 2)
  nlink := .ofNat 16 (getLE m (o + 6) 2)
  size := getLE m (o + 8) 4
  addrs := getAddrs m o

def putDinode (m : Bytes) (o : Nat) (x : Inode) : Bytes :=
  let m := putLE m o 2 x.type.toNat
  let m := putLE m (o + 2) 2 x.major.toNat
  let m := putLE m (o + 4) 2 x.minor.toNat
  let m := putLE m (o + 6) 2 x.nlink.toNat
  let m := putLE m (o + 8) 4 x.size
  putAddrs m o x.addrs (ndirect + 1)

/-- Where an inode is in its block. -/
def ioff (i : Nat) : Nat := i % ipb * dinodeSize

/-- Copy a modified in-memory inode to disk. -/
def iupdate : DCmd Unit := do
  let s ← .get id
  bread (iblock s.inum s.sb)
  let m ← data (iblock s.inum s.sb)
  writeBack (iblock s.inum s.sb) (putDinode m (ioff s.inum) s.ip)

/-! ## The contents of an inode -/

def setAddr (k addr : Nat) : DCmd Unit := Cmd.modify fun s => s.withIp (s.ip.setAddr k addr)

/-- The address `ip->addrs[k]`, where a block is allocated if there is none. -/
def allocAddr (k : Nat) : DCmd Nat := do
  let addr ← .get (·.ip.addrs k)
  if addr = 0 then
    let addr ← balloc
    setAddr k addr
    return addr
  else return addr

/-- What `bmap` does in the indirect block. -/
def mapIndirect (ind j : Nat) : DCmd Nat := do
  bread ind
  let a ← data ind
  let addr := getLE a (4 * j) 4
  if addr = 0 then
    let addr ← balloc
    let a ← data ind
    writeBack ind (putLE a (4 * j) 4 addr)
    return addr
  else
    brelse ind
    return addr

/-- The disk block address of block `bn` of the inode. If there is no such block,
`bmap` allocates one. -/
def bmap (bn : Nat) : DCmd Nat := do
  if bn < ndirect then allocAddr bn
  else if bn - ndirect < nindirect then mapIndirect (← allocAddr ndirect) (bn - ndirect)
  else .panic "bmap: out of range"

/-- Memory as `either_copyin` reads it: a byte at each address that can be
accessed, of the user's memory or of the kernel's. -/
abbrev Mem := BitVec 64 → Option UInt8

/-- The bytes that `either_copyin` copies, up to the first that cannot be
accessed. It returns 0 if these are all `n`. -/
def copyin (mem : Mem) (src : BitVec 64) : Nat → List UInt8
  | 0 => []
  | n + 1 => match mem src with
    | none => []
    | some x => x :: copyin mem (src + 1) n

/-- The bytes `l` stored at `o`. -/
def store (m : Bytes) (o : Nat) (l : List UInt8) : Bytes := fun x => if o ≤ x then l.getD (x - o) (m x) else m x

/-- The `n` bytes at `o`. -/
def slice (m : Bytes) (o n : Nat) : List UInt8 := (List.range n).map fun i => m (o + i)

/-- The loop of `readi`, which has read `tot` of `n` bytes. `ok` says whether
`either_copyout` of the next `m` bytes returns 0. The value is what was copied. -/
def readLoop (ok : Nat → Nat → Bool) (n : Nat) : Nat → Nat → Nat → DCmd (List UInt8)
  | 0, _, _ => .hang
  | turns + 1, tot, off =>
    if tot < n then do
      let addr ← bmap (off / bsize)
      bread addr
      let m := min (n - tot) (bsize - off % bsize)
      let bytes := slice (← data addr) (off % bsize) m
      if ok tot m then
        brelse addr
        return bytes ++ (← readLoop ok n turns (tot + m) (off + m))
      else
        brelse addr
        return []
    else return []

/-- Read data from the inode. -/
def readi (ok : Nat → Nat → Bool) (off n : BitVec 32) : DCmd (List UInt8) := do
  let size ← .get (·.ip.size)
  if off.toNat > size ∨ off + n < off then return []
  else
    let n := if (off + n).toNat > size then size - off.toNat else n.toNat
    readLoop ok n (n + 1) 0 off.toNat

/-- The loop of `writei`, which has written `tot` of `n` bytes. The value is `off`
at its end. -/
def writeLoop (mem : Mem) (n : Nat) : Nat → Nat → Nat → BitVec 64 → DCmd Nat
  | 0, _, _, _ => .hang
  | turns + 1, tot, off, src =>
    if tot < n then do
      let addr ← bmap (off / bsize)
      bread addr
      let m := min (n - tot) (bsize - off % bsize)
      let bytes := copyin mem src m
      setData addr (store (← data addr) (off % bsize) bytes)
      if bytes.length < m then
        brelse addr
        return off
      else
        logWrite addr
        brelse addr
        writeLoop mem n turns (tot + m) (off + m) (src + .ofNat 64 m)
    else return off

/-- Write data to the inode. -/
def writei (mem : Mem) (src : BitVec 64) (off n : BitVec 32) : DCmd Int := do
  let size ← .get (·.ip.size)
  if off.toNat > size ∨ off + n < off then return -1
  else if (off + n).toNat > maxfile * bsize then return -1
  else
    let off ← writeLoop mem n.toNat (n.toNat + 1) 0 off.toNat src
    if 0 < n then
      Cmd.modify fun s => if off > s.ip.size then s.withIp (s.ip.withSize off) else s
      iupdate
    return n.toInt

end Xv6.Disk
