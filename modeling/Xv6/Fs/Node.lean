import Xv6.Fs.Calls

/-!
# The disk as a table of inodes

The abstract meaning of the operations on the disk. An inode has its
attributes and, if it is a directory, its entries (`Fs.Entries` has them on the
disk); the contents of other files are not in this state. Blocks are not
either: a disk that runs out of blocks panics, and an abstract run goes on.

An operation waits where it has no meaning: it is called for an entry of the
inode cache that is not valid, or that differs from the inode on disk where
it must not. No system call does that.
-/

namespace Xv6.Fs

/-- How far a loop of `readi` or `writei` comes that goes through the `n` bytes
at offset `off` block by block, where `ok i m` says whether the copy of the
piece of `m` bytes at `i` succeeds. -/
def progress (ok : Nat → Nat → Bool) (off n : Nat) : Nat → Nat → Nat
  | 0, tot => tot
  | k + 1, tot => if tot < n then
      let m := min (n - tot) (bsize - (off + tot) % bsize)
      if ok tot m then progress ok off n k (tot + m) else tot
    else tot

/-- How many bytes `copyin` or `copyout` copies at `va` before it comes to a
page that is not mapped. -/
def copyLen (mem : UserMem) : Nat → Nat → Nat → Nat
  | 0, _, _ => 0
  | k + 1, va, len => if 0 < len ∧ (mem (va / pgsize)).isSome then
      let n := min len (pgsize - va % pgsize)
      n + copyLen mem k (va + n) (len - n)
    else 0

/-- `copyin` or `copyout` of `len` bytes succeeds. -/
def copyOk (mem : UserMem) (va len : Nat) : Bool := copyLen mem len va len = len

/-- The bytes that `readi` reads, if the copies succeed. -/
def readLen (size off n : Nat) : Nat :=
  if size < off ∨ (off + n) % 2 ^ 32 < off then 0 else if size < off + n then size - off else n

/-- Whether `writei` accepts to write `n` bytes at `off`. -/
def canWrite (size off n : Nat) : Prop := off ≤ size ∧ off ≤ (off + n) % 2 ^ 32 ∧ off + n ≤ maxfile * bsize

instance (size off n : Nat) : Decidable (canWrite size off n) := inferInstanceAs (Decidable (_ ∧ _ ∧ _))

/-- An inode on disk. -/
structure Node where
  attrs : Attrs := {}
  ents : List Dirent := []
  deriving DecidableEq

def Node.relink (x : Node) (nlink : BitVec 16) : Node := ⟨x.attrs.withNlink nlink, x.ents⟩

def Node.freed (x : Node) : Node := { attrs := (x.attrs.withSize 0).withType 0 }

/-- The directory with the entry `e` at the place `k`, which may be at its end. -/
def Node.put (x : Node) (k : Nat) (e : Dirent) : Node :=
  ⟨x.attrs.withSize (max x.attrs.size (16 * k + 16)), if k < x.ents.length then x.ents.set k e else x.ents ++ [e]⟩

/-- The inodes as they are now, and as of each commit, the last one first: a
crash and the recovery leave the disk as of the last commit. -/
structure Nodes (N : Nat) where
  node : Fin N → Node
  disks : List (Fin N → Node)

variable {N : Nat}

@[simps -fullyApplied node disks]
def Nodes.write (l : Nodes N) (i : Fin N) (x : Node) : Nodes N := { l with node := Function.update l.node i x }

@[simp] theorem Nodes.write_self (l : Nodes N) (i : Fin N) (x : Node) : (l.write i x).node i = x := Function.update_self ..

def Nodes.commit (l : Nodes N) : Nodes N := { l with disks := l.node :: l.disks }

/-- The inode of a cache entry. -/
def Inode.find (ip : Inode) : Option (Fin N) := if h : ip.inum < N then some ⟨ip.inum, h⟩ else none

/-- An operation on the contents of an inode, whose entry of the cache is valid
and has the attributes of the inode. -/
def onContents {β : Type} (b : Slot) (c : Core) (l : Nodes N) (f : Fin N → Node → Res (Nodes N) β) : Res (Nodes N) β :=
  match (c.icache b).find with
  | none => .wait
  | some i => if (c.icache b).valid ∧ 0 < (c.icache b).ref ∧ (c.icache b).attrs = (l.node i).attrs
      then f i (l.node i) else .wait

def nodeHandler : LowHandler (Nodes N)
  | _, .ialloc type, _, l => match first fun i : Fin N => 0 < i.val && (l.node i).attrs.type = 0 with
    | some i => .ok i.val (l.write i { attrs := { type } })
    | none => .panic "ialloc: no inodes"
  | _, .load b, c, l => match (c.icache b).find with
    | some i => .ok (l.node i).attrs l
    | none => .wait
  | _, .iupdate b, c, l => match (c.icache b).find with
    | none => .wait
    | some i =>
      let x := (c.icache b).attrs
      let y := (l.node i).attrs
      if (c.icache b).valid ∧ 0 < (c.icache b).ref ∧ x.size = y.size ∧ (x.type = y.type ∨ x.type = 0 ∧ y.size = 0)
        then .ok () (l.write i { l.node i with attrs := x }) else .wait
  | _, .itrunc b, c, l => onContents b c l fun i x => .ok () (l.write i { attrs := x.attrs.withSize 0 })
  | _, .readDirent b off, c, l => onContents b c l fun _ x =>
      if x.attrs.type = tDir ∧ off % 16 = 0 then .ok (if off + 16 ≤ x.attrs.size then x.ents[off / 16]? else none) l else .wait
  | _, .writeDirent b off de, c, l => onContents b c l fun i x =>
      if x.attrs.type = tDir ∧ off % 16 = 0 ∧ de.inum < 2 ^ 16 ∧ de.name.length ≤ dirsiz ∧ 0 ∉ de.name then
        if canWrite x.attrs.size off 16 then
          .ok (some (x.put (off / 16) de).attrs.size) (l.write i (x.put (off / 16) de))
        else .ok none l
      else .wait
  | _, .readKernel b off n, c, l => onContents b c l fun _ x => .ok (readLen x.attrs.size off n) l
  | _, .readUser b mem dst off n, c, l => onContents b c l fun _ x =>
      let n := readLen x.attrs.size off n
      .ok (progress (fun i m => copyOk mem (dst + i) m) off n n 0) l
  | _, .writeUser b mem src off n, c, l => onContents b c l fun i x =>
      if x.attrs.type ≠ tDir then
        if canWrite x.attrs.size off n then
          let size := max x.attrs.size (off + progress (fun i m => copyOk mem (src + i) m) off n n 0)
          .ok (some size) (l.write i { x with attrs := x.attrs.withSize size })
        else .ok none l
      else .wait
  | _, .beginOp, _, l => .ok () l
  | _, .endOp, _, l => .ok () l.commit

end Xv6.Fs
