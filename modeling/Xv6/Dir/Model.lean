import Xv6.Framework.Bytes
import Xv6.Framework.Eff
import Xv6.Framework.Slots
import Xv6.Param

/-!
# Directories, byte by byte (`fs.c`, `string.c`)

`dirlookup`, `dirlink` and the part of `sys_unlink` that removes an entry, with
the string functions they use, on the bytes of a directory. They reach the
directory through `readi` and `writei` (`FileOp`); the contents of an inode are
an array of bytes here (`Contents`), and on the disk in `Dir.Disk`.

A name is what a `char *` points to. It ends with a NUL or after `DIRSIZ` bytes,
and what comes then is arbitrary.

The inode that an entry names is its number here. What the functions do with the
inode cache is in `Fs.Model`.
-/

namespace Xv6.Dir

/-! ## `string.c` -/

/-- The bytes after the first one. -/
def next (p : Bytes) : Bytes := fun i => p (i + 1)

def strncmp (p q : Bytes) : Nat → Int
  | 0 => 0
  | n + 1 =>
    if p 0 ≠ 0 ∧ p 0 = q 0 then strncmp (next p) (next q) n
    else (p 0).toNat - (q 0).toNat

/-- The `n` bytes that `strncpy` stores. -/
def strncpy (t : Bytes) : Nat → List UInt8
  | 0 => []
  | n + 1 =>
    if t 0 = 0 then 0 :: List.replicate n 0
    else t 0 :: strncpy (next t) n

/-- The memory with the bytes `src` at its beginning. -/
def memmove (dst : Bytes) (src : List UInt8) : Bytes := fun i => src.getD i (dst i)

def literal (s : List UInt8) : Bytes := fun i => s.getD i 0

/-! ## The contents of an inode -/

abbrev tDir : BitVec 16 := 1

/-- What the code on directories does with the inode. -/
inductive FileOp : Type → Type 1 where
  | type : FileOp (BitVec 16)
  | size : FileOp Nat
  /-- `readi`, into memory of the kernel. -/
  | readi (off n : Nat) : FileOp (List UInt8)
  /-- `writei`, from memory of the kernel. -/
  | writei (off : Nat) (src : List UInt8) : FileOp Int
  | panic {α : Type} (msg : String) : FileOp α

abbrev DirProg := Eff FileOp

/-- An inode's type and contents. -/
structure Contents where
  type : BitVec 16
  data : List UInt8
  fits : data.length ≤ maxfile * bsize

/-- The contents with `src` at the offset `off`. -/
def Contents.write (c : Contents) (off : Nat) (src : List UInt8) (h : off ≤ c.data.length)
    (hmax : off + src.length ≤ maxfile * bsize) : Contents where
  type := c.type
  data := c.data.take off ++ src ++ c.data.drop (off + src.length)
  fits := by
    have := c.fits
    simp only [List.length_append, List.length_take, List.length_drop]
    omega

/-- `readi` and `writei` on an array of bytes. -/
def handler : Handler FileOp Contents
  | _, .type, c => .ok c.type c
  | _, .size, c => .ok c.data.length c
  | _, .readi off n, c => .ok ((c.data.drop off).take n) c
  | _, .writei off src, c =>
    if h : off ≤ c.data.length ∧ off + src.length ≤ maxfile * bsize then .ok src.length (c.write off src h.1 h.2)
    else .ok (-1) c
  | _, .panic msg, _ => .panic msg

/-! ## Directories -/

abbrev direntSize : Nat := 16

def direntInum (de : List UInt8) : Nat := getLE (literal de) 0 2

def direntName (de : List UInt8) : Bytes := fun i => de.getD (2 + i) 0

/-- A `struct dirent`, whose `inum` is a `ushort`. -/
def dirent (inum : Nat) (name : List UInt8) : List UInt8 :=
  UInt8.ofNat inum :: UInt8.ofNat (inum / 256) :: name

def namecmp (s t : Bytes) : Int := strncmp s t dirsiz

/-- The loop `for(off = …; off < size; off += sizeof(de))`, for `k` entries from
`off`; its body may end it with a value. -/
def scan {α : Type} (body : Nat → DirProg (Option α)) : Nat → Nat → DirProg (Option α)
  | 0, _ => return none
  | k + 1, off => do
    match ← body off with
    | some x => return some x
    | none => scan body k (off + direntSize)

/-- The number of entries that the loops go through. -/
def entries (size : Nat) : Nat := (size + (direntSize - 1)) / direntSize

/-- Read the entry at `off`, or panic. -/
def readDirent (off : Nat) (msg : String) : DirProg (List UInt8) := do
  let de ← .call (.readi off direntSize)
  if de.length ≠ direntSize then .call (.panic msg)
  else return de

/-- Look for a directory entry: its `inum`, and its offset. -/
def dirlookup (name : Bytes) : DirProg (Option (Nat × Nat)) := do
  if (← .call .type) ≠ tDir then .call (.panic "dirlookup not DIR")
  else scan (fun off => do
    let de ← readDirent off "dirlookup read"
    if direntInum de = 0 then return none
    else if namecmp name (direntName de) = 0 then return some (direntInum de, off)
    else return none) (entries (← .call .size)) 0

/-- Write a new directory entry. -/
def dirlink (name : Bytes) (inum : Nat) : DirProg Int := do
  match ← dirlookup name with
  | some _ => return -1
  | none =>
    let size ← .call .size
    let free ← scan (fun off => do
      let de ← readDirent off "dirlink read"
      if direntInum de = 0 then return some off
      else return none) (entries size) 0
    let r ← .call (.writei (free.getD (direntSize * entries size)) (dirent inum (strncpy name dirsiz)))
    if r ≠ direntSize then .call (.panic "dirlink")
    else return 0

/-- What `sys_unlink` finds in the inode of an entry. -/
structure Target where
  nlink : BitVec 16
  /-- It is a directory that is not empty. -/
  busy : Bool

/-- Remove a directory entry, as `sys_unlink` does. -/
def unlink (target : Nat → Target) (name : Bytes) : DirProg Int := do
  if namecmp name (literal [46]) = 0 ∨ namecmp name (literal [46, 46]) = 0 then return -1
  else match ← dirlookup name with
    | none => return -1
    | some (inum, off) =>
      if (target inum).nlink.toInt < 1 then .call (.panic "unlink: nlink < 1")
      else if (target inum).busy then return -1
      else
        let r ← .call (.writei off (List.replicate direntSize 0))
        if r ≠ direntSize then .call (.panic "unlink: writei")
        else return 0

/-! ## Paths -/

def slash : UInt8 := 47

/-- Copy the next element of a path into `name`, and return what follows it. A
path ends with a NUL or where the list ends. -/
def skipelem (path : List UInt8) (name : Bytes) : Option (List UInt8 × Bytes) :=
  let s := path.dropWhile (· = slash)
  if s.headD 0 = 0 then none
  else
    let elem := s.takeWhile fun c => c ≠ slash ∧ c ≠ 0
    let name :=
      if elem.length ≥ dirsiz then memmove name (elem.take dirsiz)
      else Function.update (memmove name elem) elem.length 0
    some ((s.dropWhile fun c => c ≠ slash ∧ c ≠ 0).dropWhile (· = slash), name)

end Xv6.Dir
