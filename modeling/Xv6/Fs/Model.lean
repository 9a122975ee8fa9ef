import Mathlib.Tactic.Simps.Basic
import Xv6.Framework.Bytes
import Xv6.Framework.Eff
import Xv6.Param

/-!
# Inodes and directories (`fs.c`)

The inode cache, directories and path names, as programs that run alone: one
system call at a time. What is in memory is in `Core`. The disk is reached
through the operations `LowOp`: allocating an inode, reading it into the cache
and writing it back, and the contents of an inode. `Fs.Node` gives them a
meaning on a table of inodes.

Sleep locks are left out: with one call at a time nobody else holds them.
-/

namespace Xv6.Fs

open Function

/-! ## Data -/

/-- `T_DIR`, `T_FILE` and `T_DEVICE`. -/
abbrev tDir : BitVec 16 := 1
abbrev tFile : BitVec 16 := 2
abbrev tDevice : BitVec 16 := 3

/-- A name without the NUL that ends it, unless it has `DIRSIZ` bytes. -/
abbrev Name := List UInt8

/-- `struct dirent`. -/
structure Dirent where
  inum : Nat
  name : Name
  deriving DecidableEq

/-- The fields of `struct dinode` other than the addresses of its blocks. -/
structure Attrs where
  type : BitVec 16 := 0
  major : BitVec 16 := 0
  minor : BitVec 16 := 0
  nlink : BitVec 16 := 0
  size : Nat := 0
  deriving DecidableEq

namespace Attrs

@[simps]
def withType (x : Attrs) (type : BitVec 16) : Attrs := { x with type }

@[simps]
def withNlink (x : Attrs) (nlink : BitVec 16) : Attrs := { x with nlink }

@[simps]
def withSize (x : Attrs) (size : Nat) : Attrs := { x with size }

/-- A new inode gets its device numbers and its first link. -/
def init (x : Attrs) (major minor : BitVec 16) : Attrs := { x with major, minor, nlink := 1 }

end Attrs

/-- `struct inode`, without the addresses of its blocks. -/
structure Inode where
  dev : Nat := 0
  inum : Nat := 0
  ref : Nat := 0
  valid : Bool := false
  attrs : Attrs := {}
  deriving DecidableEq

/-- An entry of the inode cache. -/
abbrev Slot := Fin ninode

/-- An entry of the file table. -/
abbrev FileId := Fin nfile

abbrev Fd := Fin nofile

inductive FdType where
  | none
  | pipe
  | inode
  | device
  deriving DecidableEq

/-- `struct file`. -/
structure File where
  type : FdType := .none
  ref : Nat := 0
  readable : Bool := false
  writable : Bool := false
  /-- The page of the pipe. -/
  pipe : Nat := 0
  ip : Slot := 0
  off : Nat := 0
  major : BitVec 16 := 0
  deriving DecidableEq

/-- The file as an end of the pipe. -/
def File.pipeEnd (x : File) (pi : Nat) (writable : Bool) : File :=
  { x with type := .pipe, readable := !writable, writable, pipe := pi }

def File.withRef (x : File) (ref : Nat) : File := { x with ref }

/-- The file without its last reference. -/
def File.closed (x : File) : File := { x with ref := 0, type := .none }

/-- The ends of a pipe that are open. -/
structure Ends where
  readopen : Bool
  writeopen : Bool
  deriving DecidableEq

/-- Close the end for writing, or that for reading. The pipe is freed when both
are closed. -/
def Ends.close (e : Ends) (writable : Bool) : Option Ends :=
  let e := if writable then { e with writeopen := false } else { e with readopen := false }
  if !e.readopen && !e.writeopen then none else some e

/-- What a process has of the file system. -/
structure Proc where
  used : Bool := false
  cwd : Option Slot := none
  ofile : Fd → Option FileId := fun _ => none

def Proc.withCwd (x : Proc) (cwd : Option Slot) : Proc := { x with cwd }

def Proc.withUsed (x : Proc) (used : Bool) : Proc := { x with used }

/-- The process with another file for a descriptor. -/
def Proc.setFd (x : Proc) (fd : Fd) (f : Option FileId) : Proc := { x with ofile := update x.ofile fd f }

/-- History variables, which no step reads. -/
structure Hist where
  /-- An `nlink` of 32767 has been incremented. -/
  negative : Bool := false
  /-- An `nlink` of -1 has been incremented. -/
  wrapped : Bool := false
  /-- The last link to an inode was removed while the inode was in use. -/
  kept : Bool := false
  deriving DecidableEq

/-- The kernel's memory. -/
structure Core where
  icache : Slot → Inode
  file : FileId → File
  proc : Pid → Proc
  /-- The pages that are pipes. -/
  pipe : Nat → Option Ends
  hist : Hist

/-- The pages of a user's memory that are mapped, by their numbers. -/
abbrev UserMem := Nat → Option Bytes

/-! ## Operations -/

/-- The operations on the disk. They get the rest of an inode, such as its
number, from the inode cache. -/
inductive LowOp : Type → Type where
  /-- The loop of `ialloc`: find a free inode, and mark it as allocated. -/
  | ialloc (type : BitVec 16) : LowOp Nat
  /-- `ilock` reads the inode. -/
  | load (b : Slot) : LowOp Attrs
  | iupdate (b : Slot) : LowOp Unit
  | itrunc (b : Slot) : LowOp Unit
  /-- `readi(ip, 0, &de, off, sizeof(de))`, if it reads all of it. -/
  | readDirent (b : Slot) (off : Nat) : LowOp (Option Dirent)
  /-- `writei(ip, 0, &de, off, sizeof(de))`: the new size. -/
  | writeDirent (b : Slot) (off : Nat) (de : Dirent) : LowOp (Option Nat)
  /-- `readi` to kernel memory. -/
  | readKernel (b : Slot) (off n : Nat) : LowOp Nat
  /-- `readi(ip, 1, dst, off, n)`. -/
  | readUser (b : Slot) (mem : UserMem) (dst off n : Nat) : LowOp Nat
  /-- `writei(ip, 1, src, off, n)`: the new size. -/
  | writeUser (b : Slot) (mem : UserMem) (src off n : Nat) : LowOp (Option Nat)
  | beginOp : LowOp Unit
  | endOp : LowOp Unit

inductive Op : Type → Type 1 where
  | core {β : Type} (f : Core → Res Core β) : Op β
  | low {β : Type} (o : LowOp β) : Op β

abbrev FsProg := Eff Op

/-- The memory, and what is below. -/
structure St (L : Type) where
  core : Core
  low : L

@[simps]
def St.withCore {L : Type} (s : St L) (c : Core) : St L := ⟨c, s.low⟩

@[simps]
def St.withLow {L : Type} (s : St L) (l : L) : St L := ⟨s.core, l⟩

/-- The meaning of the operations on the disk. They read the inode cache. -/
abbrev LowHandler (L : Type) := (β : Type) → LowOp β → Core → L → Res L β

/-- The meaning of all operations. -/
def handler {L : Type} (h : LowHandler L) : Handler Op (St L)
  | _, .core f, s => match f s.core with
    | .ok b c => .ok b (s.withCore c)
    | .wait => .wait
    | .panic m => .panic m
  | β, .low o, s => match h β o s.core s.low with
    | .ok b l => .ok b (s.withLow l)
    | .wait => .wait
    | .panic m => .panic m

namespace Core

@[simps -fullyApplied file proc pipe hist]
def setInode (c : Core) (b : Slot) (ip : Inode) : Core := { c with icache := update c.icache b ip }

/-- The entry `b` gets the attributes `x`. -/
@[simps! -fullyApplied file proc pipe hist]
def setAttrs (c : Core) (b : Slot) (x : Attrs) : Core := c.setInode b { c.icache b with attrs := x }

@[simps -fullyApplied icache proc pipe hist]
def setFile (c : Core) (f : FileId) (x : File) : Core := { c with file := update c.file f x }

@[simps -fullyApplied icache file pipe hist]
def setProc (c : Core) (p : Pid) (x : Proc) : Core := { c with proc := update c.proc p x }

@[simps -fullyApplied icache file proc hist]
def setPipe (c : Core) (pi : Nat) (e : Option Ends) : Core := { c with pipe := update c.pipe pi e }

@[simps -fullyApplied icache file proc pipe hist]
def setHist (c : Core) (h : Hist) : Core := { c with hist := h }

section Fields

variable (c : Core) (a b : Slot) (ip : Inode) (f : FileId) (x : File) (p : Pid) (y : Proc) (h : Hist)

@[simp] theorem setInode_self : (c.setInode b ip).icache b = ip := update_self ..
@[simp] theorem setInode_idem (ip' : Inode) : (c.setInode b ip).setInode b ip' = c.setInode b ip' := by
  simp [setInode]
@[simp] theorem setFile_idem (x' : File) : (c.setFile f x).setFile f x' = c.setFile f x' := by
  simp [setFile]
@[simp] theorem setFile_id : c.setFile f (c.file f) = c := by
  simp [setFile]
@[simp] theorem setFile_self : (c.setFile f x).file f = x := update_self ..
@[simp] theorem setProc_id : c.setProc p (c.proc p) = c := by
  simp [setProc]
@[simp] theorem setProc_self : (c.setProc p y).proc p = y := update_self ..
variable (z : Attrs)

@[simp] theorem setAttrs_self : (c.setAttrs b z).icache b = { c.icache b with attrs := z } := setInode_self ..
@[simp] theorem setAttrs_idem (z' : Attrs) : (c.setAttrs b z).setAttrs b z' = c.setAttrs b z' := by
  simp [setAttrs]
@[simp] theorem setInode_setAttrs : (c.setAttrs b z).setInode b ip = c.setInode b ip := setInode_idem ..

variable {f} in
theorem setFile_of_ne {f' : FileId} (h : f' ≠ f) : (c.setFile f x).file f' = c.file f' := update_of_ne h ..

variable {p} in
theorem setProc_of_ne {q : Pid} (h : q ≠ p) : (c.setProc p y).proc q = c.proc q := update_of_ne h ..

variable {a b} in
theorem setInode_of_ne (h : a ≠ b) : (c.setInode b ip).icache a = c.icache a := update_of_ne h ..

end Fields

end Core

section Fields

variable {L : Type} (c : Core) (l : L)

@[simp] theorem St.withCore_mk (c' : Core) : (St.mk c l).withCore c' = ⟨c', l⟩ := rfl
@[simp] theorem St.withLow_mk (l' : L) : (St.mk c l).withLow l' = ⟨c, l'⟩ := rfl

end Fields

def low {α : Type} (o : LowOp α) : FsProg α := .call (.low o)

def get {α : Type} (f : Core → α) : FsProg α := .call (.core fun c => .ok (f c) c)

def modify (f : Core → Core) : FsProg Unit := .call (.core fun c => .ok () (f c))

def stop {α : Type} (msg : String) : FsProg α := .call (.core fun _ => .panic msg)

/-! ### Rules -/

section Rules

variable {L : Type} {h : LowHandler L} {P : String → Prop} {s : St L} {α β : Type}

variable {k : α → FsProg β} {Q : β → St L → Prop} {o : LowOp α}

theorem get_spec {f : Core → α} (hk : (k (f s.core)).Spec (handler h) P s Q) :
    (get f >>= k).Spec (handler h) P s Q :=
  Eff.Spec.bind (Q := fun a s' => a = f s.core ∧ s' = s) (.call ⟨rfl, rfl⟩) (by rintro _ _ ⟨rfl, rfl⟩; exact hk)

theorem modify_spec {f : Core → Core} {k : Unit → FsProg β}
    (hk : (k ()).Spec (handler h) P (s.withCore (f s.core)) Q) : (modify f >>= k).Spec (handler h) P s Q :=
  Eff.Spec.bind (Q := fun _ s' => s' = s.withCore (f s.core)) (.call (by exact rfl)) (by rintro _ _ rfl; exact hk)

theorem stop_spec {msg : String} {Q : α → St L → Prop} (hm : P msg) : (stop msg : FsProg α).Spec (handler h) P s Q :=
  Eff.Spec.call hm

theorem core_spec {f : Core → Res Core α} {Q : α → St L → Prop} (hf : (f s.core).Holds (fun a c => Q a (s.withCore c)) P) :
    Eff.Spec (handler h) P s (.call (.core f)) Q := by
  refine .call ?_
  show Res.Holds Q P (match f s.core with
    | .ok b c => .ok b (s.withCore c)
    | .wait => .wait
    | .panic m => .panic m)
  cases hr : f s.core with
  | ok a c => rw [hr] at hf; exact hf
  | wait => rw [hr] at hf; exact hf
  | panic m => rw [hr] at hf; exact hf

theorem low_spec {Q : α → St L → Prop} (ho : (h α o s.core s.low).Holds (fun a l => Q a (s.withLow l)) P) :
    (low o).Spec (handler h) P s Q := by
  refine .call ?_
  show Res.Holds Q P (match h α o s.core s.low with
    | .ok b l => .ok b (s.withLow l)
    | .wait => .wait
    | .panic m => .panic m)
  cases hr : h α o s.core s.low with
  | ok a l => rw [hr] at ho; exact ho
  | wait => rw [hr] at ho; exact ho
  | panic m => rw [hr] at ho; exact ho

theorem low_ok {a : α} {l : L} (ho : h α o s.core s.low = .ok a l)
    (hk : (k a).Spec (handler h) P (s.withLow l) Q) : (low o >>= k).Spec (handler h) P s Q :=
  Eff.Spec.bind (Q := fun a' s' => a' = a ∧ s' = s.withLow l) (low_spec (by rw [ho]; exact ⟨rfl, rfl⟩))
    (by rintro _ _ ⟨rfl, rfl⟩; exact hk)

end Rules

def inode (b : Slot) : FsProg Inode := get (·.icache b)

def setInode (b : Slot) (f : Inode → Inode) : FsProg Unit := modify fun c => c.setInode b (f (c.icache b))

def setAttrs (b : Slot) (f : Attrs → Attrs) : FsProg Unit := modify fun c => c.setAttrs b (f (c.icache b).attrs)

def beginOp : FsProg Unit := low .beginOp

def endOp : FsProg Unit := low .endOp

/-! ## Inodes -/

/-- The first entry of a table that satisfies `q`. -/
def first {n : Nat} (q : Fin n → Bool) : Option (Fin n) := (List.finRange n).find? q

/-- Find the inode in the cache, or recycle an entry. -/
def iget (dev inum : Nat) : FsProg Slot :=
  .call <| .core fun c =>
    match first fun b => 0 < (c.icache b).ref && (c.icache b).dev = dev && (c.icache b).inum = inum with
    | some b => .ok b (c.setInode b { c.icache b with ref := (c.icache b).ref + 1 })
    | none => match first fun b => (c.icache b).ref = 0 with
      | some b => .ok b (c.setInode b { c.icache b with dev, inum, ref := 1, valid := false })
      | none => .panic "iget: no inodes"

def idup (b : Slot) : FsProg Slot := do
  setInode b fun ip => { ip with ref := ip.ref + 1 }
  return b

def ialloc (dev : Nat) (type : BitVec 16) : FsProg Slot := do
  let inum ← low (.ialloc type)
  iget dev inum

def iupdate (b : Slot) : FsProg Unit := low (.iupdate b)

def ilock (b : Slot) : FsProg Unit := do
  let ip ← inode b
  if ip.ref < 1 then stop "ilock"
  else if ip.valid = false then do
    let attrs ← low (.load b)
    setInode b fun ip => { ip with attrs, valid := true }
    if attrs.type = 0 then stop "ilock: no type"
  else return

def iunlock (b : Slot) : FsProg Unit := do
  if (← inode b).ref < 1 then stop "iunlock"

def itrunc (b : Slot) : FsProg Unit := do
  low (.itrunc b)
  setAttrs b (·.withSize 0)

/-- Drop a reference; the last one to an inode without links frees it. -/
def iput (b : Slot) : FsProg Unit := do
  let ip ← inode b
  if ip.ref = 1 ∧ ip.valid = true ∧ ip.attrs.nlink = 0 then
    itrunc b
    setAttrs b (·.withType 0)
    iupdate b
    setInode b ({ · with valid := false })
  setInode b fun ip => { ip with ref := ip.ref - 1 }

def iunlockput (b : Slot) : FsProg Unit := do
  iunlock b
  iput b

/-- `ip->nlink++`. -/
def incNlink (b : Slot) : FsProg Unit :=
  modify fun c =>
    let k := (c.icache b).attrs.nlink
    (c.setAttrs b ((c.icache b).attrs.withNlink (k + 1))).setHist
      { c.hist with negative := c.hist.negative || k = 32767, wrapped := c.hist.wrapped || k = -1 }

def decNlink (b : Slot) : FsProg Unit :=
  setAttrs b fun x => x.withNlink (x.nlink - 1)

/-! ## Directories -/

/-- The loop `for(off = …; off < size; off += sizeof(de))`, for `k` entries from
`off`; its body may end it with a value. -/
def scan {α : Type} (f : Nat → FsProg (Option α)) : Nat → Nat → FsProg (Option α)
  | 0, _ => return none
  | k + 1, off => do
    match ← f off with
    | some x => return some x
    | none => scan f k (off + 16)

/-- The number of entries that a directory of this size has. -/
def entries (size : Nat) : Nat := (size + 15) / 16

/-- Look for a directory entry, and return the inode and the entry's offset. -/
def dirlookup (dp : Slot) (name : Name) : FsProg (Option (Slot × Nat)) := do
  let ip ← inode dp
  if ip.attrs.type ≠ tDir then stop "dirlookup not DIR"
  else scan (fun off => do
    match ← low (.readDirent dp off) with
    | none => stop "dirlookup read"
    | some de =>
      if de.inum = 0 then return none
      else if de.name = name then return some (← iget ip.dev de.inum, off)
      else return none) (entries ip.attrs.size) 0

/-- Write a directory entry, and the new size. -/
def writeDirent (dp : Slot) (off : Nat) (de : Dirent) : FsProg Bool := do
  match ← low (.writeDirent dp off de) with
  | none => return false
  | some size =>
    setAttrs dp (·.withSize size)
    return true

/-- Write a new directory entry into the directory `dp`. -/
def dirlink (dp : Slot) (name : Name) (inum : Nat) : FsProg Bool := do
  match ← dirlookup dp name with
  | some (ip, _) =>
    iput ip
    return false
  | none =>
    let size := (← inode dp).attrs.size
    let free ← scan (fun off => do
      match ← low (.readDirent dp off) with
      | none => stop "dirlink read"
      | some de => if de.inum = 0 then return some off else return none) (entries size) 0
    if ← writeDirent dp (free.getD (16 * entries size)) ⟨inum % 2 ^ 16, name⟩ then return true
    else stop "dirlink"

/-! ## Paths -/

def slash : UInt8 := 47

def dot : Name := [46]
def dotdot : Name := [46, 46]

/-- A string that `argstr` has fetched. -/
structure Path where
  bytes : List UInt8
  len : bytes.length < maxpath
  nonul : 0 ∉ bytes

/-- The next element of a path, and the rest without leading slashes. -/
def skipelem (path : List UInt8) : Option (Name × List UInt8) :=
  match path.dropWhile (· == slash) with
  | [] => none
  | s => some ((s.takeWhile (· != slash)).take dirsiz, (s.dropWhile (· != slash)).dropWhile (· == slash))

/-- The elements of a path, as `namex` takes them off one by one. -/
def elems (path : List UInt8) : List Name :=
  go path.length path
where
  go : Nat → List UInt8 → List Name
    | 0, _ => []
    | k + 1, path => match skipelem path with
      | none => []
      | some (name, rest) => name :: go k rest

/-- The loop of `namei`. -/
def walk (b : Slot) : List Name → FsProg (Option Slot)
  | [] => return some b
  | name :: rest => do
    ilock b
    if (← inode b).attrs.type ≠ tDir then
      iunlockput b
      return none
    else match ← dirlookup b name with
      | none =>
        iunlockput b
        return none
      | some (next, _) =>
        iunlockput b
        walk next rest

/-- The loop of `nameiparent`, which stops one level early. -/
def walkParent (b : Slot) : List Name → FsProg (Option (Slot × Name))
  | [] => do
    iput b
    return none
  | name :: rest => do
    ilock b
    if (← inode b).attrs.type ≠ tDir then
      iunlockput b
      return none
    else if rest = [] then
      iunlock b
      return some (b, name)
    else match ← dirlookup b name with
      | none =>
        iunlockput b
        return none
      | some (next, _) =>
        iunlockput b
        walkParent next rest

/-- Where `namex` begins: the root, or the current directory. A process
without one would follow a null pointer. -/
def namexStart (p : Pid) (bytes : List UInt8) : FsProg Slot :=
  if bytes.head? = some slash then iget rootdev rootino
  else do
    match ← get fun c => (c.proc p).cwd with
    | none => stop "null pointer"
    | some b => idup b

/-- `namex(path, 0, name)`. -/
def namex (p : Pid) (bytes : List UInt8) : FsProg (Option Slot) := do
  walk (← namexStart p bytes) (elems bytes)

/-- `namex(path, 1, name)`. -/
def namexParent (p : Pid) (bytes : List UInt8) : FsProg (Option (Slot × Name)) := do
  walkParent (← namexStart p bytes) (elems bytes)

def namei (p : Pid) (path : Path) : FsProg (Option Slot) := namex p path.bytes

def nameiparent (p : Pid) (path : Path) : FsProg (Option (Slot × Name)) := namexParent p path.bytes

end Xv6.Fs
