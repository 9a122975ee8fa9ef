import Xv6.Fs.Model

/-!
# Files and system calls (`file.c`, `sysfile.c`)

The file table, the file descriptors and the system calls. What a system call
gets from outside is an argument of the call: a path if `argstr` has fetched
one, the user's memory, what `kalloc` and `copyout` return, and what a device
or a pipe returns where bytes are read or written there.
-/

namespace Xv6.Fs

/-! ## `file.c` -/

def filealloc : FsProg (Option FileId) :=
  .call <| .core fun c => match first fun f => (c.file f).ref = 0 with
    | some f => .ok (some f) (c.setFile f ((c.file f).withRef 1))
    | none => .ok none c

def filedup (f : FileId) : FsProg Unit :=
  .call <| .core fun c =>
    if (c.file f).ref < 1 then .panic "filedup"
    else .ok () (c.setFile f ((c.file f).withRef ((c.file f).ref + 1)))

/-- `pipeclose`; a page that is no pipe would be used after it was freed. -/
def pipeclose (pi : Nat) (writable : Bool) : FsProg Unit :=
  .call <| .core fun c => match c.pipe pi with
    | none => .panic "use after free"
    | some e => .ok () (c.setPipe pi (e.close writable))

def fileclose (f : FileId) : FsProg Unit := do
  let ff ← get (·.file f)
  if ff.ref < 1 then stop "fileclose"
  else if 0 < ff.ref - 1 then modify fun c => c.setFile f (ff.withRef (ff.ref - 1))
  else
    modify fun c => c.setFile f ff.closed
    match ff.type with
    | .pipe => pipeclose ff.pipe ff.writable
    | .inode | .device =>
      beginOp
      iput ff.ip
      endOp
    | .none => return

/-- `stati` and `copyout`; the inode is only read. -/
def filestat (f : FileId) (copied : Bool) : FsProg Int := do
  let ff ← get (·.file f)
  match ff.type with
  | .inode | .device =>
    ilock ff.ip
    iunlock ff.ip
    return if copied then 0 else -1
  | _ => return -1

/-- Is there a driver for this device? Only the console has one. -/
def hasDriver (major : BitVec 16) : Bool :=
  !(major.toInt < 0 || (ndev : Int) ≤ major.toInt) && major.toInt = (console : Int)

/-- A 32-bit `int` as an `unsigned int`. -/
def uint (n : Int) : Nat := (n % 2 ^ 32).toNat

/-- `fileread`; `r` is what a pipe or a device returns. -/
def fileread (f : FileId) (mem : UserMem) (addr : Nat) (n r : Int) : FsProg Int := do
  let ff ← get (·.file f)
  if ff.readable = false then return -1
  else match ff.type with
    | .pipe => return r
    | .device => return if hasDriver ff.major then r else -1
    | .inode =>
      ilock ff.ip
      let r ← low (.readUser ff.ip mem addr ff.off (uint n))
      modify fun c => c.setFile f { c.file f with off := ((c.file f).off + r) % 2 ^ 32 }
      iunlock ff.ip
      return r
    | .none => stop "fileread"

/-- `writei(ip, 1, src, off, n)`. -/
def writeUser (b : Slot) (mem : UserMem) (src off n : Nat) : FsProg Bool := do
  match ← low (.writeUser b mem src off n) with
  | none => return false
  | some size =>
    setAttrs b (·.withSize size)
    return true

/-- The most that one transaction of `filewrite` writes. -/
def maxWrite : Nat := ((maxopblocks - 1 - 1 - 2) / 2) * bsize

/-- The loop of `filewrite`, which has written `i` of `n` bytes and has at most
`k` iterations to go. -/
def filewriteLoop (f : FileId) (b : Slot) (mem : UserMem) (addr n : Nat) : Nat → Nat → FsProg Nat
  | 0, i => return i
  | k + 1, i => if i < n then do
      let n1 := min (n - i) maxWrite
      beginOp
      ilock b
      let off := (← get (·.file f)).off
      let ok ← writeUser b mem (addr + i) off n1
      if ok then modify fun c => c.setFile f { c.file f with off := ((c.file f).off + n1) % 2 ^ 32 }
      iunlock b
      endOp
      if ok then filewriteLoop f b mem addr n k (i + n1)
      else return i
    else return i

/-- `filewrite`; `r` is what a pipe or a device returns. -/
def filewrite (f : FileId) (mem : UserMem) (addr : Nat) (n r : Int) : FsProg Int := do
  let ff ← get (·.file f)
  if ff.writable = false then return -1
  else match ff.type with
    | .pipe => return r
    | .device => return if hasDriver ff.major then r else -1
    | .inode =>
      let i ← filewriteLoop f ff.ip mem addr n.toNat n.toNat 0
      return if (i : Int) = n then n else -1
    | .none => stop "filewrite"

/-! ## File descriptors -/

/-- `argfd`: the open file of a descriptor that a user passes. -/
def argfd (p : Pid) (fd : Int) : FsProg (Option (Fd × FileId)) :=
  get fun c => if h : 0 ≤ fd ∧ fd < nofile then
      let fd : Fd := ⟨fd.toNat, by omega⟩
      ((c.proc p).ofile fd).map fun f => (fd, f)
    else none

def setOfile (p : Pid) (fd : Fd) (f : Option FileId) : FsProg Unit :=
  modify fun c => c.setProc p ((c.proc p).setFd fd f)

def fdalloc (p : Pid) (f : FileId) : FsProg (Option Fd) := do
  match ← get fun c => first fun fd => ((c.proc p).ofile fd).isNone with
  | none => return none
  | some fd =>
    setOfile p fd (some f)
    return some fd

/-! ## `sysfile.c` -/

def sysDup (p : Pid) (fd : Int) : FsProg Int := do
  match ← argfd p fd with
  | none => return -1
  | some (_, f) => match ← fdalloc p f with
    | none => return -1
    | some fd =>
      filedup f
      return fd.val

def sysRead (p : Pid) (fd : Int) (mem : UserMem) (addr : Nat) (n r : Int) : FsProg Int := do
  match ← argfd p fd with
  | none => return -1
  | some (_, f) => fileread f mem addr n r

def sysWrite (p : Pid) (fd : Int) (mem : UserMem) (addr : Nat) (n r : Int) : FsProg Int := do
  match ← argfd p fd with
  | none => return -1
  | some (_, f) => filewrite f mem addr n r

def sysClose (p : Pid) (fd : Int) : FsProg Int := do
  match ← argfd p fd with
  | none => return -1
  | some (fd, f) =>
    setOfile p fd none
    fileclose f
    return 0

def sysFstat (p : Pid) (fd : Int) (copied : Bool) : FsProg Int := do
  match ← argfd p fd with
  | none => return -1
  | some (_, f) => filestat f copied

/-- The error exit of `sys_link`: undo `ip->nlink++`. -/
def unlinkBad (ip : Slot) : FsProg Int := do
  ilock ip
  decNlink ip
  iupdate ip
  iunlockput ip
  endOp
  return -1

/-- The second half of `sys_link`, which has locked the inode. -/
def linkInode (p : Pid) (ip : Slot) (new : Path) : FsProg Int := do
  incNlink ip
  iupdate ip
  iunlock ip
  match ← nameiparent p new with
  | none => unlinkBad ip
  | some (dp, name) =>
    ilock dp
    if (← inode dp).dev ≠ (← inode ip).dev then
      iunlockput dp
      unlinkBad ip
    else if ← dirlink dp name (← inode ip).inum then
      iunlockput dp
      iput ip
      endOp
      return 0
    else
      iunlockput dp
      unlinkBad ip

/-- Create the path `new` as a link to the same inode as `old`. -/
def sysLink (p : Pid) (old new : Option Path) : FsProg Int :=
  match old, new with
  | some old, some new => do
    beginOp
    match ← namei p old with
    | none =>
      endOp
      return -1
    | some ip =>
      ilock ip
      if (← inode ip).attrs.type = tDir then
        iunlockput ip
        endOp
        return -1
      else linkInode p ip new
  | _, _ => return -1

/-- Is the directory empty except for its first two entries? -/
def isdirempty (dp : Slot) : FsProg Bool := do
  let size := (← inode dp).attrs.size
  let found ← scan (fun off => do
    match ← low (.readDirent dp off) with
    | none => stop "isdirempty: readi"
    | some de => if de.inum ≠ 0 then return some () else return none) (entries size - 2) 32
  return found.isNone

/-- `ip->nlink--` in `sys_unlink`. The history says whether the inode stays in
use without links. -/
def dropLink (ip : Slot) : FsProg Unit := do
  modify fun c => c.setHist { c.hist with
    kept := c.hist.kept || ((c.icache ip).attrs.nlink = 1 && 1 < (c.icache ip).ref) }
  decNlink ip

/-- The end of `sys_unlink`: remove the entry and the link. -/
def unlinkInode (dp ip : Slot) (off : Nat) : FsProg Int := do
  if ← writeDirent dp off ⟨0, []⟩ then
    if (← inode ip).attrs.type = tDir then
      decNlink dp
      iupdate dp
    iunlockput dp
    dropLink ip
    iupdate ip
    iunlockput ip
    endOp
    return 0
  else stop "unlink: writei"

def sysUnlink (p : Pid) (path : Option Path) : FsProg Int :=
  match path with
  | none => return -1
  | some path => do
    beginOp
    match ← nameiparent p path with
    | none =>
      endOp
      return -1
    | some (dp, name) =>
      ilock dp
      -- cannot unlink "." or ".."
      if name = dot ∨ name = dotdot then
        iunlockput dp
        endOp
        return -1
      else match ← dirlookup dp name with
        | none =>
          iunlockput dp
          endOp
          return -1
        | some (ip, off) =>
          ilock ip
          let x ← inode ip
          if x.attrs.nlink.toInt < 1 then stop "unlink: nlink < 1"
          else
            let empty ← if x.attrs.type = tDir then isdirempty ip else pure true
            if x.attrs.type = tDir ∧ empty = false then
              iunlockput ip
              iunlockput dp
              endOp
              return -1
            else unlinkInode dp ip off

/-- The second half of `create`: allocate an inode, and write the entry for it
into the directory `dp`. -/
def createInode (dp : Slot) (name : Name) (type major minor : BitVec 16) : FsProg Slot := do
  let ip ← ialloc (← inode dp).dev type
  ilock ip
  setAttrs ip (·.init major minor)
  iupdate ip
  if type = tDir then
    -- for ".."; no ip->nlink++ for "."
    incNlink dp
    iupdate dp
    if ← dirlink ip dot (← inode ip).inum then
      if ← dirlink ip dotdot (← inode dp).inum then pure () else stop "create dots"
    else stop "create dots"
  if ← dirlink dp name (← inode ip).inum then
    iunlockput dp
    return ip
  else stop "create: dirlink"

/-- Create an inode and a name for it, or find the file that has the name. -/
def create (p : Pid) (path : Path) (type major minor : BitVec 16) : FsProg (Option Slot) := do
  match ← nameiparent p path with
  | none => return none
  | some (dp, name) =>
    ilock dp
    match ← dirlookup dp name with
    | some (ip, _) =>
      iunlockput dp
      ilock ip
      let x ← inode ip
      if type = tFile ∧ (x.attrs.type = tFile ∨ x.attrs.type = tDevice) then return some ip
      else
        iunlockput ip
        return none
    | none => return some (← createInode dp name type major minor)

/-- `O_WRONLY`, `O_RDWR`, `O_CREATE` and `O_TRUNC`. -/
def oWronly : BitVec 32 := 0x001
def oRdwr : BitVec 32 := 0x002
def oCreate : BitVec 32 := 0x200
def oTrunc : BitVec 32 := 0x400

/-- The file that `sys_open` makes of an inode. -/
def File.init (x : File) (ip : Slot) (attrs : Attrs) (omode : BitVec 32) : File :=
  { x with
    type := if attrs.type = tDevice then .device else .inode
    major := if attrs.type = tDevice then attrs.major else x.major
    off := if attrs.type = tDevice then x.off else 0
    ip
    readable := omode &&& oWronly = 0
    writable := omode &&& oWronly ≠ 0 ∨ omode &&& oRdwr ≠ 0 }

/-- The end of `sys_open`, which has the inode. -/
def openInode (p : Pid) (ip : Slot) (omode : BitVec 32) : FsProg Int := do
  let x ← inode ip
  if x.attrs.type = tDevice ∧ (x.attrs.major.toInt < 0 ∨ (ndev : Int) ≤ x.attrs.major.toInt) then
    iunlockput ip
    endOp
    return -1
  else match ← filealloc with
    | none =>
      iunlockput ip
      endOp
      return -1
    | some f => match ← fdalloc p f with
      | none =>
        fileclose f
        iunlockput ip
        endOp
        return -1
      | some fd =>
        modify fun c => c.setFile f ((c.file f).init ip x.attrs omode)
        if omode &&& oTrunc ≠ 0 ∧ x.attrs.type = tFile then itrunc ip
        iunlock ip
        endOp
        return fd.val

def sysOpen (p : Pid) (path : Option Path) (omode : BitVec 32) : FsProg Int :=
  match path with
  | none => return -1
  | some path => do
    beginOp
    if omode &&& oCreate ≠ 0 then
      match ← create p path tFile 0 0 with
      | none =>
        endOp
        return -1
      | some ip => openInode p ip omode
    else match ← namei p path with
      | none =>
        endOp
        return -1
      | some ip =>
        ilock ip
        if (← inode ip).attrs.type = tDir ∧ omode ≠ 0 then
          iunlockput ip
          endOp
          return -1
        else openInode p ip omode

/-- `sys_mkdir` and `sys_mknod`. -/
def sysCreate (p : Pid) (path : Option Path) (type major minor : BitVec 16) : FsProg Int := do
  beginOp
  match ← (match path with
    | none => pure none
    | some path => create p path type major minor) with
  | none =>
    endOp
    return -1
  | some ip =>
    iunlockput ip
    endOp
    return 0

def sysMkdir (p : Pid) (path : Option Path) : FsProg Int := sysCreate p path tDir 0 0

def sysMknod (p : Pid) (path : Option Path) (major minor : BitVec 16) : FsProg Int :=
  sysCreate p path tDevice major minor

def sysChdir (p : Pid) (path : Option Path) : FsProg Int := do
  beginOp
  match ← (match path with
    | none => pure none
    | some path => namei p path) with
  | none =>
    endOp
    return -1
  | some ip =>
    ilock ip
    if (← inode ip).attrs.type ≠ tDir then
      iunlockput ip
      endOp
      return -1
    else
      iunlock ip
      match ← get fun c => (c.proc p).cwd with
      | none => stop "null pointer"
      | some b =>
        iput b
        endOp
        modify fun c => c.setProc p ((c.proc p).withCwd (some ip))
        return 0

/-- The loop in which `exec` reads the program; it may end anywhere. -/
def readRanges (ip : Slot) : List (Nat × Nat) → FsProg Unit
  | [] => return
  | (off, n) :: l => do
    let _ ← low (.readKernel ip off n)
    readRanges ip l

/-- `exec`, as far as it uses the file system: the parts of the file that it
reads, and whether it succeeds, depend on the file's contents and on the
memory. -/
def sysExec (p : Pid) (path : Option Path) (reads : List (Nat × Nat)) (r : Int) : FsProg Int :=
  match path with
  | none => return -1
  | some path => do
    beginOp
    match ← namei p path with
    | none =>
      endOp
      return -1
    | some ip =>
      ilock ip
      readRanges ip reads
      iunlockput ip
      endOp
      return r

/-- `pipealloc`; `page` is what `kalloc` returns, which is never a page that is
in use. -/
def pipealloc (page : Option Nat) : FsProg (Option (FileId × FileId)) := do
  match ← filealloc with
  | none => return none
  | some f0 => match ← filealloc with
    | none =>
      fileclose f0
      return none
    | some f1 => match ← get fun c => page.filter fun pi => (c.pipe pi).isNone with
      | none =>
        fileclose f0
        fileclose f1
        return none
      | some pi =>
        modify fun c => c.setPipe pi (some ⟨true, true⟩)
        modify fun c => c.setFile f0 ((c.file f0).pipeEnd pi false)
        modify fun c => c.setFile f1 ((c.file f1).pipeEnd pi true)
        return some (f0, f1)

/-- `sys_pipe`; `copied` says whether both descriptors could be copied out. -/
def sysPipe (p : Pid) (page : Option Nat) (copied : Bool) : FsProg Int := do
  match ← pipealloc page with
  | none => return -1
  | some (rf, wf) => match ← fdalloc p rf with
    | none =>
      fileclose rf
      fileclose wf
      return -1
    | some fd0 => match ← fdalloc p wf with
      | none =>
        setOfile p fd0 none
        fileclose rf
        fileclose wf
        return -1
      | some fd1 =>
        if copied then return 0
        else
          setOfile p fd0 none
          setOfile p fd1 none
          fileclose rf
          fileclose wf
          return -1

/-! ## `fork` and `exit` -/

/-- The loop over all descriptors. -/
def forFds (f : Fd → FsProg Unit) : List Fd → FsProg Unit
  | [] => return
  | fd :: l => do
    f fd
    forFds f l

/-- `fork`, into the slot `np` if `allocproc` and `uvmcopy` succeed. -/
def sysFork (p : Pid) (np : Option Pid) : FsProg Int := do
  match ← get fun c => np.filter fun np => !(c.proc np).used with
  | none => return -1
  | some np =>
    forFds (fun fd => do
      match ← get fun c => (c.proc p).ofile fd with
      | none => return
      | some f =>
        filedup f
        setOfile np fd (some f)) (List.finRange nofile)
    match ← get fun c => (c.proc p).cwd with
    | none => stop "null pointer"
    | some b =>
      let b ← idup b
      modify fun c => c.setProc np (((c.proc np).withCwd (some b)).withUsed true)
      return 0

/-- `exit`: close all files and let go of the current directory. -/
def sysExit (p : Pid) : FsProg Int := do
  if p = 0 then stop "init exiting"
  else
    forFds (fun fd => do
      match ← get fun c => (c.proc p).ofile fd with
      | none => return
      | some f =>
        fileclose f
        setOfile p fd none) (List.finRange nofile)
    beginOp
    match ← get fun c => (c.proc p).cwd with
    | none => stop "null pointer"
    | some b =>
      iput b
      endOp
      modify fun c => c.setProc p (((c.proc p).withCwd none).withUsed false)
      return 0

/-! ## Every call -/

inductive Call where
  | dup (fd : Int)
  | read (fd : Int) (mem : UserMem) (addr : Nat) (n r : Int)
  | write (fd : Int) (mem : UserMem) (addr : Nat) (n r : Int)
  | close (fd : Int)
  | fstat (fd : Int) (copied : Bool)
  | link (old new : Option Path)
  | unlink (path : Option Path)
  | open (path : Option Path) (omode : BitVec 32)
  | mkdir (path : Option Path)
  | mknod (path : Option Path) (major minor : BitVec 16)
  | chdir (path : Option Path)
  | exec (path : Option Path) (reads : List (Nat × Nat)) (r : Int)
  | pipe (page : Option Nat) (copied : Bool)
  | fork (np : Option Pid)
  | exit

def Call.body (p : Pid) : Call → FsProg Int
  | .dup fd => sysDup p fd
  | .read fd mem addr n r => sysRead p fd mem addr n r
  | .write fd mem addr n r => sysWrite p fd mem addr n r
  | .close fd => sysClose p fd
  | .fstat fd copied => sysFstat p fd copied
  | .link old new => sysLink p old new
  | .unlink path => sysUnlink p path
  | .open path omode => sysOpen p path omode
  | .mkdir path => sysMkdir p path
  | .mknod path major minor => sysMknod p path major minor
  | .chdir path => sysChdir p path
  | .exec path reads r => sysExec p path reads r
  | .pipe page copied => sysPipe p page copied
  | .fork np => sysFork p np
  | .exit => sysExit p

/-- A call of a process that there is. -/
def sysCall (p : Pid) (x : Call) : FsProg Unit := do
  if (← get fun c => (c.proc p).used) then
    let _ ← x.body p

/-- Calls of processes, one after the other. -/
def sysCalls : List (Pid × Call) → FsProg Unit
  | [] => return
  | (p, x) :: l => do
    sysCall p x
    sysCalls l

end Xv6.Fs
