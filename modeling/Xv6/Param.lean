import Mathlib.Algebra.Ring.Nat

/-!
# Constants

The kernel's constants, from `param.h` and `fs.h`.
-/

namespace Xv6

/-- The maximum number of processes. -/
abbrev nproc : Nat := 64
/-- The device number of the file system's root disk. -/
abbrev rootdev : Nat := 1
/-- The maximum number of blocks any file-system operation writes. -/
abbrev maxopblocks : Nat := 10
/-- The maximum number of data blocks in the on-disk log. -/
abbrev logsize : Nat := maxopblocks * 3
/-- The size of the disk block cache. -/
abbrev nbuf : Nat := maxopblocks * 3
/-- The maximum number of open files of a process. -/
abbrev nofile : Nat := 16
/-- The maximum number of open files of the system. -/
abbrev nfile : Nat := 100
/-- The maximum number of active inodes. -/
abbrev ninode : Nat := 50

/-- The number of device drivers. -/
abbrev ndev : Nat := 10
/-- The major device number of the console. -/
abbrev console : Nat := 1
/-- The maximum length of a path, with the NUL that ends it. -/
abbrev maxpath : Nat := 128
/-- The size of a disk block. -/
abbrev bsize : Nat := 1024
/-- The number of the root directory's inode. -/
abbrev rootino : Nat := 1
/-- The number of block addresses in an inode. -/
abbrev ndirect : Nat := 12
/-- The number of block addresses in an indirect block. -/
abbrev nindirect : Nat := bsize / 4
/-- The maximum number of blocks of a file. -/
abbrev maxfile : Nat := ndirect + nindirect
/-- The size of a name in a directory entry. -/
abbrev dirsiz : Nat := 14
/-- The size of a page. -/
abbrev pgsize : Nat := 4096

/-- A slot of the process table. -/
abbrev Pid := Fin nproc

instance : NeZero nproc := ⟨by decide⟩
instance : NeZero nbuf := ⟨by decide⟩
instance : NeZero nofile := ⟨by decide⟩
instance : NeZero ninode := ⟨by decide⟩

end Xv6
