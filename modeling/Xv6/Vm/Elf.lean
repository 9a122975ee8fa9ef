import Xv6.Vm.Proc

/-!
# exec

A model of `exec.c`: the headers of an ELF file are bytes that `readi` reads, and
the segments are loaded page by page. What the file system does for `exec` is to
find the file, to lock it and to read from it; the bytes of a file do not change
meanwhile. At the label `bad` whatever `exec` has so far is given back.
-/

namespace Xv6.Vm

abbrev maxarg : Nat := 32

abbrev elfMagic : Nat := 0x464C457F

abbrev elfProgLoad : Nat := 1

abbrev maxFileSize : Nat := 274432

/-- The files that paths name, and their bytes. -/
class Files where
  namei : List UInt8 → Option Nat
  data : Nat → List UInt8
  bounded : ∀ ip, (data ip).length ≤ maxFileSize

/-! ## readi -/

/-- The bytes that `readi` reads; their number is its result. -/
def readi (data : List UInt8) (off n : BitVec 32) : List UInt8 :=
  if off.toNat > data.length ∨ off + n < off then []
  else (data.drop off.toNat).take n.toNat

/-- The field of `k` bytes at offset `o` of a structure. -/
def field (l : List UInt8) (o k : Nat) : Nat := getLE (fun i => l.getD i 0) o k

/-- The fields of `struct elfhdr` that `exec` uses. -/
structure Elfhdr where
  magic : Nat
  entry : Addr
  phoff : Addr
  phnum : Nat

abbrev elfhdrSize : Nat := 64

def Elfhdr.ofBytes (l : List UInt8) : Elfhdr where
  magic := field l 0 4
  entry := .ofNat 64 (field l 24 8)
  phoff := .ofNat 64 (field l 32 8)
  phnum := field l 56 2

/-- The fields of `struct proghdr` that `exec` uses. -/
structure Proghdr where
  type : Nat
  off : Addr
  vaddr : Addr
  filesz : Addr
  memsz : Addr

abbrev proghdrSize : Nat := 56

def Proghdr.ofBytes (l : List UInt8) : Proghdr where
  type := field l 0 4
  off := .ofNat 64 (field l 8 8)
  vaddr := .ofNat 64 (field l 16 8)
  filesz := .ofNat 64 (field l 32 8)
  memsz := .ofNat 64 (field l 40 8)

section

variable [Image]

/-! ## Segments -/

/-- The loop of `loadseg`, from the offset `i` on. -/
def loadsegFrom (pagetable va : Addr) (data : List UInt8) (offset sz : BitVec 32) : Nat → BitVec 32 → KCmd Int
  | 0, _ => .hang
  | turns + 1, i =>
    if i < sz then do
      let pa ← walkaddr pagetable (va + i.setWidth 64)
      if pa = 0 then .panic "loadseg: address should exist"
      else
        let n := if sz - i < 4096 then sz - i else 4096
        let l := readi data (offset + i) n
        Cmd.modify (·.copyTo pa (fun k => l.getD k 0) l.length)
        if l.length ≠ n.toNat then return -1
        else loadsegFrom pagetable va data offset sz turns (i + 4096)
    else return 0

/-- Load a program segment; its pages are already mapped. -/
def loadseg (pagetable va : Addr) (data : List UInt8) (offset sz : BitVec 32) : KCmd Int :=
  if va % 4096 ≠ 0 then .panic "loadseg: va must be page aligned"
  else loadsegFrom pagetable va data offset sz (sz.toNat / 4096 + 2) 0

/-- A turn of the loop over the program headers: whether to go on, and the size
so far. -/
def loadHeader (pagetable : Addr) (data : List UInt8) (off : BitVec 32) (sz : Addr) : KCmd (Bool × Addr) := do
  let l := readi data off (.ofNat 32 proghdrSize)
  if l.length ≠ proghdrSize then return (false, sz)
  else
    let ph := Proghdr.ofBytes l
    if ph.type ≠ elfProgLoad then return (true, sz)
    else if ph.memsz < ph.filesz then return (false, sz)
    else if ph.vaddr + ph.memsz < ph.vaddr then return (false, sz)
    else
      let sz1 ← uvmalloc pagetable sz (ph.vaddr + ph.memsz)
      if sz1 = 0 then return (false, sz)
      else if ph.vaddr % 4096 ≠ 0 then return (false, sz1)
      else
        let r ← loadseg pagetable ph.vaddr data (ph.off.setWidth 32) (ph.filesz.setWidth 32)
        if r < 0 then return (false, sz1) else return (true, sz1)

/-- The loop over the remaining program headers. The offset is an `int` of the
source. -/
def loadHeaders (pagetable : Addr) (data : List UInt8) : Nat → BitVec 32 → Addr → KCmd (Bool × Addr)
  | 0, _, sz => return (true, sz)
  | n + 1, off, sz => do
    let (ok, sz) ← loadHeader pagetable data off sz
    if ok then loadHeaders pagetable data n (off + .ofNat 32 proghdrSize) sz else return (false, sz)

/-! ## The stack -/

/-- The loop over the arguments: the stack pointer and the addresses of the
strings, or none at `bad`. -/
def pushArgs (pagetable stackbase : Addr) : List (List UInt8) → Addr → List Addr → KCmd (Option (Addr × List Addr))
  | [], sp, ustack => return some (sp, ustack)
  | arg :: argv, sp, ustack =>
    if ustack.length ≥ maxarg then return none
    else
      let sp := sp - .ofNat 64 (arg.length + 1)
      let sp := sp - sp % 16
      if sp < stackbase then return none
      else do
        let r ← copyout pagetable sp (fun k => arg.getD k 0) (.ofNat 64 (arg.length + 1))
        if r < 0 then return none else pushArgs pagetable stackbase argv sp (ustack ++ [sp])

/-- An array of pointers. -/
def pointers (l : List Addr) : Bytes := fun k => UInt8.ofNat ((l.getD (k / 8) 0).toNat / 256 ^ (k % 8))

/-- The strings and the array of pointers to them: the final stack pointer, or
none at `bad`. -/
def pushStack (pagetable stackbase sp : Addr) (argv : List (List UInt8)) : KCmd (Option Addr) := do
  match ← pushArgs pagetable stackbase argv sp [] with
  | none => return none
  | some (sp, ustack) =>
    let sp := sp - .ofNat 64 ((ustack.length + 1) * 8)
    let sp := sp - sp % 16
    if sp < stackbase then return none
    else
      let r ← copyout pagetable sp (pointers (ustack ++ [0])) (.ofNat 64 ((ustack.length + 1) * 8))
      if r < 0 then return none else return some sp

/-! ## exec -/

def beginOp : PCmd Unit := .modify fun k => { k with ops := k.ops + 1 }

def endOp : PCmd Unit := .modify fun k => { k with ops := k.ops - 1 }

/-- A reference to the inode that a path names. -/
def iget (ip : Nat) : PCmd Unit := .modify fun k => { k with iref := fun i => if i = ip then k.iref ip + 1 else k.iref i }

def ilock (ip : Nat) : PCmd Unit := .modify fun k => { k with ilocks := ip :: k.ilocks }

/-- Unlock the inode, and drop the reference. -/
def iunlockput (ip : Nat) : PCmd Unit :=
  .modify fun k => { k with ilocks := k.ilocks.erase ip, iref := fun i => if i = ip then k.iref ip - 1 else k.iref i }

/-- The label `bad` of `exec`, where the inode has not been put yet. -/
def badLocked (ip : Nat) (pagetable sz : Addr) : PCmd Int := do
  Cmd.when (pagetable ≠ 0) (onVm (procFreepagetable pagetable sz))
  iunlockput ip
  endOp
  return -1

/-- The label `bad` of `exec`, after the inode has been put. -/
def bad (pagetable sz : Addr) : PCmd Int := do
  onVm (procFreepagetable pagetable sz)
  return -1

/-- The offsets of `epc`, `sp` and `a1` in `struct trapframe`. -/
abbrev trapframeEpc : Nat := 24
abbrev trapframeSp : Nat := 48
abbrev trapframeA1 : Nat := 120

/-- What follows the last `/` of a path, cut to the size of `p->name`. -/
def lastElem (path : List UInt8) : List UInt8 := ((path.reverse.takeWhile (· ≠ 47)).reverse).take 15

/-- From the stack on: the image is complete, or `exec` fails. -/
def execStack (i : Fin nproc) (path : List UInt8) (argv : List (List UInt8)) (entry pagetable sz : Addr) : PCmd Int := do
  let oldsz := (← getProc i).sz
  let sz := pgroundup sz
  let sz1 ← onVm (uvmalloc pagetable sz (sz + 2 * 4096))
  if sz1 = 0 then bad pagetable sz
  else
    let sz := sz1
    onVm (uvmclear pagetable (sz - 2 * 4096))
    match ← onVm (pushStack pagetable (sz - 4096) sz argv) with
    | none => bad pagetable sz
    | some sp =>
      let p ← getProc i
      onVm (store (p.trapframe + .ofNat 64 trapframeA1) sp)
      setProc i fun p => { p with name := lastElem path }
      -- commit to the user image
      setProc i fun p => { p with pagetable := pagetable, sz := sz }
      onVm (store (p.trapframe + .ofNat 64 trapframeEpc) entry)
      onVm (store (p.trapframe + .ofNat 64 trapframeSp) sp)
      onVm (procFreepagetable p.pagetable oldsz)
      return argv.length

variable [Text] [Files]

/-- Replace the image of the process `i` by the program that the path names. -/
def exec (i : Fin nproc) (path : List UInt8) (argv : List (List UInt8)) : PCmd Int := do
  beginOp
  match Files.namei path with
  | none =>
    endOp
    return -1
  | some ip =>
    iget ip
    ilock ip
    let data := Files.data ip
    let l := readi data 0 (.ofNat 32 elfhdrSize)
    if l.length ≠ elfhdrSize then badLocked ip 0 0
    else
      let elf := Elfhdr.ofBytes l
      if elf.magic ≠ elfMagic then badLocked ip 0 0
      else
        let pagetable ← onVm (procPagetable (← getProc i).trapframe)
        if pagetable = 0 then badLocked ip 0 0
        else
          let (ok, sz) ← onVm (loadHeaders pagetable data elf.phnum (elf.phoff.setWidth 32) 0)
          if ok then
            iunlockput ip
            endOp
            execStack i path argv elf.entry pagetable sz
          else badLocked ip pagetable sz

end

end Xv6.Vm
