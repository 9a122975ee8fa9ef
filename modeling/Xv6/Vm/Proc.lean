import Xv6.Vm.Model

/-!
# The memory of processes

A model of what `proc.c` does with the memory of processes: page tables with
trampoline and trapframe, `growproc`, and `fork` with the allocation of a slot
of the process table. The files and directories that a process refers to are
numbers, with a reference count each. Locks are left out: each of these
functions runs as one step here.
-/

namespace Xv6.Vm

inductive ProcState where
  | unused
  | sleeping
  | runnable
  | running
  | zombie
deriving DecidableEq

/-- `struct proc`. A null pointer to a page is 0. -/
structure Proc where
  state : ProcState
  pid : Nat
  parent : Option (Fin nproc)
  sz : Addr
  pagetable : Addr
  /-- The page of the saved registers. -/
  trapframe : Addr
  ofile : Fin nofile → Option Nat
  cwd : Nat
  name : List UInt8

/-- The process table, the reference counts of files and of inodes, and
physical memory; and of the running process, the inodes that it has locked and
the number of transactions that it has open. -/
structure Kernel where
  vm : State
  proc : Fin nproc → Proc
  nextpid : Nat
  fileref : Nat → Nat
  iref : Nat → Nat
  ilocks : List Nat
  ops : Nat

/-- The page of the kernel's text that holds the trampoline. -/
class Text where
  trampoline : Addr

section

variable [Image] [Text]

/-- A page table with no user memory, but with the trampoline and the page
`frame` of a trapframe; or 0. -/
def procPagetable (frame : Addr) : KCmd Addr := do
  let pagetable ← uvmcreate
  if pagetable = 0 then return 0
  else
    let r ← mappages pagetable Vm.trampoline 4096 Text.trampoline ((pteR ||| pteX).setWidth 32)
    if r < 0 then
      uvmfree pagetable 0
      return 0
    else
      let r ← mappages pagetable Vm.trapframe 4096 frame ((pteR ||| pteW).setWidth 32)
      if r < 0 then
        uvmunmap pagetable Vm.trampoline 1 false
        uvmfree pagetable 0
        return 0
      else return pagetable

/-- Free a process's page table, and the memory that it refers to. -/
def procFreepagetable (pagetable sz : Addr) : KCmd Unit := do
  uvmunmap pagetable Vm.trampoline 1 false
  uvmunmap pagetable Vm.trapframe 1 false
  uvmfree pagetable sz

/-- Grow or shrink user memory by `n` bytes. The local `sz` of the source has 32
bits. -/
def growproc (p : Proc) (n : BitVec 32) : KCmd (Int × Proc) := do
  let sz : BitVec 32 := p.sz.setWidth 32
  if BitVec.slt 0 n then
    let r ← uvmalloc p.pagetable (sz.setWidth 64) ((sz + n).setWidth 64)
    let sz : BitVec 32 := r.setWidth 32
    if sz = 0 then return (-1, p)
    else return (0, { p with sz := sz.setWidth 64 })
  else if BitVec.slt n 0 then
    let r ← uvmdealloc p.pagetable (sz.setWidth 64) ((sz + n).setWidth 64)
    let sz : BitVec 32 := r.setWidth 32
    return (0, { p with sz := sz.setWidth 64 })
  else return (0, { p with sz := sz.setWidth 64 })

/-! ## The process table -/

abbrev PCmd := Cmd Kernel

def onVm {α : Type} (c : KCmd α) : PCmd α := c.zoom Kernel.vm fun k s => { k with vm := s }

def getProc (i : Fin nproc) : PCmd Proc := .get (·.proc i)

def setProc (i : Fin nproc) (f : Proc → Proc) : PCmd Unit :=
  .modify fun k => { k with proc := fun j => if j = i then f (k.proc i) else k.proc j }

def allocpid : PCmd Nat := do
  let pid ← .get Kernel.nextpid
  Cmd.modify fun k => { k with nextpid := pid + 1 }
  return pid

def filedup (f : Nat) : PCmd Nat := do
  if (← .get (·.fileref f)) < 1 then .panic "filedup"
  else
    Cmd.modify fun k => { k with fileref := fun g => if g = f then k.fileref f + 1 else k.fileref g }
    return f

def idup (ip : Nat) : PCmd Nat := do
  Cmd.modify fun k => { k with iref := fun i => if i = ip then k.iref ip + 1 else k.iref i }
  return ip

/-- Free the memory of a process, and its slot. -/
def freeproc (i : Fin nproc) : PCmd Unit := do
  let p ← getProc i
  Cmd.when (p.trapframe ≠ 0) (onVm (kfree p.trapframe))
  Cmd.when (p.pagetable ≠ 0) (onVm (procFreepagetable p.pagetable p.sz))
  setProc i fun p => { p with trapframe := 0, pagetable := 0, sz := 0, pid := 0, parent := none, name := [], state := .unused }

/-- The first slot that is not used, with a trapframe and a page table. -/
def allocproc : PCmd (Option (Fin nproc)) := do
  match ← Cmd.get fun k => (List.finRange nproc).find? fun i => (k.proc i).state = .unused with
  | none => return none
  | some i =>
    let pid ← allocpid
    setProc i fun p => { p with pid }
    let frame ← onVm kalloc
    setProc i fun p => { p with trapframe := frame }
    if frame = 0 then return none
    else
      let pagetable ← onVm (procPagetable frame)
      setProc i fun p => { p with pagetable }
      if pagetable = 0 then
        freeproc i
        return none
      else return some i

/-- The size of `struct trapframe`, and the offset of `a0` in it. -/
abbrev trapframeSize : Nat := 288
abbrev trapframeA0 : Nat := 112

/-- `*dst = *src` for trapframes. -/
def copyTrapframe (dst src : Addr) : KCmd Unit := .modify fun s => s.copyTo dst (fun i => s.mem (src.toNat + i)) trapframeSize

/-- A turn of the loop of `fork` over the open files of `p`. -/
def dupFile (p : Proc) (j : Fin nproc) (fd : Fin nofile) : PCmd Unit := do
  match p.ofile fd with
  | none => pure ()
  | some f =>
    let f ← filedup f
    setProc j fun np => { np with ofile := fun fd' => if fd' = fd then some f else np.ofile fd' }

/-- A copy of the process `i`. -/
def fork (i : Fin nproc) : PCmd Int := do
  match ← allocproc with
  | none => return -1
  | some j =>
    let p ← getProc i
    let np ← getProc j
    let r ← onVm (uvmcopy p.pagetable np.pagetable p.sz)
    if r < 0 then
      freeproc j
      return -1
    else
      setProc j fun np => { np with sz := p.sz, parent := some i }
      onVm (copyTrapframe np.trapframe p.trapframe)
      -- fork returns 0 in the child
      onVm (store (np.trapframe + .ofNat 64 trapframeA0) 0)
      Cmd.forEach (List.finRange nofile) (dupFile p j)
      let cwd ← idup p.cwd
      setProc j fun np => { np with cwd }
      setProc j fun np => { np with name := p.name, state := .runnable }
      return np.pid

end

end Xv6.Vm
