import Xv6.Framework.Bytes
import Xv6.Framework.Cmd
import Xv6.Param

/-!
# Page tables

A model of the page tables of `vm.c` on byte memory, with the page allocator of
`kalloc.c`. Physical memory is mapped at its own addresses in the kernel, so a
pointer to a page is its physical address. The allocator's list of free pages,
which the source links through the pages themselves, is a list of addresses.

A loop of the source is a recursion that has as many turns as the loop at most;
the tests of the loop are those of the source.
-/

namespace Xv6.Vm

/-- An address, physical or virtual. -/
abbrev Addr := BitVec 64
/-- A page-table entry. -/
abbrev Pte := BitVec 64

abbrev kernbase : Addr := 0x80000000
/-- One beyond the last address of RAM. -/
abbrev phystop : Addr := kernbase + 128 * 1024 * 1024
/-- One beyond the highest virtual address. -/
abbrev maxva : Addr := 1 <<< (9 + 9 + 9 + 12 - 1)

/-- Valid. -/
abbrev pteV : Pte := 1 <<< 0
abbrev pteR : Pte := 1 <<< 1
abbrev pteW : Pte := 1 <<< 2
abbrev pteX : Pte := 1 <<< 3
/-- The user can access the page. -/
abbrev pteU : Pte := 1 <<< 4

/-- The page of the trampoline, the highest of all, and below it the page of the
trapframe. -/
abbrev trampoline : Addr := maxva - 4096
abbrev trapframe : Addr := trampoline - 4096

def pgrounddown (a : Addr) : Addr := a &&& ~~~(4096 - 1)

def pgroundup (a : Addr) : Addr := (a + 4096 - 1) &&& ~~~(4096 - 1)

/-- An address shifted to its place in an entry. -/
def pa2pte (pa : Addr) : Pte := (pa >>> 12) <<< 10

def pte2pa (pte : Pte) : Addr := (pte >>> 10) <<< 12

def pteFlags (pte : Pte) : Pte := pte &&& 0x3FF

/-- The 9-bit index of a virtual address at a level. -/
def px (level : Nat) (va : Addr) : Addr := (va >>> (12 + 9 * level)) &&& 0x1FF

/-- Where the kernel's image in memory ends. -/
class Image where
  end_ : Addr
  above : kernbase ≤ end_

/-- Physical memory, and `kmem.freelist`. -/
structure State where
  mem : Bytes
  freelist : List Addr

namespace State

def pte (s : State) (a : Addr) : Pte := .ofNat 64 (getLE s.mem a.toNat 8)

def setPte (s : State) (a : Addr) (v : Pte) : State := { s with mem := putLE s.mem a.toNat 8 v.toNat }

/-- A page whose bytes are all `v`. -/
def memset (s : State) (page : Addr) (v : UInt8) : State :=
  { s with mem := fun x => if page.toNat ≤ x ∧ x < page.toNat + pgsize then v else s.mem x }

/-- `memmove` of `n` bytes from a buffer that is not in a page. -/
def copyTo (s : State) (dst : Addr) (src : Bytes) (n : Nat) : State :=
  { s with mem := fun x => if dst.toNat ≤ x ∧ x < dst.toNat + n then src (x - dst.toNat) else s.mem x }

/-- The `n` bytes at an address. -/
@[irreducible] def bytesAt (s : State) (a : Addr) (n : Nat) : List UInt8 := (List.range n).map fun i => s.mem (a.toNat + i)

def copyPage (s : State) (dst src : Addr) : State := s.copyTo dst (fun i => s.mem (src.toNat + i)) pgsize

end State

abbrev KCmd := Cmd State

def load (a : Addr) : KCmd Pte := .get (·.pte a)

def store (a : Addr) (v : Pte) : KCmd Unit := .modify (·.setPte a v)

/-- `memset` of a page. -/
def memset (page : Addr) (v : UInt8) : KCmd Unit := .modify (·.memset page v)

/-! ## kalloc.c -/

/-- Take a page off the list, and fill it with junk. -/
def kalloc : KCmd Addr := do
  match ← .get State.freelist with
  | [] => return 0
  | r :: rest =>
    Cmd.modify fun s => { s with freelist := rest }
    memset r 5
    return r

section

variable [Image]

def kfree (pa : Addr) : KCmd Unit := do
  if pa % 4096 ≠ 0 ∨ pa < Image.end_ ∨ pa ≥ phystop then .panic "kfree"
  else
    -- the junk catches dangling references
    memset pa 1
    Cmd.modify fun s => { s with freelist := pa :: s.freelist }

/-- The loop of `freerange`, which has come to `p`. -/
def freerangeFrom (paEnd : Addr) : Nat → Addr → KCmd Unit
  | 0, _ => .hang
  | turns + 1, p =>
    if p + 4096 ≤ paEnd then do
      kfree p
      freerangeFrom paEnd turns (p + 4096)
    else pure ()

def freerange (paStart paEnd : Addr) : KCmd Unit :=
  freerangeFrom paEnd (paEnd.toNat / 4096 + 1) (pgroundup paStart)

def kinit : KCmd Unit := freerange Image.end_ phystop

end

/-! ## vm.c -/

/-- The address of an entry of a page-table page. -/
def entry (pagetable : Addr) (i : Addr) : Addr := pagetable + 8 * i

/-- The levels of `walk` from `level` on. -/
def walkFrom (va : Addr) (alloc : Bool) : Nat → Addr → KCmd (Option Addr)
  | 0, pagetable => return some (entry pagetable (px 0 va))
  | level + 1, pagetable => do
    let pte := entry pagetable (px (level + 1) va)
    let e ← load pte
    if e &&& pteV ≠ 0 then walkFrom va alloc level (pte2pa e)
    else if !alloc then return none
    else
      let page ← kalloc
      if page = 0 then return none
      else
        memset page 0
        store pte (pa2pte page ||| pteV)
        walkFrom va alloc level page

/-- The address of the entry for `va` in the page table, whose nodes are
allocated on the way if `alloc` is set. -/
def walk (pagetable va : Addr) (alloc : Bool) : KCmd (Option Addr) :=
  if va ≥ maxva then .panic "walk" else walkFrom va alloc 2 pagetable

/-- The physical address of a user page, or 0. -/
def walkaddr (pagetable va : Addr) : KCmd Addr := do
  if va ≥ maxva then return 0
  else
    match ← walk pagetable va false with
    | none => return 0
    | some pte =>
      let e ← load pte
      if e &&& pteV = 0 then return 0
      else if e &&& pteU = 0 then return 0
      else return pte2pa e

/-- The loop of `mappages`, from the address `a` on. -/
def mappagesFrom (pagetable last : Addr) (perm : BitVec 32) : Nat → Addr → Addr → KCmd Int
  | 0, _, _ => .hang
  | turns + 1, a, pa => do
    match ← walk pagetable a true with
    | none => return -1
    | some pte =>
      if (← load pte) &&& pteV ≠ 0 then .panic "remap"
      else
        store pte (pa2pte pa ||| perm.signExtend 64 ||| pteV)
        if a = last then return 0
        else mappagesFrom pagetable last perm turns (a + 4096) (pa + 4096)

def mappages (pagetable va size pa : Addr) (perm : BitVec 32) : KCmd Int :=
  let a := pgrounddown va
  let last := pgrounddown (va + size - 1)
  mappagesFrom pagetable last perm ((last - a).toNat / 4096 + 1) a pa

section

variable [Image]

/-- The loop of `uvmunmap`, from the address `a` on. -/
def uvmunmapFrom (pagetable bound : Addr) (doFree : Bool) : Nat → Addr → KCmd Unit
  | 0, _ => .hang
  | turns + 1, a =>
    if a < bound then do
      match ← walk pagetable a false with
      | none => .panic "uvmunmap: walk"
      | some pte =>
        let e ← load pte
        if e &&& pteV = 0 then .panic "uvmunmap: not mapped"
        else if pteFlags e = pteV then .panic "uvmunmap: not a leaf"
        else
          Cmd.when doFree (kfree (pte2pa e))
          store pte 0
          uvmunmapFrom pagetable bound doFree turns (a + 4096)
    else return ()

def uvmunmap (pagetable va npages : Addr) (doFree : Bool) : KCmd Unit :=
  if va % 4096 ≠ 0 then .panic "uvmunmap: not aligned"
  else
    let bound := va + npages * 4096
    uvmunmapFrom pagetable bound doFree ((bound - va).toNat / 4096 + 1) va

/-- The indices of a page-table page, in order. -/
@[irreducible] def indices : List (Fin 512) := List.finRange 512

/-- A turn of the loop of `freewalk`, with `walk` for the recursive call. -/
def freeEntry (walk : Addr → KCmd Unit) (pagetable : Addr) (i : Fin 512) : KCmd Unit := do
  let a := entry pagetable (.ofNat 64 i)
  let pte ← load a
  if pte &&& pteV ≠ 0 ∧ pte &&& (pteR ||| pteW ||| pteX) = 0 then
    -- this entry points to a lower-level page table
    walk (pte2pa pte)
    store a 0
  else if pte &&& pteV ≠ 0 then .panic "freewalk: leaf"

/-- Free the page-table pages from `pagetable` down, at most `depth` levels of
them. -/
def freewalk : Nat → Addr → KCmd Unit
  | 0, _ => .hang
  | depth + 1, pagetable => do
    Cmd.forEach indices (freeEntry (freewalk depth) pagetable)
    kfree pagetable

/-- An empty user page table, or 0. -/
def uvmcreate : KCmd Addr := do
  let pagetable ← kalloc
  if pagetable = 0 then return 0
  else
    memset pagetable 0
    return pagetable

/-- Free the user pages that are above `newsz`. The number of pages is an `int`
of the source. -/
def uvmdealloc (pagetable oldsz newsz : Addr) : KCmd Addr := do
  if newsz ≥ oldsz then return oldsz
  else
    let npages : BitVec 32 := ((pgroundup oldsz - pgroundup newsz) / 4096).setWidth 32
    Cmd.when (pgroundup newsz < pgroundup oldsz) (uvmunmap pagetable (pgroundup newsz) (npages.signExtend 64) true)
    return newsz

/-- The flags of a page of user memory. -/
abbrev userPerm : BitVec 32 := (pteW ||| pteX ||| pteR ||| pteU).setWidth 32

/-- The loop of `uvmalloc`, from the address `a` on. -/
def uvmallocFrom (pagetable oldsz newsz : Addr) : Nat → Addr → KCmd Addr
  | 0, _ => .hang
  | turns + 1, a =>
    if a < newsz then do
      let mem ← kalloc
      if mem = 0 then
        let _ ← uvmdealloc pagetable a oldsz
        return 0
      else
        memset mem 0
        let r ← mappages pagetable a 4096 mem userPerm
        if r ≠ 0 then
          kfree mem
          let _ ← uvmdealloc pagetable a oldsz
          return 0
        else uvmallocFrom pagetable oldsz newsz turns (a + 4096)
    else return newsz

/-- Grow user memory from `oldsz` to `newsz`. It returns the new size, or 0. -/
def uvmalloc (pagetable oldsz newsz : Addr) : KCmd Addr :=
  if newsz < oldsz then return oldsz
  else uvmallocFrom pagetable (pgroundup oldsz) newsz ((newsz - oldsz).toNat / 4096 + 2) (pgroundup oldsz)

/-- Free the user pages, then the page-table pages, which are on three levels. -/
def uvmfree (pagetable sz : Addr) : KCmd Unit := do
  Cmd.when (sz > 0) (uvmunmap pagetable 0 (pgroundup sz / 4096) true)
  freewalk 3 pagetable

/-- The loop of `uvmcopy`, from the address `i` on. -/
def uvmcopyFrom (old new sz : Addr) : Nat → Addr → KCmd Int
  | 0, _ => .hang
  | turns + 1, i =>
    if i < sz then do
      match ← walk old i false with
      | none => .panic "uvmcopy: pte should exist"
      | some pte =>
        let e ← load pte
        if e &&& pteV = 0 then .panic "uvmcopy: page not present"
        else
          let mem ← kalloc
          if mem = 0 then
            uvmunmap new 0 (i / 4096) true
            return -1
          else
            Cmd.modify (·.copyPage mem (pte2pa e))
            let r ← mappages new i 4096 mem ((pteFlags e).setWidth 32)
            if r ≠ 0 then
              kfree mem
              uvmunmap new 0 (i / 4096) true
              return -1
            else uvmcopyFrom old new sz turns (i + 4096)
    else return 0

/-- Copy the pages of user memory, and their flags, to an empty page table. -/
def uvmcopy (old new sz : Addr) : KCmd Int := uvmcopyFrom old new sz (sz.toNat / 4096 + 2) 0

end

/-- Take the user's access to a page away. -/
def uvmclear (pagetable va : Addr) : KCmd Unit := do
  match ← walk pagetable va false with
  | none => .panic "uvmclear"
  | some pte =>
    let e ← load pte
    store pte (e &&& ~~~pteU)

/-! ## Copies between the kernel and the user

A buffer of the kernel that is copied from is a function of the offset; for one
that is copied to, the result has the bytes that were stored in it. -/

/-- The number of bytes from `va` to the end of its page, but at most `len`. -/
def chunk (va len : Addr) : Addr :=
  let n := 4096 - (va - pgrounddown va)
  if n > len then len else n

/-- The loop of `copyout`. -/
def copyoutFrom (pagetable : Addr) : Nat → Addr → Bytes → Addr → KCmd Int
  | 0, _, _, _ => .hang
  | turns + 1, dstva, src, len =>
    if len > 0 then do
      let va0 := pgrounddown dstva
      let pa0 ← walkaddr pagetable va0
      if pa0 = 0 then return -1
      else
        let n := chunk dstva len
        Cmd.modify (·.copyTo (pa0 + (dstva - va0)) src n.toNat)
        copyoutFrom pagetable turns (va0 + 4096) (fun i => src (n.toNat + i)) (len - n)
    else return 0

def copyout (pagetable dstva : Addr) (src : Bytes) (len : Addr) : KCmd Int :=
  copyoutFrom pagetable (len.toNat / 4096 + 3) dstva src len

/-- The loop of `copyin`. -/
def copyinFrom (pagetable : Addr) : Nat → Addr → Addr → KCmd (Int × List UInt8)
  | 0, _, _ => .hang
  | turns + 1, srcva, len =>
    if len > 0 then do
      let va0 := pgrounddown srcva
      let pa0 ← walkaddr pagetable va0
      if pa0 = 0 then return (-1, [])
      else
        let n := chunk srcva len
        let bytes ← Cmd.get (·.bytesAt (pa0 + (srcva - va0)) n.toNat)
        let (r, rest) ← copyinFrom pagetable turns (va0 + 4096) (len - n)
        return (r, bytes ++ rest)
    else return (0, [])

def copyin (pagetable srcva len : Addr) : KCmd (Int × List UInt8) :=
  copyinFrom pagetable (len.toNat / 4096 + 3) srcva len

/-- The loop of `copyinstr` over the bytes in a page: the bytes that it stores,
and `got_null`. -/
def copyString : List UInt8 → List UInt8 × Bool
  | [] => ([], false)
  | c :: rest => if c = 0 then ([0], true) else (c :: (copyString rest).1, (copyString rest).2)

/-- The loop of `copyinstr` over the pages. -/
def copyinstrFrom (pagetable : Addr) : Nat → Addr → Addr → KCmd (Int × List UInt8)
  | 0, _, _ => .hang
  | turns + 1, srcva, max =>
    if max > 0 then do
      let va0 := pgrounddown srcva
      let pa0 ← walkaddr pagetable va0
      if pa0 = 0 then return (-1, [])
      else
        let n := chunk srcva max
        let bytes ← Cmd.get (·.bytesAt (pa0 + (srcva - va0)) n.toNat)
        if (copyString bytes).2 then return (0, (copyString bytes).1)
        else
          let (r, rest) ← copyinstrFrom pagetable turns (va0 + 4096) (max - n)
          return (r, (copyString bytes).1 ++ rest)
    else return (-1, [])

def copyinstr (pagetable srcva max : Addr) : KCmd (Int × List UInt8) :=
  copyinstrFrom pagetable (max.toNat / 4096 + 3) srcva max

end Xv6.Vm
