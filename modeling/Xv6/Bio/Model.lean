import Xv6.Framework.Links
import Xv6.Log.Model

/-!
# The buffer cache with its pointers (`bio.c`)

The buffer cache alone, in more detail than the log's model has it: the ring
of buffers is the `prev` and `next` pointers, and the loops of `bget` follow
them one buffer at a time under `bcache.lock`. Processes read, modify, write,
pin, unpin and release buffers.

`virtio_disk_rw` finds a block on the disk by its number alone; the device
number `b->dev` is not used there.

The history (`Hist`), which no step reads, keeps the references to each
buffer, when a buffer was last released, what each recycling saw, and for each
block the contents that its last holder gave it.
-/

namespace Xv6.Bio

open Function

open Log (BufId Buf)

/-- A block: its device and block numbers. -/
abbrev Block := Nat × Nat

/-- What has happened to a block: never modified through the cache; last
modified and since written with `bwrite`; last modified, not yet written, and
held or pinned ever since; or left without holders and pins before it was
written. -/
inductive Mark where
  | untouched
  | written
  | dirty
  | lost
  deriving DecidableEq

/-- What `bget` saw when it recycled a buffer: the ring, the buffers with
`refcnt` 0, and those that nobody holds or has pinned. -/
structure Miss where
  buf : BufId
  order : List BufId
  unused : List BufId
  free : List BufId

/-- History variables. -/
structure Hist where
  /-- The references that `bget` has taken and `brelse` not yet dropped. -/
  holds : List (Pid × BufId)
  /-- The pins that `bpin` has set and `bunpin` not yet removed. -/
  pins : List BufId
  /-- A `bunpin` has been called on a buffer without a pin. -/
  unbalanced : Bool
  /-- How often a buffer's `refcnt` has dropped to 0 in `brelse`. -/
  clock : Nat
  /-- When each buffer's `refcnt` last dropped to 0 in `brelse`; 0 if never. -/
  freedAt : BufId → Nat
  misses : List Miss
  /-- The blocks that have been asked for. -/
  reads : List Block
  mark : Block → Mark
  /-- The contents that the last modification gave to a block. -/
  last : Block → Bytes

structure State where
  disk : Nat → Bytes
  /-- Who holds `bcache.lock`. -/
  lk : Option Pid
  buf : BufId → Buf
  links : Links BufId
  hist : Hist

abbrev KProg := Prog State Pid

namespace State

@[simps -fullyApplied]
def modBuf (s : State) (i : BufId) (f : Buf → Buf) : State :=
  { s with buf := update s.buf i (f (s.buf i)) }

@[simps -fullyApplied]
def modHist (s : State) (f : Hist → Hist) : State := { s with hist := f s.hist }

/-- The block that a buffer is assigned to. -/
def block (s : State) (i : BufId) : Block := ((s.buf i).dev, (s.buf i).blockno)

/-- How many references and pins a buffer has. -/
def refs (s : State) (i : BufId) : Nat := s.hist.holds.countP (·.2 = i) + s.hist.pins.count i

/-- The buffers in the order of the ring, from `head.next` on. -/
def order (s : State) : List BufId := s.links.walk nbuf (s.links.next none)

end State

/-- The state when `binit` returns, with the disk `d`: the buffers are linked
in after the head one by one. -/
def binit (d : Nat → Bytes) : State where
  disk := d
  lk := none
  buf _ := ⟨false, 0, 0, none, 0, fun _ => 0⟩
  links := (List.finRange nbuf).foldl Links.insert Links.empty
  hist := ⟨[], [], false, 0, fun _ => 0, [], [], fun _ => .untouched, fun b => d b.2⟩

/-- `acquire(&bcache.lock)`. -/
def acquire : KProg Unit :=
  .step fun t s => match s.lk with
    | none => .ok () { s with lk := some t }
    | some u => if u = t then .panic "acquire" else .wait

def release : KProg Unit :=
  .step fun t s => if s.lk = some t then .ok () { s with lk := none } else .panic "release"

def acquiresleep (b : BufId) : KProg Unit :=
  .step fun t s => if (s.buf b).lock = none then .ok () (s.modBuf b ({ · with lock := some t })) else .wait

/-- A loop over the ring in the direction `dir`, until `P` holds of a buffer. -/
def scan (dir : Links BufId → Option BufId → Option BufId) (P : Buf → Bool) : KProg (Option BufId) := do
  let b ← .step fun _ s => .ok (dir s.links none) s
  .loop (fun (b : Option BufId) => .step fun _ s => .ok (match b with
    | none => .inr none
    | some i => if P (s.buf i) then .inr (some i) else .inl (dir s.links b)) s) b

/-- `b->refcnt++` for a block that is cached. -/
def takeRef (blk : Block) (b : BufId) : KProg Unit :=
  .step fun t s => .ok () ((s.modBuf b fun x => { x with refcnt := x.refcnt + 1 }).modHist
    fun h => { h with holds := (t, b) :: h.holds, reads := blk :: h.reads })

/-- Give buffer `b` to block `blk`. -/
def recycle (blk : Block) (b : BufId) : KProg Unit :=
  .step fun t s => .ok () ((s.modBuf b fun x => { x with dev := blk.1, blockno := blk.2, valid := false, refcnt := 1 }).modHist
    fun h => { h with
      holds := (t, b) :: h.holds
      reads := blk :: h.reads
      misses := ⟨b, s.order, (List.finRange nbuf).filter fun i => (s.buf i).refcnt = 0,
        (List.finRange nbuf).filter fun i => s.refs i = 0⟩ :: h.misses })

/-- Look through the cache for the block; if it is not there, recycle the least
recently used unused buffer. The buffer is returned locked. -/
def bget (blk : Block) : KProg BufId := do
  acquire
  match ← scan Links.next fun x => x.dev = blk.1 ∧ x.blockno = blk.2 with
  | some b =>
    takeRef blk b
    release
    acquiresleep b
    return b
  | none =>
    match ← scan Links.prev fun x => x.refcnt = 0 with
    | some b =>
      recycle blk b
      release
      acquiresleep b
      return b
    | none => .step fun _ _ => .panic "bget: no buffers"

def bread (blk : Block) : KProg BufId := do
  let b ← bget blk
  .step fun _ s => .ok () <| if (s.buf b).valid then s else
    s.modBuf b fun x => { x with data := s.disk x.blockno, valid := true }
  return b

/-- A holder's change of the data of its buffer. -/
def modify (b : BufId) (f : Bytes → Bytes) : KProg Unit :=
  .step fun _ s => .ok () ((s.modBuf b fun x => { x with data := f x.data }).modHist fun h => { h with
    mark := update h.mark (s.block b) .dirty
    last := update h.last (s.block b) (f (s.buf b).data) })

/-- A dirty block has been written. -/
def Mark.write : Mark → Mark
  | .dirty => .written
  | m => m

/-- A block has lost its last reference. -/
def Mark.drop : Mark → Mark
  | .dirty => .lost
  | m => m

def bwrite (b : BufId) : KProg Unit :=
  .step fun t s => if (s.buf b).lock = some t
    then .ok () { s with
      disk := update s.disk (s.buf b).blockno (s.buf b).data
      hist := { s.hist with mark := update s.hist.mark (s.block b) (s.hist.mark (s.block b)).write } }
    else .panic "bwrite"

/-- The history's part of dropping a reference or a pin: a block that nobody
holds or has pinned any more may lose what has not been written. -/
def State.dropped (s : State) (b : BufId) : State :=
  if s.refs b = 0 then s.modHist fun h => { h with mark := update h.mark (s.block b) (h.mark (s.block b)).drop }
  else s

/-- `b->refcnt--`, and if it is then 0, `b` moves to the head of the ring. -/
def dropRef (b : BufId) : KProg Unit :=
  .step fun t s =>
    let s := ((s.modBuf b fun x => { x with refcnt := x.refcnt - 1 }).modHist
      fun h => { h with holds := h.holds.erase (t, b) }).dropped b
    .ok () <| if (s.buf b).refcnt = 0 then { s with
      links := (s.links.remove b).insert b
      hist := { s.hist with clock := s.hist.clock + 1, freedAt := update s.hist.freedAt b (s.hist.clock + 1) } }
    else s

def brelse (b : BufId) : KProg Unit := do
  .step fun t s => if (s.buf b).lock = some t then .ok () (s.modBuf b ({ · with lock := none }))
    else .panic "brelse"
  acquire
  dropRef b
  release

def bpin (b : BufId) : KProg Unit := do
  acquire
  .step fun _ s => .ok () ((s.modBuf b fun x => { x with refcnt := x.refcnt + 1 }).modHist
    fun h => { h with pins := b :: h.pins })
  release

def bunpin (b : BufId) : KProg Unit := do
  acquire
  .step fun _ s => .ok () (((s.modBuf b fun x => { x with refcnt := x.refcnt - 1 }).modHist
    fun h => { h with pins := h.pins.erase b, unbalanced := h.unbalanced || !decide (b ∈ h.pins) }).dropped b)
  release

/-! ## Processes -/

/-- The calls of a process. -/
inductive Call where
  | bread (blk : Block)
  | modify (b : BufId) (blk : Block) (f : Bytes → Bytes)
  | bwrite (b : BufId) (blk : Block)
  | brelse (b : BufId) (blk : Block)
  | bpin (b : BufId)
  | bunpin (b : BufId)

/-- Processes that modify, write and release only buffers that they hold. A
process knows the buffers that it holds, with their blocks. -/
def client : Client State Pid (List (BufId × Block)) Call where
  allowed _ l
    | .modify b blk _ => (b, blk) ∈ l
    | .bwrite b blk => (b, blk) ∈ l
    | .brelse b blk => (b, blk) ∈ l
    | _ => true
  body
    | .bread blk, l => do
      let b ← bread blk
      return (b, blk) :: l
    | .modify b _ f, l => do
      modify b f
      return l
    | .bwrite b _, l => do
      bwrite b
      return l
    | .brelse b blk, l => do
      brelse b
      return l.erase (b, blk)
    | .bpin b, l => do
      bpin b
      return l
    | .bunpin b, l => do
      bunpin b
      return l

/-- Every `bunpin` removes a pin, and no buffer has as many references and
pins as `refcnt` cannot count. -/
def Balanced (s : State) : Prop := s.hist.unbalanced = false ∧ ∀ i, s.refs i < 2 ^ 32

instance (s : State) : Decidable (Balanced s) := inferInstanceAs (Decidable (_ ∧ _))

/-! ## What the cache promises -/

/-- At most one buffer is assigned to a block of a device other than 0. -/
def UniqueBlocks (s : State) : Prop := ∀ i j, (s.buf i).dev ≠ 0 → s.block i = s.block j → i = j

/-- The pointers form a ring with all buffers in it, those released last
first. -/
def RingOrdered (s : State) : Prop :=
  ∃ l, s.links.Ring l ∧ (∀ i, i ∈ l) ∧ l.Pairwise fun i j =>
    s.hist.freedAt j < s.hist.freedAt i ∨ s.hist.freedAt i = 0 ∧ s.hist.freedAt j = 0

/-- The buffer recycled was the last one in the ring with `refcnt` 0, and
nobody held it or had pinned it. -/
def Miss.LastUnused (m : Miss) : Prop := m.order.reverse.find? (· ∈ m.unused) = some m.buf ∧ m.buf ∈ m.free

/-- No block number has been read from two devices. -/
def OneDev (s : State) : Prop := ∀ x ∈ s.hist.reads, ∀ y ∈ s.hist.reads, x.2 = y.2 → x = y

/-- What a process that has read block `blk` into buffer `b` sees, if the disk
was `d` at the start: the contents that the last modification gave to the
block, unless it was lost, and the disk's contents if there was none. -/
def Sees (d : Nat → Bytes) (s : State) (b : BufId) (blk : Block) : Prop :=
  (s.buf b).valid = true ∧ s.block b = blk ∧ (s.hist.mark blk ≠ .lost → (s.buf b).data = s.hist.last blk) ∧
  (s.hist.mark blk = .untouched → (s.buf b).data = s.disk blk.2 ∧ s.disk blk.2 = d blk.2)

end Xv6.Bio
