import Mathlib.Data.List.FinRange
import Mathlib.Tactic.Simps.Basic
import Xv6.Framework.Bytes
import Xv6.Framework.Thread
import Xv6.Param

/-!
# The buffer cache and the log (`bio.c`, `log.c`)

A shallow embedding of the two files as programs of atomic steps: each
section under `bcache.lock`, each section under `log.lock` between two of
these, each change of a sleep-lock, each disk transfer and each access to a
locked buffer's data is one step. A process that waits for a lock, or until
`begin_op` may admit it, waits.

The ring of buffers through `prev` and `next` is the list `lru`, with
`head.next` first. The state also carries history variables (`Hist`), which
no step reads: the buffers that processes have read and not yet released,
and the writes that each operation has logged.
-/

namespace Xv6.Log

open Function

/-- A buffer of the cache. -/
abbrev BufId := Fin nbuf

/-- `struct buf`. Its sleep-lock is the process that holds it. -/
structure Buf where
  valid : Bool
  dev : Nat
  blockno : Nat
  lock : Option Pid
  refcnt : BitVec 32
  data : Bytes

/-- `struct log`, with `lh.block[0..lh.n)` as a list. -/
structure LogState where
  start : Nat
  size : Nat
  outstanding : Int
  committing : Bool
  dev : Nat
  lh : List Nat
  /-- The `log_write` that holds `log.lock` between `bpin` and `lh.n++`, and its block. -/
  adding : Option (Pid × Nat)

/-- One `log_write`: the operation it belongs to, the block, and the
contents that the operation gave it. -/
structure Write where
  op : Nat
  blockno : Nat
  data : Bytes

/-- History variables. -/
structure Hist where
  /-- The `bread` calls not yet matched by `brelse`. -/
  holds : List (Pid × BufId)
  /-- How many operations have begun. -/
  nops : Nat
  /-- The commit groups: the writes of the operations that each commit
  writes to disk. -/
  groups : List (List Write)
  /-- The writes since the last commit. -/
  cur : List Write
  /-- How many commits have returned. -/
  done : Nat
  /-- How many entries of `lh` the running `install_trans` has unpinned. -/
  inst : Nat

/-- The disk, the buffer cache and the log. -/
structure State where
  disk : Nat → Bytes
  buf : BufId → Buf
  lru : List BufId
  log : LogState
  hist : Hist

abbrev KProg := Prog State Pid

namespace State

@[simps -fullyApplied]
def modBuf (s : State) (i : BufId) (f : Buf → Buf) : State :=
  { s with buf := update s.buf i (f (s.buf i)) }

@[simps -fullyApplied]
def modLog (s : State) (f : LogState → LogState) : State := { s with log := f s.log }

@[simps -fullyApplied]
def modHist (s : State) (f : Hist → Hist) : State := { s with hist := f s.hist }

section

variable (s : State) (i : BufId) (f : Buf → Buf) (g : LogState → LogState) (h : Hist → Hist)

theorem modBuf_self (hf : f (s.buf i) = s.buf i) : s.modBuf i f = s := by
  rw [modBuf, hf, update_eq_self]

end

end State

/-! ## `bio.c` -/

/-- The state when `binit` returns, with the disk `d`. -/
def binit (d : Nat → Bytes) : State where
  disk := d
  buf _ := ⟨false, 0, 0, none, 0, fun _ => 0⟩
  lru := (List.finRange nbuf).reverse
  log := ⟨0, 0, 0, false, 0, [], none⟩
  hist := ⟨[], 0, [], [], 0, 0⟩

def acquiresleep (b : BufId) : KProg Unit :=
  .step fun t s => if (s.buf b).lock = none then .ok () (s.modBuf b ({ · with lock := some t })) else .wait

/-- The section of `bget` under `bcache.lock`: look through the cache for the
block; if it is not there, recycle the least recently used unused buffer. -/
def bgetRef (dev blockno : Nat) (t : Pid) (s : State) : Res State BufId :=
  match s.lru.find? fun i => (s.buf i).dev = dev ∧ (s.buf i).blockno = blockno with
  | some i => .ok i ((s.modBuf i fun x => { x with refcnt := x.refcnt + 1 }).modHist
      fun h => { h with holds := (t, i) :: h.holds })
  | none => match s.lru.reverse.find? fun i => (s.buf i).refcnt = 0 with
    | some i => .ok i ((s.modBuf i fun x => { x with dev, blockno, valid := false, refcnt := 1 }).modHist
        fun h => { h with holds := (t, i) :: h.holds })
    | none => .panic "bget: no buffers"

/-- Returns a buffer for the block, locked. -/
def bget (dev blockno : Nat) : KProg BufId := do
  let b ← .step (bgetRef dev blockno)
  acquiresleep b
  return b

def bread (dev blockno : Nat) : KProg BufId := do
  let b ← bget dev blockno
  .step fun _ s => .ok () <| if (s.buf b).valid then s else
    s.modBuf b fun x => { x with data := s.disk x.blockno, valid := true }
  return b

def bwrite (b : BufId) : KProg Unit :=
  .step fun t s => if (s.buf b).lock = some t
    then .ok () { s with disk := update s.disk (s.buf b).blockno (s.buf b).data }
    else .panic "bwrite"

/-- Release the sleep-lock, then drop the reference; a buffer that is no
longer referenced moves to the head of the list. -/
def brelse (b : BufId) : KProg Unit := do
  .step fun t s => if (s.buf b).lock = some t then .ok () (s.modBuf b ({ · with lock := none }))
    else .panic "brelse"
  .step fun t s =>
    let s' := (s.modBuf b fun x => { x with refcnt := x.refcnt - 1 }).modHist
      fun h => { h with holds := h.holds.erase (t, b) }
    .ok () <| if (s'.buf b).refcnt = 0 then { s' with lru := b :: s.lru.erase b } else s'

/-- Only `install_trans` unpins buffers; the history counts them. -/
def bunpin (b : BufId) : KProg Unit :=
  .step fun _ s => .ok () ((s.modBuf b fun x => { x with refcnt := x.refcnt - 1 }).modHist
    fun h => { h with inst := h.inst + 1 })

/-- `memmove(dst->data, src->data, BSIZE)`. -/
def memmove (dst src : BufId) : KProg Unit :=
  .step fun _ s => .ok () (s.modBuf dst ({ · with data := (s.buf src).data }))

/-! ## `log.c` -/

/-- `block[0..n)` of the log header in a block; `n` and the block numbers
are 4-byte integers, and a negative `n` ends the loop at once. -/
def headBlocks (d : Bytes) : List Nat :=
  if getLE d 0 4 < 2 ^ 31 then (List.range (getLE d 0 4)).map fun i => getLE d (4 + 4 * i) 4 else []

/-- Store block numbers from offset `o` on. -/
def putBlocks (d : Bytes) : Nat → List Nat → Bytes
  | _, [] => d
  | o, b :: bs => putBlocks (putLE d o 4 b) (o + 4) bs

/-- Store a log header into a block. -/
def putHead (d : Bytes) (lh : List Nat) : Bytes := putBlocks (putLE d 0 4 lh.length) 4 lh

def getLog : KProg LogState := .step fun _ s => .ok s.log s

/-- Copy committed blocks from the log to their home location. -/
def installTrans : KProg Unit :=
  .loop (fun tail => do
    let log ← getLog
    match log.lh[tail]? with
    | none => return .inr ()
    | some b =>
      let lbuf ← bread log.dev (log.start + tail + 1)
      let dbuf ← bread log.dev b
      memmove dbuf lbuf
      bwrite dbuf
      bunpin dbuf
      brelse lbuf
      brelse dbuf
      return .inl (tail + 1)) 0

/-- Read the log header from disk into the in-memory log header. -/
def readHead : KProg Unit := do
  let log ← getLog
  let b ← bread log.dev log.start
  .step fun _ s => .ok () (s.modLog ({ · with lh := headBlocks (s.buf b).data }))
  brelse b

/-- Write the in-memory log header to disk. -/
def writeHead : KProg Unit := do
  let log ← getLog
  let b ← bread log.dev log.start
  .step fun _ s => .ok () (s.modBuf b fun x => { x with data := putHead x.data s.log.lh })
  bwrite b
  brelse b

def clearHead : KProg Unit :=
  .step fun _ s => .ok () ((s.modLog ({ · with lh := [] })).modHist ({ · with inst := 0 }))

def recoverFromLog : KProg Unit := do
  readHead
  installTrans
  clearHead
  writeHead

/-- `initlog` on a disk whose superblock has `logstart` and `nlog`. -/
def initlog (logstart nlog : Nat) : KProg Unit := do
  .step fun _ s => .ok () (s.modLog ({ · with start := logstart, size := nlog, dev := rootdev }))
  recoverFromLog

/-- A section under `log.lock`. -/
def locked {α : Type} (f : Pid → State → Res State α) : KProg α :=
  .step fun t s => if s.log.adding = none then f t s else .wait

/-- Admit an operation; returns its number in the history. -/
def beginOp : KProg Nat :=
  locked fun _ s =>
    if s.log.committing then .wait
    else if s.log.lh.length + (s.log.outstanding + 1) * maxopblocks > logsize then .wait
    else .ok s.hist.nops ((s.modLog fun l => { l with outstanding := l.outstanding + 1 }).modHist
      fun h => { h with nops := h.nops + 1 })

/-- Copy modified blocks from the cache to the log. -/
def writeLog : KProg Unit :=
  .loop (fun tail => do
    let log ← getLog
    match log.lh[tail]? with
    | none => return .inr ()
    | some b =>
      let dst ← bread log.dev (log.start + tail + 1)
      let src ← bread log.dev b
      memmove dst src
      bwrite dst
      brelse src
      brelse dst
      return .inl (tail + 1)) 0

def commit : KProg Unit := do
  let log ← getLog
  if 0 < log.lh.length then
    writeLog
    writeHead
    installTrans
    clearHead
    writeHead

/-- Ends an operation; the last one outstanding commits. -/
def endOp : KProg Unit := do
  let doCommit ← locked fun _ s =>
    if s.log.committing then .panic "log.committing"
    else if s.log.outstanding - 1 = 0 then
      .ok true ((s.modLog ({ · with outstanding := 0, committing := true })).modHist
        fun h => { h with groups := h.groups ++ [h.cur], cur := [] })
    else .ok false (s.modLog fun l => { l with outstanding := l.outstanding - 1 })
  if doCommit then
    commit
    .step fun _ s => .ok () (s.modHist fun h => { h with done := h.groups.length })
    locked fun _ s => .ok () (s.modLog ({ · with committing := false }))

/-- `lh` with block `b` recorded: a new entry, unless there is one (absorption). -/
def record (lh : List Nat) (b : Nat) : List Nat := if b ∈ lh then lh else lh ++ [b]

/-- `log_write(b)` in operation `op`. The size checks come before the lock
is taken. A new block is pinned first; the log stays locked until it is recorded. -/
def logWrite (op : Nat) (b : BufId) : KProg Unit := do
  .step fun _ s =>
    if s.log.lh.length ≥ logsize ∨ s.log.lh.length ≥ s.log.size - 1 then .panic "too big a transaction"
    else if s.log.outstanding < 1 then .panic "log_write outside of trans"
    else .ok () s
  let added ← locked fun t s =>
    let x := s.buf b
    if x.blockno ∈ s.log.lh then .ok false (s.modHist fun h => { h with cur := h.cur ++ [⟨op, x.blockno, x.data⟩] })
    else .ok true ((s.modBuf b fun x => { x with refcnt := x.refcnt + 1 }).modLog ({ · with adding := some (t, x.blockno) }))
  if added then
    .step fun _ s =>
      let x := s.buf b
      .ok () ((s.modLog fun l => { l with lh := record l.lh x.blockno, adding := none }).modHist
        fun h => { h with cur := h.cur ++ [⟨op, x.blockno, x.data⟩] })

/-! ## Processes -/

/-- Where the log is on disk: the header, and after it the logged blocks.
Block numbers are 32-bit. -/
structure Layout where
  start : Nat
  size : Nat
  pos : 0 < size
  lt : start + size < 2 ^ 31

def Layout.Home (L : Layout) (b : Nat) : Prop := b < L.start ∨ L.start + L.size ≤ b

instance (L : Layout) (b : Nat) : Decidable (L.Home b) := inferInstanceAs (Decidable (_ ∨ _))

/-- The layout of the first blocks that `mkfs` writes: the boot block, the
superblock and `LOGSIZE` blocks of log. -/
def mkfsLayout : Layout := ⟨2, logsize, by decide, by decide⟩

/-- `t` boots the machine with disk `d`: `initlog` returns in `s`. -/
def Boot (L : Layout) (t : Pid) (d : Nat → Bytes) (s : State) : Prop :=
  Prog.Reach t (initlog L.start L.size) (binit d) (.ret ()) s

/-- What a process knows between its calls: whether it is in an operation,
and which, and the buffers it has read and not released, with their block
numbers. -/
structure Local where
  inop : Bool := false
  op : Nat := 0
  held : List (BufId × Nat) := []

/-- The calls of a process. `write` modifies a buffer that it holds and
passes it to `log_write`. -/
inductive Call where
  | beginOp
  | endOp
  | bread (b : Nat)
  | brelse (i : BufId) (b : Nat)
  | write (i : BufId) (b : Nat) (f : Bytes → Bytes)

/-- Processes that follow the protocol: an operation modifies and logs
buffers that it holds, of blocks outside the log. -/
def client (L : Layout) : Client State Pid Local Call where
  allowed _ l
    | .beginOp => !l.inop
    | .endOp => l.inop
    | .bread b => b < 2 ^ 32
    | .brelse i b => (i, b) ∈ l.held
    | .write i b _ => l.inop && (i, b) ∈ l.held && L.Home b
  body
    | .beginOp, l => do
      let op ← beginOp
      return { l with inop := true, op }
    | .endOp, l => do
      endOp
      return { l with inop := false }
    | .bread b, l => do
      let i ← bread rootdev b
      return { l with held := (i, b) :: l.held }
    | .brelse i b, l => do
      brelse i
      return { l with held := l.held.erase (i, b) }
    | .write i _ f, l => do
      .step fun _ s => .ok () (s.modBuf i fun x => { x with data := f x.data })
      logWrite l.op i
      return l

end Xv6.Log
