import Xv6.Framework.Monitor
import Xv6.Framework.Ring
import Xv6.Param

/-!
# Pipes (`pipe.c`)

One pipe and the processes that use it. `pipewrite`, `piperead` and
`pipeclose` are programs of atomic steps: taking and releasing `pi->lock`,
going to sleep (`Mon`), and each access to the pipe in between. Processes may be
killed at any time, which wakes them up.

The history (`Hist`), which no step reads, numbers the calls and keeps the
bytes in the order in which the pipe accepted and delivered them, each with
the number of its call, and what each call returned. `Wakes` keeps track of
whether the readers have been told about the bytes accepted.
-/

namespace Xv6.Pipe

open Function

abbrev pipesize : Nat := 512

/-- What a process sleeps on: `&pi->nread` or `&pi->nwrite`. -/
inductive Chan where
  | nread
  | nwrite
  deriving DecidableEq

/-- A byte that the pipe has accepted or delivered, and the call it
belongs to. -/
structure Xfer where
  call : Nat
  byte : UInt8

/-- History variables. -/
structure Hist where
  /-- How many calls have begun. -/
  ncalls : Nat := 0
  accepted : List Xfer := []
  delivered : List Xfer := []
  /-- The calls that have returned, each with the value returned. -/
  rets : List (Nat × Int) := []

/-- More history: `unwoken` says that bytes have been stored since the last
`wakeup(&pi->nread)`, and `gaveUp` that `pipewrite` has returned early at such
a time. -/
structure Wakes where
  unwoken : Bool := false
  gaveUp : Bool := false

/-- `struct pipe` without its lock, and of each process its memory and `killed`.
`freed` says that `pipeclose` has given the page back. -/
structure State where
  data : Nat → UInt8
  nread : BitVec 32
  nwrite : BitVec 32
  readopen : Bool
  writeopen : Bool
  freed : Bool
  mem : Pid → BitVec 64 → UInt8
  killed : Pid → Bool
  hist : Hist
  wakes : Wakes

abbrev KProg := Prog (Mon State Chan Pid) Pid

def atomic {α : Type} (f : Pid → State → α × State) : KProg α := Mon.on (.step fun t s => .ok (f t s).1 (f t s).2)

/-- The pipe that `pipealloc` makes, in a page with any contents `data`. -/
def pipealloc (data : Nat → UInt8) (mem : Pid → BitVec 64 → UInt8) : Mon State Chan Pid where
  data := {
    data
    nread := 0
    nwrite := 0
    readopen := true
    writeopen := true
    freed := false
    mem
    killed := fun _ => false
    hist := {}
    wakes := {} }

/-- `wakeup(&pi->nread)`. -/
def wakeupReaders : KProg Unit := do
  Mon.wakeup .nread
  atomic fun _ s => ((), { s with wakes := { s.wakes with unwoken := false } })

/-- Mark process `u` as killed, and wake it up. -/
def kill (u : Pid) : KProg Unit := do
  atomic fun _ s => ((), { s with killed := update s.killed u true })
  Mon.rouse u

/-! ## The functions of `pipe.c` -/

section

-- `mapped t a`: process `t` has memory at address `a`
variable (mapped : Pid → BitVec 64 → Bool)

def copyin (t : Pid) (s : State) (a : BitVec 64) : Option UInt8 := if mapped t a then some (s.mem t a) else none

def copyout (t : Pid) (s : State) (a : BitVec 64) (ch : UInt8) : Option State :=
  if mapped t a then some { s with mem := update s.mem t (update (s.mem t) a ch) } else none

/-- The loop of `pipewrite` that sleeps while the pipe is full. Returns
`false`, with the lock released, if nobody can read the pipe any more or the
process has been killed. -/
def waitNotFull : KProg Bool :=
  .loop (fun (_ : Unit) => do
    let full ← atomic fun _ s => (decide (s.nwrite = s.nread + .ofNat 32 pipesize), s)
    if full then
      let stop ← atomic fun t s => (!s.readopen || s.killed t,
        { s with wakes := { s.wakes with gaveUp := s.wakes.gaveUp || s.wakes.unwoken && (!s.readopen || s.killed t) } })
      if stop then
        Mon.release
        return .inr false
      else
        wakeupReaders
        Mon.sleep .nwrite
        return .inl ()
    else return .inr true) ()

/-- `pi->data[pi->nwrite++ % PIPESIZE] = ch`, for the byte at address `a`;
`false` if `copyin` fails. -/
def putByte (call : Nat) (a : BitVec 64) : KProg Bool :=
  atomic fun t s => match copyin mapped t s a with
    | none => (false, s)
    | some ch => (true, { s with
        data := update s.data (s.nwrite.toNat % pipesize) ch
        nwrite := s.nwrite + 1
        hist := { s.hist with accepted := s.hist.accepted ++ [⟨call, ch⟩] }
        wakes := { s.wakes with unwoken := true } })

def pipewrite (call : Nat) (addr : BitVec 64) (n : Int) : KProg Int := do
  Mon.acquire
  let r ← .loop (fun (i : Nat) => if (i : Int) < n then do
      if ← waitNotFull then
        if ← putByte mapped call (addr + .ofNat 64 i) then return .inl (i + 1) else return .inr (some i)
      else return .inr none
    else return .inr (some i)) 0
  match r with
  | none => return -1
  | some i =>
    wakeupReaders
    Mon.release
    return (i : Int)

/-- The loop of `piperead` that sleeps while the pipe is empty and may still
be written. Returns `false`, with the lock released, if the process has been
killed. -/
def waitNotEmpty : KProg Bool :=
  .loop (fun (_ : Unit) => do
    let empty ← atomic fun _ s => (decide (s.nread = s.nwrite) && s.writeopen, s)
    if empty then
      let killed ← atomic fun t s => (s.killed t, s)
      if killed then
        Mon.release
        return .inr false
      else
        Mon.sleep .nread
        return .inl ()
    else return .inr true) ()

/-- `ch = pi->data[pi->nread++ % PIPESIZE]`, stored at address `a`; `false` if
the pipe is empty, or `copyout` fails and the byte is lost. -/
def getByte (call : Nat) (a : BitVec 64) : KProg Bool :=
  atomic fun t s => if s.nread = s.nwrite then (false, s) else
    let ch := s.data (s.nread.toNat % pipesize)
    let s' := { s with nread := s.nread + 1 }
    match copyout mapped t s' a ch with
    | none => (false, s')
    | some s'' => (true, { s'' with hist := { s.hist with delivered := s.hist.delivered ++ [⟨call, ch⟩] } })

def piperead (call : Nat) (addr : BitVec 64) (n : Int) : KProg Int := do
  Mon.acquire
  if ← waitNotEmpty then
    let i ← .loop (fun (i : Nat) => if (i : Int) < n then do
        if ← getByte mapped call (addr + .ofNat 64 i) then return .inl (i + 1) else return .inr i
      else return .inr i) 0
    Mon.wakeup .nwrite
    Mon.release
    return (i : Int)
  else return -1

/-- Mark one end as closed, and wake up the processes that wait for the other. -/
def closeEnd (writable : Bool) : KProg Unit :=
  if writable then do
    atomic fun _ s => ((), { s with writeopen := false })
    wakeupReaders
  else do
    atomic fun _ s => ((), { s with readopen := false })
    Mon.wakeup .nwrite

/-- `kfree(pi)` fills the page with junk. -/
def kfree : KProg Unit :=
  atomic fun _ s => ((), { s with
    freed := true, data := fun _ => 1, nread := 0x01010101, nwrite := 0x01010101, readopen := true, writeopen := true })

def pipeclose (writable : Bool) : KProg Unit := do
  Mon.acquire
  closeEnd writable
  let closed ← atomic fun _ s => (!s.readopen && !s.writeopen, s)
  if closed then
    Mon.release
    kfree
  else Mon.release

/-! ## Processes -/

/-- What a process may do: call `write`, `read`, `close` or `kill`, or store a
byte into its own memory. -/
inductive Call where
  | write (addr : BitVec 64) (n : Int)
  | read (addr : BitVec 64) (n : Int)
  | close (writable : Bool)
  | kill (u : Pid)
  | store (a : BitVec 64) (ch : UInt8)

def beginCall : KProg Nat :=
  atomic fun _ s => (s.hist.ncalls, { s with hist := { s.hist with ncalls := s.hist.ncalls + 1 } })

/-- Record what call `call` returns. -/
def endCall (call : Nat) (r : Int) : KProg Unit :=
  atomic fun _ s => ((), { s with hist := { s.hist with rets := (call, r) :: s.hist.rets } })

/-- All of the `n` bytes from `addr` on are memory of `t`. -/
def validBuf (t : Pid) (addr : BitVec 64) (n : Int) : Bool :=
  (List.range n.toNat).all fun i => mapped t (addr + .ofNat 64 i)

/-- Processes that call `pipewrite` and `piperead` with valid buffers. -/
def client : Client (Mon State Chan Pid) Pid Unit Call where
  allowed t _
    | .write addr n => validBuf mapped t addr n
    | .read addr n => validBuf mapped t addr n
    | .store a _ => mapped t a
    | _ => true
  body
    | .write addr n, _ => do
      let call ← beginCall
      let r ← pipewrite mapped call addr n
      endCall call r
    | .read addr n, _ => do
      let call ← beginCall
      let r ← piperead mapped call addr n
      endCall call r
    | .close writable, _ => pipeclose writable
    | .kill u, _ => kill u
    | .store a ch, _ => atomic fun t s => ((), { s with mem := update s.mem t (update (s.mem t) a ch) })

end

def State.buffered (s : State) : List UInt8 := Ring.contents pipesize s.data s.nread s.nwrite

/-- How many bytes of call `call` the pipe has accepted or delivered. -/
def Hist.own (h : Hist) (call : Nat) : Nat :=
  (h.accepted.filter fun x => x.call = call).length + (h.delivered.filter fun x => x.call = call).length

end Xv6.Pipe
