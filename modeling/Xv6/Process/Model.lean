import Xv6.Framework.Thread
import Xv6.Param

/-!
# Processes (`proc.c`)

A shallow embedding of `fork`, `exit`, `wait`, `kill`, `sleep`, `wakeup`,
`yield` and the scheduler as programs of atomic steps. Each `acquire` and each
`release` of a `p->lock` is a step of its own, and so is each access to the
process table in between, in particular those that the source makes without
holding the lock.

The threads are the kernel threads of the processes and the scheduler loops of
`n` CPUs. `swtch` hands a process's lock from the scheduler to the process and
back: in between the lock belongs to a CPU that is switching.

A timer interrupt makes a process yield also in the middle of a call, where it
holds no lock (`preempt`). An interrupt that calls `wakeup` there is not
modelled as a part of the call: its effect on the table is that of a `wakeup`
of another thread.

User memory is not modelled here. `kalloc`, `proc_pagetable` and `uvmcopy`
return what comes from outside, and may fail at any time. The pages that they
allocate, the open files and the current directory are not in this state; a
process closes its files before it takes any process's lock.
-/

namespace Xv6.Process

open Function

/-- `enum procstate`. -/
inductive ProcState where
  | unused
  | sleeping
  | runnable
  | running
  | zombie
  deriving DecidableEq

/-- What a process sleeps on: a process, in `wait`, or another address. -/
inductive Chan where
  | proc (p : Pid)
  | addr (a : Nat)
  deriving DecidableEq

/-- `struct proc`, without its lock. A page table or a trapframe is the
address of its page, or 0. -/
structure Proc where
  state : ProcState
  parent : Option Pid
  chan : Option Chan
  killed : Bool
  xstate : Int
  pid : BitVec 32
  sz : Nat
  pagetable : Nat
  trapframe : Nat

/-- A CPU executes the kernel thread of a process, or its scheduler loop. -/
abbrev Agent (n : Nat) := Pid ⊕ Fin n

/-- A process's lock is held by whoever acquired it, or by a CPU that is
switching to the process or from the process to its scheduler. -/
inductive Owner (n : Nat) where
  | held (a : Agent n)
  | toProc (c : Fin n)
  | toSched (c : Fin n)
  deriving DecidableEq

/-- A process that has become a zombie: the number of its birth, its pid and
its exit status. -/
structure Exit where
  id : Nat
  pid : BitVec 32
  status : Int

/-- A zombie that `wait` has freed: the slot of the process that waited and the
number of its call, the zombie's birth, parent and pid, and the exit status
that was copied out, if `addr` was not 0. -/
structure Reap where
  waiter : Pid
  call : Nat
  id : Nat
  parent : Option Pid
  pid : BitVec 32
  status : Option Int

/-- What a call of `wait` has returned. -/
structure Ret where
  waiter : Pid
  call : Nat
  value : BitVec 32

/-- A call of `wait` whose `copyout` has failed, and the zombie's birth. -/
structure Failed where
  waiter : Pid
  call : Nat
  id : Nat

/-- The history of `exit` and `wait`. -/
structure WaitLog where
  /-- How many calls of `wait` the processes of a slot have begun. -/
  waits : Pid → Nat := fun _ => 0
  exits : List Exit := []
  reaps : List Reap := []
  rets : List Ret := []
  failed : List Failed := []

/-- What is in `p->context`: registers that have been restored since, those of
a new process that starts in `forkret`, or those that `swtch` has saved. -/
inductive Context where
  | stale
  | forkret
  | saved
  deriving DecidableEq

/-- History variables, which no step reads. -/
structure Hist (n : Nat) where
  /-- The lock that is being acquired. -/
  want : Agent n → Option Pid
  /-- `original_parent` of a process in `exit`. -/
  remembered : Pid → Option Pid
  /-- The slots' births, in the order of the forks. -/
  stamp : Pid → Nat
  births : Nat
  /-- A fork has put a child into a slot that a process in `exit` remembers
  as its `original_parent`. -/
  reused : Bool
  /-- `kill` has been called with pid 0. -/
  killedZero : Bool
  /-- `kalloc` has failed to allocate a trapframe. -/
  noTrapframe : Bool
  /-- A child was marked as killed when its `fork` made it runnable. -/
  bornKilled : Bool
  context : Pid → Context
  log : WaitLog := {}

/-- The process table, the locks, and the CPUs. -/
structure State (n : Nat) where
  proc : Pid → Proc
  lock : Pid → Option (Owner n)
  /-- `c->proc`. -/
  cproc : Fin n → Option Pid
  /-- The CPU that executes a process's kernel thread. -/
  oncpu : Pid → Option (Fin n)
  nextpid : BitVec 32
  hist : Hist n

variable {n : Nat}

abbrev KProg (n : Nat) := Prog (State n) (Agent n)

abbrev initproc : Pid := 0

namespace State

def modProc (s : State n) (p : Pid) (f : Proc → Proc) : State n :=
  { s with proc := update s.proc p (f (s.proc p)) }

def modHist (s : State n) (f : Hist n → Hist n) : State n := { s with hist := f s.hist }

def setLock (s : State n) (p : Pid) (o : Option (Owner n)) : State n := { s with lock := update s.lock p o }

def setWant (s : State n) (a : Agent n) (p : Option Pid) : State n :=
  s.modHist fun h => { h with want := update h.want a p }

def setContext (s : State n) (p : Pid) (x : Context) : State n :=
  s.modHist fun h => { h with context := update h.context p x }

def modLog (s : State n) (f : WaitLog → WaitLog) : State n := s.modHist fun h => { h with log := f h.log }

end State

/-! ## Locks and switching -/

/-- `acquire(&p->lock)`. -/
def acquire (p : Pid) : KProg n Unit := do
  .step fun a s => if s.lock p = some (.held a) then .panic "acquire" else .ok () (s.setWant a (some p))
  .step fun a s => if s.lock p = none then .ok () ((s.setLock p (some (.held a))).setWant a none) else .wait

def release (p : Pid) : KProg n Unit :=
  .step fun a s => if s.lock p = some (.held a) then .ok () (s.setLock p none) else .panic "release"

/-- `myproc()`. -/
def myproc : KProg n Pid :=
  .step fun a s => match a with
    | .inl p => .ok p s
    | .inr _ => .wait

def getProc (p : Pid) : KProg n Proc := .step fun _ s => .ok (s.proc p) s

def modProc (p : Pid) (f : Proc → Proc) : KProg n Unit := .step fun _ s => .ok () (s.modProc p f)

/-- The process's thread is switched to. -/
def resume (p : Pid) : KProg n Unit :=
  .step fun a s => match s.lock p with
    | some (.toProc c) => .ok () ({ s.setLock p (some (.held a)) with
        oncpu := update s.oncpu p (some c) }.setContext p .stale)
    | _ => .wait

/-- The process's thread switches to the scheduler. -/
def swtch (p : Pid) : KProg n Unit :=
  .step fun a s =>
    if s.lock p ≠ some (.held a) then .panic "sched p->lock"
    else if (s.proc p).state = .running then .panic "sched running"
    else match s.oncpu p with
      | some c => .ok () ({ s.setLock p (some (.toSched c)) with oncpu := update s.oncpu p none }.setContext p .saved)
      | none => .wait

/-- Switch to the scheduler, and be switched to later. -/
def sched (p : Pid) : KProg n Unit := do
  swtch p
  resume p

def yield : KProg n Unit := do
  let p ← myproc
  acquire p
  modProc p ({ · with state := .runnable })
  sched p
  release p

/-- A timer interrupt may come here, where the thread holds no lock, and then
the process yields. -/
def preempt : KProg n Unit := .any fun k => if k = 0 then yield else .ret ()

/-- A child's first scheduling switches to `forkret`. -/
def forkret : KProg n Unit := do
  let p ← myproc
  resume p
  release p

/-- `sleep` after it has acquired `p->lock`. -/
def sleepLocked (p : Pid) (chan : Chan) : KProg n Unit := do
  modProc p ({ · with chan := some chan, state := .sleeping })
  sched p
  modProc p ({ · with chan := none })

/-- `sleep` with a lock other than `p->lock`. -/
def sleep (chan : Chan) : KProg n Unit := do
  let p ← myproc
  acquire p
  sleepLocked p chan
  release p

/-- The loop `for(p = proc; p < &proc[NPROC]; p++)`; its body may end it with
a value. -/
def forProcs {α : Type} (f : Pid → KProg n (Option α)) : KProg n (Option α) := .forFin nproc f

def wakeup (chan : Chan) : KProg n Unit := do
  let _ ← forProcs fun p => do
    preempt
    acquire p
    modProc p fun x => if x.state = .sleeping ∧ x.chan = some chan then { x with state := .runnable } else x
    release p
    return (none : Option Unit)

/-- Wake up `p` if it is sleeping in `wait`. -/
def wakeup1 (p : Pid) : KProg n Unit :=
  .step fun a s => if s.lock p ≠ some (.held a) then .panic "wakeup1" else .ok () <| s.modProc p fun x =>
    if x.chan = some (.proc p) ∧ x.state = .sleeping then { x with state := .runnable } else x

/-- The scheduler of a CPU, once around the process table. -/
def scheduler : KProg n Unit := do
  let _ ← forProcs fun p => do
    acquire p
    let found ← .step fun a s => match a with
      | .inr c => if (s.proc p).state = .runnable
          then .ok true ({ (s.modProc p ({ · with state := .running })).setLock p (some (.toProc c)) with
            cproc := update s.cproc c (some p) })
          else .ok false s
      | .inl _ => .wait
    if found then
      .step fun a s => match a with
        | .inr c => if s.lock p = some (.toSched c)
            then .ok () { s.setLock p (some (.held a)) with cproc := update s.cproc c none } else .wait
        | .inl _ => .wait
    release p
    return (none : Option Unit)

/-! ## Creating and freeing processes -/

/-- What `kalloc`, `proc_pagetable`, `uvmcopy` or `copyout` returns; 0 means
that it has failed. -/
def input : KProg n Nat := .any .ret

/-- A `struct proc` that `freeproc` has cleared. -/
def Proc.freed (x : Proc) : Proc :=
  { x with
    trapframe := 0, pagetable := 0, sz := 0, pid := 0, parent := none, chan := none, killed := false, xstate := 0
    state := .unused }

def freeproc (p : Pid) : KProg n Unit := modProc p Proc.freed

def allocpid : KProg n (BitVec 32) := .step fun _ s => .ok s.nextpid { s with nextpid := s.nextpid + 1 }

/-- `p->pagetable = …`, and if that is not 0, the new context starts in
`forkret`. -/
def setPagetable (p : Pid) (pagetable : Nat) : KProg n Unit :=
  .step fun _ s =>
    let s' := s.modProc p ({ · with pagetable })
    .ok () (if pagetable = 0 then s' else s'.setContext p .forkret)

/-- Look in the process table for an unused slot, and initialize it; returns
with its lock held. -/
def allocproc : KProg n (Option Pid) := do
  let found ← forProcs fun p => do
    preempt
    acquire p
    if (← getProc p).state = .unused then
      return some p
    else
      release p
      return none
  match found with
  | none => return none
  | some p =>
    let pid ← allocpid
    modProc p ({ · with pid })
    let trapframe ← input
    .step fun _ s => .ok () ((s.modProc p ({ · with trapframe })).modHist
      fun h => { h with noTrapframe := h.noTrapframe || decide (trapframe = 0) })
    if trapframe = 0 then
      release p
      return none
    else
      let pagetable ← input
      setPagetable p pagetable
      if pagetable = 0 then
        freeproc p
        release p
        return none
      else
        return some p

/-- `np->parent = p`, the birth of a child. -/
def setParent (np p : Pid) : KProg n Unit :=
  .step fun _ s => .ok () ((s.modProc np ({ · with parent := some p })).modHist fun h => { h with
    stamp := update h.stamp np (h.births + 1), births := h.births + 1
    reused := h.reused || decide (∃ q, h.remembered q = some np) })

/-- `np->state = RUNNABLE`. -/
def setRunnable (np : Pid) : KProg n Unit :=
  .step fun _ s => .ok () ((s.modProc np ({ · with state := .runnable })).modHist
    fun h => { h with bornKilled := h.bornKilled || (s.proc np).killed })

def fork : KProg n Unit := do
  let p ← myproc
  match ← allocproc with
  | none => return
  | some np =>
    let copied ← input
    if copied = 0 then
      freeproc np
      release np
    else
      let sz := (← getProc p).sz
      modProc np ({ · with sz })
      setParent np p
      setRunnable np
      release np

/-! ## `exit`, `wait` and `kill` -/

/-- Pass `p`'s abandoned children to init. -/
def reparent (p : Pid) : KProg n Unit := do
  let _ ← forProcs fun pp => do
    if (← getProc pp).parent = some p then
      acquire pp
      modProc pp ({ · with parent := some initproc })
      release pp
      return (none : Option Unit)
    else
      return none

/-- `original_parent = p->parent`. A process without a parent would follow a
null pointer. -/
def getParent (p : Pid) : KProg n Pid :=
  .step fun _ s => match (s.proc p).parent with
    | some pp => .ok pp (s.modHist fun h => { h with remembered := update h.remembered p (some pp) })
    | none => .panic "null pointer"

/-- The end of `exit`: the process becomes a zombie and lets go of its
parent. -/
def forgetParent (p : Pid) : KProg n Unit :=
  .step fun _ s => .ok () (s.modHist fun h => { h with remembered := update h.remembered p none })

/-- `p->xstate = status; p->state = ZOMBIE`. -/
def becomeZombie (p : Pid) (status : Int) : KProg n Unit :=
  .step fun _ s => .ok () ((s.modProc p ({ · with xstate := status, state := .zombie })).modLog
    fun l => { l with exits := ⟨s.hist.stamp p, (s.proc p).pid, status⟩ :: l.exits })

def exit (status : Int) : KProg n Unit := do
  let p ← myproc
  if p = initproc then .step fun _ _ => .panic "init exiting"
  acquire initproc
  wakeup1 initproc
  release initproc
  preempt
  acquire p
  let originalParent ← getParent p
  release p
  preempt
  acquire originalParent
  acquire p
  reparent p
  wakeup1 originalParent
  becomeZombie p status
  forgetParent p
  release originalParent
  -- jump into the scheduler, never to return
  swtch p

/-- `myproc()` at the beginning of `wait`; the history counts the calls. -/
def beginWait : KProg n Pid :=
  .step fun a s => match a with
    | .inl p => .ok p (s.modLog fun l => { l with waits := update l.waits p (l.waits p + 1) })
    | .inr _ => .wait

/-- `wait` returns. -/
def endWait (value : BitVec 32) : KProg n Unit :=
  .step fun a s => match a with
    | .inl p => .ok () (s.modLog fun l => { l with rets := ⟨p, l.waits p, value⟩ :: l.rets })
    | .inr _ => .wait

/-- `copyout` of the exit status of `np` has failed. -/
def copyoutFailed (p np : Pid) : KProg n Unit :=
  .step fun _ s => .ok () (s.modLog fun l => { l with failed := ⟨p, l.waits p, s.hist.stamp np⟩ :: l.failed })

/-- `wait` frees the zombie `np`, whose pid and exit status it has read. -/
def reap (p np : Pid) (pid : BitVec 32) (status : Option Int) : KProg n Unit :=
  .step fun _ s => .ok () ((s.modProc np Proc.freed).modLog fun l => { l with
    reaps := ⟨p, l.waits p, s.hist.stamp np, (s.proc np).parent, pid, status⟩ :: l.reaps })

/-- `wait(addr)`; `addr` says whether `addr` is not 0. -/
def wait (addr : Bool) : KProg n (BitVec 32) := do
  let p ← beginWait
  acquire p
  .loop (fun _ : Unit => do
    -- `havekids` is set by the children that are not zombies
    let kids : BitVec 32 ⊕ Bool ← .loop (fun (i, havekids) => if h : i < nproc then do
        let np : Pid := ⟨i, h⟩
        if (← getProc np).parent = some p then
          acquire np
          let x ← getProc np
          if x.state = .zombie then
            let copied ← input
            if addr && copied = 0 then
              copyoutFailed p np
              release np
              release p
              return .inr (.inl (-1))
            else
              reap p np x.pid (if addr then some x.xstate else none)
              release np
              release p
              return .inr (.inl x.pid)
          else
            release np
            return .inl (i + 1, true)
        else return .inl (i + 1, havekids)
      else return .inr (.inr havekids)) (0, false)
    match kids with
    | .inl value => return .inr value
    | .inr havekids =>
      if !havekids || (← getProc p).killed then
        release p
        return .inr (-1)
      else
        sleepLocked p (.proc p)
        return .inl ()) ()

def kill (pid : BitVec 32) : KProg n Unit := do
  .step fun _ s => .ok () (s.modHist fun h => { h with killedZero := h.killedZero || decide (pid = 0) })
  let _ ← forProcs fun p => do
    preempt
    acquire p
    if (← getProc p).pid = pid then
      modProc p fun x => { x with killed := true, state := if x.state = .sleeping then .runnable else x.state }
      release p
      return some ()
    else
      release p
      return none

/-! ## Processes -/

/-- The calls of the threads. -/
inductive Call where
  | forkret
  | fork
  | exit (status : Int)
  | wait (addr : Bool)
  | kill (pid : BitVec 32)
  | sleep (chan : Nat)
  | wakeup (chan : Nat)
  | yield
  | scheduler

/-- A process's thread begins in `forkret`, makes calls until it exits, and
begins again when the slot is used again; a CPU schedules. Interrupts call
`wakeup` in any thread. -/
def client (n : Nat) : Client (State n) (Agent n) Bool Call where
  allowed
    | .inl _, true, .fork | .inl _, true, .exit _ | .inl _, true, .wait _ | .inl _, true, .kill _ => true
    | .inl _, true, .sleep _ | .inl _, true, .yield => true
    | .inl _, false, .forkret => true
    | .inr _, _, .scheduler => true
    | .inl _, live, .wakeup _ => live
    | .inr _, _, .wakeup _ => true
    | _, _, _ => false
  body
    | .forkret, _ => do forkret; return true
    | .fork, l => do fork; return l
    | .exit status, _ => do exit status; return false
    | .wait addr, l => do
      let value ← wait addr
      endWait value
      return l
    | .kill pid, l => do kill pid; return l
    | .sleep chan, l => do sleep (.addr chan); return l
    | .wakeup chan, l => do wakeup (.addr chan); return l
    | .yield, l => do yield; return l
    | .scheduler, l => do scheduler; return l

/-- When `userinit` returns: init is runnable, and every other slot unused. -/
def userinit (n : Nat) (pagetable trapframe : Nat) : State n where
  proc p := if p = initproc then ⟨.runnable, none, none, false, 0, 1, 4096, pagetable, trapframe⟩
    else ⟨.unused, none, none, false, 0, 0, 0, 0, 0⟩
  lock _ := none
  cproc _ := none
  oncpu _ := none
  nextpid := 2
  hist := ⟨fun _ => none, fun _ => none, fun _ => 0, 0, false, false, false, false,
    fun p => if p = initproc then .forkret else .stale, {}⟩

/-! ## Schedules -/

abbrev Schedule (n : Nat) := List (Event (Agent n) Call)

/-- Numerals name the CPUs of a machine with four. -/
instance fourCpus : NeZero 4 := ⟨by decide⟩

/-- The scheduler of CPU `c` runs the process `p`. In this schedule and the
following ones `kalloc` and `uvmcopy` succeed, and there are no timer
interrupts. -/
def schedTo (c : Fin n) (p : Pid) : Schedule n := .call (.inr c) .scheduler :: Event.steps (.inr c) (5 * p.val + 4) 1

/-- A new process returns to user space. -/
def start (p : Pid) : Schedule n := .call (.inl p) .forkret :: Event.steps (.inl p) 4 1

/-- `p` forks a child into the slot `k`. -/
def forkTo (p k : Pid) : Schedule n := .call (.inl p) .fork :: Event.steps (.inl p) (6 * k.val + 19) 1

end Xv6.Process
