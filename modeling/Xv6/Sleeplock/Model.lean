import Xv6.Framework.Thread
import Xv6.Process.Model

/-!
# Sleep-locks (`sleeplock.c`)

A sleep-lock `lk` and `n` processes that use it. Every `acquire` and `release` of
`lk->lk` and of a process's `p->lock` is a step of its own, and so is every access
in between; `sleep` hands over from `lk->lk` to `p->lock`, and `wakeup` and `kill`
go through the process table one lock at a time. The scheduler is the part of it
that a process sees: it releases the lock of a process that has switched away, and
takes it again to run a process that is runnable.
-/

namespace Xv6.Sleeplock

open Function

open Process (ProcState)

variable {n : Nat}

/-- What a process sleeps on: the sleep-lock, or another address. -/
inductive Chan where
  | lk
  | addr (a : Nat)
  deriving DecidableEq

/-- The fields of `struct proc` that `sleep`, `wakeup` and `kill` use. -/
structure Proc where
  state : ProcState
  chan : Option Chan
  killed : Bool
  pid : BitVec 32

/-- History variables, which no step reads. -/
structure Hist (n : Nat) where
  /-- Who has set `lk->locked`. -/
  owner : Option (Fin n) := none
  /-- Who has returned from `acquiresleep` and not yet called `releasesleep`. -/
  inside : Fin n → Bool := fun _ => false
  /-- An answer of `holdingsleep` was not right. -/
  wrong : Bool := false

/-- `struct sleeplock`, and the process table. -/
structure State (n : Nat) where
  /-- Who holds `lk->lk`. -/
  lk : Option (Fin n) := none
  locked : Bool := false
  pid : BitVec 32 := 0
  proc : Fin n → Proc
  /-- Who holds `p->lock`. -/
  plock : Fin n → Option (Fin n) := fun _ => none
  hist : Hist n := {}

abbrev KProg (n : Nat) := Prog (State n) (Fin n)

def State.modProc (s : State n) (p : Fin n) (f : Proc → Proc) : State n :=
  { s with proc := update s.proc p (f (s.proc p)) }

@[simp] theorem State.modProc_self (s : State n) (p : Fin n) (f : Proc → Proc) : (s.modProc p f).proc p = f (s.proc p) := by
  rw [modProc]
  exact update_self ..

theorem State.modProc_of_ne (s : State n) {p q : Fin n} (f : Proc → Proc) (h : q ≠ p) : (s.modProc p f).proc q = s.proc q := by
  rw [modProc]
  exact update_of_ne h ..

/-! ## Spinlocks -/

/-- `acquire(&lk->lk)`. -/
def acquireLk : KProg n Unit :=
  .step fun t s =>
    if s.lk = some t then .panic "acquire" else if s.lk = none then .ok () { s with lk := some t } else .wait

def releaseLk : KProg n Unit :=
  .step fun t s => if s.lk = some t then .ok () { s with lk := none } else .panic "release"

/-- `acquire(&p->lock)`. -/
def acquire (p : Fin n) : KProg n Unit :=
  .step fun t s =>
    if s.plock p = some t then .panic "acquire"
    else if s.plock p = none then .ok () { s with plock := update s.plock p (some t) } else .wait

def release (p : Fin n) : KProg n Unit :=
  .step fun t s => if s.plock p = some t then .ok () { s with plock := update s.plock p none } else .panic "release"

/-! ## Sleeping (`proc.c`) -/

def myproc : KProg n (Fin n) := .step fun t s => .ok t s

def modProc (p : Fin n) (f : Proc → Proc) : KProg n Unit := .step fun _ s => .ok () (s.modProc p f)

/-- Switch to the scheduler, which releases `p->lock`. -/
def swtch (p : Fin n) : KProg n Unit :=
  .step fun t s =>
    if s.plock p ≠ some t then .panic "sched p->lock"
    else if (s.proc p).state = .running then .panic "sched running"
    else .ok () { s with plock := update s.plock p none }

/-- The scheduler acquires the lock of a runnable process, and switches to it. -/
def resume (p : Fin n) : KProg n Unit :=
  .step fun t s =>
    if s.plock p = none ∧ (s.proc p).state = .runnable
    then .ok () { s.modProc p ({ · with state := .running }) with plock := update s.plock p (some t) }
    else .wait

def sched (p : Fin n) : KProg n Unit := do
  swtch p
  resume p

def yield : KProg n Unit := do
  let p ← myproc
  acquire p
  modProc p ({ · with state := .runnable })
  sched p
  release p

/-- A timer interrupt may come here, and then the process yields. -/
def preempt : KProg n Unit := .any fun k => if k = 0 then yield else .ret ()

/-- The part of `sleep` between its two changes of locks. -/
def sleepLocked (p : Fin n) (chan : Chan) : KProg n Unit := do
  modProc p ({ · with chan := some chan, state := .sleeping })
  sched p
  modProc p ({ · with chan := none })

/-- `sleep(lk, &lk->lk)`. -/
def sleepLk : KProg n Unit := do
  let p ← myproc
  acquire p
  releaseLk
  sleepLocked p .lk
  release p
  acquireLk

/-- `sleep` on another address, with another lock. -/
def sleep (a : Nat) : KProg n Unit := do
  let p ← myproc
  acquire p
  sleepLocked p (.addr a)
  release p

def wakeup (chan : Chan) : KProg n Unit := do
  let _ ← Prog.forFin n fun p => do
    acquire p
    modProc p fun x => if x.state = .sleeping ∧ x.chan = some chan then { x with state := .runnable } else x
    release p
    return (none : Option Unit)

def kill (pid : BitVec 32) : KProg n Unit := do
  let _ ← Prog.forFin n fun p => do
    preempt
    acquire p
    let found ← .step fun _ s => .ok (decide ((s.proc p).pid = pid)) s
    if found then
      modProc p fun x => { x with killed := true, state := if x.state = .sleeping then .runnable else x.state }
      release p
      return some ()
    else
      release p
      return none

/-! ## Sleep-locks -/

def setLocked (b : Bool) : KProg n Unit :=
  .step fun t s => .ok () { s with locked := b, hist := { s.hist with owner := if b then some t else none } }

def acquiresleep : KProg n Unit := do
  preempt
  acquireLk
  .loop (fun _ : Unit => do
    let locked ← .step fun _ s => .ok s.locked s
    if locked then
      sleepLk
      return .inl ()
    else
      return .inr ()) ()
  setLocked true
  .step fun t s => .ok () { s with pid := (s.proc t).pid }
  releaseLk

def releasesleep : KProg n Unit := do
  preempt
  acquireLk
  setLocked false
  .step fun _ s => .ok () { s with pid := 0 }
  wakeup .lk
  releaseLk

def holdingsleep : KProg n Bool := do
  preempt
  acquireLk
  let r ← .step fun t s =>
    let r := s.locked && decide (s.pid = (s.proc t).pid)
    .ok r { s with hist := { s.hist with wrong := s.hist.wrong || r != s.hist.inside t } }
  releaseLk
  return r

/-! ## Processes -/

inductive Call where
  | acquiresleep
  | releasesleep
  | holdingsleep
  | sleep (a : Nat)
  | wakeup (a : Nat)
  | kill (pid : BitVec 32)
  | yield

/-- A process returns from `acquiresleep`, or is about to call `releasesleep`. -/
def setInside (b : Bool) : KProg n Unit :=
  .step fun t s => .ok () { s with hist := { s.hist with inside := update s.hist.inside t b } }

/-- The processes make these calls in any order; only a process that is inside calls
`releasesleep`. -/
def client (n : Nat) : Client (State n) (Fin n) Bool Call where
  allowed
    | _, inside, .releasesleep => inside
    | _, _, _ => true
  body
    | .acquiresleep, _ => do
      acquiresleep
      setInside true
      return true
    | .releasesleep, _ => do
      setInside false
      releasesleep
      return false
    | .holdingsleep, l => do
      let _ ← holdingsleep
      return l
    | .sleep a, l => do sleep a; return l
    | .wakeup a, l => do wakeup (.addr a); return l
    | .kill pid, l => do kill pid; return l
    | .yield, l => do yield; return l

/-- When `initsleeplock` returns. -/
def initsleeplock (pids : Fin n → BitVec 32) : State n where
  proc p := ⟨.running, none, false, pids p⟩

end Xv6.Sleeplock
