import Xv6.Process.Calls

/-!
# Unused slots

`freeproc` clears a slot, and `fork` relies on that: it does not set `killed`.
Two steps leave an unused slot that is not clear. `kill` looks for the pid
without looking at the state, and an unused slot has pid 0. And `allocproc`,
when `kalloc` fails, releases a slot that already has a pid. In every run
without these two, a slot that is unused and not locked is as `freeproc`
leaves it, and no process is marked as killed when it is born.
-/

namespace Xv6.Process

variable {n : Nat}

/-- Every unused slot whose lock is free is as `freeproc` leaves it. -/
def SlotsClean (s : State n) : Prop := ∀ i, (s.proc i).state = .unused → s.lock i = none → Clean (s.proc i)

theorem Inv.slotsClean {ord cl : Prop} {s : State n} {γ : Agent n → Ghost} (h : Inv ord cl s γ) (hc : cl) : SlotsClean s := by
  intro i hu hl
  refine (h.clean hc i hu).resolve_right fun ⟨_, a, b, hb⟩ => ?_
  -- who allocates the slot holds its lock
  have hheld := ((h.own a).lock i).mpr ((h.own a).alloc i b hb).1
  rw [hl] at hheld; cases hheld

/-- `kill` has not been called with pid 0. -/
def NoKillZero (s : State n) : Prop := s.hist.killedZero = false

/-- `kalloc` has not failed to allocate a trapframe. -/
def HasTrapframes (s : State n) : Prop := s.hist.noTrapframe = false

instance : DecidablePred (NoKillZero (n := n)) := fun _ => inferInstanceAs (Decidable (_ = false))

instance : DecidablePred (HasTrapframes (n := n)) := fun _ => inferInstanceAs (Decidable (_ = false))

/-- The assumptions under which unused slots are clean. -/
def cleanCtx (n : Nat) : Ctx n where
  ord := False
  cl := True
  Asm := fun s => NoKillZero s ∧ HasTrapframes s
  reused := fun _ _ h => h.elim
  killedZero := fun _ h _ => h.1
  noTrapframe := fun _ h _ => h.2

/-- In every run in which `kill` is not called with pid 0 and `kalloc` does not
fail to allocate a trapframe, unused slots are clean and no process is born
killed. -/
theorem slots_clean_of_no_kill_zero {pagetable trapframe : Nat} {c : Config (State n) (Agent n) Bool}
    (hr : Config.Run (client n) (fun s => NoKillZero s ∧ HasTrapframes s) (.idle (userinit n pagetable trapframe) false) c) :
    SlotsClean c.shared ∧ c.shared.hist.bornKilled = false := by
  obtain ⟨γ, hi⟩ := Ctx.inv_run (C := cleanCtx n) hr
  exact ⟨hi.slotsClean trivial, hi.born trivial⟩

/-- One CPU runs init. -/
def startInit : Schedule 1 := schedTo 0 0 ++ start 0

/-- init forks a child, whose pid is 2, and kills it. -/
def forkAndKill : Schedule 1 := startInit ++ forkTo 0 1 ++ .call (.inl 0) (.kill 2) :: Event.steps (.inl 0) 15 1

set_option maxRecDepth 100000 in
theorem forkAndKill_run : ((Config.idle (userinit 1 4096 8192) false).execAll (client 1)
    (fun s => decide (NoKillZero s ∧ HasTrapframes s)) forkAndKill).map (fun c =>
      decide ((c.shared.proc 1).state = .runnable ∧ (c.shared.proc 1).killed = true)) = some true := by
  decide +kernel

theorem slots_clean_after_kill : ∃ c : Config (State 1) (Agent 1) Bool,
    Config.Run (client 1) (fun s => NoKillZero s ∧ HasTrapframes s) (.idle (userinit 1 4096 8192) false) c ∧
      (c.shared.proc 1).killed = true ∧ SlotsClean c.shared ∧ c.shared.hist.bornKilled = false := by
  obtain ⟨c, hc, h⟩ := Option.map_eq_some_iff.mp forkAndKill_run
  have hr : Config.Run (client 1) (fun s => NoKillZero s ∧ HasTrapframes s) (.idle (userinit 1 4096 8192) false) c :=
    .of_execAll (fun _ h => of_decide_eq_true h) hc
  exact ⟨c, hr, (of_decide_eq_true h).2, slots_clean_of_no_kill_zero hr⟩

def killZero : Schedule 1 := startInit ++ .call (.inl 0) (.kill 0) :: Event.steps (.inl 0) 15 1

/-- init forks when there is no memory. -/
def forkWithoutMemory : Schedule 1 :=
  startInit ++ .call (.inl 0) .fork :: Event.steps (.inl 0) 14 1 ++ Event.steps (.inl 0) 4 0

set_option maxRecDepth 100000 in
theorem killZero_run : ((Config.idle (userinit 1 4096 8192) false).execAll (client 1) (HasTrapframes ·) killZero).bind
    (fun c => (c.execAll (client 1) (HasTrapframes ·) (forkTo 0 1)).map fun c' => decide (
      (c.shared.proc 1).state = .unused ∧ c.shared.lock 1 = none ∧ (c.shared.proc 1).killed = true ∧
        c'.shared.hist.bornKilled = true)) = some true := by
  decide +kernel

set_option maxRecDepth 100000 in
theorem forkWithoutMemory_run : ((Config.idle (userinit 1 4096 8192) false).execAll (client 1) (NoKillZero ·)
    forkWithoutMemory).map (fun c => decide ((c.shared.proc 1).state = .unused ∧ c.shared.lock 1 = none ∧
      (c.shared.proc 1).pid = 2)) = some true := by
  decide +kernel

/-- `kill(0)` marks an unused slot as killed, and the child that the next fork
puts there is born killed. A fork that fails for want of a trapframe leaves
its pid in an unused slot. -/
theorem unused_slots_dirty :
    (∃ c c' : Config (State 1) (Agent 1) Bool,
      Config.Run (client 1) HasTrapframes (.idle (userinit 1 4096 8192) false) c ∧ ¬ SlotsClean c.shared ∧
        Config.Run (client 1) HasTrapframes c c' ∧ c'.shared.hist.bornKilled = true) ∧
    ∃ c : Config (State 1) (Agent 1) Bool,
      Config.Run (client 1) NoKillZero (.idle (userinit 1 4096 8192) false) c ∧ ¬ SlotsClean c.shared := by
  constructor
  · obtain ⟨c, hc, h⟩ := Option.bind_eq_some_iff.mp killZero_run
    obtain ⟨c', hc', h⟩ := Option.map_eq_some_iff.mp h
    obtain ⟨hu, hl, hk, hb⟩ := of_decide_eq_true h
    refine ⟨c, c', .of_execAll (fun _ h => of_decide_eq_true h) hc, fun hcl => ?_,
      .of_execAll (fun _ h => of_decide_eq_true h) hc', hb⟩
    rw [(hcl 1 hu hl).2.1] at hk; cases hk
  · obtain ⟨c, hc, h⟩ := Option.map_eq_some_iff.mp forkWithoutMemory_run
    obtain ⟨hu, hl, hp⟩ := of_decide_eq_true h
    refine ⟨c, .of_execAll (fun _ h => of_decide_eq_true h) hc, fun hcl => ?_⟩
    rw [(hcl 1 hu hl).1] at hp; revert hp; decide

end Xv6.Process
