import Xv6.Process.ExitWait

/-!
# A process runs on one CPU at a time

What the invariant of the switches says of the states, the contexts and the
CPUs in every run.
-/

namespace Xv6.Process.Switch

variable {n : Nat}

/-- In every state of every run, on any number of CPUs: a process that is
RUNNING is the `c->proc` of exactly one CPU; and a process that is RUNNABLE or
SLEEPING while its lock is free has a context, which `swtch` has saved or
`allocproc` has set, no CPU executes its thread, and it is the `c->proc` of no
CPU. -/
theorem runs_on_one_cpu {pagetable trapframe : Nat} {c : Config (State n) (Agent n) Bool}
    (hr : Config.Run (client n) (fun _ => True) (.idle (userinit n pagetable trapframe) false) c) (p : Pid) :
    ((c.shared.proc p).state = .running → ∃! k, c.shared.cproc k = some p) ∧
    ((c.shared.proc p).state = .runnable ∨ (c.shared.proc p).state = .sleeping → c.shared.lock p = none →
      (c.shared.hist.context p = .saved ∨ c.shared.hist.context p = .forkret) ∧ c.shared.oncpu p = none ∧
      ∀ k, c.shared.cproc k ≠ some p) := by
  obtain ⟨γ, -, hi⟩ := Ctx.inv_run (C := anyCtx n) hr
  have hfit := hi.fits p
  refine ⟨fun hst => ?_, fun hst hl => ?_⟩
  · have hon : (place c.shared p).cpu ≠ none := fun e => by
      cases hpl : place c.shared p with
      | off => rw [hpl] at hfit; exact hfit.1 hst
      | _ => rw [hpl] at e; cases e
    obtain ⟨k, hk⟩ := Option.ne_none_iff_exists'.1 hon
    exact ⟨k, (hi.cpu k p).2 hk, fun k' hk' => Option.some.inj (((hi.cpu k' p).1 hk').symm.trans hk)⟩
  · have hne : (c.shared.proc p).state ≠ .running ∧ (c.shared.proc p).state ≠ .unused := by
      rcases hst with e | e <;> rw [e] <;> exact ⟨nofun, nofun⟩
    have hpl : place c.shared p = .off ∧ c.shared.oncpu p = none := by
      have hpl := place_eq (.inl hl)
      cases ho : c.shared.oncpu p with
      | none => rw [ho] at hpl; exact ⟨hpl, rfl⟩
      | some k =>
        -- a process that is leaving the CPU would hold its lock
        rw [ho] at hpl
        rw [hpl] at hfit
        have hm := (hi.own (.inl p)).leaving p rfl (hfit.2.resolve_left hne.1)
        rw [hl] at hm
        cases hm
    rw [hpl.1] at hfit
    refine ⟨?_, hpl.2, fun k hk => ?_⟩
    · have hx := hfit.2 hne.2
      cases hc : c.shared.hist.context p with
      | stale => exact absurd hc hx
      | forkret => exact .inr rfl
      | saved => exact .inl rfl
    · have := (hi.cpu k p).1 hk
      rw [hpl.1] at this
      cases this

/-- init runs on CPU 0 and forks a child, which no CPU has run yet. -/
def initAndChild : Schedule 2 := schedTo 0 0 ++ start 0 ++ forkTo 0 1

set_option maxRecDepth 100000 in
theorem initAndChild_run : ((Config.idle (userinit 2 4096 8192) false).execAll (client 2) (fun _ => true) initAndChild).map
    (fun c => decide ((c.shared.proc 0).state = .running ∧ (c.shared.proc 1).state = .runnable ∧ c.shared.lock 1 = none)) =
      some true := by
  decide +kernel

theorem runs_on_one_cpu_after_fork : ∃ c : Config (State 2) (Agent 2) Bool,
    Config.Run (client 2) (fun _ => True) (.idle (userinit 2 4096 8192) false) c ∧
      (∃! k, c.shared.cproc k = some 0) ∧ c.shared.oncpu 1 = none ∧ ∀ k, c.shared.cproc k ≠ some 1 := by
  obtain ⟨c, hc, h⟩ := Option.map_eq_some_iff.mp initAndChild_run
  obtain ⟨h0, h1, hl⟩ := of_decide_eq_true h
  have hr : Config.Run (client 2) (fun _ => True) (.idle (userinit 2 4096 8192) false) c := .of_execAll (fun _ _ => trivial) hc
  exact ⟨c, hr, (runs_on_one_cpu hr 0).1 h0, ((runs_on_one_cpu hr 1).2 (.inl h1) hl).2⟩

end Xv6.Process.Switch
