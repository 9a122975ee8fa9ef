import Xv6.Process.Calls

/-!
# `exit` and `wait` agree

Every process that has exited is a zombie until one call of `wait`, by its
parent, frees it and returns its pid and its exit status. The process that
waits holds its own lock from its first look at the table until it sleeps, and
a child becomes a zombie only while it holds the lock of the parent that it
remembers, after it has woken that parent up. So no wakeup is lost
(`Agree.awake`), also where the parent has exited in between: then the child
belongs to init.
-/

namespace Xv6.Process

variable {n : Nat}

/-- The process that has exited is still in the process table. -/
def IsZombie (s : State n) (e : Exit) : Prop :=
  ∃ i, (s.proc i).state = .zombie ∧ s.hist.stamp i = e.id ∧ (s.proc i).pid = e.pid ∧ (s.proc i).xstate = e.status

/-- `exit` and `wait` agree. -/
structure ExitWait (s : State n) : Prop where
  /-- Every zombie is a process that has exited. -/
  zombie : ∀ i, (s.proc i).state = .zombie → ∃ e ∈ s.hist.log.exits, e.id = s.hist.stamp i
  /-- A process exits once. -/
  once : (s.hist.log.exits.map (·.id)).Nodup
  /-- A process that has exited is a zombie, or one call of `wait` has freed it. -/
  exited : ∀ e ∈ s.hist.log.exits, IsZombie s e ∧ (∀ r ∈ s.hist.log.reaps, r.id ≠ e.id) ∨
    ∃! r, r ∈ s.hist.log.reaps ∧ r.id = e.id
  /-- That was a call of its parent at that time, which got the process's own pid
  and exit status. -/
  reaped : ∀ r ∈ s.hist.log.reaps, r.parent = some r.waiter ∧
    ∃ e ∈ s.hist.log.exits, e.id = r.id ∧ e.pid = r.pid ∧ ∀ x, r.status = some x → x = e.status
  /-- A call that has returned has freed one process, whose pid it returned, or
  has freed none and returned -1. -/
  returned : ∀ t ∈ s.hist.log.rets,
    (∃! r, r ∈ s.hist.log.reaps ∧ (r.waiter, r.call) = (t.waiter, t.call)) ∧
        (∀ r ∈ s.hist.log.reaps, (r.waiter, r.call) = (t.waiter, t.call) → r.pid = t.value) ∨
      (∀ r ∈ s.hist.log.reaps, (r.waiter, r.call) ≠ (t.waiter, t.call)) ∧ t.value = -1
  /-- A call whose `copyout` has failed has freed no process, and returns -1. -/
  failed : ∀ f ∈ s.hist.log.failed, (∃ e ∈ s.hist.log.exits, e.id = f.id) ∧
    (∀ r ∈ s.hist.log.reaps, (r.waiter, r.call) ≠ (f.waiter, f.call)) ∧
    ∀ t ∈ s.hist.log.rets, (t.waiter, t.call) = (f.waiter, f.call) → t.value = -1
  /-- Every process but init has a parent that runs. -/
  parent : ∀ i, i ≠ initproc → (s.proc i).state ≠ .unused → ∃ j, (s.proc i).parent = some j ∧ ¬ Dead (s.proc j)
  noLostWakeup : NoLostWakeup s

section

variable {ord cl : Prop} {s : State n} {γ : Agent n → Ghost} {L : WaitLog}

/-- A zombie that was freed was freed once. -/
theorem Agree.exited_unique (h : Agree s) {e : Exit} (he : e ∈ s.hist.log.exits) :
    IsZombie s e ∧ (∀ r ∈ s.hist.log.reaps, r.id ≠ e.id) ∨ ∃! r, r ∈ s.hist.log.reaps ∧ r.id = e.id := by
  rcases h.exited e he with ⟨r, hr, hid⟩ | ⟨i, hz, hid⟩
  · refine .inr ⟨r, ⟨hr, hid⟩, fun r' ⟨hr', hid'⟩ => ?_⟩
    exact List.inj_on_of_nodup_map h.reapsNodup hr' hr (hid'.trans hid.symm)
  · obtain ⟨⟨e', he', hid', hpid, hst⟩, hr⟩ := h.zombie i hz
    obtain rfl : e' = e := List.inj_on_of_nodup_map h.exitsNodup he' he (hid'.trans hid)
    exact .inl ⟨⟨i, hz, hid, hpid.symm, hst.symm⟩, fun r hr' => hid ▸ hr r hr'⟩

theorem Calls.returned_unique (h : Calls L) {t : Ret} (ht : t ∈ L.rets) :
    (∃! r, r ∈ L.reaps ∧ (r.waiter, r.call) = (t.waiter, t.call)) ∧
        (∀ r ∈ L.reaps, (r.waiter, r.call) = (t.waiter, t.call) → r.pid = t.value) ∨
      (∀ r ∈ L.reaps, (r.waiter, r.call) ≠ (t.waiter, t.call)) ∧ t.value = -1 := by
  rcases h.ret t ht with ⟨r, hr, hc, hpid⟩ | ⟨hv, hn⟩
  · have huniq : ∀ r' ∈ L.reaps, (r'.waiter, r'.call) = (t.waiter, t.call) → r' = r := fun r' hr' hc' =>
      List.inj_on_of_nodup_map h.reapsNodup hr' hr (hc'.trans hc.symm)
    exact .inl ⟨⟨r, ⟨hr, hc⟩, fun r' ⟨hr', hc'⟩ => huniq r' hr' hc'⟩, fun r' hr' hc' => by rw [huniq r' hr' hc', hpid]⟩
  · exact .inr ⟨hn, hv⟩

theorem Calls.failed_returns (h : Calls L) {f : Failed} (hf : f ∈ L.failed) {t : Ret} (ht : t ∈ L.rets)
    (hc : (t.waiter, t.call) = (f.waiter, f.call)) : t.value = -1 := by
  rcases h.ret t ht with ⟨r, hr, hc', -⟩ | ⟨hv, -⟩
  · exact absurd (hc'.trans hc) (h.failed f hf r hr)
  · exact hv

theorem Inv.exitWait (h : Inv ord cl s γ) : ExitWait s where
  zombie i hi := by
    obtain ⟨⟨e, he, hid, -⟩, -⟩ := h.agree.zombie i hi
    exact ⟨e, he, hid⟩
  once := h.agree.exitsNodup
  exited _ he := h.agree.exited_unique he
  reaped := h.agree.reaped
  returned _ ht := h.calls.returned_unique ht
  failed f hf := ⟨h.agree.failed f hf, h.calls.failed f hf, fun _ ht => h.calls.failed_returns hf ht⟩
  parent i h0 hu := by
    obtain ⟨j, hj⟩ := Option.ne_none_iff_exists'.mp (h.agree.parent i h0 hu)
    exact ⟨j, hj, h.parent i j hj⟩
  noLostWakeup := h.agree.awake

end

/-- No assumption on the run. -/
def anyCtx (n : Nat) : Ctx n where
  ord := False
  cl := False
  Asm _ := True
  reused := fun _ _ h => h.elim
  killedZero := fun _ _ h => h.elim
  noTrapframe := fun _ _ h => h.elim

/-- With any number of CPUs, `exit` and `wait` agree in every state of every
run. -/
theorem exit_wait_agree {pagetable trapframe : Nat} {c : Config (State n) (Agent n) Bool}
    (hr : Config.Run (client n) (fun _ => True) (.idle (userinit n pagetable trapframe) false) c) : ExitWait c.shared := by
  obtain ⟨γ, hi⟩ := Ctx.inv_run (C := anyCtx n) hr
  exact hi.exitWait

/-- Process 1 waits for its child 2 and sleeps; 2 exits with status 7. The
`copyout` of 1 fails, and it waits again. -/
def waitTwice : Schedule 4 :=
  schedTo 0 0 ++ start 0 ++ forkTo 0 1 ++ schedTo 1 1 ++ start 1 ++ forkTo 1 2 ++ schedTo 2 2 ++ start 2 ++
    .call (.inl 1) (.wait true) :: Event.steps (.inl 1) 140 1 ++ Event.steps (.inr 1) 2 1 ++
    .call (.inl 2) (.exit 7) :: Event.steps (.inl 2) 150 1 ++ Event.steps (.inr 2) 2 1 ++ schedTo 3 1 ++
    Event.steps (.inl 1) 18 0 ++ .call (.inl 1) (.wait true) :: Event.steps (.inl 1) 19 1

set_option maxRecDepth 100000 in
theorem waitTwice_run : ((Config.idle (userinit 4 4096 8192) false).execAll (client 4) (fun _ => true) waitTwice).map
    (fun c => decide (c.shared.hist.log.exits.map (fun e => (e.pid, e.status)) = [(3, 7)] ∧
      c.shared.hist.log.reaps.map (fun r => (r.waiter, r.pid, r.status)) = [(1, 3, some 7)] ∧
      c.shared.hist.log.rets.map (·.value) = [3, -1] ∧ c.shared.hist.log.failed.length = 1)) = some true := by
  decide +kernel

theorem exit_wait_agree_after_failed_copyout : ∃ c : Config (State 4) (Agent 4) Bool,
    Config.Run (client 4) (fun _ => True) (.idle (userinit 4 4096 8192) false) c ∧
      c.shared.hist.log.rets.map (·.value) = [3, -1] ∧ ExitWait c.shared := by
  obtain ⟨c, hc, h⟩ := Option.map_eq_some_iff.mp waitTwice_run
  have hr : Config.Run (client 4) (fun _ => True) (.idle (userinit 4 4096 8192) false) c := .of_execAll (fun _ _ => trivial) hc
  exact ⟨c, hr, (of_decide_eq_true h).2.2.1, exit_wait_agree hr⟩

end Xv6.Process
