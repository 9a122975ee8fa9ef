import Mathlib.Logic.Relation
import Xv6.Process.ExitWait

/-!
# Deadlock on process locks

A thread waits for another if it is acquiring a process's lock that the other
holds. `exit` remembers its parent's slot while it holds no lock, and `wait`
may free that slot and `fork` use it again in between: then the slot belongs to
a younger process, possibly to a grandchild, and `exit` acquires the locks of a
child and of its parent in the wrong order (`deadlock_after_reuse`). In every
run in which that does not happen the locks are acquired in the order of the
slots' births, and no threads wait for each other.
-/

namespace Xv6.Process

open Relation

variable {n : Nat} {s : State n} {a b : Agent n}

/-- `a` is acquiring a lock that `b` holds. -/
def Waits (s : State n) (a b : Agent n) : Prop := ∃ j, s.hist.want a = some j ∧ s.lock j = some (.held b)

/-- There is a cycle of threads, each of which holds a lock that the one
before it is waiting to acquire. -/
def Deadlocked (s : State n) : Prop := ∃ a, TransGen (Waits s) a a

section Order

variable {cl : Prop} {γ : Agent n → Ghost}

/-- Along the threads that wait for each other, the slots that are wanted are
younger and younger. -/
theorem want_lt (hi : Inv True cl s γ) (h : TransGen (Waits s) a b) {k : Pid} (hk : s.hist.want b = some k) :
    ∃ j, s.hist.want a = some j ∧ s.hist.stamp j < s.hist.stamp k := by
  have hstep : ∀ {a b : Agent n} {k : Pid}, Waits s a b → s.hist.want b = some k →
      ∃ j, s.hist.want a = some j ∧ s.hist.stamp j < s.hist.stamp k := by
    intro a b k ⟨j, hj, hl⟩ hk
    exact ⟨j, hj, (hi.own b).order trivial j (((hi.own b).lock j).mp hl) k ((hi.own b).want.symm.trans hk)⟩
  induction h generalizing k with
  | single h => exact hstep h hk
  | tail _ h ih =>
    obtain ⟨j, hj, hjk⟩ := hstep h hk
    obtain ⟨i, hi', hij⟩ := ih hj
    exact ⟨i, hi', lt_trans hij hjk⟩

theorem not_deadlocked (hi : Inv True cl s γ) : ¬ Deadlocked s := by
  rintro ⟨a, h⟩
  obtain ⟨k, hk⟩ : ∃ k, s.hist.want a = some k := by
    obtain ⟨b, ⟨k, hk, -⟩, -⟩ := TransGen.head'_iff.mp h
    exact ⟨k, hk⟩
  obtain ⟨j, hj, hlt⟩ := want_lt hi h hk
  cases hk.symm.trans hj
  exact absurd hlt (lt_irrefl _)

end Order

/-- No fork has reused a slot that a process in `exit` remembers as its
`original_parent`. -/
def NotReused (s : State n) : Prop := s.hist.reused = false

instance : DecidablePred (NotReused (n := n)) := fun _ => inferInstanceAs (Decidable (_ = false))

/-- The assumption under which the order of births is kept. -/
def reuseCtx (n : Nat) : Ctx n where
  ord := True
  cl := False
  Asm := NotReused
  reused := fun _ h _ => h
  killedZero := fun _ _ h => h.elim
  noTrapframe := fun _ _ h => h.elim

/-- With any number of CPUs, in every run in which no fork reuses a slot that a
process in `exit` remembers, no threads wait for each other. -/
theorem no_deadlock_unless_reused {pagetable trapframe : Nat} {c : Config (State n) (Agent n) Bool}
    (hr : Config.Run (client n) NotReused (.idle (userinit n pagetable trapframe) false) c) : ¬ Deadlocked c.shared := by
  obtain ⟨γ, hi⟩ := Ctx.inv_run (C := reuseCtx n) hr
  exact not_deadlocked hi.toInv

/-- `j` is the parent of `i`. -/
def ChildOf (s : State n) (i j : Pid) : Prop := (s.proc i).parent = some j

/-- In every run the processes form a tree with init as its root: none is
its own ancestor, and init is an ancestor of every process. -/
theorem descends_from_init {pagetable trapframe : Nat} {c : Config (State n) (Agent n) Bool}
    (hr : Config.Run (client n) (fun _ => True) (.idle (userinit n pagetable trapframe) false) c) :
    (∀ i, ¬ TransGen (ChildOf c.shared) i i) ∧
      ∀ i, (c.shared.proc i).state ≠ .unused → ReflTransGen (ChildOf c.shared) i initproc := by
  obtain ⟨γ, hi⟩ := Ctx.inv_run (C := anyCtx n) hr
  have hb := hi.births.parent
  constructor
  · -- an ancestor was born before
    have hlt : ∀ {i j}, TransGen (ChildOf c.shared) i j → c.shared.hist.stamp j < c.shared.hist.stamp i := fun h => by
      induction h with
      | single h => exact hb _ _ h
      | tail _ h ih => exact lt_trans (hb _ _ h) ih
    exact fun i h => lt_irrefl _ (hlt h)
  · intro i hu
    induction hm : c.shared.hist.stamp i using Nat.strong_induction_on generalizing i with
    | _ m ih =>
      by_cases h0 : i = initproc
      · rw [h0]
      · obtain ⟨j, hj⟩ := Option.ne_none_iff_exists'.mp (hi.agree.parent i h0 hu)
        exact .head hj (ih _ (hm ▸ hb i j hj) j (fun e => hi.parent i j hj (.inl e)) rfl)

/-! ## Schedules -/

/-- init, its child 1, its grandchild 2 and that one's child 3, each on a CPU. -/
def fourProcs : Schedule 4 :=
  schedTo 0 0 ++ start 0 ++ forkTo 0 1 ++ schedTo 1 1 ++ start 1 ++ forkTo 1 2 ++ schedTo 2 2 ++ start 2 ++
    forkTo 2 3 ++ schedTo 3 3 ++ start 3

/-- Process 2 exits, and wants the lock of its child 3, who holds it in `wait`. -/
def exitAndWait : Schedule 4 :=
  fourProcs ++ .call (.inl 2) (.exit 0) :: Event.steps (.inl 2) 24 1 ++
    .call (.inl 3) (.wait false) :: Event.steps (.inl 3) 3 1

set_option maxRecDepth 100000 in
theorem exitAndWait_run : ((Config.idle (userinit 4 4096 8192) false).execAll (client 4) (NotReused ·) exitAndWait).map
    (fun c => decide (c.shared.hist.want (.inl 2) = some 3 ∧ c.shared.lock 3 = some (.held (.inl 3)))) = some true := by
  decide +kernel

theorem no_deadlock_while_waiting : ∃ c : Config (State 4) (Agent 4) Bool,
    Config.Run (client 4) NotReused (.idle (userinit 4 4096 8192) false) c ∧ Waits c.shared (.inl 2) (.inl 3) ∧
      ¬ Deadlocked c.shared := by
  obtain ⟨c, hc, h⟩ := Option.map_eq_some_iff.mp exitAndWait_run
  obtain ⟨h1, h2⟩ := of_decide_eq_true h
  have hr : Config.Run (client 4) NotReused (.idle (userinit 4 4096 8192) false) c :=
    .of_execAll (fun _ h => of_decide_eq_true h) hc
  exact ⟨c, hr, ⟨3, h1, h2⟩, no_deadlock_unless_reused hr⟩

/-- Process 2 calls `exit`, and remembers its parent 1. Process 1 exits, and
init frees its slot; process 3 forks a child into it. Then process 2 acquires
the lock of slot 1, its own, and wants that of its child 3; and 3 waits, holding
its own lock, and wants that of its child 1. -/
def reuse : Schedule 4 :=
  fourProcs ++ .call (.inl 2) (.exit 0) :: Event.steps (.inl 2) 10 1 ++
    .call (.inl 1) (.exit 0) :: Event.steps (.inl 1) 154 1 ++ Event.steps (.inr 1) 2 1 ++
    .call (.inl 0) (.wait false) :: Event.steps (.inl 0) 16 1 ++ forkTo 3 1 ++ Event.steps (.inl 2) 14 1 ++
    .call (.inl 3) (.wait false) :: Event.steps (.inl 3) 9 1

set_option maxRecDepth 100000 in
theorem reuse_run : ((Config.idle (userinit 4 4096 8192) false).execAll (client 4) (fun _ => true) reuse).map (fun c =>
    decide (c.shared.hist.want (.inl 2) = some 3 ∧ c.shared.lock 3 = some (.held (.inl 3)) ∧
      c.shared.hist.want (.inl 3) = some 1 ∧ c.shared.lock 1 = some (.held (.inl 2)))) = some true := by
  decide +kernel

theorem deadlock_after_reuse : ∃ c : Config (State 4) (Agent 4) Bool,
    Config.Run (client 4) (fun _ => True) (.idle (userinit 4 4096 8192) false) c ∧ Deadlocked c.shared := by
  obtain ⟨c, hc, h⟩ := Option.map_eq_some_iff.mp reuse_run
  obtain ⟨h1, h2, h3, h4⟩ := of_decide_eq_true h
  refine ⟨c, .of_execAll (fun _ _ => trivial) hc, .inl 2, ?_⟩
  exact .tail (.single ⟨3, h1, h2⟩) ⟨1, h3, h4⟩

theorem descends_from_init_after_reuse : ∃ c : Config (State 4) (Agent 4) Bool,
    Config.Run (client 4) (fun _ => True) (.idle (userinit 4 4096 8192) false) c ∧ c.shared.lock 1 = some (.held (.inl 2)) ∧
      ∀ i, ¬ TransGen (ChildOf c.shared) i i := by
  obtain ⟨c, hc, h⟩ := Option.map_eq_some_iff.mp reuse_run
  have hr : Config.Run (client 4) (fun _ => True) (.idle (userinit 4 4096 8192) false) c := .of_execAll (fun _ _ => trivial) hc
  exact ⟨c, hr, (of_decide_eq_true h).2.2.2, (descends_from_init hr).1⟩

end Xv6.Process
