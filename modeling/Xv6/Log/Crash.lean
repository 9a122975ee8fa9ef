import Xv6.Log.Recover

/-!
# Crash atomicity

A crash leaves the disk as it was between two steps. After any run, and any
number of crashes during recovery, the disk still satisfies `Recov` for the
groups of operations committed so far (`Crashes.recov`), so that a recovery
that is not interrupted puts exactly those in place (`crash_atomic`). Without a
crash, what is evicted from the cache is on disk (`unlogged_buffers_clean`).
-/

namespace Xv6.Log

open Function

variable {L : Layout} {d d' v : Nat → Bytes}

/-- From the disk `d`, the disks that are left when recovery crashes any
number of times. -/
inductive Crashes (L : Layout) (d : Nat → Bytes) : (Nat → Bytes) → Prop where
  | refl : Crashes L d d
  | crash {d' : Nat → Bytes} {t : Pid} {p : KProg Unit} {s : State} : Crashes L d d' →
      Prog.Reach t (initlog L.start L.size) (binit d') p s → Crashes L d s.disk

theorem Crashes.recov (h : Crashes L d d') (hd : Recov L d v) : Recov L d' v := by
  induction h with
  | refl => exact hd
  | crash _ hr ih => exact ((initlog_runs ih).reach hr).inv

/-- Recovery returns, and whenever it does, the blocks are in place. -/
theorem Recov.boot (h : Recov L d v) (t : Pid) :
    (∃ s, Boot L t d s) ∧ ∀ s, Boot L t d s → headBlocks (s.disk L.start) = [] ∧ ∀ b, L.Home b → s.disk b = v b := by
  obtain ⟨_, s, hr, -⟩ := (initlog_runs (t := t) h).returns
  exact ⟨⟨s, hr⟩, fun s hs => ((initlog_runs h).reach hs).of_ret⟩

/-- The processes run from a boot with an empty log until the machine
crashes, and recovery crashes any number of times. A recovery that returns
then leaves the initial disk with the writes of the first `k` commit groups,
at least those whose commit had returned; and each operation has all its
writes in one group, or in the one that was not yet committed. -/
theorem crash_atomic {t : Pid} {d0 : Nat → Bytes} {s0 : State} {c : Config State Pid Local}
    (hd : headBlocks (d0 L.start) = []) (hb : Boot L t d0 s0)
    (hr : Config.Run (client L) (Fits L) (.idle s0 {}) c) (hc : Crashes L c.shared.disk d) :
    (c.shared.hist.groups ++ [c.shared.hist.cur]).Pairwise (fun g g' => ∀ w ∈ g, ∀ w' ∈ g', w.op < w'.op) ∧
    ∃ k, c.shared.hist.done ≤ k ∧ k ≤ c.shared.hist.groups.length ∧
      ∀ t', (∃ s, Boot L t' d s) ∧ ∀ s, Boot L t' d s → headBlocks (s.disk L.start) = [] ∧
        ∀ b, L.Home b → s.disk b = committed d0 c.shared.hist k b := by
  obtain ⟨γ, hi⟩ := inv_run (hb.inv hd) True (fun s h _ => h) hr
  obtain ⟨k, hk, hk', hrec⟩ := (hi.store trivial).recov hi.adm hi.lh_nodup
  refine ⟨List.pairwise_append.mpr ⟨hi.order.pairwise, by simp, by simpa using hi.order.cur⟩, k, hk, hk', fun t' => ?_⟩
  exact (hc.recov hrec).boot t'

/-- The buffer has what is on disk, if it has anything. -/
def Clean (s : State) (i : BufId) : Prop :=
  (s.buf i).dev = rootdev → (s.buf i).valid = true → (s.buf i).data = s.disk (s.buf i).blockno

/-- In every run, a buffer that `bget` may recycle has the contents of its block on
disk, and so has every buffer that nobody has locked and whose block is not in the log. -/
theorem unlogged_buffers_clean {t : Pid} {d0 : Nat → Bytes} {s0 : State} {c : Config State Pid Local}
    (hd : headBlocks (d0 L.start) = []) (hb : Boot L t d0 s0) (hr : Config.Run (client L) (Fits L) (.idle s0 {}) c) :
    (∀ i, (c.shared.buf i).refcnt = 0 → Clean c.shared i) ∧
    ∀ i, (c.shared.buf i).lock = none → (c.shared.buf i).blockno ∉ c.shared.log.lh → Clean c.shared i := by
  obtain ⟨γ, hi⟩ := inv_run (hb.inv hd) True (fun s h _ => h) hr
  have hst := hi.store trivial
  have key : ∀ {i}, (∀ u b, (i, b) ∉ (γ u).refs.held) →
      ((c.shared.buf i).dev = rootdev → (c.shared.buf i).blockno ∉ c.shared.log.lh.drop c.shared.hist.inst) →
        Clean c.shared i := by
    intro i hheld hlog hdev hv
    rw [hst.vals i hdev hv fun u x hx => (hi.dirty u i x hx).elim (hheld u)]
    by_cases hh : L.Home (c.shared.buf i).blockno
    · rw [content_home hh, hst.clean _ hh (hlog hdev)]
    · exact content_log hh ..
  refine ⟨fun i h0 => ?_, fun i hl hlog => key (fun u b hm => ?_) fun _ hm => hlog (List.mem_of_mem_drop hm)⟩
  · obtain ⟨hno, hpin⟩ := hi.bio.of_refcnt_zero h0
    refine key (fun u b hm => hno u b (.inl hm)) fun hdev hm => ?_
    rw [pin, if_pos ⟨hdev, List.mem_append_left _ hm⟩] at hpin
    cases hpin
  · exact Option.some_ne_none u ((hi.bio.lock_of_held hm).symm.trans hl)

open Event (steps) in
/-- One operation, until its commit has written the header and has not yet
installed the block. -/
def midCommit : List (Event Pid Call) :=
  .call 0 .beginOp :: steps 0 2 ++ .call 0 (.bread 100) :: steps 0 4 ++
  .call 0 (.write 1 100 (update · 0 7)) :: steps 0 5 ++ .call 0 (.brelse 1 100) :: steps 0 3 ++
  .call 0 .endOp :: steps 0 24

/-- The run of `midCommit` on a blank disk, and ten steps of recovery from
the disk it leaves. -/
def midCommitRun : Option (State × Config State Pid Local × KProg Unit × State) :=
  match Prog.exec 0 19 (initlog mkfsLayout.start mkfsLayout.size) (binit fun _ _ => 0) with
  | some (.ret (), s) => do
    let c ← (Config.idle s {}).execAll (client mkfsLayout) (Fits mkfsLayout ·) midCommit
    let r ← Prog.exec 1 10 (initlog mkfsLayout.start mkfsLayout.size) (binit c.shared.disk)
    return (s, c, r)
  | _ => none

set_option maxRecDepth 100000 in
theorem midCommitRun_eq : midCommitRun.map (fun r => (headBlocks (r.2.1.shared.disk mkfsLayout.start),
    r.2.1.shared.hist.groups.map (·.length), r.2.1.shared.hist.done)) = some ([100], [1], 0) := by decide +kernel

theorem crash_atomic_mid_commit : ∃ (s0 : State) (c : Config State Pid Local) (d : Nat → Bytes),
    Boot mkfsLayout 0 (fun _ _ => 0) s0 ∧ Config.Run (client mkfsLayout) (Fits mkfsLayout) (.idle s0 {}) c ∧
    headBlocks (c.shared.disk mkfsLayout.start) = [100] ∧ Crashes mkfsLayout c.shared.disk d ∧
    ∃ k, 0 ≤ k ∧ k ≤ 1 ∧ ∀ s, Boot mkfsLayout 2 d s →
      ∀ b, mkfsLayout.Home b → s.disk b = committed (fun _ _ => 0) c.shared.hist k b := by
  have h := midCommitRun_eq
  unfold midCommitRun at h
  split at h
  · rename_i s0 hs
    simp only [Option.bind_eq_bind, Option.pure_def, Option.map_bind, Option.bind_eq_some_iff, Option.map_some,
      comp_apply, Option.some.injEq, Prod.mk.injEq] at h
    obtain ⟨c, hc, r, hs', hhead, hg, -⟩ := h
    have hb : Boot mkfsLayout 0 (fun _ _ => 0) s0 := .of_exec hs
    have hr : Config.Run (client mkfsLayout) (Fits mkfsLayout) (.idle s0 {}) c :=
      .of_execAll (fun _ h => of_decide_eq_true h) hc
    have hcr : Crashes mkfsLayout c.shared.disk r.2.disk := .crash .refl (.of_exec hs')
    obtain ⟨-, k, hk, hk', h⟩ := crash_atomic (by decide) hb hr hcr
    have hlen : c.shared.hist.groups.length = 1 := by rw [← List.length_map (f := List.length), hg]; rfl
    exact ⟨s0, c, _, hb, hr, hhead, hcr, k, Nat.zero_le k, hlen ▸ hk', fun s hs => ((h 2).2 s hs).2⟩
  · cases h

set_option maxRecDepth 100000 in
theorem midCommitRun_recycled : midCommitRun.map (fun r => decide ((r.2.1.shared.buf 2).refcnt = 0 ∧
    (r.2.1.shared.buf 2).dev = rootdev ∧ (r.2.1.shared.buf 2).valid = true)) = some true := by decide +kernel

theorem unlogged_buffers_clean_mid_commit : ∃ (s0 : State) (c : Config State Pid Local), Boot mkfsLayout 0 (fun _ _ => 0) s0 ∧
    Config.Run (client mkfsLayout) (Fits mkfsLayout) (.idle s0 {}) c ∧ (c.shared.buf 2).refcnt = 0 ∧
    (c.shared.buf 2).data = c.shared.disk (c.shared.buf 2).blockno := by
  have h := midCommitRun_recycled
  unfold midCommitRun at h
  split at h
  · rename_i s0 hs
    simp only [Option.bind_eq_bind, Option.pure_def, Option.map_bind, Option.bind_eq_some_iff, Option.map_some,
      comp_apply, Option.some.injEq, decide_eq_true_eq] at h
    obtain ⟨c, hc, -, -, h0, hdev, hv⟩ := h
    have hb : Boot mkfsLayout 0 (fun _ _ => 0) s0 := .of_exec hs
    have hr : Config.Run (client mkfsLayout) (Fits mkfsLayout) (.idle s0 {}) c :=
      .of_execAll (fun _ h => of_decide_eq_true h) hc
    exact ⟨s0, c, hb, hr, h0, (unlogged_buffers_clean (by decide) hb hr).1 2 h0 hdev hv⟩
  · cases h

end Xv6.Log
