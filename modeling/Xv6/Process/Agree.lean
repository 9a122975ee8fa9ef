import Mathlib.Data.List.Nodup
import Xv6.Process.Model

/-!
# What the history of `exit` and `wait` says

`Agree` relates the process table to the zombies that have exited and those
that `wait` has freed. A process is known by the number of its birth, since
slots are used again. One lemma for each kind of step says that it is kept.

`CallOk` is about one process's calls of `wait`: which zombie each of them has
freed, and what it has returned.
-/

namespace Xv6.Process

open Function List

variable {n : Nat} {r : Reap} {f : Failed} {t : Ret}

/-- Nobody but init sleeps in `wait` while it has a zombie child. -/
def NoLostWakeup (s : State n) : Prop :=
  ∀ p q, p ≠ initproc → (s.proc p).state = .sleeping → (s.proc p).chan = some (.proc p) → (s.proc q).parent = some p →
    (s.proc q).state ≠ .zombie

/-- The slot is init's, or has a parent. -/
def Born (s : State n) (i : Pid) : Prop := i = initproc ∨ (s.proc i).parent ≠ none

/-- The process table agrees with the history. -/
structure Agree (s : State n) : Prop where
  parent : ∀ i, i ≠ initproc → (s.proc i).state ≠ .unused → (s.proc i).parent ≠ none
  stamp : ∀ i j, Born s i → Born s j → s.hist.stamp i = s.hist.stamp j → i = j
  le : ∀ i, s.hist.stamp i ≤ s.hist.births
  awake : NoLostWakeup s
  exitsNodup : (s.hist.log.exits.map (·.id)).Nodup
  exitsLe : ∀ e ∈ s.hist.log.exits, e.id ≤ s.hist.births
  alive : ∀ i, Born s i → (s.proc i).state ≠ .zombie → ∀ e ∈ s.hist.log.exits, e.id ≠ s.hist.stamp i
  zombie : ∀ i, (s.proc i).state = .zombie →
    (∃ e ∈ s.hist.log.exits, e.id = s.hist.stamp i ∧ e.pid = (s.proc i).pid ∧ e.status = (s.proc i).xstate) ∧
    ∀ r ∈ s.hist.log.reaps, r.id ≠ s.hist.stamp i
  exited : ∀ e ∈ s.hist.log.exits, (∃ r ∈ s.hist.log.reaps, r.id = e.id) ∨
    ∃ i, (s.proc i).state = .zombie ∧ s.hist.stamp i = e.id
  reapsNodup : (s.hist.log.reaps.map (·.id)).Nodup
  reaped : ∀ r ∈ s.hist.log.reaps, r.parent = some r.waiter ∧
    ∃ e ∈ s.hist.log.exits, e.id = r.id ∧ e.pid = r.pid ∧ ∀ x, r.status = some x → x = e.status
  failed : ∀ f ∈ s.hist.log.failed, ∃ e ∈ s.hist.log.exits, e.id = f.id

namespace Agree

variable {s s' : State n} {i p : Pid} {x : Proc}

/-- A slot changes, but not whether it has a zombie, nor which. -/
theorem slot (h : Agree s) (hproc : s'.proc = update s.proc i x) (hstamp : s'.hist.stamp = s.hist.stamp)
    (hbirths : s'.hist.births = s.hist.births) (hlog : s'.hist.log = s.hist.log)
    (hpar : i ≠ initproc → x.state ≠ .unused → x.parent ≠ none) (hborn : x.parent ≠ none → Born s i)
    (hz : x.state = .zombie ↔ (s.proc i).state = .zombie)
    (hzx : x.state = .zombie → x.pid = (s.proc i).pid ∧ x.xstate = (s.proc i).xstate)
    (hkid : ∀ p, p ≠ initproc → x.parent = some p → x.state = .zombie → (s.proc i).parent = some p)
    (hsleep : i ≠ initproc → x.state = .sleeping → x.chan = some (.proc i) →
      ∀ q, (s.proc q).parent = some i → (s.proc q).state ≠ .zombie) : Agree s' := by
  obtain ⟨hself, hne⟩ := eq_update_iff.1 hproc
  have hborn' : ∀ j, Born s' j → Born s j := by
    intro j hj
    by_cases hji : j = i
    · subst hji
      exact hj.elim .inl fun hp => hborn (by rwa [hself] at hp)
    · exact hj.imp_right fun hp => by rwa [hne j hji] at hp
  have hz' : ∀ j, (s'.proc j).state = .zombie ↔ (s.proc j).state = .zombie := by
    intro j
    by_cases hji : j = i
    · subst hji; rw [hself]; exact hz
    · rw [hne j hji]
  refine ⟨fun j hj hu => ?_, fun j k hj hk => ?_, ?_, fun p q hp hs hc hq hzq => ?_, by rw [hlog]; exact h.exitsNodup,
    by rw [hlog, hbirths]; exact h.exitsLe, fun j hj hzj => ?_, fun j hzj => ?_, fun e he => ?_,
    by rw [hlog]; exact h.reapsNodup, by rw [hlog]; exact h.reaped, by rw [hlog]; exact h.failed⟩
  · by_cases hji : j = i
    · subst hji; rw [hself] at hu ⊢; exact hpar hj hu
    · rw [hne j hji] at hu ⊢; exact h.parent j hj hu
  · rw [hstamp]; exact h.stamp j k (hborn' j hj) (hborn' k hk)
  · rw [hstamp, hbirths]; exact h.le
  · have hzq' := (hz' q).1 hzq
    by_cases hpi : p = i
    · subst hpi
      rw [hself] at hs hc
      by_cases hqp : q = p
      · subst hqp; rw [hself, hs] at hzq; cases hzq
      · rw [hne q hqp] at hq
        exact hsleep hp hs hc q hq hzq'
    · rw [hne p hpi] at hs hc
      refine h.awake p q hp hs hc ?_ hzq'
      by_cases hqi : q = i
      · subst hqi
        rw [hself] at hq hzq
        exact hkid p hp hq hzq
      · rwa [hne q hqi] at hq
  · rw [hlog, hstamp]
    exact h.alive j (hborn' j hj) fun e => hzj ((hz' j).2 e)
  · rw [hlog, hstamp]
    obtain ⟨⟨e, he, hid, hpid, hst⟩, hr⟩ := h.zombie j ((hz' j).1 hzj)
    refine ⟨⟨e, he, hid, ?_⟩, hr⟩
    by_cases hji : j = i
    · subst hji
      rw [hself] at hzj ⊢
      rw [(hzx hzj).1, (hzx hzj).2]
      exact ⟨hpid, hst⟩
    · rw [hne j hji]; exact ⟨hpid, hst⟩
  · rw [hlog] at he ⊢
    rw [hstamp]
    exact (h.exited e he).imp_right fun ⟨j, hj, hje⟩ => ⟨j, (hz' j).2 hj, hje⟩

theorem congr (h : Agree s) (hproc : s'.proc = s.proc) (hstamp : s'.hist.stamp = s.hist.stamp)
    (hbirths : s'.hist.births = s.hist.births) (hlog : s'.hist.log = s.hist.log) : Agree s' :=
  h.slot (i := initproc) (x := s.proc initproc) (by rw [hproc, update_eq_self]) hstamp hbirths hlog
    (fun e => absurd rfl e) (fun _ => .inl rfl) Iff.rfl (fun _ => ⟨rfl, rfl⟩) (fun _ _ e _ => e) fun e => absurd rfl e

/-- `np->parent = p`: a birth. -/
theorem birth (h : Agree s) (hproc : s'.proc = update s.proc i x) (hx : x.parent ≠ none)
    (hxst : x.state = .unused) (hst : (s.proc i).state = .unused)
    (hstamp : s'.hist.stamp = update s.hist.stamp i (s.hist.births + 1))
    (hbirths : s'.hist.births = s.hist.births + 1) (hlog : s'.hist.log = s.hist.log) : Agree s' := by
  obtain ⟨hself, hne⟩ := eq_update_iff.1 hproc
  obtain ⟨hsself, hsne⟩ := eq_update_iff.1 hstamp
  have hstate : ∀ j, (s'.proc j).state = (s.proc j).state := by
    intro j
    by_cases hji : j = i
    · subst hji; rw [hself, hxst, hst]
    · rw [hne j hji]
  have hzi : ∀ j, (s.proc j).state = .zombie → j ≠ i := fun j hz e => by rw [e, hst] at hz; cases hz
  have hborn : ∀ j, j ≠ i → Born s' j → Born s j := fun j hj => Or.imp_right fun hp => by rwa [hne j hj] at hp
  refine ⟨fun j hj hu => ?_, fun j k hj hk e => ?_, fun j => ?_, fun p' q hp hs hc hq hzq => ?_,
    by rw [hlog]; exact h.exitsNodup, fun e he => ?_, fun j hj hzj e he => ?_, fun j hzj => ?_, fun e he => ?_,
    by rw [hlog]; exact h.reapsNodup, by rw [hlog]; exact h.reaped, by rw [hlog]; exact h.failed⟩
  · by_cases hji : j = i
    · subst hji; rw [hself]; exact hx
    · rw [hne j hji] at hu ⊢; exact h.parent j hj hu
  · by_cases hji : j = i <;> by_cases hki : k = i
    · exact hji.trans hki.symm
    · have := h.le k
      rw [hji, hsself, hsne k hki] at e
      omega
    · have := h.le j
      rw [hki, hsself, hsne j hji] at e
      omega
    · rw [hsne j hji, hsne k hki] at e
      exact h.stamp j k (hborn j hji hj) (hborn k hki hk) e
  · rw [hbirths]
    by_cases hji : j = i
    · exact le_of_eq (by rw [hji, hsself])
    · rw [hsne j hji]; exact Nat.le_succ_of_le (h.le j)
  · rw [hstate] at hs hzq
    have hp' : p' ≠ i := fun e => by rw [e, hst] at hs; cases hs
    rw [hne p' hp'] at hc
    rw [hne q (hzi q hzq)] at hq
    exact h.awake p' q hp hs hc hq hzq
  · rw [hlog] at he
    rw [hbirths]
    exact Nat.le_succ_of_le (h.exitsLe e he)
  · rw [hlog] at he
    by_cases hji : j = i
    · have := h.exitsLe e he
      rw [hji, hsself]; omega
    · rw [hsne j hji]
      exact h.alive j (hborn j hji hj) (by rwa [hstate] at hzj) e he
  · rw [hstate] at hzj
    rw [hlog, hsne j (hzi j hzj), hne j (hzi j hzj)]
    exact h.zombie j hzj
  · rw [hlog] at he ⊢
    refine (h.exited e he).imp_right fun ⟨j, hj, hje⟩ => ⟨j, by rw [hstate, hj], by rw [hsne j (hzi j hj), hje]⟩

/-- `exit`: a process becomes a zombie, while nobody who sleeps in `wait` is its
parent. -/
theorem exit (h : Agree s) {status : Int} (hproc : s'.proc = update s.proc p x) (hx : x.state = .zombie)
    (hxpar : x.parent = (s.proc p).parent) (hxpid : x.pid = (s.proc p).pid) (hxst : x.xstate = status)
    (hstamp : s'.hist.stamp = s.hist.stamp) (hbirths : s'.hist.births = s.hist.births)
    (hlog : s'.hist.log = { s.hist.log with exits := ⟨s.hist.stamp p, (s.proc p).pid, status⟩ :: s.hist.log.exits })
    (hused : (s.proc p).state ≠ .unused) (hnz : (s.proc p).state ≠ .zombie) (hp0 : p ≠ initproc)
    (hwake : ∀ q, q ≠ initproc → (s.proc p).parent = some q → (s.proc q).state = .sleeping →
      (s.proc q).chan ≠ some (.proc q)) : Agree s' := by
  obtain ⟨hself, hne⟩ := eq_update_iff.1 hproc
  have hpar : ∀ j, (s'.proc j).parent = (s.proc j).parent := by
    intro j
    by_cases hjp : j = p
    · subst hjp; rw [hself, hxpar]
    · rw [hne j hjp]
  have hborn : ∀ j, Born s' j ↔ Born s j := fun j => by simp only [Born, hpar]
  have hbp : Born s p := .inr (h.parent p hp0 hused)
  have hexits : s'.hist.log.exits = ⟨s.hist.stamp p, (s.proc p).pid, status⟩ :: s.hist.log.exits := by rw [hlog]
  have hreaps : s'.hist.log.reaps = s.hist.log.reaps := by rw [hlog]
  have hfresh := h.alive p hbp hnz
  have hmem : ∀ e ∈ s.hist.log.exits, e ∈ s'.hist.log.exits := fun e he => by
    rw [hexits]; exact mem_cons_of_mem _ he
  refine ⟨fun j hj hu => ?_, fun j k hj hk => ?_, ?_, fun q' q hq0 hs hc hq hzq => ?_, ?_, fun e he => ?_,
    fun j hj hzj e he => ?_, fun j hzj => ?_, fun e he => ?_, by rw [hreaps]; exact h.reapsNodup, fun r hr => ?_,
      fun f hf => ?_⟩
  · rw [hpar]
    by_cases hjp : j = p
    · subst hjp; exact h.parent j hj hused
    · rw [hne j hjp] at hu; exact h.parent j hj hu
  · rw [hstamp]; exact h.stamp j k ((hborn j).1 hj) ((hborn k).1 hk)
  · rw [hstamp, hbirths]; exact h.le
  · have hqp : q' ≠ p := fun e => by rw [e, hself, hx] at hs; cases hs
    rw [hne q' hqp] at hs hc
    rw [hpar] at hq
    by_cases hqp' : q = p
    · subst hqp'; exact hwake q' hq0 hq hs hc
    · rw [hne q hqp'] at hzq
      exact h.awake q' q hq0 hs hc hq hzq
  · rw [hexits, map_cons, nodup_cons]
    refine ⟨fun hm => ?_, h.exitsNodup⟩
    obtain ⟨e, he, hid⟩ := mem_map.1 hm
    exact hfresh e he hid
  · rw [hexits, mem_cons] at he
    rw [hbirths]
    rcases he with rfl | he
    · exact h.le p
    · exact h.exitsLe e he
  · have hjp : j ≠ p := fun e => hzj (by rw [e, hself, hx])
    rw [hne j hjp] at hzj
    rw [hstamp]
    rw [hexits, mem_cons] at he
    rcases he with rfl | he
    · exact fun e => hjp (h.stamp p j hbp ((hborn j).1 hj) e).symm
    · exact h.alive j ((hborn j).1 hj) hzj e he
  · rw [hstamp, hreaps]
    by_cases hjp : j = p
    · subst hjp
      rw [hself, hexits]
      refine ⟨⟨_, mem_cons_self, rfl, hxpid.symm, hxst.symm⟩, fun r hr e => ?_⟩
      obtain ⟨-, e', he', hid, -⟩ := h.reaped r hr
      exact hfresh e' he' (hid.trans e)
    · rw [hne j hjp] at hzj ⊢
      obtain ⟨⟨e, he, hx⟩, hr⟩ := h.zombie j hzj
      exact ⟨⟨e, hmem e he, hx⟩, hr⟩
  · rw [hreaps, hstamp]
    rw [hexits, mem_cons] at he
    rcases he with rfl | he
    · exact .inr ⟨p, by rw [hself, hx], rfl⟩
    · refine (h.exited e he).imp_right fun ⟨j, hj, hje⟩ => ⟨j, ?_, hje⟩
      have hjp : j ≠ p := fun e => hnz (e ▸ hj)
      rw [hne j hjp, hj]
  · rw [hreaps] at hr
    obtain ⟨hw, e, he, hx⟩ := h.reaped r hr
    exact ⟨hw, e, hmem e he, hx⟩
  · rw [hlog] at hf
    obtain ⟨e, he, hx⟩ := h.failed f hf
    exact ⟨e, hmem e he, hx⟩

/-- `wait` frees a zombie. -/
theorem reap (h : Agree s) (hproc : s'.proc = update s.proc i (s.proc i).freed)
    (hstamp : s'.hist.stamp = s.hist.stamp) (hbirths : s'.hist.births = s.hist.births)
    (hlog : s'.hist.log = { s.hist.log with reaps := r :: s.hist.log.reaps }) (hz : (s.proc i).state = .zombie)
    (hi0 : i ≠ initproc) (hid : r.id = s.hist.stamp i) (hpid : r.pid = (s.proc i).pid)
    (hstatus : ∀ x, r.status = some x → x = (s.proc i).xstate) (hwaiter : r.parent = some r.waiter) : Agree s' := by
  obtain ⟨hself, hne⟩ := eq_update_iff.1 hproc
  have hborn : ∀ j, Born s' j → j ≠ i ∧ Born s j := by
    intro j hj
    have hji : j ≠ i := by
      intro e
      subst e
      rcases hj with hj | hj
      · exact hi0 hj
      · rw [hself] at hj; exact hj rfl
    exact ⟨hji, hj.imp_right fun hp => by rwa [hne j hji] at hp⟩
  have hzj : ∀ j, (s'.proc j).state = .zombie → j ≠ i ∧ (s.proc j).state = .zombie := by
    intro j hj
    have hji : j ≠ i := fun e => by rw [e, hself] at hj; cases hj
    exact ⟨hji, by rwa [hne j hji] at hj⟩
  have hbz : ∀ j, (s.proc j).state = .zombie → Born s j := by
    intro j hj
    by_cases h0 : j = initproc
    · exact .inl h0
    · exact .inr (h.parent j h0 (by rw [hj]; decide))
  have hexits : s'.hist.log.exits = s.hist.log.exits := by rw [hlog]
  have hreaps : s'.hist.log.reaps = r :: s.hist.log.reaps := by rw [hlog]
  obtain ⟨⟨e, he, heid, hepid, hest⟩, hfresh⟩ := h.zombie i hz
  refine ⟨fun j hj hu => ?_, fun j k hj hk => ?_, ?_, fun p q hp hs hc hq hzq => ?_, by rw [hexits]; exact h.exitsNodup,
    by rw [hexits, hbirths]; exact h.exitsLe, fun j hj hzj' => ?_, fun j hj => ?_, fun e' he' => ?_, ?_, fun r' hr' => ?_,
    by rw [hlog]; exact h.failed⟩
  · have hji : j ≠ i := fun e => by rw [e, hself] at hu; exact hu rfl
    rw [hne j hji] at hu ⊢; exact h.parent j hj hu
  · rw [hstamp]; exact h.stamp j k (hborn j hj).2 (hborn k hk).2
  · rw [hstamp, hbirths]; exact h.le
  · obtain ⟨hqi, hzq⟩ := hzj q hzq
    have hpi : p ≠ i := fun e => by rw [e, hself] at hs; cases hs
    rw [hne p hpi] at hs hc
    rw [hne q hqi] at hq
    exact h.awake p q hp hs hc hq hzq
  · obtain ⟨hji, hb⟩ := hborn j hj
    rw [hne j hji] at hzj'
    rw [hexits, hstamp]; exact h.alive j hb hzj'
  · obtain ⟨hji, hj⟩ := hzj j hj
    rw [hexits, hreaps, hstamp, hne j hji]
    obtain ⟨hx, hr⟩ := h.zombie j hj
    refine ⟨hx, fun r' hr' => ?_⟩
    rcases mem_cons.1 hr' with rfl | hr'
    · rw [hid]
      exact fun e => hji (h.stamp i j (hbz i hz) (hbz j hj) e).symm
    · exact hr r' hr'
  · rw [hexits] at he'
    rw [hreaps, hstamp]
    rcases h.exited e' he' with ⟨r', hr', hx⟩ | ⟨j, hj, hx⟩
    · exact .inl ⟨r', mem_cons_of_mem _ hr', hx⟩
    · by_cases hji : j = i
      · exact .inl ⟨r, mem_cons_self, by rw [hid, ← hji, hx]⟩
      · exact .inr ⟨j, by rw [hne j hji, hj], hx⟩
  · rw [hreaps, map_cons, nodup_cons]
    refine ⟨fun hm => ?_, h.reapsNodup⟩
    obtain ⟨r', hr', hx⟩ := mem_map.1 hm
    exact hfresh r' hr' (hx.trans hid)
  · rw [hexits]
    rw [hreaps, mem_cons] at hr'
    rcases hr' with rfl | hr'
    · exact ⟨hwaiter, e, he, heid.trans hid.symm, hepid.trans hpid.symm, fun x hx => (hstatus x hx).trans hest.symm⟩
    · exact h.reaped r' hr'

/-- A step that only counts or ends calls of `wait`, or that records a failed
`copyout` of a zombie's exit status. -/
theorem logCall (h : Agree s) (hproc : s'.proc = s.proc) (hstamp : s'.hist.stamp = s.hist.stamp)
    (hbirths : s'.hist.births = s.hist.births) (hexits : s'.hist.log.exits = s.hist.log.exits)
    (hreaps : s'.hist.log.reaps = s.hist.log.reaps)
    (hfailed : ∀ f ∈ s'.hist.log.failed, f ∈ s.hist.log.failed ∨ ∃ i, (s.proc i).state = .zombie ∧ s.hist.stamp i = f.id) :
    Agree s' := by
  obtain ⟨h1, h2, h3, h4, h5, h6, h7, h8, h9, h10, h11, h12⟩ := h
  have hborn : Born s' = Born s := by funext i; simp only [Born, hproc]
  refine ⟨by rwa [hproc], by rwa [hborn, hstamp], by rwa [hstamp, hbirths], by unfold NoLostWakeup; rwa [hproc], by
    rwa [hexits],
    by rwa [hexits, hbirths], by rwa [hborn, hproc, hexits, hstamp], by rwa [hproc, hexits, hreaps, hstamp],
    by rwa [hproc, hexits, hreaps, hstamp], by rwa [hreaps], by rwa [hreaps, hexits], fun f hf => ?_⟩
  rw [hexits]
  rcases hfailed f hf with hf | ⟨i, hi, hid⟩
  · exact h12 f hf
  · obtain ⟨⟨e, he, heid, -⟩, -⟩ := h8 i hi
    exact ⟨e, he, heid.trans hid⟩

end Agree

/-! ## Calls of `wait` -/

/-- Where a process is in a call of `wait`. -/
inductive WaitState where
  | idle
  | searching
  | reaped (pid : BitVec 32)
  | failed

/-- What a call of `wait` has returned agrees with what it has freed. -/
structure Calls (L : WaitLog) : Prop where
  reapsNodup : (L.reaps.map fun r => (r.waiter, r.call)).Nodup
  ret : ∀ t ∈ L.rets, (∃ r ∈ L.reaps, (r.waiter, r.call) = (t.waiter, t.call) ∧ r.pid = t.value) ∨
    t.value = -1 ∧ ∀ r ∈ L.reaps, (r.waiter, r.call) ≠ (t.waiter, t.call)
  failed : ∀ f ∈ L.failed, ∀ r ∈ L.reaps, (r.waiter, r.call) ≠ (f.waiter, f.call)

/-- What is known of the calls of the process `p`. -/
structure CallOk (L : WaitLog) (p : Pid) (w : WaitState) : Prop where
  reaps : ∀ r ∈ L.reaps, r.waiter = p → r.call ≤ L.waits p
  rets : ∀ t ∈ L.rets, t.waiter = p → t.call ≤ L.waits p
  failed : ∀ f ∈ L.failed, f.waiter = p → f.call ≤ L.waits p
  noRet : w ≠ .idle → ∀ t ∈ L.rets, (t.waiter, t.call) ≠ (p, L.waits p)
  noReap : w = .searching ∨ w = .failed → ∀ r ∈ L.reaps, (r.waiter, r.call) ≠ (p, L.waits p)
  noFailed : w = .searching → ∀ f ∈ L.failed, (f.waiter, f.call) ≠ (p, L.waits p)
  reaped : ∀ pid, w = .reaped pid → ∃ r ∈ L.reaps, (r.waiter, r.call) = (p, L.waits p) ∧ r.pid = pid

namespace CallOk

variable {L : WaitLog} {p q : Pid} {w : WaitState} {pid : BitVec 32}

/-- A step of another process's calls. -/
theorem other (h : CallOk L p w) {L' : WaitLog} (hwaits : L'.waits p = L.waits p)
    (hreaps : ∀ r, r.waiter = p → (r ∈ L'.reaps ↔ r ∈ L.reaps)) (hrets : ∀ t, t.waiter = p → (t ∈ L'.rets ↔ t ∈ L.rets))
    (hfailed : ∀ f, f.waiter = p → (f ∈ L'.failed ↔ f ∈ L.failed)) : CallOk L' p w where
  reaps r hr e := by rw [hwaits]; exact h.reaps r ((hreaps r e).1 hr) e
  rets t ht e := by rw [hwaits]; exact h.rets t ((hrets t e).1 ht) e
  failed f hf e := by rw [hwaits]; exact h.failed f ((hfailed f e).1 hf) e
  noRet hw t ht e := h.noRet hw t ((hrets t (congrArg Prod.fst e)).1 ht) (by rwa [hwaits] at e)
  noReap hw r hr e := h.noReap hw r ((hreaps r (congrArg Prod.fst e)).1 hr) (by rwa [hwaits] at e)
  noFailed hw f hf e := h.noFailed hw f ((hfailed f (congrArg Prod.fst e)).1 hf) (by rwa [hwaits] at e)
  reaped pid hw := by
    obtain ⟨r, hr, e, hp⟩ := h.reaped pid hw
    exact ⟨r, (hreaps r (congrArg Prod.fst e)).2 hr, by rw [hwaits, e], hp⟩

/-- `wait` begins. -/
theorem beginWait (h : CallOk L p w) : CallOk { L with waits := update L.waits p (L.waits p + 1) } p .searching := by
  have hw : ({ L with waits := update L.waits p (L.waits p + 1) } : WaitLog).waits p = L.waits p + 1 :=
    update_self ..
  have hlt : ∀ {q : Pid} {k}, (q = p → k ≤ L.waits p) → (q, k) ≠ (p, L.waits p + 1) := by
    intro q k hk e
    cases e
    exact absurd (hk rfl) (Nat.not_succ_le_self _)
  constructor
  case reaps => exact fun r hr e => by rw [hw]; exact Nat.le_succ_of_le (h.reaps r hr e)
  case rets => exact fun t ht e => by rw [hw]; exact Nat.le_succ_of_le (h.rets t ht e)
  case failed => exact fun f hf e => by rw [hw]; exact Nat.le_succ_of_le (h.failed f hf e)
  case noRet => exact fun _ t ht => by rw [hw]; exact hlt (h.rets t ht)
  case noReap => exact fun _ r hr => by rw [hw]; exact hlt (h.reaps r hr)
  case noFailed => exact fun _ f hf => by rw [hw]; exact hlt (h.failed f hf)
  case reaped => exact nofun

/-- `wait` has freed a zombie. -/
theorem reap (h : CallOk L p .searching) (hr : (r.waiter, r.call) = (p, L.waits p)) :
    CallOk { L with reaps := r :: L.reaps } p (.reaped r.pid) where
  reaps r' hr' e := by
    rcases mem_cons.1 hr' with rfl | hr'
    · exact le_of_eq (congrArg Prod.snd hr)
    · exact h.reaps r' hr' e
  rets := h.rets
  failed := h.failed
  noRet _ := h.noRet (by simp)
  noReap e := by rcases e with e | e <;> cases e
  noFailed e := nomatch e
  reaped _ e := ⟨r, mem_cons_self, hr, by cases e; rfl⟩

/-- The `copyout` of `wait` has failed. -/
theorem copyoutFailed (h : CallOk L p .searching) (hf : (f.waiter, f.call) = (p, L.waits p)) :
    CallOk { L with failed := f :: L.failed } p .failed where
  reaps := h.reaps
  rets := h.rets
  failed f' hf' e := by
    rcases mem_cons.1 hf' with rfl | hf'
    · exact le_of_eq (congrArg Prod.snd hf)
    · exact h.failed f' hf' e
  noRet _ := h.noRet (by simp)
  noReap _ := h.noReap (.inl rfl)
  noFailed e := nomatch e
  reaped _ e := nomatch e

/-- `wait` returns. -/
theorem endWait (h : CallOk L p w) (ht : (t.waiter, t.call) = (p, L.waits p)) :
    CallOk { L with rets := t :: L.rets } p .idle where
  reaps := h.reaps
  rets t' ht' e := by
    rcases mem_cons.1 ht' with rfl | ht'
    · exact le_of_eq (congrArg Prod.snd ht)
    · exact h.rets t' ht' e
  failed := h.failed
  noRet e := absurd rfl e
  noReap e := by rcases e with e | e <;> cases e
  noFailed e := nomatch e
  reaped _ e := nomatch e

end CallOk

namespace Calls

variable {L : WaitLog} {p : Pid} {w : WaitState}

theorem reap (h : Calls L) (hc : CallOk L p .searching) (hr : (r.waiter, r.call) = (p, L.waits p)) :
    Calls { L with reaps := r :: L.reaps } where
  reapsNodup := by
    rw [map_cons, nodup_cons]
    refine ⟨fun hm => ?_, h.reapsNodup⟩
    obtain ⟨r', hr', e⟩ := mem_map.1 hm
    exact hc.noReap (.inl rfl) r' hr' (e.trans hr)
  ret t ht := by
    refine (h.ret t ht).imp (fun ⟨r', hr', e⟩ => ⟨r', mem_cons_of_mem _ hr', e⟩) fun ⟨hv, hn⟩ => ⟨hv, fun r' hr' => ?_⟩
    rcases mem_cons.1 hr' with rfl | hr'
    · rw [hr]; exact (hc.noRet (by simp) t ht).symm
    · exact hn r' hr'
  failed f hf r' hr' := by
    rcases mem_cons.1 hr' with rfl | hr'
    · rw [hr]; exact (hc.noFailed rfl f hf).symm
    · exact h.failed f hf r' hr'

theorem copyoutFailed (h : Calls L) (hc : CallOk L p .searching) (hf : (f.waiter, f.call) = (p, L.waits p)) :
    Calls { L with failed := f :: L.failed } where
  reapsNodup := h.reapsNodup
  ret := h.ret
  failed f' hf' := by
    rcases mem_cons.1 hf' with rfl | hf'
    · rw [hf]; exact hc.noReap (.inl rfl)
    · exact h.failed f' hf'

/-- What `wait` returns: the pid of the zombie that it has freed, or -1. -/
def Returns (w : WaitState) (value : BitVec 32) : Prop := match w with
  | .idle => False
  | .searching | .failed => value = -1
  | .reaped pid => value = pid

theorem endWait (h : Calls L) (hc : CallOk L p w) (ht : (t.waiter, t.call) = (p, L.waits p)) (hv : Returns w t.value) :
    Calls { L with rets := t :: L.rets } where
  reapsNodup := h.reapsNodup
  failed := h.failed
  ret t' ht' := by
    rcases mem_cons.1 ht' with rfl | ht'
    · rw [ht]
      cases w with
      | idle => exact hv.elim
      | searching => exact .inr ⟨hv, hc.noReap (.inl rfl)⟩
      | failed => exact .inr ⟨hv, hc.noReap (.inr rfl)⟩
      | reaped pid =>
        obtain ⟨r, hr, e, hp⟩ := hc.reaped pid rfl
        exact .inl ⟨r, hr, e, hp.trans (Eq.symm hv)⟩
    · exact h.ret t' ht'

end Calls

end Xv6.Process
