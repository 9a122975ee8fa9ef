import Mathlib.Data.BitVec
import Xv6.Log.Recover

/-!
# The reference counts of buffers

A buffer's `refcnt` counts the `bread` calls not yet matched by `brelse`, and
one more if the log has recorded its block (`Balanced`). `log_write` pins a
block before it records it, and the `install_trans` of a commit unpins blocks
that stay recorded until `lh.n = 0`: between these steps the count is off by
the one pin (`Between`). But `read_head` records blocks that nobody has pinned,
and the `install_trans` of recovery unpins them all the same. So the counts are
right in all states exactly if the header that `initlog` finds is empty
(`refcnt_balanced_iff`).
-/

namespace Xv6.Log

open Function List

variable {L : Layout} {t : Pid} {d : Nat → Bytes} {s s' : State} {i : BufId} {b : Nat}

/-- Every `refcnt` is the number of holders, plus one if the block is
recorded in `lh`. -/
def Balanced (s : State) : Prop :=
  ∀ i, (s.buf i).refcnt.toNat = refs s.hist.holds i + pin s.log.lh (s.buf i)

/-- A `log_write` is between `bpin` and `lh.n++`, or a buffer has a block that
`install_trans` has unpinned and that is recorded until `lh.n = 0`. -/
def Between (s : State) : Prop :=
  s.log.adding ≠ none ∨ ∃ i, (s.buf i).dev = rootdev ∧ (s.buf i).blockno ∈ s.log.lh.take s.hist.inst

/-- The counts are balanced exactly outside of `Between`. In all states a
held buffer has a `refcnt` above 0, and none has wrapped around. -/
structure Counted (s : State) : Prop where
  balanced : Balanced s ↔ ¬ Between s
  le : ∀ i, refs s.hist.holds i ≤ (s.buf i).refcnt.toNat
  le_succ : ∀ i, (s.buf i).refcnt.toNat ≤ refs s.hist.holds i + 1

theorem Counted.balanced_of (h : Counted s) (hinst : s.hist.inst = 0) (ha : s.log.adding = none) : Balanced s := by
  refine h.balanced.mpr ?_
  rintro (hb | ⟨i, -, hb⟩)
  · exact hb ha
  · rw [hinst, take_zero] at hb
    exact absurd hb not_mem_nil

/-! ## An empty header -/

section Counts

variable {d0 : Nat → Bytes} {fit : Prop} {γ : Pid → Ghost}

/-- A `log_write` that adds a block is in an operation. -/
theorem Inv.inst_of_adding (h : Inv L d0 fit s γ) (ha : s.log.adding = some (t, b)) : s.hist.inst = 0 := by
  have hg := (h.adding t b).mp ha
  obtain ⟨o, ho⟩ := (h.adding_op t).resolve_left (by rw [hg]; simp)
  exact h.inst_quiet (h.adm.not_committing ho)

theorem Inv.balanced_of (h : Inv L d0 fit s γ) (hb : ¬ Between s) : Balanced s := by
  intro i
  rw [Between, not_or, not_not, not_exists] at hb
  rw [h.bio.refcnt i, State.pins, hb.1, Option.toList_none, map_nil, append_nil, pin, pin]
  congr 1
  refine if_congr (and_congr_right fun hd => ⟨mem_of_mem_drop, fun hm => ?_⟩) rfl rfl
  rw [← take_append_drop s.hist.inst s.log.lh, mem_append] at hm
  exact hm.resolve_left fun hm => hb.2 i ⟨hd, hm⟩

theorem Inv.not_between (h : Inv L d0 fit s γ) (hb : Balanced s) : ¬ Between s := by
  have hpin : ∀ i, pin s.pins (s.buf i) = pin s.log.lh (s.buf i) := fun i => by
    have := h.bio.refcnt i
    rw [hb i] at this
    omega
  rintro (ha | ⟨i, hd, hm⟩)
  · -- the block is pinned and not in `lh`
    obtain ⟨⟨u, b⟩, hu⟩ := Option.ne_none_iff_exists'.mp ha
    have hpins : s.pins = s.log.lh ++ [b] := by rw [State.pins, h.inst_of_adding hu, hu]; rfl
    have hnot : b ∉ s.log.lh := fun hm => disjoint_of_nodup_append (hpins ▸ h.bio.nodup) hm mem_cons_self
    have hmem : b ∈ s.pins := by rw [hpins]; exact mem_append_right _ mem_cons_self
    obtain ⟨i, hd, rfl, -⟩ := h.bio.pinned b hmem
    simpa [pin, hd, hmem, hnot] using hpin i
  · -- the block is in `lh` and not pinned
    have hnone : s.log.adding = none := by
      by_contra hne
      obtain ⟨⟨u, b⟩, hu⟩ := Option.ne_none_iff_exists'.mp hne
      rw [h.inst_of_adding hu, take_zero] at hm
      exact absurd hm not_mem_nil
    have hnot : (s.buf i).blockno ∉ s.pins := by
      rw [State.pins, hnone, Option.toList_none, map_nil, append_nil]
      refine disjoint_of_nodup_append ?_ hm
      rw [take_append_drop]
      exact h.lh_nodup
    simpa [pin, hd, hnot, mem_of_mem_take hm] using hpin i

theorem Inv.counted (h : Inv L d0 fit s γ) : Counted s := by
  have hpin : ∀ i, pin s.pins (s.buf i) ≤ 1 := fun i => by rw [pin]; split <;> omega
  refine ⟨⟨h.not_between, h.balanced_of⟩, fun i => ?_, fun i => ?_⟩
  · rw [h.bio.refcnt i]; exact le_self_add
  · rw [h.bio.refcnt i]; exact Nat.add_le_add_left (hpin i) _

end Counts

theorem initlog_counted (hd : headBlocks (d L.start) = []) {p : KProg Unit}
    (hr : Prog.Reach t (initlog L.start L.size) (binit d) p s) : Counted s := by
  rcases reach_initlog hr with ⟨-, rfl⟩ | hr
  · exact ⟨⟨fun _ => by simp [Between, binit], fun _ i => rfl⟩, fun i => le_rfl, fun i => Nat.zero_le _⟩
  · obtain ⟨γ, hi, -⟩ := recover_inv hd hr
    exact hi.counted

theorem Boot.refcnt_zero (hd : headBlocks (d L.start) = []) (hb : Boot L t d s) (i : BufId) :
    (s.buf i).refcnt = 0 := by
  have hi := hb.inv hd
  obtain ⟨hc, hlh⟩ := hi.quiet_of_out fun _ => rfl
  have hrefs : refs s.hist.holds i = 0 := by
    rw [refs_eq_sum]
    exact Finset.sum_eq_zero fun u _ => hi.bio.counts u i
  have hadd : s.log.adding = none := Option.eq_none_iff_forall_ne_some.mpr fun p hp => by
    cases (hi.adding p.1 p.2).mp hp
  have := hi.counted.balanced_of (hi.inst_quiet hc) hadd i
  rw [hrefs, hlh] at this
  exact BitVec.eq_of_toNat_eq (by simpa [pin] using this)

/-! ## Blocks that recovery finds -/

/-- No buffer has a recorded block. -/
def Uncached (s : State) : Prop := ∀ i, (s.buf i).dev = rootdev → (s.buf i).blockno ∉ s.log.lh

/-- A buffer of a recorded block has a `refcnt` above 0. -/
theorem Balanced.not_mem_lh (h : Balanced s) (h0 : (s.buf i).refcnt = 0) (hd : (s.buf i).dev = rootdev) :
    (s.buf i).blockno ∉ s.log.lh := by
  intro hm
  have := h i
  rw [h0, pin, if_pos ⟨hd, hm⟩, show (0 : BitVec 32).toNat = 0 from rfl] at this
  omega

/-- When `bget` takes a buffer for a recorded block, nobody has pinned it. -/
theorem Uncached.not_counted (h : Uncached s) (hinst : s.hist.inst = 0) (ha : s.log.adding = none)
    (hb : b ∈ s.log.lh) (hget : bgetRef rootdev b t s = .ok i s') : ¬ Counted s' := by
  intro hcnt
  unfold bgetRef at hget
  split at hget
  · rename_i j hj
    have hfound := find?_some hj
    simp only [decide_eq_true_eq] at hfound
    exact h j hfound.1 (hfound.2 ▸ hb)
  · split at hget
    · cases hget
      have := hcnt.balanced_of hinst ha i
      simp only [State.modHist_hist, State.modHist_log, State.modBuf_log, State.modHist_buf, State.modBuf_buf,
        State.modBuf_hist, update_self, pin, hb, refs_cons, and_self, if_true] at this
      rw [show (1 : BitVec 32).toNat = 1 from rfl] at this
      omega
    · cases hget

/-- With a header that is not empty, `install_trans` reads a recorded block
that is not pinned. -/
theorem recover_not_counted (hne : headBlocks (d L.start) ≠ []) (t : Pid) :
    ∃ p s, Prog.Reach t (initlog L.start L.size) (binit d) p s ∧ ¬ Counted s := by
  by_contra hall
  have h₀ : Prog.Always t Counted (initlog L.start L.size) (binit d) := fun p s hr => by
    by_contra hb; exact hall ⟨p, s, hr, hb⟩
  obtain ⟨b, bs, hbs⟩ := exists_cons_of_ne_nil hne
  -- the first iteration of `install_trans`
  obtain ⟨_, s1, hr1, ha1, -, hl1, hi1⟩ := (readHead_runs (L := L) (t := t) (d := d) (J := fun _ => True)
    fun _ _ => trivial).returns
  have hlh1 : s1.log.lh = b :: bs := by rw [hl1, ← hbs]
  have hn1 : s1.log.adding = none := by rw [hl1]
  have h1 : Prog.Always t Counted recoverFromLog (booted L d) := h₀.act rfl
  have h1 := h1.bind hr1
  have h2 := h1.iter.act (b := s1.log) rfl
  simp only [Prog.bind, hl1, hbs, getElem?_cons_zero, Prog.bind_eq, Prog.bind_assoc] at h2
  have hu1 : Uncached s1 := fun i => (h1.holds.balanced_of hi1 hn1).not_mem_lh (ha1.free i (by simp)).1
  by_cases hlog : L.start + 0 + 1 ∈ s1.log.lh
  · obtain ⟨i, x, hget, -⟩ := bgetRef_ok (b := L.start + 0 + 1) ha1 (by simp) (by decide)
    exact hu1.not_counted hi1 hn1 hlog hget (h2.act hget).holds
  · obtain ⟨l, s2, hr2, ha2, -, hl2, hi2⟩ := (bread_runs (b := L.start + 0 + 1) (J := fun _ => True) ha1 (by simp)
      (by decide) fun _ _ => trivial).returns
    have h3 := h2.bind hr2
    have hi2 := hi2.trans hi1
    have hn2 : s2.log.adding = none := by rw [hl2, hn1]
    have hb : b ∈ s2.log.lh := by rw [hl2, hlh1]; exact mem_cons_self
    have hu2 : Uncached s2 := fun i hd => by
      by_cases hil : i = l
      · rw [hil, (ha2.has _ mem_cons_self).2, hl2]; exact hlog
      · exact (h3.holds.balanced_of hi2 hn2).not_mem_lh (ha2.free i (by simpa using hil)).1 hd
    have hne : ∀ p ∈ [(l, L.start + 0 + 1)] ++ [], p.2 ≠ b := fun p hp e => by
      obtain rfl := mem_singleton.mp hp
      exact hlog (by rw [← hl2, show L.start + 0 + 1 = b from e]; exact hb)
    obtain ⟨i, x, hget, -⟩ := bgetRef_ok ha2 hne (show 1 < nbuf by decide)
    exact hu2.not_counted hi2 hn2 hb hget (h3.act hget).holds

/-! ## The counts -/

/-- For every disk, the counts are right in every state of `initlog` and of
every run after it, and all 0 when `initlog` returns, exactly if the log
header that `initlog` finds has no blocks. -/
theorem refcnt_balanced_iff (L : Layout) (t : Pid) (d : Nat → Bytes) :
    ((∀ p s, Prog.Reach t (initlog L.start L.size) (binit d) p s → Counted s) ∧
      ∀ s0, Boot L t d s0 → (∀ i, (s0.buf i).refcnt = 0) ∧
        ∀ c, Config.Run (client L) (fun _ => True) (.idle s0 {}) c → Counted c.shared) ↔
    headBlocks (d L.start) = [] := by
  constructor
  · intro h
    by_contra hne
    obtain ⟨p, s, hr, hs⟩ := recover_not_counted hne t
    exact hs (h.1 p s hr)
  · intro hd
    refine ⟨fun p s => initlog_counted hd, fun s0 hb => ⟨hb.refcnt_zero hd, fun c hr => ?_⟩⟩
    obtain ⟨γ, hi⟩ := inv_run (hb.inv hd) False (fun _ _ h => h.elim) hr
    exact hi.counted

/-- A disk on which block 100 has been committed and not installed. -/
def oneLogged : Nat → Bytes := update (fun _ _ => 0) mkfsLayout.start (putHead (fun _ => 0) [100])

/-- Recovery from `oneLogged`, and a process that then reads block 100. -/
def oneLoggedRun : Option (State × Config State Pid Local) :=
  match Prog.exec 0 34 (initlog mkfsLayout.start mkfsLayout.size) (binit oneLogged) with
  | some (.ret (), s) => do
    let c ← (Config.idle s {}).execAll (client mkfsLayout) (fun _ => true) (.call 1 (.bread 100) :: Event.steps 1 4)
    return (s, c)
  | _ => none

set_option maxRecDepth 100000 in
theorem oneLoggedRun_eq : oneLoggedRun.map (fun r => decide (r.1.log.lh = [] ∧ r.1.hist.holds = [] ∧
    (r.1.buf 2).refcnt = 2 ^ 32 - 1 ∧ (1, 2) ∈ r.2.shared.hist.holds ∧ (r.2.shared.buf 2).refcnt = 0)) = some true := by
  decide +kernel

/-- After recovery from `oneLogged` a buffer that nobody holds has `refcnt`
`2^32 - 1`, and 0 as soon as a process holds it. -/
theorem refcnt_wraps_in_recovery : ∃ (s0 : State) (c : Config State Pid Local) (i : BufId),
    headBlocks (oneLogged mkfsLayout.start) = [100] ∧ Boot mkfsLayout 0 oneLogged s0 ∧
    Config.Run (client mkfsLayout) (fun _ => True) (.idle s0 {}) c ∧
    s0.log.lh = [] ∧ s0.hist.holds = [] ∧ (s0.buf i).refcnt = 2 ^ 32 - 1 ∧
    (1, i) ∈ c.shared.hist.holds ∧ (c.shared.buf i).refcnt = 0 := by
  have h := oneLoggedRun_eq
  unfold oneLoggedRun at h
  split at h
  · rename_i s0 hs
    simp only [Option.bind_eq_bind, Option.pure_def, Option.map_bind, Option.bind_eq_some_iff, Option.map_some,
      comp_apply, Option.some.injEq, decide_eq_true_eq] at h
    obtain ⟨c, hc, h1, h2, h3, h4, h5⟩ := h
    refine ⟨s0, c, 2, ?_, .of_exec hs, .of_execAll (fun _ _ => trivial) hc, h1, h2, h3, h4, h5⟩
    rw [oneLogged, update_self]
    exact headBlocks_putHead _ (by decide) (by simp)
  · cases h

end Xv6.Log
