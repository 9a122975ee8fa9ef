import Mathlib.Algebra.BigOperators.Fin
import Mathlib.Algebra.Order.BigOperators.Group.Finset
import Mathlib.Data.Fintype.BigOperators
import Xv6.Log.Admit
import Xv6.Log.Frame

/-!
# Log reservation

Whether `begin_op`'s admission test leaves room in the log for every block
that the admitted operations log, on a file system with `nlog = LOGSIZE` as
`mkfs` writes it. It does if every operation logs at most
`MAXOPBLOCKS - 1` distinct blocks, and not if an operation may log
`MAXOPBLOCKS` (`too_big_unreachable_iff`): the header takes one of the
`LOGSIZE` blocks, so three operations of `MAXOPBLOCKS` blocks do not fit.

The proof accounts for the room that each operation has left (`room`): the
blocks in the log and the room of all operations are at most `LOGSIZE`, and
one less once a single operation is outstanding.
-/

namespace Xv6.Log

open Function List

/-- The distinct blocks that operation `o` has logged. -/
def used (ws : List Write) (o : Nat) : Finset Nat := ((ws.filter (·.op = o)).map (·.blockno)).toFinset

/-- Every operation has logged at most `k` distinct blocks. -/
def AtMost (k : Nat) (s : State) : Prop := ∀ o, (used s.hist.cur o).card ≤ k

/-- The log is as `initlog` leaves it, for a superblock with `nlog` log
blocks. -/
structure Fresh (nlog : Nat) (s : State) : Prop where
  size : s.log.size = nlog
  outstanding : s.log.outstanding = 0
  committing : s.log.committing = false
  lh : s.log.lh = []
  cur : s.hist.cur = []

theorem used_nil (o : Nat) : used [] o = ∅ := rfl

theorem used_append (ws : List Write) (w : Write) (o : Nat) :
    used (ws ++ [w]) o = if w.op = o then insert w.blockno (used ws o) else used ws o := by
  simp only [used, filter_append, map_append, toFinset_append]
  split
  · rename_i h; subst h; simp
  · rename_i h; simp [h]

theorem mem_used {ws : List Write} {o b : Nat} : b ∈ used ws o ↔ ∃ w ∈ ws, w.op = o ∧ w.blockno = b := by
  simp only [used, mem_toFinset, mem_map, mem_filter, decide_eq_true_eq, and_assoc]

namespace Reserve

/-- How many distinct blocks an operation may still log. -/
def room (ws : List Write) : Phase → Nat
  | .op o => maxopblocks - (used ws o).card
  | _ => 0

theorem sum_room_update (ws : List Write) (ph : Pid → Phase) (t : Pid) (p : Phase) :
    ∑ u, room ws (update ph t p u) + room ws (ph t) = ∑ u, room ws (ph u) + room ws p := by
  rw [← Finset.add_sum_erase _ _ (Finset.mem_univ t),
    ← Finset.add_sum_erase Finset.univ (fun u => room ws (ph u)) (Finset.mem_univ t),
    update_self, Finset.sum_congr rfl fun u hu => by
      rw [update_of_ne (Finset.ne_of_mem_erase hu)]]
  omega

theorem sum_le_ops (ws : List Write) (ph : Pid → Phase) :
    ∑ t, room ws (ph t) ≤ maxopblocks * (ops ph).card := by
  rw [ops, Finset.card_filter, Finset.mul_sum]
  refine Finset.sum_le_sum fun t _ => ?_
  cases ph t with
  | op o => simp only [Phase.inop, room, if_true]; omega
  | out => simp [room]
  | com c => simp [room]

theorem sum_eq_zero {ws : List Write} {ph : Pid → Phase} (h : ops ph = ∅) : ∑ t, room ws (ph t) = 0 := by
  have := sum_le_ops ws ph
  rw [h, Finset.card_empty] at this
  omega

/-- The accounts: admission, and room for the blocks still to come. -/
structure Acct (lg : LogState) (cur : List Write) (nops : Nat) (ph : Pid → Phase) : Prop extends
    Adm lg cur nops ph where
  size : lg.size = logsize
  atMost : ∀ o, (used cur o).card < maxopblocks
  sum_le : lg.lh.length + ∑ t, room cur (ph t) ≤ logsize
  sum_lt : lg.outstanding = 1 → lg.lh.length + ∑ t, room cur (ph t) < logsize

namespace Acct

variable {lg : LogState} {cur : List Write} {nops : Nat} {ph : Pid → Phase} {t : Pid} {o : Nat}

variable (h : Acct lg cur nops ph)

include h

/-- Each process in an operation has room for at least one block. -/
theorem ops_le_sum : (ops ph).card ≤ ∑ t, room cur (ph t) := by
  rw [Finset.card_eq_sum_ones, ops, Finset.sum_filter]
  refine Finset.sum_le_sum fun t _ => ?_
  cases hp : ph t with
  | op o =>
    have := h.atMost o
    simp only [Phase.inop, room, if_true]; omega
  | out => simp [Phase.inop]
  | com c => simp [Phase.inop]

/-- While an operation is outstanding, the log has room for one more block
besides the header. -/
theorem lh_lt (ht : ph t = .op o) : lg.lh.length < logsize - 1 := by
  have hpos : 0 < (ops ph).card := Finset.card_pos.mpr ⟨t, mem_ops_of_op ht⟩
  have h₁ := h.ops_le_sum
  have h2 := h.sum_le
  have h3 := h.outstanding
  by_cases h1 : (ops ph).card = 1
  · have := h.sum_lt (by rw [h3, h1]; rfl)
    simp only [logsize, maxopblocks] at this ⊢; omega
  · simp only [logsize, maxopblocks] at h2 ⊢; omega

theorem beginOp (ht : ph t = .out) (hc : lg.committing = false)
    (hn : lg.lh.length + (lg.outstanding + 1) * maxopblocks ≤ logsize) :
    Acct { lg with outstanding := lg.outstanding + 1 } cur (nops + 1) (update ph t (.op nops)) := by
  have hroom : room cur (.op nops) = maxopblocks := by
    have : used cur nops = ∅ := by
      ext b
      simp only [mem_used, Finset.notMem_empty, iff_false, not_exists, not_and]
      intro w hw ho
      exact absurd (h.cur_lt w hw) (by omega)
    simp [room, this]
  have hsum := sum_room_update cur ph t (.op nops)
  rw [ht, hroom, show room cur .out = 0 from rfl] at hsum
  have hle := sum_le_ops cur ph
  have hout := h.outstanding
  refine ⟨h.toAdm.beginOp ht hc, h.size, h.atMost, ?_, fun h1 => ?_⟩
  · simp only [logsize, maxopblocks] at *
    omega
  · have h0 : (ops ph).card = 0 := by simp only at h1; omega
    have hlh := h.quiet hc (Finset.card_eq_zero.mp h0)
    simp only [hlh, logsize, maxopblocks, length_nil] at *
    omega

theorem endOp (ht : ph t = .op o) (hn : lg.outstanding - 1 ≠ 0) :
    Acct { lg with outstanding := lg.outstanding - 1 } cur nops (update ph t .out) := by
  have hsum := sum_room_update cur ph t .out
  have hroom : 0 < room cur (ph t) := by
    have := h.atMost o
    rw [ht]; simp only [room]; omega
  rw [show room cur .out = 0 from rfl] at hsum
  have hle := h.sum_le
  refine ⟨h.toAdm.endOp ht hn, h.size, h.atMost, ?_, fun _ => ?_⟩
  · show lg.lh.length + _ ≤ _
    omega
  · show lg.lh.length + _ < _
    omega

theorem endOp_commit (ht : ph t = .op o) (hn : lg.outstanding - 1 = 0) :
    Acct { lg with outstanding := 0, committing := true } [] nops (update ph t (.com (.log lg.lh 0))) := by
  have hadm := h.toAdm.endOp_commit ht hn
  refine ⟨hadm, h.size, fun _ => by simp [used_nil], ?_, by simp⟩
  rw [sum_eq_zero (hadm.com rfl).2.1]
  exact le_trans (le_self_add) h.sum_le

theorem clearHead {x : Stage} (ht : ph t = .com x) :
    Acct { lg with lh := [] } cur nops (update ph t (.com .done)) := by
  have hadm := h.toAdm.stage ht .done
  have hops := (hadm.com (h.committing ht).1).2.1
  have hout := hadm.outstanding
  rw [hops] at hout
  refine ⟨hadm, h.size, h.atMost, ?_, fun h1 => absurd (hout.symm.trans h1) (by decide)⟩
  rw [sum_eq_zero hops]
  exact Nat.zero_le _

theorem endCommit (ht : ph t = .com .done) :
    Acct { lg with committing := false } cur nops (update ph t .out) := by
  have hsum := sum_room_update cur ph t .out
  rw [ht, show room cur .out = 0 from rfl, show room cur (.com .done) = 0 from rfl] at hsum
  refine ⟨h.toAdm.endCommit ht rfl, h.size, h.atMost, ?_, fun h1 => ?_⟩
  · rw [Nat.add_right_cancel hsum]; exact h.sum_le
  · rw [Nat.add_right_cancel hsum]; exact h.sum_lt h1

theorem setAdding (a : Option (Pid × Nat)) : Acct { lg with adding := a } cur nops ph :=
  ⟨h.toAdm.setAdding a, h.size, h.atMost, h.sum_le, h.sum_lt⟩

/-- A logged block uses up room only if `lh` did not have it. -/
theorem logWrite (ht : ph t = .op o) {w : Write} (hw : w.op = o)
    (hm : ∀ o, (used (cur ++ [w]) o).card < maxopblocks) :
    Acct { lg with lh := record lg.lh w.blockno, adding := none } (cur ++ [w]) nops ph := by
  have hlh : ∀ b, b ∈ record lg.lh w.blockno ↔ b ∈ lg.lh ∨ b = w.blockno := by
    intro b
    unfold record
    split
    · rename_i hin
      exact ⟨.inl, fun hb => hb.elim id fun e => e ▸ hin⟩
    · simp
  -- Only the room of `t` changes: the other processes are in other operations.
  have hother : ∀ u ∈ Finset.univ.erase t, room (cur ++ [w]) (ph u) = room cur (ph u) := by
    intro u hu
    cases hp : ph u with
    | op o' =>
      have := h.apart u t (Finset.ne_of_mem_erase hu)
      rw [hp, ht] at this
      simp [room, used_append, hw, Ne.symm this]
    | _ => rfl
  have hsum := Finset.add_sum_erase Finset.univ (fun u => room (cur ++ [w]) (ph u)) (Finset.mem_univ t)
  have hsum' := Finset.add_sum_erase Finset.univ (fun u => room cur (ph u)) (Finset.mem_univ t)
  rw [Finset.sum_congr rfl hother] at hsum
  simp only [ht] at hsum hsum'
  have hroom : (record lg.lh w.blockno).length + room (cur ++ [w]) (.op o) ≤
      lg.lh.length + room cur (.op o) := by
    have hlt := hm o
    simp only [record, room, used_append, hw, if_true] at hlt ⊢
    have hins := Finset.card_le_card (Finset.subset_insert w.blockno (used cur o))
    split
    · omega
    · rename_i hin
      have : w.blockno ∉ used cur o := by
        rw [mem_used]
        rintro ⟨v, hv, -, hb⟩
        exact hin (hb ▸ h.logged v hv)
      rw [Finset.card_insert_of_notMem this] at hlt ⊢
      simp only [length_append, length_singleton]
      omega
  have hle := h.sum_le
  refine ⟨h.toAdm.logWrite ht hw hlh, h.size, hm, ?_, fun h1 => ?_⟩
  · dsimp only
    omega
  · have := h.sum_lt h1
    dsimp only
    omega

end Acct

/-! ## The programs -/

def Inv (s : State) (ph : Pid → Phase) : Prop := Acct s.log s.hist.cur s.hist.nops ph

theorem inv_logOnly : LogOnly Inv := fun s s' ph hl hc hn hi => by
  rw [Inv, hl, hc, hn]; exact hi

variable {t : Pid}

/-- `p`, run by `t` in phase `g`, keeps the accounts and ends with `Q`. -/
abbrev Spec {α : Type} (t : Pid) (p : KProg α) (g : Phase) (Q : α → Phase → Prop) : Prop :=
  Safe (AtMost (maxopblocks - 1)) Inv (· ≠ tooBig) t p g Q

theorem beginOp_spec : Spec t beginOp .out fun o g => g = .op o := by
  refine safe_locked fun s ph hi hg _ => ?_
  split
  · trivial
  · split
    · trivial
    · rename_i hc hn
      exact fun _ => ⟨_, hi.beginOp hg (by simpa using hc) (by omega), rfl⟩

theorem commit_spec (hs : List Nat) : Spec t commit (.com (.log hs 0)) fun _ g => g = .com .done := by
  refine .bind (R := fun l g => g = .com (if 0 < l.lh.length then .log hs 0 else .done)) ?_ ?_
  · refine .step fun s ph hi hg _ => ⟨_, ?_, rfl⟩
    split
    · rw [← hg, update_eq_self]; exact hi
    · rename_i hl
      have := hi.clearHead hg
      rwa [← eq_nil_of_length_eq_zero (Nat.eq_zero_of_not_pos hl)] at this
  · rintro l g rfl
    split
    · refine .next (keep inv_logOnly writeLog_does _) fun _ => ?_
      refine .next (keep inv_logOnly writeHead_does _) fun _ => ?_
      refine .next (keep inv_logOnly installTrans_does _) fun _ => ?_
      refine .bind (R := fun _ g => g = .com .done)
        (.step fun s ph hi hg _ => ⟨_, hi.clearHead hg, rfl⟩) ?_
      rintro _ _ rfl
      exact keep inv_logOnly writeHead_does _
    · exact .ret rfl

theorem endOp_spec (o : Nat) : Spec t endOp (.op o) fun _ g => g = .out := by
  refine .bind (R := fun b g => if b then ∃ hs, g = .com (.log hs 0) else g = .out)
    (safe_locked fun s ph hi hg _ => ?_) ?_
  · split
    · show _ ≠ _
      decide
    · split
      · rename_i hn
        exact fun _ => ⟨_, hi.endOp_commit hg hn, _, rfl⟩
      · rename_i hn
        exact fun _ => ⟨_, hi.endOp hg hn, rfl⟩
  · intro b g hb
    cases b with
    | false => exact .ret hb
    | true =>
      obtain ⟨hs, rfl⟩ := hb
      refine .next (commit_spec hs) fun _ => ?_
      refine .bind (keep inv_logOnly (.step fun _ _ => ?_) _) ?_
      · exact ⟨rfl, rfl, rfl⟩
      rintro _ _ rfl
      exact safe_locked fun s ph hi hg _ _ => ⟨_, hi.endCommit hg, rfl⟩

theorem logWrite_spec (o : Nat) (i : BufId) : Spec t (logWrite o i) (.op o) fun _ g => g = .op o := by
  refine .bind (R := fun _ g => g = .op o) (.step fun s ph hi hg => ?_) ?_
  · have hlt := hi.lh_lt hg
    have hsize := hi.size
    split
    · rename_i h
      omega
    · split
      · show _ ≠ _
        decide
      · exact fun _ => ⟨_, by rw [← hg, update_eq_self]; exact hi, rfl⟩
  rintro _ _ rfl
  have hlt : ∀ {s : State}, AtMost (maxopblocks - 1) s → ∀ o', (used s.hist.cur o').card < maxopblocks :=
    fun ha o' => lt_of_le_of_lt (ha o') (by decide)
  refine .bind (R := fun _ g => g = .op o) (safe_locked fun s ph hi hg hadd => ?_) fun added g hg => ?_
  · dsimp only
    split
    · rename_i hin
      refine fun ha => ⟨_, ?_, rfl⟩
      rw [← hg, update_eq_self]
      have := hi.logWrite hg (w := ⟨o, (s.buf i).blockno, (s.buf i).data⟩) rfl (hlt ha)
      rw [record, if_pos hin, ← hadd] at this
      exact this
    · exact fun _ => ⟨_, by rw [← hg, update_eq_self]; exact hi.setAdding _, rfl⟩
  · cases added with
    | false => exact .ret hg
    | true =>
      subst hg
      refine .step fun s ph hi hg ha => ⟨_, ?_, rfl⟩
      rw [← hg, update_eq_self]
      exact hi.logWrite hg (w := ⟨o, (s.buf i).blockno, (s.buf i).data⟩) rfl (hlt ha)

/-- What a process knows between its calls: whether it is in an operation. -/
def Idle (l : Local) (g : Phase) : Prop := g = if l.inop then .op l.op else .out

theorem call_spec (L : Layout) {l : Local} {g : Phase} {x : Call} (hl : Idle l g)
    (hx : (client L).allowed t l x = true) : Spec t ((client L).body x l) g Idle := by
  cases x with
  | beginOp =>
    have hin : l.inop = false := by simpa [client] using hx
    rw [show g = .out by rw [hl, hin]; rfl]
    exact .bind beginOp_spec fun o g' e => Safe.ret e
  | endOp =>
    have hin : l.inop = true := hx
    rw [show g = .op l.op by rw [hl, hin]; rfl]
    exact .bind (endOp_spec l.op) fun _ g' e => Safe.ret e
  | bread b => exact .bind (keep inv_logOnly (bread_does _ _) g) fun i g' e => Safe.ret (e.trans hl)
  | brelse i b => exact .bind (keep inv_logOnly (brelse_does _) g) fun _ g' e => Safe.ret (e.trans hl)
  | write i b f =>
    have hin : l.inop = true := by
      simp only [client, Bool.and_eq_true] at hx
      exact hx.1.1
    have hg : g = .op l.op := by rw [hl, hin]; rfl
    refine .bind (keep inv_logOnly (.step fun _ _ => ?_) g) ?_
    · exact ⟨rfl, rfl, rfl⟩
    rintro _ _ rfl
    rw [hg]
    exact .bind (logWrite_spec l.op i) fun _ g' e => Safe.ret (e.trans (hg.symm.trans hl))

theorem not_tooBig (L : Layout) {s0 : State} {c : Config State Pid Local} (h₀ : Fresh logsize s0)
    (hr : Config.Run (client L) (AtMost (maxopblocks - 1)) (.idle s0 {}) c) : c.panicked ≠ some tooBig := by
  have hi : Inv s0 fun _ => .out := by
    have hops : ops (fun _ => Phase.out) = ∅ := by ext; simp [mem_ops, Phase.inop]
    obtain ⟨hs, ho, hc, hl, hcur⟩ := h₀
    have hadm : Adm s0.log s0.hist.cur s0.hist.nops fun _ => .out :=
      ⟨by rw [ho, hops]; rfl, fun _ => trivial, fun _ _ _ => trivial, fun h => absurd (hc.symm.trans h) (by decide),
        fun _ _ => hl, by simp [hcur], by simp [hcur]⟩
    refine ⟨hadm, hs, fun o => by simp [hcur, used_nil], ?_, fun h1 => ?_⟩
    · rw [hl, sum_eq_zero hops]; decide
    · exact absurd (ho.symm.trans h1) (by decide)
  have := hr.inv Idle hi (fun t => show Idle _ _ from rfl) rfl
    fun t l g x hl hx => call_spec L hl hx
  exact fun h => this.2 _ h rfl

/-- The log while `initlog` runs; the ghost value of `t` says whether
`log.size` is set and whether `lh.n` is 0. -/
def BootInv (L : Layout) (t : Pid) (s : State) (γ : Pid → Bool × Bool) : Prop :=
  s.log.outstanding = 0 ∧ s.log.committing = false ∧ s.hist.cur = [] ∧
    ((γ t).1 = true → s.log.size = L.size) ∧ ((γ t).2 = true → s.log.lh = [])

theorem bootInv_logOnly (L : Layout) : LogOnly (BootInv L t) := fun s s' γ hl hc _ hi => by
  rw [BootInv, hl, hc]; exact hi

theorem initlog_spec (L : Layout) : Safe (fun _ => True) (BootInv L t) (· ≠ tooBig) t (initlog L.start L.size)
    (false, false) fun _ g => g = (true, true) := by
  have hL := bootInv_logOnly (t := t) L
  refine .bind (R := fun _ g => g = (true, false)) (.step fun s γ hi hg _ => ?_) ?_
  · exact ⟨_, ⟨hi.1, hi.2.1, hi.2.2.1, by simp, by simp⟩, rfl⟩
  rintro _ _ rfl
  refine .bind (R := fun _ g => g = (true, false)) (.bind (keep hL getLog_does _) ?_) ?_
  · rintro l _ rfl
    refine .next (keep hL (bread_does _ _) _) fun i => ?_
    refine .bind (R := fun _ g => g = (true, false)) (.step fun s γ hi hg _ => ?_) ?_
    · exact ⟨_, ⟨hi.1, hi.2.1, hi.2.2.1, fun _ => hi.2.2.2.1 (by rw [hg]), by simp⟩, rfl⟩
    rintro _ _ rfl
    exact keep hL (brelse_does i) _
  rintro _ _ rfl
  refine .next (keep hL installTrans_does _) fun _ => ?_
  refine .bind (R := fun _ g => g = (true, true)) (.step fun s γ hi hg _ => ?_) ?_
  · exact ⟨_, ⟨hi.1, hi.2.1, hi.2.2.1, fun _ => hi.2.2.2.1 (by rw [hg]), by simp⟩, rfl⟩
  rintro _ _ rfl
  exact keep hL writeHead_does _

end Reserve

/-- `initlog` leaves the log empty, whatever header it found. -/
theorem Boot.fresh {L : Layout} {t : Pid} {d : Nat → Bytes} {s : State} (h : Boot L t d s) : Fresh L.size s := by
  obtain ⟨g, hi, hg⟩ := (Reserve.initlog_spec L).reach (γ := fun _ => (false, false))
    ⟨rfl, rfl, rfl, by simp, by simp⟩ h
  obtain rfl := hg () rfl
  obtain ⟨ho, hc, hcur, hs, hl⟩ := hi
  exact ⟨hs (by simp), ho, hc, hl (by simp), hcur⟩

/-! ## Operations of `MAXOPBLOCKS` blocks -/

section Overflow

open Event (steps)

/-- `t` reads block `b`, into buffer `i`, and logs it. -/
def logBlock (t : Pid) (b : Nat) (i : BufId) : List (Event Pid Call) :=
  .call t (.bread b) :: steps t 4 ++ .call t (.write i b id) :: steps t 5 ++ .call t (.brelse i b) :: steps t 3

/-- Three processes begin an operation each. The first two log ten blocks,
the third logs nine and calls `log_write` for a tenth. -/
def overflow : List (Event Pid Call) :=
  ([0, 1, 2].flatMap fun t => .call t .beginOp :: steps t 2) ++
  ((range 29).flatMap fun j => logBlock (Fin.ofNat nproc (j / 10)) (100 + j) (Fin.ofNat nbuf (j + 1))) ++
  (.call 2 (.bread 129) :: steps 2 4 ++ .call 2 (.write 0 129 id) :: steps 2 2)

/-- No operation has made more than `k` calls of `log_write`. -/
def atMostCheck (k : Nat) (s : State) : Bool := s.hist.cur.all fun w => s.hist.cur.countP (·.op = w.op) ≤ k

theorem atMost_of_check {k : Nat} {s : State} (h : atMostCheck k s = true) : AtMost k s := by
  intro o
  by_cases he : used s.hist.cur o = ∅
  · simp [he]
  · obtain ⟨b, hb⟩ := Finset.nonempty_iff_ne_empty.mpr he
    obtain ⟨w, hw, rfl, -⟩ := mem_used.mp hb
    have hle : (used s.hist.cur w.op).card ≤ s.hist.cur.countP (·.op = w.op) := by
      rw [countP_eq_length_filter, ← length_map (·.blockno)]
      exact toFinset_card_le _
    exact le_trans hle (by simpa using all_eq_true.mp h w hw)

/-- The run of `overflow` on a blank disk. -/
def overflowRun : Option (Config State Pid Local) :=
  match Prog.exec 0 19 (initlog mkfsLayout.start mkfsLayout.size) (binit fun _ _ => 0) with
  | some (.ret (), s) => (Config.idle s {}).execAll (client mkfsLayout) (atMostCheck maxopblocks) overflow
  | _ => none

set_option maxRecDepth 100000 in
theorem overflowRun_panicked : overflowRun.map (·.panicked) = some (some tooBig) := by decide +kernel

/-- Three operations of at most `MAXOPBLOCKS` blocks, which `begin_op` admits
together on a disk with `nlog = LOGSIZE`, overflow the log. -/
theorem overflow_panics : ∃ (d : Nat → Bytes) (s0 : State) (c : Config State Pid Local),
    Boot mkfsLayout 0 d s0 ∧ Config.Run (client mkfsLayout) (AtMost maxopblocks) (.idle s0 {}) c ∧
      c.panicked = some tooBig := by
  have h := overflowRun_panicked
  unfold overflowRun at h
  split at h
  · rename_i s hs
    obtain ⟨c, hc, hp⟩ := Option.map_eq_some_iff.mp h
    exact ⟨_, s, c, .of_exec hs, .of_execAll (fun _ => atMost_of_check) hc, hp⟩
  · cases h

end Overflow

/-- The panic is reachable with operations of at most `MAXOPBLOCKS` distinct
blocks. -/
theorem too_big_reachable_at_maxopblocks :
    ¬ ∀ (L : Layout) (t : Pid) (d : Nat → Bytes) (s0 : State) (c : Config State Pid Local), L.size = logsize →
      Boot L t d s0 → Config.Run (client L) (AtMost maxopblocks) (.idle s0 {}) c → c.panicked ≠ some tooBig := by
  intro h
  obtain ⟨d, s0, c, hb, hr, hp⟩ := overflow_panics
  exact h mkfsLayout 0 d s0 c rfl hb hr hp

/-- Operations that log at most `k` distinct blocks each never meet the panic
in `log_write`, in any interleaving on a disk with `nlog = LOGSIZE`, exactly
if `k < MAXOPBLOCKS`. -/
theorem too_big_unreachable_iff (k : Nat) :
    (∀ (L : Layout) (t : Pid) (d : Nat → Bytes) (s0 : State) (c : Config State Pid Local), L.size = logsize →
      Boot L t d s0 → Config.Run (client L) (AtMost k) (.idle s0 {}) c → c.panicked ≠ some tooBig) ↔
    k < maxopblocks := by
  constructor
  · intro h
    by_contra hk
    obtain ⟨d, s0, c, hb, hr, hp⟩ := overflow_panics
    exact h mkfsLayout 0 d s0 c rfl hb (hr.mono fun s hs o => le_trans (hs o) (by omega)) hp
  · intro hk L t d s0 c hL hb hr
    exact Reserve.not_tooBig L (hL ▸ hb.fresh) (hr.mono fun s hs o => le_trans (hs o) (by omega))

end Xv6.Log
