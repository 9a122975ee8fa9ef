import Xv6.Framework.Monitor
import Xv6.Log.Admit
import Xv6.Log.Reserve

/-!
# Nobody waits for the log for nothing

`begin_op`, `end_op` and `log_write` once more, this time with `log.lock` and
with the processes that sleep on `&log`. What they do to the log and to the
buffer cache is as in `Xv6.Log.Model`.

A process that sleeps on `&log` has a reason to (`Justified`), unless the
process that holds `log.lock` has just taken it away and is about to call
`wakeup(&log)`.
-/

namespace Xv6.Log.Sleep

variable {g : Phase} {x : Knows}

/-- What a process sleeps on: `&log`. -/
inductive Chan where
  | log
  deriving DecidableEq

/-- The log and the buffer cache, with `log.lock`. -/
abbrev LState := Mon State Chan Pid

abbrev LProg := Prog LState Pid

open Mon (acquire release wakeup sleep on)

/-- One turn of the loop of `begin_op`: admit the operation, if there is room
for it. -/
def admitOp : KProg (Option Nat) :=
  .step fun _ s =>
    if s.log.committing then .ok none s
    else if s.log.lh.length + (s.log.outstanding + 1) * maxopblocks > logsize then .ok none s
    else .ok (some s.hist.nops) ((s.modLog fun l => { l with outstanding := l.outstanding + 1 }).modHist
      fun h => { h with nops := h.nops + 1 })

def beginOp : LProg Nat := do
  acquire
  .loop (fun (_ : Unit) => do
    match ← on admitOp with
    | none =>
      sleep .log
      return .inl ()
    | some op =>
      release
      return .inr op) ()

/-- `log.outstanding -= 1`, and whether to commit. -/
def finish : KProg Bool :=
  .step fun _ s =>
    if s.log.committing then .panic "log.committing"
    else if s.log.outstanding - 1 = 0 then
      .ok true ((s.modLog ({ · with outstanding := 0, committing := true })).modHist
        fun h => { h with groups := h.groups ++ [h.cur], cur := [] })
    else .ok false (s.modLog fun l => { l with outstanding := l.outstanding - 1 })

def committed : KProg Unit := .step fun _ s => .ok () (s.modLog ({ · with committing := false }))

def endOp : LProg Unit := do
  acquire
  let doCommit ← on finish
  if doCommit then
    release
    on commit
    acquire
    on committed
    wakeup .log
    release
  else
    wakeup .log
    release

/-- The checks of `log_write`, without the lock. -/
def checkWrite : KProg Unit :=
  .step fun _ s =>
    if s.log.lh.length ≥ logsize ∨ s.log.lh.length ≥ s.log.size - 1 then .panic "too big a transaction"
    else if s.log.outstanding < 1 then .panic "log_write outside of trans"
    else .ok () s

/-- Record a block in the log header, and pin it if it is new there. -/
def record (op : Nat) (b : BufId) : KProg Unit :=
  .step fun _ s =>
    let x := s.buf b
    .ok () <| ((if x.blockno ∈ s.log.lh then s else
      (s.modBuf b fun x => { x with refcnt := x.refcnt + 1 }).modLog
        fun l => { l with lh := l.lh ++ [x.blockno] }).modHist
      fun h => { h with cur := h.cur ++ [⟨op, x.blockno, x.data⟩] })

def logWrite (op : Nat) (b : BufId) : LProg Unit := do
  on checkWrite
  acquire
  on (record op b)
  release

/-! ## Processes -/

/-- The calls of a process: those of the log, and `kill`, which wakes up a
process. -/
inductive SysCall where
  | log (c : Call)
  | kill (u : Pid)

/-- Processes as in `Xv6.Log.client`. -/
def users (L : Layout) : Client LState Pid Local SysCall where
  allowed t l
    | .log c => (client L).allowed t l c
    | .kill _ => true
  body
    | .log .beginOp, l => do
      let op ← beginOp
      return { l with inop := true, op }
    | .log .endOp, l => do
      endOp
      return { l with inop := false }
    | .log (.bread b), l => do
      let i ← on (bread rootdev b)
      return { l with held := (i, b) :: l.held }
    | .log (.brelse i b), l => do
      on (brelse i)
      return { l with held := l.held.erase (i, b) }
    | .log (.write i _ f), l => do
      on (.step fun _ s => .ok () (s.modBuf i fun x => { x with data := f x.data }))
      logWrite l.op i
      return l
    | .kill u, l => do
      Mon.rouse u
      return l

/-! ## The invariant -/

/-- There is a reason to wait: a commit is running, or there are operations
outstanding and no room for one more. -/
def Justified (l : LogState) : Prop :=
  l.committing = true ∨ 1 ≤ l.outstanding ∧ l.lh.length + (l.outstanding + 1) * maxopblocks > logsize

/-- What the process that holds `log.lock` knows: that it has to wait, or that
it owes the sleepers a wakeup. -/
inductive Knows where
  | nothing
  | mustWait
  | owes

structure J (s : State) (ch : Pid → Option Chan) (k : Option Knows) (ph : Pid → Phase) : Prop where
  adm : Adm s.log s.hist.cur s.hist.nops ph
  waits : k = some .mustWait → Justified s.log
  sleepers : ∀ u, ch u = some .log → Justified s.log ∨ k = some .owes

variable {t : Pid} {s s' : State} {ch : Pid → Option Chan} {k k' : Option Knows} {ph : Pid → Phase} {o : Nat} {α : Type}

/-- The only panic that is ruled out. -/
abbrev NotCommitting (m : String) : Prop := m ≠ "log.committing"

abbrev Spec (t : Pid) (p : LProg α) (x : Mon.Ghost Knows Phase) (Q : α → Mon.Ghost Knows Phase → Prop) : Prop :=
  Mon.Spec J (fun _ => True) NotCommitting t p x Q

theorem J.sameLog (h : J s ch k ph) (hs : SameLog s s') : J s' ch k ph := by
  obtain ⟨hl, hc, hn⟩ := hs
  refine ⟨?_, ?_, ?_⟩
  · rw [hl, hc, hn]; exact h.adm
  · rw [hl]; exact h.waits
  · rw [hl]; exact h.sleepers

theorem J.move (h : J s ch k ph) {ph' : Pid → Phase} (ha : Adm s'.log s'.hist.cur s'.hist.nops ph')
    (hj : Justified s.log → Justified s'.log) : J s' ch k ph' :=
  ⟨ha, fun e => hj (h.waits e), fun u e => (h.sleepers u e).imp_left hj⟩

theorem acquire_spec : Spec t acquire ⟨none, g⟩ fun _ x => x = ⟨some .nothing, g⟩ :=
  Mon.acquire_spec Knows.nothing fun _ _ _ h => ⟨h.adm, nofun, fun u e => .inl ((h.sleepers u e).resolve_right nofun)⟩

theorem release_spec (hx : x ≠ .owes) : Spec t release ⟨some x, g⟩ fun _ x => x = ⟨none, g⟩ :=
  Mon.release_spec fun _ _ _ _ h =>
    ⟨h.adm, nofun, fun u e => .inl ((h.sleepers u e).resolve_right fun e => hx (Option.some.inj e))⟩

theorem wakeup_spec : Spec t (wakeup .log) ⟨some x, g⟩ fun _ x => x = ⟨some .nothing, g⟩ := by
  refine Mon.wakeup_spec Knows.nothing fun _ ch _ _ h => ⟨h.adm, nofun, fun u e => ?_⟩
  simp only [Mon.woken] at e
  split at e
  · cases e
  · exact absurd e ‹_›

/-- What the programs that leave the log alone need. -/
theorem on_spec {p : KProg α} {x : Mon.Ghost Knows Phase} (h : p.Does SameLog BioPanic) :
    Spec t (on p) x fun _ x' => x' = x := by
  refine Mon.on_spec h (fun _ _ _ _ _ hs hi => hi.sameLog hs) ?_
  rintro m h rfl
  simp [BioPanic] at h

/-! ## What each function does -/

/-- Without outstanding operations the log is empty, so that there is room. -/
theorem Adm.justified (h : Adm s.log s.hist.cur s.hist.nops ph) (hc : s.log.committing = false)
    (hn : s.log.lh.length + (s.log.outstanding + 1) * maxopblocks > logsize) : Justified s.log := by
  refine .inr ⟨?_, hn⟩
  by_contra hlt
  have hout := h.outstanding
  have h0 : (ops ph).card = 0 := by omega
  rw [h.quiet hc (Finset.card_eq_zero.1 h0), hout, h0] at hn
  exact nomatch hn

theorem admitOp_spec : Spec t (on admitOp) ⟨some .nothing, .out⟩ fun r x => x = match r with
    | none => ⟨some .mustWait, .out⟩
    | some op => ⟨some .nothing, .op op⟩ := by
  refine Mon.holder_spec fun s ch ph ht h => ?_
  have hwait : Justified s.log → ∃ h' g', J s ch (some h') (Function.update ph t g') ∧
      (⟨some h', g'⟩ : Mon.Ghost Knows Phase) = ⟨some .mustWait, .out⟩ := fun hj => by
    refine ⟨.mustWait, .out, ?_, rfl⟩
    rw [← ht, Function.update_eq_self]
    exact ⟨h.adm, fun _ => hj, fun _ _ => .inl hj⟩
  split
  · rename_i hc
    exact hwait (.inl hc)
  · rename_i hc
    have hc : s.log.committing = false := by simpa using hc
    split
    · rename_i hn
      exact hwait (Adm.justified h.adm hc hn)
    · refine ⟨.nothing, .op s.hist.nops, ?_, rfl⟩
      refine h.move (h.adm.beginOp ht hc) fun hj => ?_
      obtain ⟨h1, h2⟩ := hj.resolve_left (by simp [hc])
      refine .inr ⟨?_, ?_⟩
      · show 1 ≤ s.log.outstanding + 1
        omega
      · show s.log.lh.length + (s.log.outstanding + 1 + 1) * maxopblocks > logsize
        simp only [maxopblocks] at h2 ⊢
        omega

theorem beginOp_spec : Spec t beginOp ⟨none, .out⟩ fun op x => x = ⟨none, .op op⟩ := by
  refine .next acquire_spec fun _ => ?_
  refine .loop (J := fun _ x => x = ⟨some .nothing, .out⟩) ?_ rfl
  rintro _ _ rfl
  refine .next admitOp_spec fun r => ?_
  cases r with
  | none =>
    refine .bind (Mon.sleep_spec .nothing (fun s ch ph _ h => ⟨h.adm, nofun, fun _ _ => .inl (h.waits rfl)⟩)
      fun _ _ _ h => ⟨h.adm, nofun, fun u e => .inl ((h.sleepers u e).resolve_right nofun)⟩) ?_
    rintro _ _ rfl
    exact .ret rfl
  | some op =>
    exact .next (release_spec nofun) fun _ => Safe.ret rfl

/-- The end of an operation: either its process commits, or it owes a wakeup
for the room that it has given back. -/
theorem finish_spec : Spec t (on finish) ⟨some .nothing, .op o⟩ fun doCommit x =>
    if doCommit then ∃ hs, x = ⟨some .nothing, .com (.log hs 0)⟩ else x = ⟨some .owes, .out⟩ := by
  refine Mon.holder_spec fun s ch ph ht h => ?_
  rw [if_neg (by simp [h.adm.not_committing ht])]
  split
  · rename_i hn
    exact ⟨.nothing, _, h.move (h.adm.endOp_commit ht hn) fun _ => .inl rfl, s.log.lh, rfl⟩
  · rename_i hn
    exact ⟨.owes, .out, ⟨h.adm.endOp ht hn, nofun, fun _ _ => .inr rfl⟩, rfl⟩

/-- A step of the process that commits: a commit is a reason to wait, whoever
holds the lock. -/
theorem J.stage (h : J s ch k ph) {x : Stage} (ht : ph t = .com x) (y : Stage) (hl : s'.log = { s.log with lh := y.lh })
    (hc : s'.hist.cur = s.hist.cur) (hn : s'.hist.nops = s.hist.nops) :
    J s' ch k (Function.update ph t (.com y)) := by
  refine h.move ?_ fun _ => .inl ?_
  · rw [hl, hc, hn]; exact h.adm.stage ht y
  · rw [hl]; exact (h.adm.committing ht).1

theorem commit_spec (hs : List Nat) : Spec t (on commit) ⟨none, .com (.log hs 0)⟩ fun _ x => x = ⟨none, .com .done⟩ := by
  rw [commit, Mon.on_bind]
  refine .bind (R := fun l x => x = ⟨none, .com (if 0 < l.lh.length then .log hs 0 else .done)⟩)
    (Mon.other_spec fun s ch k ph ht h => ?_) ?_
  · refine ⟨_, ?_, rfl⟩
    split
    · rw [← ht, Function.update_eq_self]; exact h
    · rename_i hl
      refine h.stage ht .done ?_ rfl rfl
      show s.log = { s.log with lh := [] }
      rw [← List.eq_nil_of_length_eq_zero (Nat.eq_zero_of_not_pos hl)]
  · rintro l _ rfl
    split
    · simp only [Mon.on_bind]
      refine .next (on_spec writeLog_does) fun _ => ?_
      refine .next (on_spec writeHead_does) fun _ => ?_
      refine .next (on_spec installTrans_does) fun _ => ?_
      refine .bind (R := fun _ x => x = ⟨none, .com .done⟩) (Mon.other_spec fun s ch k ph ht h => ?_) ?_
      · exact ⟨_, h.stage ht .done rfl rfl rfl, rfl⟩
      rintro _ _ rfl
      exact on_spec writeHead_does
    · exact .ret rfl

theorem endOp_spec : Spec t endOp ⟨none, .op o⟩ fun _ x => x = ⟨none, .out⟩ := by
  refine .next acquire_spec fun _ => ?_
  refine .bind finish_spec fun doCommit x hx => ?_
  cases doCommit with
  | true =>
    obtain ⟨hs, rfl⟩ := hx
    refine .next (release_spec nofun) fun _ => ?_
    refine .next (commit_spec hs) fun _ => ?_
    refine .next acquire_spec fun _ => ?_
    refine .bind (R := fun _ x => x = ⟨some .owes, .out⟩) (Mon.holder_spec fun s ch ph ht h => ?_) ?_
    · exact ⟨.owes, .out, ⟨h.adm.endCommit ht rfl, nofun, fun _ _ => .inr rfl⟩, rfl⟩
    rintro _ _ rfl
    refine .next wakeup_spec fun _ => ?_
    exact release_spec nofun
  | false =>
    obtain rfl : x = ⟨some .owes, .out⟩ := hx
    refine .next wakeup_spec fun _ => ?_
    exact release_spec nofun

theorem logWrite_spec (i : BufId) : Spec t (logWrite o i) ⟨none, .op o⟩ fun _ x => x = ⟨none, .op o⟩ := by
  refine .bind (R := fun _ x => x = ⟨none, .op o⟩) (Mon.other_spec fun s ch k ph ht h => ?_) ?_
  · split
    · show _ ≠ _
      decide
    · split
      · show _ ≠ _
        decide
      · exact ⟨_, by rw [← ht, Function.update_eq_self]; exact h, rfl⟩
  rintro _ _ rfl
  refine .next acquire_spec fun _ => ?_
  refine .bind (R := fun _ x => x = ⟨some .nothing, .op o⟩) (Mon.holder_spec fun s ch ph ht h => ?_) ?_
  · refine ⟨.nothing, .op o, ?_, rfl⟩
    rw [← ht, Function.update_eq_self]
    -- a reason to wait stays one when the log header gets longer
    have hj : ∀ lh : List Nat, s.log.lh.length ≤ lh.length → Justified s.log → Justified { s.log with lh } := by
      rintro lh hle (hc | ⟨h1, h2⟩)
      · exact .inl hc
      · exact .inr ⟨h1, by simp only at h2 ⊢; omega⟩
    have hadm : ∀ lh, _ → Adm { s.log with lh } _ _ ph := fun _ =>
      h.adm.logWrite ht (w := ⟨o, (s.buf i).blockno, (s.buf i).data⟩) rfl
    by_cases hin : (s.buf i).blockno ∈ s.log.lh
    · simp only [hin, if_true]
      exact h.move (hadm s.log.lh fun b => ⟨.inl, fun hb => hb.elim id fun e => e ▸ hin⟩) id
    · simp only [hin, if_false]
      exact h.move (hadm (s.log.lh ++ [(s.buf i).blockno]) fun b => by simp) (hj _ (by simp))
  rintro _ _ rfl
  exact release_spec nofun

/-! ## Whole runs -/

/-- What a process knows between its calls: whether it is in an operation. -/
def Idle (l : Local) (x : Mon.Ghost Knows Phase) : Prop := x = ⟨none, if l.inop then .op l.op else .out⟩

theorem call_spec (L : Layout) {l : Local} {x : Mon.Ghost Knows Phase} {c : SysCall} (hl : Idle l x)
    (hc : (users L).allowed t l c = true) : Spec t ((users L).body c l) x Idle := by
  rcases c with (_ | _ | b | ⟨i, b⟩ | ⟨i, b, f⟩) | u
  · have hin : l.inop = false := by simpa [users, client] using hc
    rw [show x = ⟨none, .out⟩ by rw [hl, hin]; rfl]
    exact .bind beginOp_spec fun op x' e => Safe.ret e
  · have hin : l.inop = true := hc
    rw [show x = ⟨none, .op l.op⟩ by rw [hl, hin]; rfl]
    exact .bind endOp_spec fun _ x' e => Safe.ret e
  · exact .bind (on_spec (bread_does _ _)) fun i x' e => Safe.ret (e.trans hl)
  · exact .bind (on_spec (brelse_does _)) fun _ x' e => Safe.ret (e.trans hl)
  · have hin : l.inop = true := by
      simp only [users, client, Bool.and_eq_true] at hc
      exact hc.1.1
    have hx : x = ⟨none, .op l.op⟩ := by rw [hl, hin]; rfl
    refine .bind (on_spec (.step fun _ _ => ?_)) ?_
    · exact ⟨rfl, rfl, rfl⟩
    rintro _ _ rfl
    rw [hx]
    exact .bind (logWrite_spec i) fun _ x' e => Safe.ret (e.trans (hx.symm.trans hl))
  · refine .bind (Mon.rouse_spec u fun s ch k ph h => ⟨h.adm, h.waits, fun v e => ?_⟩) fun _ x' e => Safe.ret (e.trans hl)
    rcases eq_or_ne v u with rfl | hv
    · simp at e
    · exact h.sleepers v (by simpa [Function.update_of_ne hv] using e)

end Xv6.Log.Sleep
