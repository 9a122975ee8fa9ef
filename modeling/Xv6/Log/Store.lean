import Xv6.Log.Admit
import Xv6.Log.Bio
import Xv6.Log.Head

/-!
# What is on disk

`Recov` says of a disk alone what recovery will make of it: the header names
blocks whose contents are in the log, and every other block is in place.
`Store` relates the disk and the cache to the groups of operations committed
so far, at every stage of a commit (`Stage.Ok`). It implies that recovery
would find the first `k` groups, for a `k` that counts at least the commits
that have returned (`Store.recov`).
-/

namespace Xv6.Log

open Function

/-- Recovery from the disk `d` will leave `v` in the blocks outside the log.
The header has fewer blocks than there are buffers. -/
structure Recov (L : Layout) (d v : Nat → Bytes) : Prop where
  nodup : (headBlocks (d L.start)).Nodup
  home : ∀ b ∈ headBlocks (d L.start), L.Home b
  lt : (headBlocks (d L.start)).length < nbuf
  fits : (headBlocks (d L.start)).length < L.size
  log : ∀ j b, (headBlocks (d L.start))[j]? = some b → d (L.start + j + 1) = v b
  rest : ∀ b, L.Home b → b ∉ headBlocks (d L.start) → d b = v b

theorem Recov.of_nil {L : Layout} {d v : Nat → Bytes} (h : headBlocks (d L.start) = [])
    (hv : ∀ b, L.Home b → d b = v b) : Recov L d v := by
  refine ⟨?_, ?_, ?_, ?_, ?_, fun b hb _ => hv b hb⟩ <;> simp [h, L.pos]

namespace Layout

variable {L : Layout}

theorem not_home_start : ¬ L.Home L.start := by
  have := L.pos
  unfold Home; omega

theorem Home.ne {b c : Nat} (hb : L.Home b) (hc : ¬ L.Home c) : b ≠ c := fun e => hc (e ▸ hb)

theorem not_home_log {j : Nat} (h : j + 1 < L.size) : ¬ L.Home (L.start + j + 1) := by
  unfold Home; omega

end Layout

/-- The blocks after the first `n` commits. -/
def committed (d0 : Nat → Bytes) (h : Hist) (n : Nat) : Nat → Bytes := applyWrites d0 (h.groups.take n).flatten

/-- The blocks as the operations see them. -/
def current (d0 : Nat → Bytes) (h : Hist) : Nat → Bytes := applyWrites d0 (h.groups.flatten ++ h.cur)

theorem current_eq {d0 : Nat → Bytes} {h : Hist} (hc : h.cur = []) :
    current d0 h = committed d0 h h.groups.length := by
  rw [current, committed, hc, List.append_nil, List.take_length]

/-- What a valid buffer for block `b` holds. -/
def content (L : Layout) (d0 : Nat → Bytes) (s : State) (b : Nat) : Bytes :=
  if L.Home b then current d0 s.hist b else s.disk b

theorem content_home {L : Layout} {b : Nat} (h : L.Home b) (d0 : Nat → Bytes) (s : State) :
    content L d0 s b = current d0 s.hist b := if_pos h

theorem content_log {L : Layout} {b : Nat} (h : ¬ L.Home b) (d0 : Nat → Bytes) (s : State) :
    content L d0 s b = s.disk b := if_neg h

/-- The logged blocks fit in the log. -/
def Fits (L : Layout) (s : State) : Prop := s.log.lh.length ≤ logsize ∧ s.log.lh.length < L.size

instance (L : Layout) (s : State) : Decidable (Fits L s) := inferInstanceAs (Decidable (_ ∧ _))

/-- What is on disk at each stage of a commit. -/
def Stage.Ok (L : Layout) (d0 : Nat → Bytes) (s : State) : Stage → Prop
  | .log hs k => headBlocks (s.disk L.start) = [] ∧ s.hist.done < s.hist.groups.length ∧
      (∀ b, L.Home b → s.disk b = committed d0 s.hist (s.hist.groups.length - 1) b) ∧
      ∀ j b, j < k → hs[j]? = some b → s.disk (L.start + j + 1) = current d0 s.hist b
  | .inst hs k w => headBlocks (s.disk L.start) = hs ∧ hs.length < nbuf ∧
      (∀ j b, hs[j]? = some b → s.disk (L.start + j + 1) = current d0 s.hist b) ∧
      (w = true → ∀ b, hs[k]? = some b → s.disk b = current d0 s.hist b)
  | .clear => Recov L s.disk (current d0 s.hist)
  | .done => headBlocks (s.disk L.start) = []
  | .fin => headBlocks (s.disk L.start) = [] ∧ s.hist.done = s.hist.groups.length

theorem Stage.Ok.congr {L : Layout} {d0 : Nat → Bytes} {s s' : State} {x : Stage} (h : x.Ok L d0 s)
    (hdisk : s'.disk = s.disk) (hg : s'.hist.groups = s.hist.groups)
    (hcur : s'.hist.cur = s.hist.cur) (hdone : s'.hist.done = s.hist.done) : x.Ok L d0 s' := by
  cases x <;> simpa only [Stage.Ok, current, committed, hdisk, hg, hcur, hdone] using h

/-- What a process has put into a buffer that it has not yet logged or
written: an operation's data, a copy of block `b`, the header, or the empty
header. -/
inductive Intent where
  | data
  | block (b : Nat)
  | head (hs : List Nat)

/-- Only a commit copies blocks. -/
def Intent.Ok (d0 : Nat → Bytes) (h : Hist) (p : Phase) (d : Bytes) : Intent → Prop
  | .data => True
  | .block b => d = current d0 h b ∧ ∃ x, p = .com x
  | .head hs => headBlocks d = hs

theorem Intent.Ok.congr {d0 : Nat → Bytes} {h h' : Hist} {p p' : Phase} {d : Bytes} {x : Intent}
    (hx : x.Ok d0 h p d) (hh : current d0 h' = current d0 h) (hp : (∃ y, p = .com y) → ∃ y, p' = .com y) :
    x.Ok d0 h' p' d := by
  cases x with
  | data => trivial
  | block b => exact ⟨by rw [hh]; exact hx.1, hp hx.2⟩
  | head hs => exact hx

/-- The disk and the cached blocks, against the writes of the operations.
A process that has changed a buffer and not yet logged or written it has it
in `dirty`. -/
structure Store (L : Layout) (d0 : Nat → Bytes) (s : State) (ph : Pid → Phase)
    (dirty : Pid → Option (BufId × Intent)) : Prop where
  fits : Fits L s
  lh_home : ∀ b ∈ s.log.lh, L.Home b ∧ b < 2 ^ 32
  vals : ∀ i, (s.buf i).dev = rootdev → (s.buf i).valid = true → (∀ t x, dirty t ≠ some (i, x)) →
    (s.buf i).data = content L d0 s (s.buf i).blockno
  clean : ∀ b, L.Home b → b ∉ s.log.lh.drop s.hist.inst → s.disk b = current d0 s.hist b
  done_le : s.hist.done ≤ s.hist.groups.length
  quiet : s.log.committing = false → headBlocks (s.disk L.start) = [] ∧ s.hist.done = s.hist.groups.length ∧
    ∀ b, L.Home b → s.disk b = committed d0 s.hist s.hist.groups.length b
  stage : ∀ t x, ph t = .com x → x.Ok L d0 s
  intent : ∀ t i x, dirty t = some (i, x) → x.Ok d0 s.hist (ph t) (s.buf i).data

namespace Store

variable {L : Layout} {d0 : Nat → Bytes} {s s' : State} {ph : Pid → Phase}
  {dirty : Pid → Option (BufId × Intent)} {t : Pid} {i : BufId} {b : Nat}

section Read

variable (h : Store L d0 s ph dirty)

include h

/-- Whatever the processes are doing, recovery would find the first `k`
groups. -/
theorem recov (ha : Adm s.log s.hist.cur s.hist.nops ph) (hn : s.log.lh.Nodup) :
    ∃ k, s.hist.done ≤ k ∧ k ≤ s.hist.groups.length ∧ Recov L s.disk (committed d0 s.hist k) := by
  cases hc : s.log.committing with
  | false =>
    obtain ⟨h1, h2, h3⟩ := h.quiet hc
    exact ⟨_, le_of_eq h2, le_rfl, .of_nil h1 h3⟩
  | true =>
    obtain ⟨⟨t, x, ht⟩, -, hcur⟩ := ha.com hc
    have hx := h.stage t x ht
    have hlh := (ha.committing ht).2
    have hcurrent : current d0 s.hist = committed d0 s.hist s.hist.groups.length := current_eq hcur
    -- In all stages but the first, recovery finds the group that is being committed.
    have hall : headBlocks (s.disk L.start) = [] → s.log.lh = [] →
        Recov L s.disk (committed d0 s.hist s.hist.groups.length) := fun h1 h2 =>
      .of_nil h1 fun b hb => by rw [← hcurrent]; exact h.clean b hb (by simp [h2])
    cases x with
    | log hs k =>
      obtain ⟨h1, h2, h3, -⟩ := hx
      exact ⟨s.hist.groups.length - 1, by omega, by omega, .of_nil h1 h3⟩
    | inst hs k w =>
      obtain ⟨h1, h2, h3, -⟩ := hx
      rw [← show s.log.lh = hs from hlh] at h1 h2 h3
      refine ⟨_, h.done_le, le_rfl, ?_⟩
      rw [← hcurrent]
      refine ⟨?_, ?_, ?_, ?_, ?_, fun b hb hnot => h.clean b hb fun hd => hnot ?_⟩ <;> rw [h1]
      · exact hn
      · exact fun b hb => (h.lh_home b hb).1
      · exact h2
      · exact h.fits.2
      · exact h3
      · exact List.mem_of_mem_drop hd
    | clear => exact ⟨_, h.done_le, le_rfl, hcurrent ▸ hx⟩
    | done => exact ⟨_, h.done_le, le_rfl, hall hx hlh⟩
    | fin => exact ⟨_, h.done_le, le_rfl, hall hx.1 hlh⟩

/-- A step of the buffer cache: no block and nothing that is logged changes,
and a buffer's contents change only if it is not valid. -/
theorem congr (hdisk : s'.disk = s.disk) (hlog : s'.log = s.log)
    (hg : s'.hist.groups = s.hist.groups) (hcur : s'.hist.cur = s.hist.cur) (hdone : s'.hist.done = s.hist.done)
    (hinst : s'.hist.inst = s.hist.inst)
    (hbuf : ∀ i, (s'.buf i).dev = rootdev → (s'.buf i).valid = true → (s.buf i).dev = rootdev ∧
      (s.buf i).valid = true ∧ (s'.buf i).blockno = (s.buf i).blockno ∧ (s'.buf i).data = (s.buf i).data)
    (hdirty : ∀ t i x, dirty t = some (i, x) → (s'.buf i).data = (s.buf i).data) :
    Store L d0 s' ph dirty := by
  have hcurrent : current d0 s'.hist = current d0 s.hist := by rw [current, current, hg, hcur]
  refine ⟨?_, ?_, fun i hd hv hn => ?_, ?_, ?_, ?_, fun t x hx =>
    Stage.Ok.congr (h.stage t x hx) hdisk hg hcur hdone, fun t i x hx => ?_⟩
  · rw [Fits, hlog]; exact h.fits
  · rw [hlog]; exact h.lh_home
  · obtain ⟨hd', hv', hb, hdata⟩ := hbuf i hd hv
    rw [hdata, hb, content, hcurrent, hdisk, ← content]
    exact h.vals i hd' hv' hn
  · rw [hdisk, hlog, hinst, hcurrent]; exact h.clean
  · rw [hdone, hg]; exact h.done_le
  · rw [hdisk, hlog, hg, hdone]; simpa only [committed, hg] using h.quiet
  · rw [hdirty t i x hx]
    exact (h.intent t i x hx).congr hcurrent id

/-- Only the lock or the `refcnt` of a buffer changes. -/
theorem setMeta {x : Buf} (hbuf : s'.buf = update s.buf i x)
    (hx : x.dev = (s.buf i).dev ∧ x.valid = (s.buf i).valid ∧ x.blockno = (s.buf i).blockno ∧ x.data = (s.buf i).data)
    (hdisk : s'.disk = s.disk) (hlog : s'.log = s.log) (hg : s'.hist.groups = s.hist.groups)
    (hcur : s'.hist.cur = s.hist.cur) (hdone : s'.hist.done = s.hist.done) (hinst : s'.hist.inst = s.hist.inst) :
    Store L d0 s' ph dirty := by
  obtain ⟨h1, h2, h3, h4⟩ := hx
  have hdata := update_keep Buf.data hbuf h4
  refine h.congr hdisk hlog hg hcur hdone hinst (fun j hd hv => ?_) fun _ j _ _ => hdata j
  rw [update_keep Buf.dev hbuf h1] at hd
  rw [update_keep Buf.valid hbuf h2] at hv
  exact ⟨hd, hv, update_keep Buf.blockno hbuf h3 j, hdata j⟩

/-- A buffer is filled from disk. -/
theorem read (hb : (s.buf i).dev = rootdev → (s.buf i).valid = false →
      (s.buf i).blockno ∉ s.log.lh.drop s.hist.inst) (hn : ∀ t x, dirty t ≠ some (i, x)) :
    Store L d0 (if (s.buf i).valid then s else
      s.modBuf i fun x => { x with data := s.disk x.blockno, valid := true }) ph dirty := by
  split
  · exact h
  · rename_i hv
    refine { h with vals := fun j hd hv' hn => ?_, intent := fun t j x hx => ?_ }
    · by_cases hj : j = i
      · subst hj
        simp only [State.modBuf_buf, update_self] at hd ⊢
        by_cases hhome : L.Home (s.buf j).blockno
        · rw [content_home hhome]
          exact h.clean _ hhome (hb hd (by simpa using hv))
        · rw [content_log hhome]; rfl
      · simp only [State.modBuf_buf, update_of_ne hj] at hd hv' ⊢
        exact h.vals j hd hv' hn
    · have hj : j ≠ i := by
        rintro rfl
        exact hn t x hx
      simp only [State.modBuf_buf, update_of_ne hj]
      exact h.intent t j x hx

end Read

variable {x : Intent} {u : Pid} {j : BufId} {ph' : Pid → Phase}

/-- A process changes a buffer that no other process has changed. -/
theorem setData (h : Store L d0 s ph dirty) (ht : dirty t = none) (hn : ∀ u x, dirty u ≠ some (i, x))
    (f : Buf → Bytes) (hx : x.Ok d0 s.hist (ph t) (f (s.buf i))) :
    Store L d0 (s.modBuf i fun x => { x with data := f x }) ph (update dirty t (some (i, x))) := by
  refine { h with vals := fun j hd hv hn => ?_, intent := fun u j y hy => ?_ }
  · have hj : j ≠ i := by
      rintro rfl
      exact hn t x (update_self ..)
    simp only [State.modBuf_buf, update_of_ne hj] at hd hv ⊢
    refine h.vals j hd hv fun u y => ?_
    by_cases hu : u = t
    · subst hu; rw [ht]; simp
    · have := hn u y
      rwa [update_of_ne hu] at this
  · by_cases hu : u = t
    · subst hu
      simp only [update_self, Option.some.injEq, Prod.mk.injEq] at hy
      obtain ⟨rfl, rfl⟩ := hy
      simpa using hx
    · rw [update_of_ne hu] at hy
      have hj : j ≠ i := by
        rintro rfl
        exact hn u y hy
      simp only [State.modBuf_buf, update_of_ne hj]
      exact h.intent u j y hy

/-- Who commits goes on committing. -/
abbrev ComsStay (ph ph' : Pid → Phase) : Prop := ∀ u, (∃ y, ph u = .com y) → ∃ y, ph' u = .com y

theorem dirty_of_update (h : update dirty t none u = some (j, x)) :
    dirty u = some (j, x) := by
  by_cases hu : u = t
  · subst hu; rw [update_self] at h; cases h
  · rwa [update_of_ne hu] at h

theorem update_of_dirty (hd : ∀ j x, dirty t = some (j, x) → j = i)
    (h : dirty u = some (j, x)) (hj : j ≠ i) : update dirty t none u = some (j, x) := by
  have hu : u ≠ t := by
    rintro rfl
    exact hj (hd j x h)
  rwa [update_of_ne hu]

section Step

variable (h : Store L d0 s ph dirty)

include h

/-- A block of the log is written, from buffer `i`. -/
theorem bwriteLog
    (huniq : ∀ j, (s.buf j).dev = rootdev → (s.buf j).blockno = (s.buf i).blockno → j = i)
    (hnot : ¬ L.Home (s.buf i).blockno) (hdirty : ∀ j x, dirty t = some (j, x) → j = i)
    (hph : ComsStay ph ph') (hq : s.log.committing = false →
      headBlocks (update s.disk (s.buf i).blockno (s.buf i).data L.start) = []) (hst : ∀ u x, ph' u = .com x →
      x.Ok L d0 { s with disk := update s.disk (s.buf i).blockno (s.buf i).data }) :
    Store L d0 { s with disk := update s.disk (s.buf i).blockno (s.buf i).data } ph'
      (update dirty t none) := by
  have hne : ∀ b, L.Home b → b ≠ (s.buf i).blockno := fun b hb e => hnot (e ▸ hb)
  refine ⟨h.fits, h.lh_home, fun j hd hv hn => ?_, fun b hb hp => ?_, h.done_le, fun hc => ⟨hq hc, ?_, fun b hb => ?_⟩,
    hst, fun u j x hx => (h.intent u j x (dirty_of_update hx)).congr rfl (hph u)⟩
  · dsimp only at hd hv ⊢
    by_cases hj : j = i
    · subst hj; rw [content_log hnot]; exact (update_self (s.buf j).blockno (s.buf j).data s.disk).symm
    · rw [h.vals j hd hv fun u x hx => hn u x (update_of_dirty hdirty hx hj)]
      simp only [content, update_of_ne fun e => hj (huniq j hd e)]
  · dsimp only
    rw [update_of_ne (hne b hb)]; exact h.clean b hb hp
  · exact (h.quiet hc).2.1
  · dsimp only
    rw [update_of_ne (hne b hb)]; exact (h.quiet hc).2.2 b hb

/-- A block outside the log is written, with its current contents. -/
theorem bwriteHome (hhome : L.Home (s.buf i).blockno)
    (hval : (s.buf i).data = current d0 s.hist (s.buf i).blockno) (hc : s.log.committing = true)
    (hph : ComsStay ph ph') (hst : ∀ u x, ph' u = .com x →
      x.Ok L d0 { s with disk := update s.disk (s.buf i).blockno (s.buf i).data }) :
    Store L d0 { s with disk := update s.disk (s.buf i).blockno (s.buf i).data } ph' dirty := by
  refine ⟨h.fits, h.lh_home, fun j hd hv hn => ?_, fun b hb hp => ?_, h.done_le,
    fun hc' => absurd (hc.symm.trans hc') (by decide), hst, fun u j x hx => (h.intent u j x hx).congr rfl (hph u)⟩
  · dsimp only at hd hv ⊢
    rw [h.vals j hd hv hn]
    by_cases hj : L.Home (s.buf j).blockno
    · rw [content_home hj, content_home hj]
    · have hne : (s.buf j).blockno ≠ (s.buf i).blockno := fun e => hj (e ▸ hhome)
      rw [content_log hj, content_log hj]
      exact (update_of_ne hne _ _).symm
  · dsimp only
    by_cases he : b = (s.buf i).blockno
    · rw [he, update_self, hval]
    · rw [update_of_ne he]; exact h.clean b hb hp

/-- `bunpin`, of a block that has been written. -/
theorem bunpin {k : Nat} (hs : s.hist.inst = k) (hb : s.log.lh[k]? = some b)
    (hd : s.disk b = current d0 s.hist b) (hph : ComsStay ph ph')
    (hst : ∀ u x, ph' u = .com x → x.Ok L d0 s) :
    Store L d0 ((s.modBuf i fun x => { x with refcnt := x.refcnt - 1 }).modHist
      fun h => { h with inst := h.inst + 1 }) ph' dirty := by
  have h' : Store L d0 (s.modBuf i fun x => { x with refcnt := x.refcnt - 1 }) ph dirty :=
    h.setMeta rfl ⟨rfl, rfl, rfl, rfl⟩ rfl rfl rfl rfl rfl rfl
  refine { h' with
    clean := fun c hc hp => ?_
    stage := fun u x hx => Stage.Ok.congr (hst u x hx) rfl rfl rfl rfl
    intent := fun u j x hx => (h'.intent u j x hx).congr rfl (hph u) }
  by_cases hcb : c = b
  · exact hcb ▸ hd
  · refine h.clean c hc fun hm => hp ?_
    show c ∈ s.log.lh.drop (s.hist.inst + 1)
    obtain ⟨hlt, hk⟩ := List.getElem?_eq_some_iff.mp hb
    rw [hs, List.drop_eq_getElem_cons hlt] at hm
    rw [hs]
    rcases List.mem_cons.mp hm with hm | hm
    · exact absurd (hm.trans hk) hcb
    · exact hm

theorem setStage
    (hph : ComsStay ph ph') (hst : ∀ u x, ph' u = .com x → x.Ok L d0 s) :
    Store L d0 s ph' dirty :=
  { h with stage := hst, intent := fun u j x hx => (h.intent u j x hx).congr rfl (hph u) }

theorem clearHead (hall : s.log.lh.drop s.hist.inst = [])
    (hph : ComsStay ph ph')
    (hst : ∀ u x, ph' u = .com x → x.Ok L d0 ((s.modLog ({ · with lh := [] })).modHist ({ · with inst := 0 }))) :
    Store L d0 ((s.modLog ({ · with lh := [] })).modHist ({ · with inst := 0 })) ph' dirty :=
  ⟨⟨Nat.zero_le _, L.pos⟩, by simp, h.vals, fun b hb _ => h.clean b hb (by simp [hall]), h.done_le, h.quiet, hst,
    fun u j x hx => (h.intent u j x hx).congr rfl (hph u)⟩

theorem admitOp (f : LogState → Int) (g : Hist → Nat)
    (hph : ∀ u x, ph' u = .com x ↔ ph u = .com x) :
    Store L d0 ((s.modLog fun l => { l with outstanding := f l }).modHist fun x => { x with nops := g x }) ph' dirty :=
  { h with
    stage := fun u x hx => Stage.Ok.congr (h.stage u x ((hph u x).mp hx)) rfl rfl rfl rfl
    intent := fun u j x hx => (h.intent u j x hx).congr rfl fun ⟨y, hy⟩ => ⟨y, (hph u y).mpr hy⟩ }

/-- The writes since the last commit become a group. -/
theorem startCommit (hc : s.log.committing = false)
    (hph : ComsStay ph ph') {hs : List Nat} (hst : ∀ u x, ph' u = .com x → x = .log hs 0) :
    Store L d0 ((s.modLog ({ · with outstanding := 0, committing := true })).modHist
      fun h => { h with groups := h.groups ++ [h.cur], cur := [] }) ph' dirty := by
  obtain ⟨h1, h2, h3⟩ := h.quiet hc
  have hcur : ∀ h' : Hist, h'.groups = s.hist.groups ++ [s.hist.cur] → h'.cur = [] →
      current d0 h' = current d0 s.hist := by
    intro h' hg hc
    rw [current, current, hg, hc]
    simp
  have hcom : ∀ h' : Hist, h'.groups = s.hist.groups ++ [s.hist.cur] →
      committed d0 h' s.hist.groups.length = committed d0 s.hist s.hist.groups.length := by
    intro h' hg
    rw [committed, committed, hg, List.take_append_of_le_length (le_rfl)]
  refine ⟨h.fits, h.lh_home, fun i hd hv hn => ?_, fun b hb hp => ?_, ?_, by simp, fun u x hx => ?_,
    fun u j x hx => (h.intent u j x hx).congr (hcur _ rfl rfl) (hph u)⟩
  · rw [content, hcur _ rfl rfl]
    exact h.vals i hd hv hn
  · rw [hcur _ rfl rfl]
    exact h.clean b hb hp
  · simpa using Nat.le_succ_of_le h.done_le
  · obtain rfl := hst u x hx
    refine ⟨h1, by simp [h2], fun b hb => ?_, by simp⟩
    rw [show (List.length _ : Nat) - 1 = s.hist.groups.length by simp, hcom _ rfl]
    exact h3 b hb

theorem setDone (hc : s.log.committing = true)
    (hph : ComsStay ph ph')
    (hd : headBlocks (s.disk L.start) = []) (hst : ∀ u x, ph' u = .com x → x = .fin) :
    Store L d0 (s.modHist fun h => { h with done := h.groups.length }) ph' dirty :=
  ⟨h.fits, h.lh_home, h.vals, h.clean, le_rfl, fun hc' => absurd (hc.symm.trans hc') (by decide),
    fun u x hx => by obtain rfl := hst u x hx; exact ⟨hd, rfl⟩,
    fun u j x hx => (h.intent u j x hx).congr rfl (hph u)⟩

/-- The commit is over. -/
theorem endCommit (hf : Stage.fin.Ok L d0 s)
    (hlh : s.log.lh = []) (hcur : s.hist.cur = []) (hph : ∀ u, dirty u ≠ none → ∀ y, ph u ≠ .com y)
    (hst : ∀ u x, ph' u ≠ .com x) :
    Store L d0 (s.modLog ({ · with committing := false })) ph' dirty := by
  refine { h with
    quiet := fun _ => ⟨hf.1, hf.2, fun b hb => ?_⟩
    stage := fun u x hx => absurd hx (hst u x)
    intent := fun u j x hx => (h.intent u j x hx).congr rfl fun ⟨y, hy⟩ => absurd hy (hph u (by simp [hx]) y) }
  show _ = committed d0 s.hist s.hist.groups.length b
  rw [← current_eq hcur]
  exact h.clean b hb (by simp [hlh])

/-- `log_write` of a buffer that the process holds. -/
theorem logWrite (hc : s.log.committing = false) (hno : ∀ u x, ph u ≠ .com x)
    (hinst : s.hist.inst = 0) (hhome : L.Home (s.buf i).blockno) (hlt : (s.buf i).blockno < 2 ^ 32)
    (huniq : ∀ j, (s.buf j).dev = rootdev → (s.buf j).blockno = (s.buf i).blockno → j = i)
    (hdirty : ∀ j x, dirty t = some (j, x) → j = i) (hs' : Fits L s') {w : Write} (hw : w.blockno = (s.buf i).blockno)
    (hwd : w.data = (s.buf i).data)
    (hbuf : ∀ j, (s'.buf j).dev = (s.buf j).dev ∧ (s'.buf j).valid = (s.buf j).valid ∧
      (s'.buf j).blockno = (s.buf j).blockno ∧ (s'.buf j).data = (s.buf j).data) (hdisk : s'.disk = s.disk)
    (hlh : ∀ b, b ∈ s'.log.lh ↔ b ∈ s.log.lh ∨ b = (s.buf i).blockno) (hg : s'.hist.groups = s.hist.groups)
    (hcur : s'.hist.cur = s.hist.cur ++ [w]) (hdone : s'.hist.done = s.hist.done) (hinst' : s'.hist.inst = 0) :
    Store L d0 s' ph (update dirty t none) := by
  have hcurrent : current d0 s'.hist = update (current d0 s.hist) (s.buf i).blockno (s.buf i).data := by
    rw [current, hg, hcur, ← List.append_assoc, applyWrites_concat, hw, hwd, ← current]
  refine ⟨hs', fun b hb => ?_, fun j hd hv hn => ?_, fun b hb hp => ?_, ?_, fun _ => ?_,
    fun u x hx => absurd hx (hno u x), fun u j x hx => ?_⟩
  · rcases (hlh b).mp hb with hb | rfl
    · exact h.lh_home b hb
    · exact ⟨hhome, hlt⟩
  · obtain ⟨h1, h2, h3, h4⟩ := hbuf j
    rw [h1] at hd
    rw [h2] at hv
    rw [h3, h4, content, hcurrent, hdisk]
    by_cases hj : j = i
    · subst hj; rw [if_pos hhome, update_self]
    · have hne := fun e => hj (huniq j hd e)
      rw [update_of_ne hne, h.vals j hd hv fun u x hx => hn u x (update_of_dirty hdirty hx hj), content]
  · rw [hinst', List.drop_zero, hlh, not_or] at hp
    rw [hcurrent, update_of_ne hp.2, hdisk]
    exact h.clean b hb (by rw [hinst]; exact hp.1)
  · rw [hdone, hg]; exact h.done_le
  · rw [hdisk, hdone, committed, hg, ← committed]
    exact h.quiet hc
  · rw [(hbuf j).2.2.2]
    have := h.intent u j x (dirty_of_update hx)
    cases x with
    | data => trivial
    | block b => exact absurd this.2.choose_spec (hno u _)
    | head hs => exact this

end Step

end Store

end Xv6.Log
