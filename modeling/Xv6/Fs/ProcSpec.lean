import Xv6.Fs.CallSpec

/-!
# Pipes and processes

The calls that make several references to files: `pipe`, `fork` and `exit`.
With them all system calls keep the invariants (`sysCall_spec`).
-/

namespace Xv6.Fs

open Function List

variable {N : Nat} {s s' s0 : St (Nodes N)} {pins temps : List Slot} {b : Slot} {p q : Pid} {P : String → Prop} {calm : Prop}
  {Good : Fin N → Prop} {f : FileId} {fd : Fd} {proc : Pid → Proc} {g' : List FileId} {f0 f1 : FileId} {l : List Fd}

/-! ## Pipes -/

section Pipes

variable {g : List FileId} {e : Hist}

theorem Ok.perm (h : Ok proc g s pins temps) (hg : g'.Perm g) : Ok proc g' s pins temps :=
  { h with files := h.files.perm hg }

/-- Two new files become the ends of a new pipe. -/
theorem Ok.pipealloc (h : Ok proc g s pins temps) (hne : f0 ≠ f1) (h0 : f0 ∈ g) (h1 : f1 ∈ g)
    (ht0 : (s.core.file f0).type = .none) (ht1 : (s.core.file f1).type = .none) {pi : Nat} (hpi : s.core.pipe pi = none) :
    Ok proc g (s.withCore (((s.core.setPipe pi (some ⟨true, true⟩)).setFile f0 ((s.core.file f0).pipeEnd pi false)).setFile f1
      ((s.core.file f1).pipeEnd pi true))) pins temps := by
  have hpos : ∀ f ∈ g, 0 < (s.core.file f).ref := fun f hf => by
    have := h.files.ref f
    have := count_pos_iff.mpr hf
    omega
  have hend : ∀ f w b, fileRef b ((s.core.file f).pipeEnd pi w) = false := fun f w => fileRef_of_type (.inr rfl)
  refine ⟨h.files.pipealloc hne (hpos f0 h0) (hpos f1 h1) ht0 ht1 hpi, h.cache.congr rfl rfl (fun b => ?_) fun b hb => ?_⟩
  · have hc0 := users_setFile s.core.file f0 ((s.core.file f0).pipeEnd pi false) proc b
    have hc1 := users_setFile (update s.core.file f0 ((s.core.file f0).pipeEnd pi false)) f1
      ((s.core.file f1).pipeEnd pi true) proc b
    rw [hend, fileRef_of_type (.inl ht0)] at hc0
    rw [hend, update_of_ne (Ne.symm hne), fileRef_of_type (.inl ht1)] at hc1
    exact (Nat.add_right_cancel hc1).trans (Nat.add_right_cancel hc0)
  · rcases writer_setFile hb with hb | ⟨hb, -⟩
    · rcases writer_setFile hb with hb | ⟨hb, -⟩
      · exact hb
      · rw [hend] at hb; cases hb
    · rw [hend] at hb; cases hb

theorem pipealloc_spec (calm : Prop) (e : Hist) (h : Ok proc g s [] []) (page : Option Nat) :
    Runs P s (pipealloc page) fun r s' => s'.core.proc = s.core.proc ∧ s'.core.hist = s.core.hist ∧ Txs calm e s.low s'.low ∧
      match r with
      | none => Ok proc g s' [] []
      | some (f0, f1) => Ok proc (f0 :: f1 :: g) s' [] [] ∧ (s'.core.file f0).type = .pipe ∧
        (s'.core.file f1).type = .pipe := by
  refine .bind (filealloc_spec h) fun r s1 hr => ?_
  cases r with
  | none =>
    obtain rfl := hr
    exact .ret ⟨rfl, rfl, Txs.refl _, h⟩
  | some f0 =>
    obtain ⟨hok1, hz0, rfl⟩ := hr
    refine .bind (filealloc_spec hok1) fun r s2 hr => ?_
    cases r with
    | none =>
      obtain rfl := hr
      refine .bind (fileclose_spec calm e hok1) ?_
      rintro _ s2 ⟨hok2, hp2, hh2, htx2⟩
      exact .ret ⟨hp2, hh2, htx2, hok2⟩
    | some f1 =>
      obtain ⟨hok2, hz1, hs2⟩ := hr
      have hne : f0 ≠ f1 := by
        rintro rfl
        simp [File.withRef] at hz1
      have hok2' : Ok proc (f0 :: f1 :: g) s2 [] [] := hok2.perm (.swap _ _ _)
      have hp2 : s2.core.proc = s.core.proc := by rw [hs2]; rfl
      have hh2 : s2.core.hist = s.core.hist := by rw [hs2]; rfl
      have hl2 : s2.low = s.low := by rw [hs2]; rfl
      refine get_spec ?_
      cases hpage : page.filter fun pi => (s2.core.pipe pi).isNone with
      | none =>
        refine .bind (fileclose_spec calm e hok2') ?_
        rintro _ s3 ⟨hok3, hp3, hh3, htx3⟩
        refine .bind (fileclose_spec calm e hok3) ?_
        rintro _ s4 ⟨hok4, hp4, hh4, htx4⟩
        refine .ret ⟨hp4.trans (hp3.trans hp2), hh4.trans (hh3.trans hh2), ?_, hok4⟩
        rw [← hl2]
        exact htx3.trans htx4
      | some pi =>
        have hpi : s2.core.pipe pi = none := Option.isNone_iff_eq_none.mp (Option.filter_eq_some_iff.mp hpage).2
        have ht0 : (s2.core.file f0).type = .none := by
          have : s2.core.file f0 = (s.core.file f0).withRef 1 := by
            rw [hs2]
            show update _ f1 _ f0 = _
            rw [update_of_ne hne]
            exact update_self ..
          rw [this]
          exact h.files.free f0 hz0
        have ht1 : (s2.core.file f1).type = .none := by
          have : s2.core.file f1 = ((s.core.setFile f0 ((s.core.file f0).withRef 1)).file f1).withRef 1 := by
            rw [hs2]
            exact update_self ..
          rw [this]
          exact hok1.files.free f1 hz1
        refine modify_spec (modify_spec (modify_spec (.ret ?_)))
        have hok := hok2'.pipealloc hne mem_cons_self (mem_cons_of_mem _ mem_cons_self) ht0 ht1 hpi
        have hf1 : ((s2.core.setPipe pi (some ⟨true, true⟩)).setFile f0 ((s2.core.file f0).pipeEnd pi false)).file f1 =
          s2.core.file f1 := update_of_ne (Ne.symm hne) ..
        simp only [St.withCore_core, Core.setPipe_file, hf1]
        refine ⟨hp2, hh2, by rw [← hl2]; exact .refl _, hok, ?_, ?_⟩
        · rw [Core.setFile_of_ne _ _ hne, Core.setFile_self]
          rfl
        · simp [File.pipeEnd]

end Pipes

/-- The state in the middle of a call that has changed only files and
descriptors, and has the references `g` to files. -/
structure Mid (calm : Prop) (s0 s : St (Nodes N)) (g : List FileId) : Prop where
  ok : Ok s.core.proc g s [] []
  procs : Procs s.core.proc
  hist : s.core.hist = s0.core.hist
  txs : Txs calm s0.core.hist s0.low s.low

namespace Mid

variable {g : List FileId}

theorem begin (h : Inv s) : Mid calm s s [] := ⟨h.ok, h.procs, rfl, Txs.refl _⟩

theorem done (h : Inv s0) (hm : Mid calm s0 s []) : Done calm s0 s :=
  h.done_of hm.ok hm.procs (.of_eq hm.hist) (by rw [hm.hist]; exact hm.txs)

theorem giveFd (hm : Mid calm s0 s (f :: g)) (hfd : (s.core.proc p).ofile fd = none) (hf : (s.core.file f).type ≠ .none)
    (hp : (s.core.proc p).used = true) :
    Mid calm s0 (s.withCore (s.core.setProc p ((s.core.proc p).setFd fd (some f)))) g :=
  ⟨(hm.ok.giveFd hfd hf).setProc _, hm.procs.setFd (.inl hp), hm.hist, hm.txs⟩

theorem takeFd (hm : Mid calm s0 s g) (hfd : (s.core.proc p).ofile fd = some f) :
    Mid calm s0 (s.withCore (s.core.setProc p ((s.core.proc p).setFd fd none))) (f :: g) :=
  ⟨(hm.ok.takeFd hfd).setProc _, hm.procs.setFd (.inr rfl), hm.hist, hm.txs⟩

theorem perm (hm : Mid calm s0 s g) (hg : g'.Perm g) : Mid calm s0 s g' := { hm with ok := hm.ok.perm hg }

theorem close (hm : Mid calm s0 s (f :: g)) : Runs P s (fileclose f) fun _ s' => Mid calm s0 s' g ∧
    s'.core.proc = s.core.proc := by
  refine (fileclose_spec calm s0.core.hist hm.ok).mono ?_
  rintro _ s' ⟨hok, hp, hh, htx⟩
  refine ⟨⟨?_, ?_, hh.trans hm.hist, hm.txs.trans htx⟩, hp⟩
  · rw [hp]; exact hok
  · rw [hp]; exact hm.procs

/-- The error exits of `pipe`. -/
theorem closeBoth (h : Inv s0) (hm : Mid calm s0 s [f0, f1]) :
    Runs P s (do fileclose f0; fileclose f1; return (-1 : Int)) fun _ s' => Done calm s0 s' :=
  Eff.Spec.bind hm.close fun _ _ h1 => Eff.Spec.bind h1.1.close fun _ _ h2 => Eff.Spec.ret (h2.1.done h)

end Mid

theorem sysPipe_spec (h : Env P calm Good s p) (page : Option Nat) (copied : Bool) :
    Runs P s (sysPipe p page copied) fun _ s' => Done calm s s' := by
  refine .bind (pipealloc_spec calm s.core.hist h.inv.ok page) ?_
  rintro r s1 ⟨hp1, hh1, htx1, hr⟩
  have hprocs : Procs s1.core.proc := hp1 ▸ h.inv.procs
  have hused : (s1.core.proc p).used = true := by rw [hp1]; exact h.used
  rw [← hp1] at hr
  cases r with
  | none => exact .ret (Mid.done h.inv ⟨hr, hprocs, hh1, htx1⟩)
  | some x =>
    obtain ⟨rf, wf⟩ := x
    obtain ⟨hok1, hrt, hwt⟩ := hr
    have hm1 : Mid calm s s1 [rf, wf] := ⟨hok1, hprocs, hh1, htx1⟩
    refine .bind fdalloc_spec fun r s2 hr => ?_
    cases r with
    | none =>
      obtain rfl := hr
      exact hm1.closeBoth h.inv
    | some fd0 =>
      obtain ⟨hfd0, rfl⟩ := hr
      have hm2 := hm1.giveFd hfd0 (by rw [hrt]; decide) hused
      have hfd0' : ((s1.core.setProc p ((s1.core.proc p).setFd fd0 (some rf))).proc p).ofile fd0 = some rf := by
        rw [Core.setProc_self]
        exact update_self ..
      refine .bind fdalloc_spec fun r s3 hr => ?_
      cases r with
      | none =>
        obtain rfl := hr
        exact modify_spec ((hm2.takeFd hfd0').closeBoth h.inv)
      | some fd1 =>
        obtain ⟨hfd1, rfl⟩ := hr
        have hne : fd0 ≠ fd1 := by
          rintro rfl
          rw [St.withCore_core, hfd0'] at hfd1
          cases hfd1
        have hm3 := hm2.giveFd hfd1 (by simp only [St.withCore_core, Core.setProc_file]; rw [hwt]; decide)
          (by simp only [St.withCore_core, Core.setProc_self]; exact hused)
        dsimp only
        cases copied with
        | true =>
          rw [if_pos rfl]
          exact .ret (hm3.done h.inv)
        | false =>
          rw [if_neg Bool.false_ne_true]
          refine modify_spec (modify_spec ((((hm3.takeFd ?_).takeFd ?_).perm (.swap _ _ _)).closeBoth h.inv))
          · simp only [St.withCore_core, Core.setProc_self]
            show update _ fd1 _ fd0 = _
            rw [update_of_ne hne]
            exact update_self ..
          · simp only [St.withCore_core, Core.setProc_self]
            show update (update _ fd1 _) fd0 _ fd1 = _
            rw [update_of_ne (Ne.symm hne), update_self]

/-! ## `fork` -/

theorem users_pos {file : FileId → File} (h : (proc p).cwd = some b) : 0 < (users file proc).count b := by
  have : 0 < tally proc (cwdRef b) := tally_pos (i := p) (decide_eq_true h)
  simp only [users]
  omega

/-- A loop over descriptors, whose body takes the invariant `I` for the rest of
the descriptors from one to the next. -/
theorem forFds_spec {F : Fd → FsProg Unit} {I : List Fd → St (Nodes N) → Prop}
    (hF : ∀ fd l s, fd ∉ l → I (fd :: l) s → Runs P s (F fd) fun _ s' => I l s') (hl : l.Nodup) (h : I l s) :
    Runs P s (forFds F l) fun _ s' => I [] s' := by
  induction l generalizing s with
  | nil => exact .ret h
  | cons fd l ih =>
    obtain ⟨hfd, hl⟩ := nodup_cons.mp hl
    exact .bind (hF fd l s hfd h) fun _ s' h' => ih hl h'

/-- `fork` has copied the descriptors that are not in `l` from `p` to `q`. -/
structure Forking (s0 s : St (Nodes N)) (p q : Pid) (l : List Fd) : Prop where
  ok : Ok s.core.proc [] s [] []
  others : ∀ r, r ≠ q → s.core.proc r = s0.core.proc r
  unused : (s.core.proc q).used = false
  cwd : (s.core.proc q).cwd = none
  free : ∀ fd ∈ l, (s.core.proc q).ofile fd = none
  hist : s.core.hist = s0.core.hist
  low : s.low = s0.low

theorem Forking.step (hfd : fd ∉ l) (h : Forking s0 s p q (fd :: l)) :
    Runs P s (do
      match ← get fun c => (c.proc p).ofile fd with
      | none => return
      | some f =>
        filedup f
        setOfile q fd (some f)) fun _ s' => Forking s0 s' p q l := by
  refine get_spec ?_
  cases hf : (s.core.proc p).ofile fd with
  | none => exact .ret { h with free := fun fd' hfd' => h.free fd' (mem_cons_of_mem _ hfd') }
  | some f =>
    have hpos := total_pos hf
    have href := h.ok.files.ref f
    refine .bind (filedup_spec h.ok (by omega)) ?_
    rintro _ s1 ⟨hok1, hp1, ht1, hh1, hl1, -⟩
    rw [← hp1] at hok1
    have hfree : (s1.core.proc q).ofile fd = none := by rw [hp1]; exact h.free fd mem_cons_self
    refine core_spec ⟨?_, fun r hr => ?_, ?_, ?_, fun fd' hfd' => ?_, hh1.trans h.hist, hl1.trans h.low⟩
    · exact (hok1.giveFd hfree (by rw [ht1]; exact h.ok.files.typed f hpos)).setProc _
    · simp only [St.withCore_core, Core.setProc_of_ne _ _ hr, hp1, h.others r hr]
    · simp only [St.withCore_core, Core.setProc_self, hp1]; exact h.unused
    · simp only [St.withCore_core, Core.setProc_self, hp1]; exact h.cwd
    · simp only [St.withCore_core, Core.setProc_self, hp1]
      show update (s.core.proc q).ofile fd (some f) fd' = none
      rw [update_of_ne (by rintro rfl; exact hfd hfd')]
      exact h.free fd' (mem_cons_of_mem _ hfd')

theorem sysFork_spec (h : Env P calm Good s p) (np : Option Pid) : Runs P s (sysFork p np) fun _ s' => Done calm s s' := by
  refine get_spec ?_
  cases hnp : np.filter fun np => !(s.core.proc np).used with
  | none => exact .ret h.same
  | some q =>
    have hq : (s.core.proc q).used = false := by simpa using (Option.filter_eq_some_iff.mp hnp).2
    have hpq : p ≠ q := by
      rintro rfl
      rw [h.used] at hq
      cases hq
    have hcwd : (s.core.proc q).cwd = none := by
      have := h.inv.cwd q
      rw [hq] at this
      simpa using this.symm
    have h0 : Forking s s p q (finRange nofile) :=
      ⟨h.inv.ok, fun _ _ => rfl, hq, hcwd, fun fd _ => h.inv.unused q fd hq, rfl, rfl⟩
    refine .bind (forFds_spec (I := fun l s' => Forking s s' p q l) (fun fd l s' => Forking.step)
      (nodup_finRange _) h0) fun _ s1 h1 => get_spec ?_
    obtain ⟨b, hb, hpos⟩ := h.inv.hasCwd h.used
    rw [h1.others p hpq, hb]
    have hu : 0 < (users s1.core.file s1.core.proc).count b := users_pos (by rw [h1.others p hpq, hb])
    obtain ⟨i, -, hi⟩ := h1.ok.cache.caches (b := b) (by unfold Held; omega)
    have htype := h1.ok.cache.live b i hi hu
    refine .bind (idup_spec h1.ok.cache hi) ?_
    rintro b s2 ⟨rfl, hc2, hb2, hq2⟩
    have hp2 := hq2.keeps.proc
    refine modify_spec (.ret (h.inv.done_of ⟨?_, ?_⟩ ?_ (.of_eq (hq2.hist.trans h1.hist)) ?_))
    · show Files (update s2.core.proc q _) [] _
      rw [hp2]
      refine (h1.ok.files.reproc (fdRef_congr ?_)).congr hq2.keeps.file hq2.keeps.pipe
      rfl
    · show Cache (users s2.core.file (update s2.core.proc q _)) _ [] []
      rw [hp2, hq2.keeps.file]
      refine Cache.give (hc2.moved rfl rfl) (fun c => ?_) (fun c hc => .inl hc) fun j hj => ?_
      · have := users_setProc s1.core.file s1.core.proc q (((s1.core.proc q).withCwd (some b)).withUsed true) c
        rw [cwdRef_none h1.cwd, cwdRef_some (a := b) rfl] at this
        exact this
      · obtain rfl : i = j := Fin.ext (hb2.2.symm.trans hj.2)
        rw [St.withCore_low, hq2.low]
        exact htype
    · show Procs (update s2.core.proc q _)
      rw [hp2]
      refine ⟨fun r => ?_, fun r fd hr => ?_⟩ <;> by_cases hrq : r = q
      · rw [hrq, update_self]; rfl
      · rw [update_of_ne hrq, h1.others r hrq]; exact h.inv.cwd r
      · rw [hrq, update_self] at hr; cases hr
      · rw [update_of_ne hrq, h1.others r hrq] at hr ⊢; exact h.inv.unused r fd hr
    · rw [St.withCore_low, hq2.low, h1.low]
      exact .refl _

/-! ## `exit` -/

/-- `exit` has closed the descriptors of `p` that are not in `l`. -/
structure Exiting (calm : Prop) (s0 s : St (Nodes N)) (p : Pid) (l : List Fd) : Prop where
  mid : Mid calm s0 s []
  used : (s.core.proc p).used = true
  closed : ∀ fd, fd ∉ l → (s.core.proc p).ofile fd = none

theorem Exiting.step (h : Exiting calm s0 s p (fd :: l)) :
    Runs P s (do
      match ← get fun c => (c.proc p).ofile fd with
      | none => return
      | some f =>
        fileclose f
        setOfile p fd none) fun _ s' => Exiting calm s0 s' p l := by
  have hclosed : ∀ fd' ∉ l, fd' ≠ fd → (s.core.proc p).ofile fd' = none := fun fd' hl hne =>
    h.closed fd' (by simpa using ⟨hne, hl⟩)
  refine get_spec ?_
  cases hf : (s.core.proc p).ofile fd with
  | none =>
    refine .ret { h with closed := fun fd' hfd' => ?_ }
    by_cases hne : fd' = fd
    · rw [hne, hf]
    · exact hclosed fd' hfd' hne
  | some f =>
    -- the call has the reference while it closes the file, and then the descriptor goes
    refine .bind (fileclose_spec calm s0.core.hist (h.mid.ok.takeFd hf)) ?_
    rintro _ s1 ⟨hok1, hp1, hh1, htx1⟩
    refine core_spec ⟨⟨?_, ?_, hh1.trans h.mid.hist, h.mid.txs.trans htx1⟩, ?_, fun fd' hfd' => ?_⟩
    · simp only [St.withCore_core, hp1]
      show Ok (update s1.core.proc p _) [] _ [] []
      rw [hp1]
      exact hok1.setProc _
    · show Procs (update s1.core.proc p _)
      rw [hp1]
      exact h.mid.procs.setFd (.inr rfl)
    · simp only [St.withCore_core, Core.setProc_self, hp1]; exact h.used
    · simp only [St.withCore_core, Core.setProc_self, hp1]
      show update (s.core.proc p).ofile fd none fd' = none
      by_cases hne : fd' = fd
      · rw [hne, update_self]
      · rw [update_of_ne hne]; exact hclosed fd' hfd' hne

theorem sysExit_spec (h : Env P calm Good s p) : Runs P s (sysExit p) fun _ s' => Done calm s s' := by
  unfold sysExit
  by_cases hp0 : p = 0
  · rw [if_pos hp0]
    exact stop_spec (h.panics _ (by simp [exhausted]))
  · rw [if_neg hp0]
    have h0 : Exiting calm s s p (finRange nofile) :=
      ⟨.begin h.inv, h.used, fun fd hfd => absurd (mem_finRange fd) hfd⟩
    refine .bind (forFds_spec (I := fun l s' => Exiting calm s s' p l) (fun fd l s' _ => Exiting.step)
      (nodup_finRange _) h0) fun _ s1 h1 => ?_
    have hcwd := h1.mid.procs.cwd p
    rw [h1.used] at hcwd
    obtain ⟨b, hb⟩ := Option.isSome_iff_exists.mp hcwd.symm
    refine beginOp_run (get_spec ?_)
    rw [hb]
    have hpos : 0 < (users s1.core.file s1.core.proc).count b := users_pos hb
    have hc : Cache (users s1.core.file s1.core.proc) s1 [] [] := h1.mid.ok.cache
    obtain ⟨j, -, hj⟩ := hc.caches (b := b) (by unfold Held; omega)
    have htype : (s1.low.node j).attrs.type ≠ 0 := hc.live b j hj hpos
    have hu : ∀ c, (users s1.core.file s1.core.proc).count c =
        (users s1.core.file (update s1.core.proc p (((s1.core.proc p).withCwd none).withUsed false))).count c + [b].count c :=
      fun c => by
        have := users_setProc s1.core.file s1.core.proc p (((s1.core.proc p).withCwd none).withUsed false) c
        rw [cwdRef_some hb, cwdRef_none rfl, add_zero] at this
        exact this.symm
    refine .bind (iput_pin_spec (hc.take hu fun _ => id) hj (by simp) fun hn => hc.valid_of_unlinked hj htype hn) ?_
    rintro _ s2 ⟨hc2, hdrop, hh2, hk2⟩
    refine endOp_run (modify_spec (.ret (h.inv.done_of ⟨?_, ?_⟩ ?_ (.of_eq (hh2.trans h1.mid.hist)) ?_)))
    · show Files (update s2.core.proc p _) [] _
      simp only [St.withLow_core, hk2.proc]
      refine (h1.mid.ok.files.reproc (fdRef_congr ?_)).congr hk2.file hk2.pipe
      rfl
    · show Cache (users s2.core.file (update s2.core.proc p _)) _ [] []
      simp only [St.withLow_core, hk2.proc, hk2.file]
      exact hc2.moved rfl rfl
    · show Procs (update s2.core.proc p _)
      simp only [St.withLow_core, hk2.proc]
      exact h1.mid.procs.update rfl fun fd _ => h1.closed fd not_mem_nil
    · have htx : Txs calm s1.core.hist s1.low s2.low.commit := Txs.op hdrop.disks (hdrop.txs htype)
      show Txs calm s2.core.hist s.low s2.low.commit
      rw [hh2]
      rw [h1.mid.hist] at htx ⊢
      exact h1.mid.txs.trans htx

/-! ## Every call -/

/-- The paths that a call looks up. -/
def Call.paths : Call → List Path
  | .link old new => old.toList ++ new.toList
  | .unlink path => path.toList
  | .open path _ => path.toList
  | .mkdir path => path.toList
  | .mknod path _ _ => path.toList
  | .chdir path => path.toList
  | .exec path _ _ => path.toList
  | _ => []

theorem body_spec (h : Env P calm Good s p) (x : Call)
    (hstart : ∀ q ∈ x.paths, Start Good s.core p q) : Runs P s (x.body p) fun _ s' => Done calm s s' := by
  cases x with
  | dup fd => exact sysDup_spec h fd
  | read fd mem addr n r => exact sysRead_spec h fd mem addr n r
  | write fd mem addr n r => exact sysWrite_spec h fd mem addr n r
  | close fd => exact sysClose_spec h fd
  | fstat fd copied => exact sysFstat_spec h fd copied
  | link old new =>
    exact sysLink_spec h old new (fun q hq => hstart q (by simp [Call.paths, hq])) fun q hq =>
      hstart q (by simp [Call.paths, hq])
  | unlink path => exact sysUnlink_spec h path fun q hq => hstart q (by simp [Call.paths, hq])
  | «open» path omode => exact sysOpen_spec h path (fun q hq => hstart q (by simp [Call.paths, hq])) omode
  | mkdir path => exact sysCreate_spec h path (fun q hq => hstart q (by simp [Call.paths, hq])) 0 0 (by decide)
  | mknod path major minor =>
    exact sysCreate_spec h path (fun q hq => hstart q (by simp [Call.paths, hq])) major minor (by decide)
  | chdir path => exact sysChdir_spec h path fun q hq => hstart q (by simp [Call.paths, hq])
  | exec path reads r => exact sysExec_spec h path (fun q hq => hstart q (by simp [Call.paths, hq])) reads r
  | pipe page copied => exact sysPipe_spec h page copied
  | fork np => exact sysFork_spec h np
  | exit => exact sysExit_spec h

/-- A call of any process, which may not exist. -/
theorem sysCall_spec (hinv : Inv s) (h : (s.core.proc p).used = true → Env P calm Good s p) (x : Call)
    (hstart : ∀ q ∈ x.paths, Start Good s.core p q) : Runs P s (sysCall p x) fun _ s' => Done calm s s' := by
  refine get_spec ?_
  by_cases hused : (s.core.proc p).used = true
  · rw [if_pos hused]
    exact .bind (body_spec (h hused) x hstart) fun _ _ hd => Eff.Spec.ret hd
  · rw [if_neg hused]
    exact .ret hinv.same

end Xv6.Fs
