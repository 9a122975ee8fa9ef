import Xv6.Fs.CreateSpec

/-!
# Every system call

Each of the other system calls keeps the invariants, and then so do all
(`sysCall_spec`).
-/

namespace Xv6.Fs

open Function

variable {N : Nat} {s s' s0 : St (Nodes N)} {pins temps : List Slot} {b ip dp : Slot} {i d : Fin N} {p : Pid} {u : Users}
  {P : String → Prop} {calm : Prop} {Good : Fin N → Prop} {H : Slot → Prop} {f : FileId} {fd : Fd} {x : File}

/-! ## Descriptors -/

/-- The processes are as they should be, apart from their files. -/
structure Procs (proc : Pid → Proc) : Prop where
  cwd : ∀ p, (proc p).used = (proc p).cwd.isSome
  unused : ∀ p fd, (proc p).used = false → (proc p).ofile fd = none

theorem Inv.procs (h : Inv s) : Procs s.core.proc := ⟨h.cwd, h.unused⟩

variable {proc : Pid → Proc} {y : Proc} {g : List FileId}

theorem Procs.update (h : Procs proc) (hcwd : y.used = y.cwd.isSome)
    (hfd : ∀ fd, y.used = false → y.ofile fd = none) : Procs (update proc p y) := by
  refine ⟨fun q => ?_, fun q fd' hq => ?_⟩ <;> by_cases hqp : q = p
  · rw [hqp, update_self]; exact hcwd
  · rw [update_of_ne hqp]; exact h.cwd q
  · rw [hqp, update_self] at hq ⊢; exact hfd fd' hq
  · rw [update_of_ne hqp] at hq ⊢; exact h.unused q fd' hq

theorem Procs.setFd (h : Procs proc) {o : Option FileId} (hp : (proc p).used = true ∨ o = none) :
    Procs (Function.update proc p ((proc p).setFd fd o)) := by
  refine h.update (h.cwd p) fun fd' (hq : (proc p).used = false) => ?_
  show Function.update (proc p).ofile fd o fd' = none
  by_cases hfd : fd' = fd
  · rw [hfd, update_self]
    exact hp.resolve_left (by rw [hq]; decide)
  · rw [update_of_ne hfd]; exact h.unused p fd' hq

theorem Inv.done_of (h : Inv s) (hok : Ok s'.core.proc [] s' [] []) (hp : Procs s'.core.proc)
    (hh : s.core.hist.Le s'.core.hist) (htx : Txs calm s'.core.hist s.low s'.low) : Done calm s s' :=
  ⟨⟨hok, hp.cwd, hp.unused, htx.dots h.dots⟩, htx, hh⟩

/-! ## Opening files -/

theorem Created.ok (h : Env P calm Good s0 p) (hcr : Created calm s0 s ip i) : Ok s.core.proc [] s [] [ip] := by
  refine ⟨?_, ?_⟩
  · rw [hcr.keeps.proc]
    exact h.inv.ok.files.congr hcr.keeps.file hcr.keeps.pipe
  · rw [hcr.keeps.file, hcr.keeps.proc]
    exact hcr.cache

/-- The file that `filealloc` has found, after it was closed again, is as before. -/
theorem File.closed_withRef (hr : x.ref = 0) (ht : x.type = .none) : (x.withRef 1).closed = x := by
  cases x
  subst hr ht
  rfl

/-- The references to the inode cache, with a new file that is open. -/
theorem users_open {file : FileId → File} (hold : ∀ b, fileRef b (file f) = false) (hx : 0 < x.ref)
    (ht : x.type = .inode ∨ x.type = .device) (fd : Fd) (o : Option FileId) (c : Slot) :
    (users (update file f x) (update proc p ((proc p).setFd fd o))).count c =
    (users file proc).count c + [x.ip].count c := by
  have h1 := tally_update file (fileRef c) f x
  have h2 := tally_cwdRef_setFd proc p fd o c
  rw [hold c, fileRef_of_inode hx ht, ← count_slot_toNat, Bool.toNat_false, add_zero] at h1
  simp only [users, h1, h2]
  omega

theorem File.init_type (x : File) (ip : Slot) (a : Attrs) (omode : BitVec 32) :
    (x.init ip a omode).type = .inode ∨ (x.init ip a omode).type = .device := by
  unfold File.init
  split
  · exact .inr rfl
  · exact .inl rfl

/-- The end of `open`, which has set up the file `f`. -/
theorem openEnd_spec {t : St (Nodes N)} (h : Env P calm Good s0 p) (hcr : Created calm s0 s ip i)
    (hzero : (s.core.file f).ref = 0) (hr : x.ref = 1) (hip : x.ip = ip) (ht : x.type = .inode ∨ x.type = .device)
    (hw : x.type = .inode → x.writable = true → (s.low.node i).attrs.type ≠ tDir) (hfd : (s.core.proc p).ofile fd = none)
    (hicache : t.core.icache = s.core.icache) (hlow : t.low = s.low) (hfile : t.core.file = update s.core.file f x)
    (hproc : t.core.proc = update s.core.proc p ((s.core.proc p).setFd fd (some f))) (hpipe : t.core.pipe = s.core.pipe)
    (hhist : t.core.hist = s.core.hist) (omode : BitVec 32) :
    Runs P t (do
      if omode &&& oTrunc ≠ 0 ∧ (s.low.node i).attrs.type = tFile then itrunc ip
      iunlock ip
      endOp
      return (fd.val : Int)) fun _ s' => Done calm s0 s' := by
  have hok := hcr.ok h
  have hnone := hok.files.free f hzero
  have hold : ∀ b, fileRef b (s.core.file f) = false := fileRef_of_type (.inl hnone)
  -- the descriptor has the reference to the file, and the file has that to the inode
  have hfiles : Files t.core.proc [] t.core := by
    rw [hproc]
    have h1 := hok.files.filealloc hzero
    have h2 : Files s.core.proc [f] (s.core.setFile f x) := by
      have := h1.opened (f := f) (x := x) (by simp [File.withRef]) (by simpa [File.withRef] using hnone)
        (by simpa [File.withRef] using hr) ht
      rwa [Core.setFile_idem] at this
    have h3 : Files s.core.proc [f] t.core := h2.congr hfile hpipe
    refine h3.give (total_give hfd f) ?_
    rw [hfile, update_self]
    rcases ht with ht | ht <;> rw [ht] <;> decide
  have hc : Cache (users t.core.file t.core.proc) t [] [] := by
    have h1 : Cache (users s.core.file s.core.proc) t [] [ip] :=
      hok.cache.congr hicache (by rw [hlow]) (fun _ => rfl) fun _ => id
    have hti : ∀ j, Caches t.core ip j → j = i := fun j hj => by
      have := hj.2
      rw [hicache, hcr.loads.1.2] at this
      exact Fin.ext this.symm
    refine h1.give (fun c => ?_) (fun c hc => ?_) fun j hj => ?_
    · rw [hfile, hproc, ← hip]
      exact users_open hold (by omega) ht fd _ c
    · rw [hfile] at hc
      rcases writer_setFile hc with hc | ⟨h1, h2, h3⟩
      · exact .inl hc
      · refine .inr ⟨?_, fun j hj => ?_⟩
        · rw [fileRef_of_inode (by omega) ht] at h1
          exact (of_decide_eq_true h1).symm.trans hip
        · rw [hti j hj, hlow]
          exact hw h2 h3
    · rw [hti j hj, hlow]
      exact (hcr.cache.sync ip i hcr.loads).2
  have hprocs : Procs t.core.proc := by
    rw [hproc]
    have := h.inv.procs
    rw [← hcr.keeps.proc] at this
    exact this.setFd (.inl (by rw [hcr.keeps.proc]; exact h.used))
  have hloads : Loads t.core ip i := by
    have := hcr.loads
    rwa [Loads, Caches, ← hicache] at this
  have hend : ∀ t' : St (Nodes N), Cache (users t.core.file t.core.proc) t' [] [] → t'.core.file = t.core.file →
      t'.core.proc = t.core.proc → t'.core.pipe = t.core.pipe → t'.core.hist = t.core.hist → Loads t'.core ip i →
      t'.low.disks = s0.low.disks → Relation.ReflTransGen (Tx calm s.core.hist) s0.low.node t'.low.node →
      Runs P t' (do iunlock ip; endOp; return (fd.val : Int)) fun _ s' => Done calm s0 s' :=
    fun t' hc' hf' hp' hpi' hh' hl' hdisks' htx' => by
      refine .bind (iunlock_spec hl'.1) ?_
      rintro _ t' rfl
      refine endOp_run (.ret (h.inv.done_of ⟨?_, ?_⟩ ?_ ?_ ?_))
      · show Files t'.core.proc [] t'.core
        rw [hp']
        exact hfiles.congr hf' hpi'
      · show Cache (users t'.core.file t'.core.proc) _ [] []
        rw [hf', hp']
        exact hc'.moved rfl rfl
      · show Procs t'.core.proc
        rw [hp']
        exact hprocs
      · show s0.core.hist.Le t'.core.hist
        rw [hh', hhist]
        exact hcr.hist
      · show Txs calm t'.core.hist s0.low t'.low.commit
        rw [hh', hhist]
        exact .op hdisks' htx'
  by_cases htrunc : omode &&& oTrunc ≠ 0 ∧ (s.low.node i).attrs.type = tFile
  · rw [if_pos htrunc]
    have hattrs := (hc.sync ip i hloads).1
    refine itrunc_run hloads hattrs (hend _ ?_ rfl rfl rfl rfl ?_ ?_ ?_)
    · refine hc.update (y := { attrs := (t.low.node i).attrs.withSize 0 }) hloads rfl rfl rfl (fun hd => ?_) (hc.in_use hloads)
      rw [Attrs.withSize_type, hlow, htrunc.2] at hd
      cases hd
    · have := hloads
      simpa [Loads, Caches] using this
    · rw [hlow]
      exact hcr.disks
    · rw [hlow]
      refine hcr.txs.tail (.resize i 0 [] ?_ ?_ rfl)
      · rw [htrunc.2]; decide
      · rw [htrunc.2]; decide
  · rw [if_neg htrunc]
    exact hend t hc rfl rfl rfl rfl hloads (hlow ▸ hcr.disks) (hlow ▸ hcr.txs)

theorem openInode_spec (h : Env P calm Good s0 p) (hcr : Created calm s0 s ip i) (omode : BitVec 32)
    (hmode : omode &&& oWronly ≠ 0 ∨ omode &&& oRdwr ≠ 0 → (s.low.node i).attrs.type ≠ tDir) :
    Runs P s (openInode p ip omode) fun _ s' => Done calm s0 s' := by
  have hok := hcr.ok h
  refine get_spec ?_
  rw [(hcr.cache.sync ip i hcr.loads).1]
  by_cases hdev : (s.low.node i).attrs.type = tDevice ∧
    ((s.low.node i).attrs.major.toInt < 0 ∨ (ndev : Int) ≤ (s.low.node i).attrs.major.toInt)
  · rw [if_pos hdev]
    exact hcr.putEnd h _
  · rw [if_neg hdev]
    refine .bind (filealloc_spec hok) fun r s1 hr => ?_
    cases r with
    | none =>
      obtain rfl := hr
      exact hcr.putEnd h _
    | some f =>
      obtain ⟨hok1, hzero, rfl⟩ := hr
      have hnone := hok.files.free f hzero
      refine .bind fdalloc_spec fun r s2 hr => ?_
      cases r with
      | none =>
        obtain rfl := hr
        refine .bind (fileclose_none (Q := fun _ s' => s' = s) ?_ ?_ ?_) ?_
        · simp [File.withRef]
        · simpa [File.withRef] using hnone
        · simp only [St.withCore_core, Core.setFile_self, File.closed_withRef hzero hnone, Core.setFile_idem, Core.setFile_id]
          rfl
        · rintro _ _ rfl
          exact hcr.putEnd h _
      | some fd =>
        obtain ⟨hfd, rfl⟩ := hr
        refine modify_spec ?_
        refine openEnd_spec (x := ((s.core.file f).withRef 1).init ip (s.low.node i).attrs omode) h hcr hzero ?_ ?_
          (File.init_type ..) (fun _ hw => hmode (of_decide_eq_true hw)) hfd ?_ ?_ ?_ ?_ ?_ ?_ _
        · rfl
        · rfl
        · rfl
        · rfl
        · simp only [St.withCore_core, Core.setProc_file, Core.setFile_self]
          show update (update s.core.file f _) f _ = _
          rw [update_idem]
        · rfl
        · rfl
        · rfl

theorem sysOpen_spec (h : Env P calm Good s p) (path : Option Path) (hstart : ∀ q, path = some q → Start Good s.core p q)
    (omode : BitVec 32) : Runs P s (sysOpen p path omode) fun _ s' => Done calm s s' := by
  cases path with
  | none => exact .ret h.same
  | some path =>
    refine beginOp_run ?_
    by_cases hcreate : omode &&& oCreate ≠ 0
    · rw [if_pos hcreate]
      refine .bind (create_spec h (hstart path rfl) 0 0 (by decide)) fun r s1 hr => ?_
      cases r with
      | none => exact endOp_run (.ret (h.inv.quiet hr.1 hr.2))
      | some ip =>
        obtain ⟨i, hcr, hfile⟩ := hr
        exact openInode_spec h hcr omode fun _ => hfile rfl
    · rw [if_neg hcreate]
      refine h.lockPath (hstart path rfl) fun ip i s2 hc2 hb2 hq2 => get_spec ?_
      by_cases hdir : (s2.core.icache ip).attrs.type = tDir ∧ omode ≠ 0
      · rw [if_pos hdir]
        exact h.putEnd hc2 hq2 _
      · rw [if_neg hdir]
        refine openInode_spec h (.of_quiet hc2 hb2 hq2) omode fun hw htd => hdir ⟨?_, ?_⟩
        · rw [(hc2.sync ip i hb2).1, htd]
        · rintro rfl
          revert hw
          decide

/-! ## Programs -/

theorem readRanges_spec (hc : Cache u s pins temps) (hb : Loads s.core b i) (l : List (Nat × Nat)) :
    Runs P s (readRanges b l) fun _ s' => s' = s := by
  induction l with
  | nil => exact .ret rfl
  | cons x l ih =>
    refine low_ok (a := readLen (s.low.node i).attrs.size x.1 x.2) ?_ ih
    simp only [nodeHandler]
    exact onContents_eq hb (hc.sync b i hb).1

theorem sysExec_spec (h : Env P calm Good s p) (path : Option Path) (hstart : ∀ q, path = some q → Start Good s.core p q)
    (reads : List (Nat × Nat)) (r : Int) : Runs P s (sysExec p path reads r) fun _ s' => Done calm s s' := by
  cases path with
  | none => exact .ret h.same
  | some path =>
    refine beginOp_run (h.lockPath (hstart path rfl) fun ip i s2 hc2 hb2 hq2 =>
      Eff.Spec.bind (readRanges_spec hc2 hb2 reads) ?_)
    rintro _ s2 rfl
    exact h.putEnd hc2 hq2 _

/-! ## The current directory -/

theorem users_setProc (file : FileId → File) (proc : Pid → Proc) (p : Pid) (y : Proc) (c : Slot) :
    (users file (update proc p y)).count c + (cwdRef c (proc p)).toNat =
    (users file proc).count c + (cwdRef c y).toNat := by
  have := tally_update proc (cwdRef c) p y
  simp only [users]
  omega

theorem cwdRef_some {a : Slot} (h : y.cwd = some a) (c : Slot) : (cwdRef c y).toNat = [a].count c := by
  rw [cwdRef, h, count_slot_toNat]
  simp only [Option.some.injEq]

theorem cwdRef_none (h : y.cwd = none) (c : Slot) : (cwdRef c y).toNat = 0 := by
  rw [cwdRef, h]
  rfl

theorem fdRef_congr (hy : y.ofile = (proc p).ofile) (f : FileId) :
    total (update proc p y) (fdRef f) = total proc (fdRef f) :=
  total_update_eq (by unfold fdRef; rw [hy])

/-- The end of `chdir`, which drops the old directory and keeps the new one. -/
theorem chdirEnd_spec (h : Env P calm Good s0 p) (hc : Cache s0.users s [] [ip]) (hip : Loads s.core ip i)
    (hq : Quiet (Held s0.users [] []) s0 s) (hb : (s0.core.proc p).cwd = some b)
    (hpos : 0 < s0.users.count b) :
    Runs P s (do
      iput b
      endOp
      modify fun c => c.setProc p ((c.proc p).withCwd (some ip))
      return (0 : Int)) fun _ s' => Done calm s0 s' := by
  have hproc : s.core.proc = s0.core.proc := hq.keeps.proc
  have hfile : s.core.file = s0.core.file := hq.keeps.file
  have hlow : s.low = s0.low := hq.low
  by_cases hsame : ip = b
  · -- the directory is the same, so a temporary reference is dropped
    subst hsame
    refine .bind (iput_temp_spec hc) ?_
    rintro _ s1 ⟨hc1, hq1⟩
    refine endOp_run (modify_spec (.ret ?_))
    have hcwd : (s1.core.proc p).withCwd (some ip) = s1.core.proc p := by
      rw [hq1.keeps.proc, hproc, ← hb]
      rfl
    have hdone : Done calm s0 _ := h.inv.quiet hc1 (hq.trans hq1)
    simp only [St.withLow_core, hcwd, Core.setProc_id]
    exact hdone
  · obtain ⟨j, -, hj⟩ := hc.caches (b := b) (by unfold Held; omega)
    have htype : (s.low.node j).attrs.type ≠ 0 := hc.live b j hj hpos
    -- the process has no directory for a moment
    have hu : ∀ c, s0.users.count c =
        (users s0.core.file (update s0.core.proc p ((s0.core.proc p).withCwd none))).count c + [b].count c := fun c => by
      have := users_setProc s0.core.file s0.core.proc p ((s0.core.proc p).withCwd none) c
      rw [cwdRef_some hb, cwdRef_none rfl, add_zero] at this
      exact this.symm
    refine .bind (iput_pin_spec (hc.take hu fun _ => id) hj (by simpa using Ne.symm hsame)
      fun hn => hc.valid_of_unlinked hj htype hn) ?_
    rintro _ s1 ⟨hc1, hdrop, hh1, hk1⟩
    have hheld : Held (users s0.core.file (update s0.core.proc p ((s0.core.proc p).withCwd none))) [] [ip] ip :=
      Held.temp List.mem_cons_self
    have hip1 : Loads s1.core ip i := hc1.keeps_loads hk1 hheld hheld hip
    have hk0 : Keeps (fun _ => False) s0.core s1.core := hq.keeps.none.trans hk1.none
    refine endOp_run (modify_spec (.ret (h.inv.done_of ⟨?_, ?_⟩ ?_ ?_ ?_)))
    · show Files (update s1.core.proc p ((s1.core.proc p).withCwd (some ip))) [] _
      rw [hk0.proc]
      exact (h.inv.ok.files.reproc (fdRef_congr (y := (s0.core.proc p).withCwd (some ip)) rfl)).congr hk0.file hk0.pipe
    · show Cache (users s1.core.file (update s1.core.proc p ((s1.core.proc p).withCwd (some ip)))) _ [] []
      rw [hk0.file, hk0.proc]
      refine Cache.give (b := ip) (hc1.moved rfl rfl) (fun c => ?_) (fun c hc => .inl hc) fun k hk => ?_
      · have h1 := users_setProc s0.core.file s0.core.proc p ((s0.core.proc p).withCwd (some ip)) c
        have h2 : (users s0.core.file s0.core.proc).count c = _ := hu c
        rw [cwdRef_some hb, cwdRef_some (y := (s0.core.proc p).withCwd (some ip)) rfl] at h1
        omega
      · obtain rfl : i = k := Fin.ext (hip1.1.2.symm.trans hk.2)
        exact (hc1.sync ip i hip1).2
    · show Procs (update s1.core.proc p ((s1.core.proc p).withCwd (some ip)))
      rw [hk0.proc]
      exact h.inv.procs.update h.used fun fd hused => absurd (h.used.symm.trans hused) (by decide)
    · exact .of_eq (hh1.trans hq.hist)
    · refine .op (hdrop.disks.trans (by rw [hlow])) ?_
      rw [← hlow]
      exact hdrop.txs htype

theorem sysChdir_spec (h : Env P calm Good s p) (path : Option Path) (hstart : ∀ q, path = some q → Start Good s.core p q) :
    Runs P s (sysChdir p path) fun _ s' => Done calm s s' := by
  refine beginOp_run ?_
  cases path with
  | none =>
    refine .bind (.ret (Q := fun r s' => r = none ∧ s' = s) ⟨rfl, rfl⟩) ?_
    rintro _ _ ⟨rfl, rfl⟩
    exact endOp_run (.ret (h.inv.quiet h.inv.ok.cache (.refl (fun _ => False) _)))
  | some path =>
    refine h.lockPath (hstart path rfl) fun ip i s2 hc2 hb2 hq2 => get_spec ?_
    by_cases hdir : (s2.core.icache ip).attrs.type = tDir
    · rw [if_neg (not_not_intro hdir)]
      refine .bind (iunlock_spec hb2.1) ?_
      rintro _ s2 rfl
      have hproc : s2.core.proc = s.core.proc := hq2.keeps.proc
      obtain ⟨b, hb, hpos⟩ := h.inv.hasCwd h.used
      refine get_spec ?_
      rw [hproc, hb]
      exact chdirEnd_spec h hc2 hb2 hq2 hb hpos
    · rw [if_pos hdir]
      exact h.putEnd hc2 hq2 _

/-! ## Reading and closing -/

theorem total_pos (h : (proc p).ofile fd = some f) : 0 < total proc (fdRef f) := by
  have h1 := total_ge proc (fdRef f) p
  have h2 : 0 < fdRef f (proc p) := tally_pos (i := fd) (decide_eq_true h)
  omega

theorem argfd_run (n : Int) {k : Option (Fd × FileId) → FsProg Int} {Q : Int → St (Nodes N) → Prop}
    (hnone : Runs P s (k none) Q)
    (hsome : ∀ x, (s.core.proc p).ofile x.1 = some x.2 → Runs P s (k (some x)) Q) : Runs P s (argfd p n >>= k) Q := by
  refine get_spec ?_
  dsimp only
  split
  · cases hf : (s.core.proc p).ofile _ with
    | none => exact hnone
    | some f => exact hsome _ hf
  · exact hnone

theorem Ok.giveFd (h : Ok proc (f :: g) s pins temps) (hfd : (proc p).ofile fd = none)
    (hf : (s.core.file f).type ≠ .none) : Ok (update proc p ((proc p).setFd fd (some f))) g s pins temps := by
  refine ⟨h.files.give (total_give hfd f) hf, h.cache.congr rfl rfl (fun b => ?_) fun _ => id⟩
  simp only [users, tally_cwdRef_setFd]

theorem Ok.takeFd (h : Ok proc g s pins temps) (hfd : (proc p).ofile fd = some f) :
    Ok (update proc p ((proc p).setFd fd none)) (f :: g) s pins temps := by
  refine ⟨h.files.take (total_take hfd), h.cache.congr rfl rfl (fun b => ?_) fun _ => id⟩
  simp only [users, tally_cwdRef_setFd]

/-- Only the table of processes differs, which the invariant has as an argument. -/
theorem Ok.setProc (h : Ok proc g s pins temps) (y : Proc) :
    Ok proc g (s.withCore (s.core.setProc p y)) pins temps :=
  ⟨h.files.congr rfl rfl, h.cache.moved rfl rfl⟩

theorem sysDup_spec (h : Env P calm Good s p) (n : Int) : Runs P s (sysDup p n) fun _ s' => Done calm s s' := by
  refine argfd_run n (.ret h.same) fun x hfd => ?_
  have href := h.inv.ok.files.ref x.2
  have hpos := total_pos hfd
  refine .bind fdalloc_spec fun r s1 hr1 => ?_
  cases r with
  | none =>
    obtain rfl := hr1
    exact .ret h.same
  | some fd =>
    obtain ⟨hfree, rfl⟩ := hr1
    refine .bind (filedup_spec (h.inv.ok.setProc _) (by simp only [St.withCore_core, Core.setProc_file]; omega)) ?_
    rintro _ s2 ⟨hok2, hp2, ht2, hh2, hl2, -⟩
    refine .ret (h.inv.done_of ?_ ?_ (.of_eq hh2) ?_)
    · rw [hp2]
      exact hok2.giveFd hfree (by rw [ht2]; exact h.inv.ok.files.typed _ hpos)
    · rw [hp2]
      exact h.inv.procs.setFd (.inl h.used)
    · rw [hl2]
      exact .refl _

theorem sysClose_spec (h : Env P calm Good s p) (n : Int) : Runs P s (sysClose p n) fun _ s' => Done calm s s' := by
  refine argfd_run n (.ret h.same) fun x hfd => ?_
  refine modify_spec (.bind (fileclose_spec calm s.core.hist ((h.inv.ok.takeFd hfd).setProc _)) ?_)
  rintro _ s1 ⟨hok1, hp1, hh1, htx⟩
  refine .ret (h.inv.done_of ?_ ?_ (.of_eq hh1) ?_)
  · rw [hp1]
    exact hok1
  · rw [hp1]
    exact h.inv.procs.setFd (.inr rfl)
  · rw [hh1]
    exact htx

/-- An open file with an inode: its entry in the cache, and the inode. -/
theorem Inv.inode_of_file (h : Inv s) (hfd : (s.core.proc p).ofile fd = some f)
    (ht : (s.core.file f).type = .inode ∨ (s.core.file f).type = .device) :
    ∃ i : Fin N, Caches s.core (s.core.file f).ip i ∧ (s.low.node i).attrs.type ≠ 0 ∧
      ((s.core.file f).type = .inode → (s.core.file f).writable = true → (s.low.node i).attrs.type ≠ tDir) := by
  have hpos : 0 < (s.core.file f).ref := by
    have := h.ok.files.ref f
    have := total_pos hfd
    omega
  have href := fileRef_of_inode hpos ht (s.core.file f).ip
  rw [decide_eq_true rfl] at href
  have hu : 0 < (users s.core.file s.core.proc).count (s.core.file f).ip := lt_of_lt_of_le (tally_pos href) (le_self_add)
  obtain ⟨i, -, hi⟩ := h.ok.cache.caches (b := (s.core.file f).ip) (by unfold Held; omega)
  exact ⟨i, hi, h.ok.cache.live _ i hi hu, fun htype hw => h.ok.cache.solid _ i hi ⟨f, href, htype, hw⟩⟩

theorem filestat_spec (h : Env P calm Good s p) (hfd : (s.core.proc p).ofile fd = some f) (copied : Bool) :
    Runs P s (filestat f copied) fun _ s' => Done calm s s' := by
  have hlock : (s.core.file f).type = .inode ∨ (s.core.file f).type = .device →
      Runs P s (do
        ilock (s.core.file f).ip
        iunlock (s.core.file f).ip
        return if copied then (0 : Int) else -1) fun _ s' => Done calm s s' := fun ht => by
    obtain ⟨i, hi, htype, -⟩ := h.inv.inode_of_file hfd ht
    refine .bind (ilock_spec h.inv.ok.cache hi fun h0 => absurd h0 htype) ?_
    rintro _ s1 ⟨hc1, hb1, hq1⟩
    refine .bind (iunlock_spec hb1.1) ?_
    rintro _ s1 rfl
    refine .ret (h.inv.done hc1 hq1.keeps (.of_eq hq1.hist) ?_)
    rw [hq1.low]
    exact .refl _
  refine get_spec ?_
  cases ht : (s.core.file f).type with
  | none => exact .ret h.same
  | pipe => exact .ret h.same
  | inode => exact hlock (.inl ht)
  | device => exact hlock (.inr ht)

theorem sysFstat_spec (h : Env P calm Good s p) (n : Int) (copied : Bool) :
    Runs P s (sysFstat p n copied) fun _ s' => Done calm s s' := by
  exact argfd_run n (.ret h.same) fun x hfd => filestat_spec h hfd copied

/-- The file with another offset. -/
theorem Ok.setOff (h : Ok proc g s pins temps) (hf : x.type = (s.core.file f).type) (hr : x.ref = (s.core.file f).ref)
    (hi : x.ip = (s.core.file f).ip) (hrd : x.readable = (s.core.file f).readable) (hw : x.writable = (s.core.file f).writable)
    (hp : x.pipe = (s.core.file f).pipe) : Ok proc g (s.withCore (s.core.setFile f x)) pins temps := by
  have hends : ∀ pi w, EndOf x pi w ↔ EndOf (s.core.file f) pi w := fun pi w =>
    ⟨fun ⟨h1, h2, h3, h4, h5⟩ => ⟨hr ▸ h1, hf ▸ h2, hp ▸ h3, hw ▸ h4, hrd ▸ h5⟩,
      fun ⟨h1, h2, h3, h4, h5⟩ => ⟨hr ▸ h1, hf ▸ h2, hp ▸ h3, hw ▸ h4, hrd ▸ h5⟩⟩
  refine h.setFile (h.files.setFile ?_ (fun _ _ => rfl) ?_ ?_ hends ?_) (fun b => ?_) (fun h' => hw ▸ h') fun h' => hf ▸ h'
  · rw [hr]; exact h.files.ref f
  · rw [hr, hf]; exact h.files.free f
  · rw [hf]; exact h.files.typed f
  · rw [hr, hf]
    intro h1 h2
    obtain ⟨pi, w, he⟩ := h.files.side f h1 h2
    exact ⟨pi, w, (hends pi w).mpr he⟩
  · simp only [fileRef, hr, hf, hi]

theorem fileread_spec (h : Env P calm Good s p) (hfd : (s.core.proc p).ofile fd = some f) (mem : UserMem) (addr : Nat)
    (n r : Int) :
    Runs P s (fileread f mem addr n r) fun _ s' => Done calm s s' := by
  refine get_spec ?_
  by_cases hr : (s.core.file f).readable = false
  · rw [if_pos hr]
    exact .ret h.same
  · rw [if_neg hr]
    cases ht : (s.core.file f).type with
    | none => exact absurd ht (h.inv.ok.files.typed f (total_pos hfd))
    | pipe => exact .ret h.same
    | device => exact .ret h.same
    | inode =>
      obtain ⟨i, hi, htype, -⟩ := h.inv.inode_of_file hfd (.inl ht)
      refine .bind (ilock_spec h.inv.ok.cache hi fun h0 => absurd h0 htype) ?_
      rintro _ s1 ⟨hc1, hb1, hq1⟩
      refine low_ok (by simp only [nodeHandler]; exact onContents_eq hb1 (hc1.sync _ _ hb1).1) (modify_spec ?_)
      refine .bind (iunlock_spec (i := i) hb1.1) ?_
      rintro _ _ rfl
      have hdone : Done calm s s1 := h.inv.done hc1 hq1.keeps (.of_eq hq1.hist) (by rw [hq1.low]; exact .refl _)
      refine .ret (h.inv.done_of ?_ ?_ (.of_eq hq1.hist) ?_)
      · exact Ok.setOff hdone.inv.ok rfl rfl rfl rfl rfl rfl
      · exact hdone.inv.procs
      · exact hdone.txs

theorem sysRead_spec (h : Env P calm Good s p) (n : Int) (mem : UserMem) (addr : Nat) (k r : Int) :
    Runs P s (sysRead p n mem addr k r) fun _ s' => Done calm s s' := by
  exact argfd_run n (.ret h.same) fun x hfd => fileread_spec h hfd mem addr k r

/-! ## Writing -/

theorem Done.trans {s1 s2 : St (Nodes N)} (h : Done calm s s1) (h' : Done calm s1 s2) : Done calm s s2 :=
  ⟨h'.inv, (h.txs.mono h'.hist).trans h'.txs, h.hist.trans h'.hist⟩

theorem writeUser_spec (hc : Cache u s [] []) (hb : Loads s.core b i) (hfile : (s.low.node i).attrs.type ≠ tDir)
    (mem : UserMem) (src off n : Nat) :
    Runs P s (writeUser b mem src off n) fun _ s' => Cache u s' [] [] ∧ Keeps (fun _ => True) s.core s'.core ∧
      s'.core.hist = s.core.hist ∧ (s'.low = s.low ∨ ∃ size,
        s'.low = s.low.write i ⟨(s.low.node i).attrs.withSize size, (s.low.node i).ents⟩) := by
  have hattrs := (hc.sync b i hb).1
  by_cases hcan : canWrite (s.low.node i).attrs.size off n
  · have heq : ∃ size, nodeHandler _ (.writeUser b mem src off n) s.core s.low = .ok (some size)
        (s.low.write i ⟨(s.low.node i).attrs.withSize size, (s.low.node i).ents⟩) := by
      refine ⟨max (s.low.node i).attrs.size (off + progress (fun i m => copyOk mem (src + i) m) off n n 0), ?_⟩
      simp only [nodeHandler]
      rw [onContents_eq hb hattrs, if_pos hfile, if_pos hcan]
    obtain ⟨size, heq⟩ := heq
    refine low_ok heq (modify_spec (.ret ?_))
    refine ⟨?_, Keeps.setInode fun _ => ⟨rfl, id⟩, rfl, .inr ⟨_, rfl⟩⟩
    refine hc.update (y := ⟨(s.low.node i).attrs.withSize size, (s.low.node i).ents⟩) hb ?_ rfl rfl
      (fun hd => absurd hd hfile) (hc.in_use hb)
    show (s.core.setAttrs b _).icache = _
    simp only [St.withLow_core, hattrs]
    rfl
  · have heq : nodeHandler _ (.writeUser b mem src off n) s.core s.low = .ok none s.low := by
      simp only [nodeHandler]
      rw [onContents_eq hb hattrs, if_pos hfile, if_neg hcan]
    refine low_ok heq (.ret ?_)
    exact ⟨hc, Keeps.refl _ _, rfl, .inl rfl⟩

theorem filewriteLoop_spec (h : Inv s) (hfd : (s.core.proc p).ofile fd = some f) (ht : (s.core.file f).type = .inode)
    (hw : (s.core.file f).writable = true) (hb : (s.core.file f).ip = b) (mem : UserMem) (addr n k m : Nat) :
    Runs P s (filewriteLoop f b mem addr n k m) fun _ s' => Done calm s s' := by
  -- every iteration is a transaction that may change the size
  induction k generalizing s m with
  | zero => exact .ret h.same
  | succ k ih =>
    unfold filewriteLoop
    by_cases hlt : m < n
    · rw [if_pos hlt]
      generalize min (n - m) maxWrite = n1
      obtain ⟨i, hi, htype, hsolid⟩ := h.inode_of_file hfd (.inl ht)
      rw [hb] at hi
      have hc : Cache s.users s [] [] := h.ok.cache.moved rfl rfl
      refine beginOp_run (.bind (ilock_spec hc hi fun h0 => absurd h0 htype) ?_)
      rintro _ s1 ⟨hc1, hb1, hq1⟩
      have hlow1 : s1.low = s.low := hq1.low
      refine get_spec ?_
      refine .bind (writeUser_spec hc1 hb1 (by rw [hlow1]; exact hsolid ht hw) mem _ _ n1) ?_
      rintro ok s2 ⟨hc2, hk2, hh2, hl2⟩
      -- the transaction, and then the offset if it has written something
      have hk : Keeps (Held s.users [] []) s.core s2.core := hq1.keeps.trans (hk2.mono fun _ _ => trivial)
      have hdone : Done calm s (s2.withLow s2.low.commit) := by
        refine h.done (H := Held s.users [] []) (hc2.moved rfl rfl) ?_ (.of_eq (hh2.trans hq1.hist)) ?_
        · exact ⟨hk.file, hk.proc, hk.pipe, hk.inum, hk.valid⟩
        · rw [hlow1] at hl2
          rcases hl2 with hl2 | ⟨size, hl2⟩
          · rw [St.withLow_low, hl2]
            exact .quiet _ _ _
          · rw [St.withLow_low, hl2]
            refine Txs.op rfl (.single ?_)
            exact .resize i size _ htype (hsolid ht hw) rfl
      have hloads : Caches s2.core b i :=
        hc2.keeps_caches hk2 trivial (hc1.ref_pos.mp hb1.1.1) hb1.1
      cases ok with
      | false =>
        rw [if_neg Bool.false_ne_true]
        refine .bind (iunlock_spec hloads) ?_
        rintro _ s2 rfl
        exact endOp_run (.ret hdone)
      | true =>
        rw [if_pos rfl]
        refine modify_spec (.bind (iunlock_spec (i := i) hloads) ?_)
        rintro _ _ rfl
        refine endOp_run ?_
        rw [if_pos rfl]
        have hoff : Done calm s (((s2.withCore (s2.core.setFile f { s2.core.file f with
            off := ((s2.core.file f).off + n1) % 2 ^ 32 })).withLow s2.low.commit)) :=
          h.done_of (Ok.setOff (f := f) hdone.inv.ok rfl rfl rfl rfl rfl rfl) hdone.inv.procs hdone.hist hdone.txs
        have hfile : s2.core.file f = s.core.file f := by rw [hk.file]
        refine (ih hoff.inv ?_ ?_ ?_ ?_ _).mono fun _ s' h' => hoff.trans h'
        · show (s2.core.proc p).ofile fd = some f
          rw [hk.proc]
          exact hfd
        · simp [hfile, ht]
        · simp [hfile, hw]
        · simp [hfile, hb]
    · rw [if_neg hlt]
      exact .ret h.same

theorem filewrite_spec (h : Env P calm Good s p) (hfd : (s.core.proc p).ofile fd = some f) (mem : UserMem)
    (addr : Nat) (n r : Int) :
    Runs P s (filewrite f mem addr n r) fun _ s' => Done calm s s' := by
  refine get_spec ?_
  by_cases hw : (s.core.file f).writable = false
  · rw [if_pos hw]
    exact .ret h.same
  · rw [if_neg hw]
    cases ht : (s.core.file f).type with
    | none => exact absurd ht (h.inv.ok.files.typed f (total_pos hfd))
    | pipe => exact .ret h.same
    | device => exact .ret h.same
    | inode =>
      exact .bind (filewriteLoop_spec h.inv hfd ht (by simpa using hw) rfl mem addr _ _ _) fun _ _ hs => Eff.Spec.ret hs

theorem sysWrite_spec (h : Env P calm Good s p) (n : Int) (mem : UserMem) (addr : Nat) (k r : Int) :
    Runs P s (sysWrite p n mem addr k r) fun _ s' => Done calm s s' := by
  exact argfd_run n (.ret h.same) fun x hfd => filewrite_spec h hfd mem addr k r

end Xv6.Fs
