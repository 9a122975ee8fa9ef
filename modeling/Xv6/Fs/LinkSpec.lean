import Xv6.Fs.FileSpec

/-!
# `link` and `unlink`

Between the calls the inode cache and the file table are as they should be
(`Inv`). A call keeps that, and what it does to the table of inodes is a number
of transactions (`Done`). It panics only if a table is full, or if it finds a
free inode where that is not excluded (`Known`).

`link` and `unlink` are the calls that change the number of links of an inode
that exists. Both pin it, so that it is freed where its last reference is
dropped and no link is left.
-/

namespace Xv6.Fs

open Function List

variable {N : Nat} {s s' s0 : St (Nodes N)} {pins temps : List Slot} {b ip dp : Slot} {i d : Fin N} {p : Pid} {u : Users}
  {P : String → Prop} {calm : Prop} {Good : Fin N → Prop} {H : Slot → Prop}

/-! ## Between the calls -/

structure Inv (s : St (Nodes N)) : Prop where
  ok : Ok s.core.proc [] s [] []
  cwd : ∀ p, (s.core.proc p).used = (s.core.proc p).cwd.isSome
  unused : ∀ p fd, (s.core.proc p).used = false → (s.core.proc p).ofile fd = none
  dots : Dots s.low.node

/-- What a system call has done. -/
structure Done (calm : Prop) (s s' : St (Nodes N)) : Prop where
  inv : Inv s'
  txs : Txs calm s'.core.hist s.low s'.low
  hist : s.core.hist.Le s'.core.hist

/-- The references to the inode cache between the calls. -/
abbrev St.users (s : St (Nodes N)) : Users := Fs.users s.core.file s.core.proc

/-- The inodes that path lookup can come to, and what is known of them. -/
structure Known (P : String → Prop) (calm : Prop) (Good : Fin N → Prop) (n : Table N) : Prop where
  closed : Closed P n Good
  live : calm → ∀ d, Good d → (n d).attrs.nlink ≠ 0
  /-- An inode that an entry other than `.` and `..` names has a link, unless that panic
  is allowed. -/
  counted : ∀ (d i : Fin N) (k : Nat) (name : Name), (n d).attrs.type = tDir → 0 < i.val →
    (n d).ents[k]? = some ⟨i.val, name⟩ → name ≠ dot →
    name ≠ dotdot → (n i).attrs.nlink.toInt < 1 → P "unlink: nlink < 1"

theorem Inv.hasCwd (h : Inv s) (hp : (s.core.proc p).used = true) : HasCwd s.users s.core p := by
  rw [h.cwd p] at hp
  obtain ⟨b, hb⟩ := Option.isSome_iff_exists.mp hp
  refine ⟨b, hb, ?_⟩
  have : 0 < tally s.core.proc (cwdRef b) := tally_pos (i := p) (by rw [cwdRef, hb]; exact decide_eq_true rfl)
  exact lt_of_lt_of_le this (le_add_self)

/-- A call that changes neither files nor processes. -/
theorem Inv.done (h : Inv s) (hc : Cache s.users s' [] []) (hk : Keeps H s.core s'.core)
    (hh : s.core.hist.Le s'.core.hist) (htx : Txs calm s'.core.hist s.low s'.low) : Done calm s s' := by
  refine ⟨⟨⟨?_, ?_⟩, ?_, ?_, htx.dots h.dots⟩, htx, hh⟩
  · rw [hk.proc]
    exact h.ok.files.congr hk.file hk.pipe
  · rw [hk.file, hk.proc]
    exact hc
  · rw [hk.proc]; exact h.cwd
  · rw [hk.proc]; exact h.unused

theorem Inv.same (h : Inv s) : Done calm s s :=
  h.done h.ok.cache (.refl (fun _ => False) _) (.refl _) (.refl _)

/-- A transaction ends that has changed nothing. -/
theorem Inv.quiet (h : Inv s) (hc : Cache s.users s' [] []) (hq : Quiet H s s') :
    Done calm s (s'.withLow s'.low.commit) := by
  refine h.done (H := H) (hc.moved rfl rfl) ?_ (.of_eq hq.hist) ?_
  · exact ⟨hq.keeps.file, hq.keeps.proc, hq.keeps.pipe, hq.keeps.inum, hq.keeps.valid⟩
  · rw [St.withLow_low, hq.low]
    exact .quiet _ _ _

theorem Closed.congr {n n' : Table N} (h : Closed P n Good) (ht : ∀ i, (n' i).attrs.type = (n i).attrs.type)
    (he : ∀ i, (n' i).ents = (n i).ents) : Closed P n' Good :=
  ⟨fun i hi h0 => h.typed i hi (by rw [← ht]; exact h0),
    fun d i a hd htd ha => h.entry d i a hd (by rw [← ht]; exact htd) (by rw [← he]; exact ha)⟩

theorem Start.congr {c c' : Core} {path : Path} (h : Start Good c p path) (hp : c'.proc = c.proc)
    (hb : ∀ b i, (c.proc p).cwd = some b → Caches c' b i → Caches c b (N := N) i) : Start Good c' p path :=
  ⟨h.root, fun ha hne b i hcwd hci => by
    rw [hp] at hcwd
    exact h.cwd ha hne b i hcwd (hb b i hcwd hci)⟩

/-! ## Links -/

section Links

variable {β : Type} {k : Unit → FsProg β} {Q : β → St (Nodes N) → Prop}

section Nlink

variable (hc : Cache u s pins temps) (hb : Loads s.core b i) (hpin : b ∈ pins)

include hc hb hpin

/-- `ip->nlink++` and `iupdate`. -/
theorem incNlink_spec
    (hk : ∀ s', s'.low = s.low.write i ((s.low.node i).relink ((s.low.node i).attrs.nlink + 1)) →
      s.core.hist.Le s'.core.hist → Counted s'.core.hist (s.low.node i).attrs.nlink → Cache u s' pins temps →
      Keeps (fun _ => True) s.core s'.core → Runs P s' (k ()) Q) :
    Runs P s (incNlink b >>= fun _ => iupdate b >>= k) Q := by
  have hattrs := (hc.sync b i hb).1
  refine modify_spec ?_
  rw [hattrs]
  refine .bind (iupdate_spec hc hb ?_ ?_ fun _ => .inr hpin) ?_
  · rfl
  · rfl
  · rintro _ s' ⟨hlow, hh, hc', hkeep⟩
    refine hk s' hlow ?_ ?_ hc' hkeep
    · rw [hh]
      exact ⟨fun h => (Bool.or_eq_false_iff.mp h).1, fun h => (Bool.or_eq_false_iff.mp h).1, id⟩
    · rw [hh]
      exact ⟨fun h => of_decide_eq_false (Bool.or_eq_false_iff.mp h).2,
        fun h => of_decide_eq_false (Bool.or_eq_false_iff.mp h).2⟩

/-- `ip->nlink--` and `iupdate`. -/
theorem decNlink_spec
    (hk : ∀ s', s'.low = s.low.write i ((s.low.node i).relink ((s.low.node i).attrs.nlink - 1)) →
      s'.core.hist = s.core.hist → Cache u s' pins temps → Keeps (fun _ => True) s.core s'.core → Runs P s' (k ()) Q) :
    Runs P s (decNlink b >>= fun _ => iupdate b >>= k) Q := by
  have hattrs := (hc.sync b i hb).1
  refine modify_spec ?_
  rw [hattrs]
  refine .bind (iupdate_spec (e := s.core.hist) hc hb ?_ ?_ fun _ => .inr hpin) ?_
  · rfl
  · rfl
  · rintro _ s' ⟨hlow, hh, hc', hkeep⟩
    exact hk s' hlow hh hc' hkeep

/-- `dropLink` and `iupdate`. -/
theorem dropLink_spec
    (hk : ∀ s', s'.low = s.low.write i ((s.low.node i).relink ((s.low.node i).attrs.nlink - 1)) →
      s.core.hist.Le s'.core.hist → (s'.core.hist.kept = false → (s.low.node i).attrs.nlink = 1 → (s.core.icache b).ref ≤ 1) →
      Cache u s' pins temps → Keeps (fun _ => True) s.core s'.core → Runs P s' (k ()) Q) :
    Runs P s (dropLink b >>= fun _ => iupdate b >>= k) Q := by
  have hattrs := (hc.sync b i hb).1
  let e : Hist := { s.core.hist with
    kept := s.core.hist.kept || ((s.low.node i).attrs.nlink = 1 && 1 < (s.core.icache b).ref) }
  refine .bind (Q := fun _ s' => s' = s.withCore ((s.core.setAttrs b ((s.low.node i).attrs.withNlink
    ((s.low.node i).attrs.nlink - 1))).setHist e)) ?_ ?_
  · refine modify_spec (core_spec ?_)
    show s.withCore _ = s.withCore _
    simp only [St.withCore_core, Core.setHist_icache, hattrs]
    rfl
  · rintro _ _ rfl
    refine .bind (iupdate_spec hc hb ?_ ?_ fun _ => .inr hpin) ?_
    · rfl
    · rfl
    · rintro _ s' ⟨hlow, hh, hc', hkeep⟩
      refine hk s' hlow ?_ ?_ hc' hkeep
      · rw [hh]
        exact ⟨id, id, fun h => (Bool.or_eq_false_iff.mp h).1⟩
      · rw [hh]
        intro h hn
        have := (Bool.or_eq_false_iff.mp h).2
        rw [decide_eq_true hn, Bool.true_and] at this
        exact Nat.le_of_not_lt (of_decide_eq_false this)

end Nlink

end Links

/-- The error exit of `link`, where only the number of links is different. -/
theorem unlinkBad_spec (h : Inv s0) (hc : Cache s0.users s [ip] []) (hb : Loads s.core ip i) (hk : Keeps H s0.core s.core)
    (hh : s0.core.hist.Le s.core.hist) (hdisks : s.low.disks = s0.low.disks) (halloc : (s0.low.node i).attrs.type ≠ 0)
    (hnode : s.low.node = update s0.low.node i ((s0.low.node i).relink ((s0.low.node i).attrs.nlink + 1))) :
    Runs P s (unlinkBad ip) fun _ s' => Done calm s0 s' := by
  have hself : s.low.node i = (s0.low.node i).relink ((s0.low.node i).attrs.nlink + 1) := by rw [hnode, update_self]
  refine .bind (ilock_spec hc hb.1 fun h0 => absurd h0 (by rw [hself]; exact halloc)) ?_
  rintro _ s1 ⟨hc1, hb1, hq1⟩
  refine decNlink_spec hc1 hb1 mem_cons_self fun s2 hlow2 hh2 hc2 hk2 => ?_
  have hb2 : Loads s2.core ip i := hc2.keeps_loads hk2 trivial (.pin mem_cons_self) hb1
  refine .bind (iunlockput_pin_spec hc2 hb2 not_mem_nil) ?_
  rintro _ s3 ⟨hc3, hdrop, hh3, hk3⟩
  refine endOp_run (.ret ?_)
  have hback : s2.low.node = s0.low.node := by
    rw [hlow2, hq1.low, Nodes.write_node, hself, Node.relink_nlink, BitVec.add_sub_cancel, hnode, update_idem]
    exact update_eq_self i s0.low.node
  have hdisks2 : s2.low.disks = s0.low.disks := by
    rw [hlow2, hq1.low]
    exact hdisks
  refine h.done (H := fun _ => False) (hc3.moved rfl rfl) ?_ ?_ ?_
  · exact (hk.none.trans hq1.keeps.none).trans
      (hk2.none.trans hk3.none)
  · show s0.core.hist.Le s3.core.hist
    rw [hh3, hh2, hq1.hist]
    exact hh
  · refine .op (hdrop.disks.trans hdisks2) ?_
    rw [← hback]
    exact hdrop.txs (by rw [hback]; exact halloc)

/-- What is assumed of a call by the process `p`: the disk has a root, its inode
numbers fit into directory entries, and panics that say that a table is full
are allowed. -/
structure Env (P : String → Prop) (calm : Prop) (Good : Fin N → Prop) (s : St (Nodes N)) (p : Pid) : Prop where
  small : N ≤ 2 ^ 16
  root : rootino < N
  panics : ∀ m ∈ exhausted, P m
  inv : Inv s
  used : (s.core.proc p).used = true
  known : Known P calm Good s.low.node

theorem Env.same (h : Env P calm Good s p) : Done calm s s := h.inv.same

/-- A transaction ends that drops the inode it has locked, and has changed
nothing. -/
theorem Env.putEnd (h : Env P calm Good s0 p) (hc : Cache s0.users s [] [b])
    (hq : Quiet (Held s0.users [] []) s0 s) (r : Int) :
    Runs P s (do iunlockput b; endOp; return r) fun _ s' => Done calm s0 s' := by
  refine .bind (iunlockput_temp_spec hc) ?_
  rintro _ s1 ⟨hc1, hq1⟩
  exact endOp_run (.ret (h.inv.quiet hc1 (hq.trans hq1)))

/-- A transaction looks up a path and locks the inode it finds. -/
theorem Env.lockPath (h : Env P calm Good s p) {path : Path} (hstart : Start Good s.core p path) {k : Slot → FsProg Int}
    (hk : ∀ ip (i : Fin N) s', Cache s.users s' [] [ip] → Loads s'.core ip i → Quiet (Held s.users [] []) s s' →
      Runs P s' (k ip) fun _ s' => Done calm s s') :
    Runs P s (do
      match ← namei p path with
      | none => endOp; return -1
      | some ip => ilock ip; k ip) fun _ s' => Done calm s s' := by
  refine .bind (namei_spec h.panics h.root h.known.closed hstart h.inv.ok.cache (h.inv.hasCwd h.used)) ?_
  rintro r s1 ⟨hq1, hr⟩
  cases r with
  | none => exact endOp_run (.ret (h.inv.quiet hr hq1))
  | some ip =>
    obtain ⟨i, hc1, hb1, htyped⟩ := hr
    refine .bind (ilock_spec hc1 hb1 (by rw [hq1.low]; exact htyped)) ?_
    rintro _ s2 ⟨hc2, hb2, hq2⟩
    exact hk ip i s2 hc2 hb2 (hq1.trans (hq2.mono fun _ => Held.cons))

/-- `link` has found the inode and has locked it. -/
theorem linkInode_spec (h : Env P calm Good s0 p) {new : Path} (hstart : Start Good s0.core p new)
    (hc : Cache s0.users s [ip] []) (hb : Loads s.core ip i) (hq : Quiet (Held s0.users [] []) s0 s)
    (hfile : (s0.low.node i).attrs.type ≠ tDir) (hpos : 0 < i.val) :
    Runs P s (linkInode p ip new) fun _ s' => Done calm s0 s' := by
  have hlow : s.low = s0.low := hq.low
  have hnode : s.low.node = s0.low.node := by rw [hlow]
  have halloc := (hc.sync ip i hb).2
  rw [hnode] at halloc
  refine incNlink_spec hc hb mem_cons_self fun s1 hlow1 hle1 hcount hc1 hk1 => ?_
  have hb1 : Loads s1.core ip i := hc1.keeps_loads hk1 trivial (.pin mem_cons_self) hb
  rw [hnode] at hcount
  rw [hlow] at hlow1
  have hnode1 : s1.low.node = update s0.low.node i ((s0.low.node i).relink ((s0.low.node i).attrs.nlink + 1)) := by
    rw [hlow1]; rfl
  have hk01 : Keeps (Held s0.users [] []) s0.core s1.core := hq.keeps.trans (hk1.mono fun _ _ => trivial)
  have hh1 : s0.core.hist.Le s1.core.hist := by
    have := hle1
    rwa [hq.hist] at this
  have hsame : ∀ j, j ≠ i → s1.low.node j = s0.low.node j := fun j hj => by rw [hnode1, update_of_ne hj]
  have hself : s1.low.node i = (s0.low.node i).relink ((s0.low.node i).attrs.nlink + 1) := by rw [hnode1, update_self]
  have hdisks1 : s1.low.disks = s0.low.disks := by rw [hlow1]; rfl
  refine .bind (iunlock_spec hb1.1) ?_
  rintro _ s1 rfl
  -- the second path is looked up where only the number of links is different
  have hG1 : Closed P s1.low.node Good := by
    refine h.known.closed.congr (fun j => ?_) fun j => ?_ <;> by_cases hj : j = i
    · rw [hj, hself]; rfl
    · rw [hsame j hj]
    · rw [hj, hself]; rfl
    · rw [hsame j hj]
  have hcwd := h.inv.hasCwd h.used
  have hstart1 : Start Good s1.core p new := by
    refine hstart.congr hk01.proc fun a j ha hj => ?_
    obtain ⟨a', ha', hpos⟩ := hcwd
    obtain rfl : a' = a := Option.some.inj (ha'.symm.trans ha)
    have hheld : Held s0.users [] [] a' := by unfold Held; omega
    exact ⟨h.inv.ok.cache.ref_pos.mpr hheld, (hk01.inum a' hheld).symm.trans hj.2⟩
  have hcwd1 : HasCwd s0.users s1.core p := by
    unfold HasCwd
    rw [hk01.proc]
    exact hcwd
  refine .bind (nameiparent_spec h.panics h.root hG1 hstart1 hc1 hcwd1) ?_
  rintro r s2 ⟨hq2, hr⟩
  have hkeep : ∀ {t : St (Nodes N)}, Quiet (Held s0.users [ip] []) s1 t → Keeps (fun _ => False) s0.core t.core := fun hqt =>
    hk01.none.trans hqt.keeps.none
  have hbad : ∀ {t : St (Nodes N)}, Cache s0.users t [ip] [] → Quiet (Held s0.users [ip] []) s1 t →
      Runs P t (unlinkBad ip) fun _ s' => Done calm s0 s' := fun hct hqt => by
    refine unlinkBad_spec h.inv hct ?_ (hkeep hqt) (by rw [hqt.hist]; exact hh1) ?_ halloc (by rw [hqt.low]; exact hnode1)
    · exact hct.keeps_loads hqt.keeps (.pin mem_cons_self) (.pin mem_cons_self) hb1
    · rw [hqt.low]
      exact hdisks1
  cases r with
  | none => exact hbad hr hq2
  | some x =>
    obtain ⟨hname, d, hc2, hb2, hdir, hgood⟩ := hr
    have hdi : d ≠ i := by
      rintro rfl
      rw [hself] at hdir
      exact hfile hdir
    refine .bind (ilock_spec hc2 hb2.1 fun h0 => absurd h0 (hc2.sync _ _ hb2).2) ?_
    rintro _ s3 ⟨hc3, hb3, hq3⟩
    replace hq3 := hq2.trans (hq3.mono fun _ => Held.cons)
    have hip3 : Loads s3.core ip i :=
      hc3.keeps_loads hq3.keeps (.pin mem_cons_self) (.pin mem_cons_self) hb1
    have hdev : (s3.core.icache x.1).dev = (s3.core.icache ip).dev := by rw [hc3.dev _ hb3.1.1, hc3.dev _ hip3.1.1]
    refine get_spec (get_spec ?_)
    rw [if_neg (not_not_intro hdev)]
    refine get_spec ?_
    rw [hip3.1.2]
    have hdir3 : (s3.low.node d).attrs.type = tDir := by rw [hq3.low]; exact hdir
    refine .bind (dirlink_spec h.small h.panics hc3 hb3 hdir3 hname i) ?_
    rintro r s4 (⟨rfl, hfresh, ⟨k, hfree, hlow4⟩, hc4, hh4, hk4⟩ | ⟨rfl, -, hc4, hq4⟩)
    · refine .bind (iunlockput_temp_spec hc4) ?_
      rintro _ s5 ⟨hc5, hq5⟩
      have hip5 : Loads s5.core ip i := hc5.keeps_loads ((hk4.mono fun _ => Held.cons).trans hq5.keeps)
        (.pin mem_cons_self) (.pin mem_cons_self) hip3
      refine .bind (iput_pin_spec hc5 hip5.1 not_mem_nil fun _ => hip5.2) ?_
      rintro _ s6 ⟨hc6, hdrop, hh6, hk6⟩
      refine endOp_run (.ret ?_)
      have hd3 : s3.low.node d = s0.low.node d := by rw [hq3.low, hsame d hdi]
      rw [hd3] at hlow4 hfree hfresh
      have hlow5 : s5.low = s1.low.write d ((s0.low.node d).put k ⟨i.val, x.2⟩) := by rw [hq5.low, hlow4, hq3.low]
      have hi5 : s5.low.node i = (s0.low.node i).relink ((s0.low.node i).attrs.nlink + 1) := by
        rw [hlow5, Nodes.write_node, update_of_ne (Ne.symm hdi), hself]
      have hdisks5 : s5.low.disks = s0.low.disks := hlow5 ▸ hdisks1
      have hhist : s6.core.hist = s1.core.hist := by rw [hh6, hq5.hist, hh4, hq3.hist]
      have hplace : Place calm s0.low.node d k x.2 := ⟨hd3 ▸ hdir3, hfree, hfresh, fun hcalm => h.known.live hcalm d hgood⟩
      obtain ⟨hset, hother⟩ := hdrop.settled
      rw [hi5] at hset
      refine h.inv.done (H := fun _ => False) (hc6.moved rfl rfl) ?_ (hhist ▸ hh1) ?_
      · exact (hkeep hq3).trans (hk4.none.trans (hq5.keeps.none.trans
          hk6.none))
      · refine .op (hdrop.disks.trans hdisks5) (.single ?_)
        rw [show (s6.withLow s6.low.commit).core.hist = _ from hhist]
        refine .link d i k x.2 hplace hpos halloc hfile hcount ?_ hset fun j hjd hji => ?_
        · rw [hother d hdi, hlow5, Nodes.write_self]
        · rw [hother j hji, hlow5, Nodes.write_node, update_of_ne hjd, hsame j hji]
    · refine .bind (iunlockput_temp_spec hc4) ?_
      rintro _ s5 ⟨hc5, hq5⟩
      exact hbad hc5 (hq3.trans ((hq4.mono fun _ => Held.cons).trans hq5))

theorem sysLink_spec (h : Env P calm Good s p) (old new : Option Path)
    (hold : ∀ path, old = some path → Start Good s.core p path) (hnew : ∀ path, new = some path → Start Good s.core p path) :
    Runs P s (sysLink p old new) fun _ s' => Done calm s s' := by
  cases old with
  | none => exact .ret h.inv.same
  | some old => cases new with
    | none => exact .ret h.inv.same
    | some new =>
      refine beginOp_run (h.lockPath (hold old rfl) fun ip i s2 hc2 hb2 hq2 => get_spec ?_)
      by_cases hdir : (s2.core.icache ip).attrs.type = tDir
      · rw [if_pos hdir]
        exact h.putEnd hc2 hq2 _
      · rw [if_neg hdir]
        rw [(hc2.sync ip i hb2).1, hq2.low] at hdir
        exact linkInode_spec h (hnew new rfl) hc2.pin hb2 hq2 hdir (hc2.pos hb2.1)

/-- The end of `unlink`, after the entry was removed. -/
theorem unlinkEnd_spec (h : Env P calm Good s0 p) (k : Nat) (name : Name) (hc : Cache s0.users s [dp, ip] [])
    (hdp : Loads s.core dp d) (hip : Loads s.core ip i) (hk : Keeps (Held s0.users [] []) s0.core s.core)
    (hh : s.core.hist = s0.core.hist) (hdisks : s.low.disks = s0.low.disks)
    (hne : d ≠ i) (hdir : (s0.low.node d).attrs.type = tDir) (hentry : (s0.low.node d).ents[k]? = some ⟨i.val, name⟩)
    (hdot : name ≠ dot) (hdotdot : name ≠ dotdot) (halloc : (s0.low.node i).attrs.type ≠ 0)
    (hlinked : 1 ≤ (s0.low.node i).attrs.nlink.toInt)
    (hempty : (s0.low.node i).attrs.type = tDir → ∀ e ∈ (s0.low.node i).ents.drop 2, e.inum = 0)
    (hd : s.low.node d = ((s0.low.node d).put k ⟨0, []⟩).relink
      (if (s0.low.node i).attrs.type = tDir then (s0.low.node d).attrs.nlink - 1 else (s0.low.node d).attrs.nlink))
    (hother : ∀ j, j ≠ d → s.low.node j = s0.low.node j) :
    Runs P s (do iunlockput dp; dropLink ip; iupdate ip; iunlockput ip; endOp; return 0 : FsProg Int) fun _ s' =>
      Done calm s0 s' := by
  refine .bind (iunlockput_pin_spec hc hdp not_mem_nil) ?_
  rintro _ s1 ⟨hc1, hdrop1, hh1, hk1⟩
  obtain ⟨hset1, hother1⟩ := hdrop1.settled
  have hpin : Held s0.users [ip] [] ip := Held.pin mem_cons_self
  have hip1 : Loads s1.core ip i := hc1.keeps_loads hk1 hpin hpin hip
  have hi1 : s1.low.node i = s0.low.node i := by rw [hother1 i (Ne.symm hne), hother i (Ne.symm hne)]
  refine dropLink_spec hc1 hip1 mem_cons_self fun s2 hlow2 hle2 hkept hc2 hk2 => ?_
  have hip2 : Loads s2.core ip i := hc2.keeps_loads hk2 trivial hpin hip1
  refine .bind (iunlockput_pin_spec hc2 hip2 not_mem_nil) ?_
  rintro _ s3 ⟨hc3, hdrop3, hh3, hk3⟩
  obtain ⟨hset3, hother3⟩ := hdrop3.settled
  refine endOp_run (.ret ?_)
  have hi2 : s2.low.node i = (s0.low.node i).relink ((s0.low.node i).attrs.nlink - 1) := by rw [hlow2, Nodes.write_self, hi1]
  have hother2 : ∀ j, j ≠ i → s2.low.node j = s1.low.node j := fun j hj => by
    rw [hlow2, Nodes.write_node, update_of_ne hj]
  have hdisks2 : s2.low.disks = s0.low.disks :=
    hlow2 ▸ hdrop1.disks.trans hdisks
  refine h.inv.done (H := fun _ => False) (hc3.moved rfl rfl) ?_ ?_ ?_
  · exact (hk.none.trans hk1.none).trans
      (hk2.none.trans hk3.none)
  · show s0.core.hist.Le s3.core.hist
    rw [hh3, ← hh, ← hh1]
    exact hle2
  · refine .op (hdrop3.disks.trans hdisks2) (.single ?_)
    refine .unlink d i k name hne hdir ?_ hentry hdot hdotdot halloc hlinked hempty ?_ ?_ (fun hkeep hn => ?_)
      fun j hjd hji => ?_
    · obtain ⟨j, hj, hij⟩ := hc.inum ip hip.1.1
      rw [← hip.1.2, hij]
      exact hj
    · show Settled _ (s3.low.node d)
      rw [hother3 d hne, hother2 d hne, ← hd]
      exact hset1
    · show Settled _ (s3.low.node i)
      rw [← hi2]
      exact hset3
    · -- without another reference the inode has been freed
      have hone : (s2.core.icache ip).ref = 1 := by
        have hle := hkept (by rw [← hh3]; exact hkeep) (by rw [hi1]; exact hn)
        have h1 := hc1.ref ip
        have h2 := hc2.ref ip
        rw [count_cons_self] at h1 h2
        omega
      have hzero : (s2.low.node i).attrs.nlink = 0 := by rw [hi2, Node.relink_nlink, hn]; rfl
      unfold Dropped at hdrop3
      rw [if_pos ⟨hone, hzero⟩] at hdrop3
      show (s3.low.node i).attrs.type = 0
      rw [hdrop3, Nodes.free_node, update_self]
      rfl
    · show s3.low.node j = _
      rw [hother3 j hji, hother2 j hji, hother1 j hjd, hother j hjd]

/-- `unlink` has found the entry and has locked both inodes. -/
theorem unlinkInode_spec (h : Env P calm Good s0 p) {k : Nat} (name : Name) (hc : Cache s0.users s [dp, ip] [])
    (hdp : Loads s.core dp d) (hip : Loads s.core ip i) (hq : Quiet (Held s0.users [] []) s0 s)
    (hne : d ≠ i) (hdir : (s0.low.node d).attrs.type = tDir) (hentry : (s0.low.node d).ents[k]? = some ⟨i.val, name⟩)
    (hdot : name ≠ dot) (hdotdot : name ≠ dotdot) (hlinked : 1 ≤ (s0.low.node i).attrs.nlink.toInt)
    (hempty : (s0.low.node i).attrs.type = tDir → ∀ e ∈ (s0.low.node i).ents.drop 2, e.inum = 0) :
    Runs P s (unlinkInode dp ip (16 * k)) fun _ s' => Done calm s0 s' := by
  have hlow : s.low = s0.low := hq.low
  have hnode : s.low.node = s0.low.node := by rw [hlow]
  have halloc := (hc.sync ip i hip).2
  rw [hnode] at halloc
  have hk : k < (s0.low.node d).ents.length := (List.getElem?_eq_some_iff.mp hentry).1
  have hdpin : Held s0.users [dp, ip] [] dp := Held.pin mem_cons_self
  have hipin : Held s0.users [dp, ip] [] ip := Held.pin (mem_cons_of_mem _ mem_cons_self)
  refine .bind (writeDirent_spec h.small hc hdp (by rw [hnode]; exact hdir) (by rw [hnode]; exact hk.le)
    (e := ⟨0, []⟩) (by have := h.root; show 0 < N; omega) ⟨Nat.zero_le _, not_mem_nil⟩) ?_
  rintro r s1 (⟨rfl, hlow1, hc1, hh1, hk1⟩ | ⟨rfl, hlen⟩)
  swap
  · rw [hnode] at hlen
    omega
  have hdp1 : Loads s1.core dp d := hc1.keeps_loads hk1 trivial hdpin hdp
  have hip1 : Loads s1.core ip i := hc1.keeps_loads hk1 trivial hipin hip
  rw [hlow] at hlow1
  have hi1 : s1.low.node i = s0.low.node i := by rw [hlow1, Nodes.write_node, update_of_ne (Ne.symm hne)]
  have hi1' := (hc1.sync ip i hip1).1
  rw [hi1] at hi1'
  refine get_spec ?_
  rw [hi1']
  have hdisks1 : s1.low.disks = s0.low.disks := by rw [hlow1]; rfl
  have hd1 : s1.low.node d = (s0.low.node d).put k ⟨0, []⟩ := by rw [hlow1, Nodes.write_self]
  have hother1 : ∀ j, j ≠ d → s1.low.node j = s0.low.node j := fun j hj => by
    rw [hlow1, Nodes.write_node, update_of_ne hj]
  have hk01 : Keeps (Held s0.users [] []) s0.core s1.core := hq.keeps.trans (hk1.mono fun _ _ => trivial)
  have hh01 : s1.core.hist = s0.core.hist := hh1.trans hq.hist
  by_cases hidir : (s0.low.node i).attrs.type = tDir
  · rw [if_pos hidir]
    refine decNlink_spec hc1 hdp1 mem_cons_self fun s2 hlow2 hh2 hc2 hk2 => ?_
    refine unlinkEnd_spec h k name hc2 (hc2.keeps_loads hk2 trivial hdpin hdp1)
      (hc2.keeps_loads hk2 trivial hipin hip1) (hk01.trans (hk2.mono fun _ _ => trivial)) (hh2.trans hh01) ?_ hne
        hdir hentry hdot
      hdotdot halloc hlinked hempty ?_ fun j hj => ?_
    · exact hlow2 ▸ hdisks1
    · rw [hlow2, Nodes.write_self, hd1, if_pos hidir]
      rfl
    · rw [hlow2, Nodes.write_node, update_of_ne hj, hother1 j hj]
  · rw [if_neg hidir]
    refine unlinkEnd_spec h k name hc1 hdp1 hip1 hk01 hh01 hdisks1 hne hdir hentry hdot hdotdot halloc hlinked
      hempty ?_ hother1
    rw [hd1, if_neg hidir]
    rfl

theorem sysUnlink_spec (h : Env P calm Good s p) (path : Option Path) (hstart : ∀ q, path = some q → Start Good s.core p q) :
    Runs P s (sysUnlink p path) fun _ s' => Done calm s s' := by
  cases path with
  | none => exact .ret h.same
  | some path =>
    refine beginOp_run (.bind (nameiparent_spec h.panics h.root h.known.closed (hstart path rfl) h.inv.ok.cache
      (h.inv.hasCwd h.used)) ?_)
    rintro r s1 ⟨hq1, hr⟩
    cases r with
    | none => exact endOp_run (.ret (h.inv.quiet hr hq1))
    | some x =>
      obtain ⟨hname, d, hc1, hb1, hdir, hgood⟩ := hr
      refine .bind (ilock_spec hc1 hb1.1 fun h0 => absurd h0 (hc1.sync _ _ hb1).2) ?_
      rintro _ s2 ⟨hc2, hb2, hq2⟩
      replace hq2 := hq1.trans (hq2.mono fun _ => Held.cons)
      have hlow2 : s2.low = s.low := hq2.low
      by_cases hdots : x.2 = dot ∨ x.2 = dotdot
      · rw [if_pos hdots]
        exact h.putEnd hc2 hq2 _
      · rw [if_neg hdots]
        have hdir2 : (s2.low.node d).attrs.type = tDir := by rw [hlow2]; exact hdir
        refine .bind (dirlookup_spec h.panics hc2 hb2 hdir2 x.2) fun r s3 hr => ?_
        cases r with
        | none =>
          obtain ⟨rfl, -⟩ := hr
          exact h.putEnd hc2 hq2 _
        | some y =>
          obtain ⟨k, hoff, i, hi, hentry, hc3, hip, hq3⟩ := hr
          rw [hlow2] at hentry
          have hgi := h.known.closed.entry d i _ hgood hdir (mem_of_getElem? hentry) rfl hi
          have hdp3 : Loads s3.core x.1 d := hc3.keeps_loads hq3.keeps (.temp mem_cons_self)
            (.temp (mem_cons_of_mem _ mem_cons_self)) hb2
          replace hq3 := hq2.trans (hq3.mono fun _ => Held.cons)
          refine .bind (ilock_spec hc3 hip (by rw [hq3.low]; exact h.known.closed.typed i hgi)) ?_
          rintro _ s4 ⟨hc4, hip4, hq4⟩
          have hdp4 : Loads s4.core x.1 d := hc4.keeps_loads hq4.keeps (.temp (mem_cons_of_mem _ mem_cons_self))
            (.temp (mem_cons_of_mem _ mem_cons_self)) hdp3
          replace hq4 := hq3.trans (hq4.mono fun _ h => h.cons.cons)
          have hlow4 : s4.low = s.low := hq4.low
          have hattrs : (s4.core.icache y.1).attrs = (s.low.node i).attrs := by rw [(hc4.sync _ _ hip4).1, hlow4]
          refine get_spec ?_
          rw [hattrs]
          by_cases hlinked : (s.low.node i).attrs.nlink.toInt < 1
          · rw [if_pos hlinked]
            rw [not_or] at hdots
            exact stop_spec (h.known.counted d i k x.2 hdir hi hentry hdots.1 hdots.2 hlinked)
          · rw [if_neg hlinked]
            -- both inodes are pinned for what follows
            have hend : ((s.low.node i).attrs.type = tDir → ∀ e ∈ (s.low.node i).ents.drop 2, e.inum = 0) →
                Runs P s4 (unlinkInode x.1 y.1 y.2) fun _ s' => Done calm s s' := fun hempty => by
              rw [hoff]
              have hdd := h.inv.dots d hdir
              rw [not_or] at hdots
              refine unlinkInode_spec h x.2 (hc4.pin.pin) hdp4 hip4 hq4 ?_ hdir hentry hdots.1 hdots.2 (by omega) hempty
              rintro rfl
              -- a directory with an entry of its own is not empty
              have hk := hdd.two_le_of_name hentry hdots.1 hdots.2
              refine hi.ne' (hempty hdir ⟨d.val, x.2⟩ (mem_of_getElem? (i := k - 2) ?_))
              rw [getElem?_drop, Nat.add_sub_cancel' hk]
              exact hentry
            by_cases hidir : (s.low.node i).attrs.type = tDir
            · rw [if_pos hidir]
              refine .bind (isdirempty_spec hc4 hip4 (by rw [hlow4]; exact hidir)) ?_
              rintro r s4 ⟨rfl, hr⟩
              rw [hlow4] at hr
              dsimp only
              cases r with
              | false =>
                rw [if_pos ⟨hidir, rfl⟩]
                refine .bind (iunlockput_temp_spec hc4) ?_
                rintro _ s5 ⟨hc5, hq5⟩
                exact h.putEnd hc5 (hq4.trans (hq5.mono fun _ => Held.cons)) _
              | true =>
                rw [if_neg (fun h => nomatch h.2)]
                exact hend fun _ => hr.mp rfl
            · rw [if_neg hidir]
              refine .bind (.ret (Q := fun r s' => r = true ∧ s' = s4) ⟨rfl, rfl⟩) ?_
              rintro r s4 ⟨rfl, rfl⟩
              dsimp only
              rw [if_neg (fun h => hidir h.1)]
              exact hend fun h => absurd h hidir

end Xv6.Fs
