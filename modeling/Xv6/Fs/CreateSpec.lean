import Xv6.Fs.LinkSpec

/-!
# `create` and the calls that use it

`create` makes a file, a device or a directory, in the transaction of its
caller. For a directory the entries `.` and `..` are written before the name in
the parent.
-/

namespace Xv6.Fs

open Function List

variable {N : Nat} {s s' s0 : St (Nodes N)} {pins temps : List Slot} {b ip dp : Slot} {i d : Fin N} {p : Pid} {u : Users}
  {P : String → Prop} {calm : Prop} {Good : Fin N → Prop} {H : Slot → Prop}

/-- `create` has changed the file system and returns the inode `i`. -/
structure Created (calm : Prop) (s0 s : St (Nodes N)) (ip : Slot) (i : Fin N) : Prop where
  cache : Cache s0.users s [] [ip]
  loads : Loads s.core ip i
  keeps : Keeps (Held s0.users [] []) s0.core s.core
  hist : s0.core.hist.Le s.core.hist
  disks : s.low.disks = s0.low.disks
  txs : Relation.ReflTransGen (Tx calm s.core.hist) s0.low.node s.low.node

/-- Every entry that is in use is for an allocated inode. -/
theorem Cache.allocated (hc : Cache u s [] [dp]) (hdp : Loads s.core dp d) (b : Slot) (j : Fin N) (hb : Caches s.core b j) :
    (s.low.node j).attrs.type ≠ 0 := by
  have hheld := hc.ref_pos.mp hb.1
  by_cases hu : 0 < u.count b
  · exact hc.live b j hb hu
  · have hbd : b = dp := by
      unfold Held at hheld
      rw [count_singleton] at hheld
      by_contra hne
      rw [if_neg (by simpa using Ne.symm hne)] at hheld
      simp at hheld
      omega
    subst hbd
    obtain rfl : d = j := Fin.ext (hdp.1.2.symm.trans hb.2)
    exact (hc.sync b d hdp).2

variable {name : Name} {x : Attrs} {k : Nat} {type : BitVec 16}

/-- A new entry for an inode that has been created. -/
theorem newEntry_spec (h : Env P calm Good s0 p) (hc : Cache u s pins temps) (hb : Loads s.core dp d)
    (hdir : (s.low.node d).attrs.type = tDir) (hname : NameOk name) (i : Fin N)
    (hfresh : ∀ e ∈ (s.low.node d).ents, e.inum ≠ 0 → e.name ≠ name) :
    Runs P s (dirlink dp name i.val) fun r s' => r = true ∧
      (∃ k, Free (s.low.node d) k ∧ s'.low = s.low.write d ((s.low.node d).put k ⟨i.val, name⟩)) ∧
      Cache u s' pins temps ∧ s'.core.hist = s.core.hist ∧ Keeps (Held u pins temps) s.core s'.core := by
  refine (dirlink_spec h.small h.panics hc hb hdir hname i).mono ?_
  rintro r s' (⟨rfl, -, hk, hc', hh, hkeep⟩ | ⟨-, ⟨e, he, hne, hen⟩, -⟩)
  · exact ⟨rfl, hk, hc', hh, hkeep⟩
  · exact absurd hen (hfresh e he hne)

/-- `create` has allocated the inode `i`, with the attributes `x`. -/
structure Allocated (s0 s : St (Nodes N)) (dp ip : Slot) (d i : Fin N) (x : Attrs) : Prop where
  cache : Cache s0.users s [ip] [dp]
  dp : Loads s.core dp d
  ip : Loads s.core ip i
  keeps : Keeps (Held s0.users [] []) s0.core s.core
  hist : s.core.hist = s0.core.hist
  disks : s.low.disks = s0.low.disks
  ne : d ≠ i
  pos : 0 < i.val
  free : (s0.low.node i).attrs.type = 0
  node : s.low.node i = ⟨x, []⟩
  other : ∀ j, j ≠ i → s.low.node j = s0.low.node j
  nlink : x.nlink = 1

theorem nameOk_dot : NameOk dot := ⟨by decide, by decide⟩

theorem nameOk_dotdot : NameOk dotdot := ⟨by decide, by decide⟩

theorem Free.eq_zero (h : Free ⟨x, []⟩ k) : k = 0 := Nat.le_zero.mp h.1

theorem Free.eq_one {e : Dirent} (h : Free ⟨x, [e]⟩ k) (he : e.inum ≠ 0) : k = 1 := by
  have hle : k ≤ 1 := h.1
  by_contra hne
  obtain rfl : k = 0 := by omega
  exact he (h.2 one_pos)

section New

variable (h : Env P calm Good s0 p) (hname : NameOk name) (hdir : (s0.low.node d).attrs.type = tDir) (hgood : Good d)
  (hfresh : ∀ e ∈ (s0.low.node d).ents, e.inum ≠ 0 → e.name ≠ name)

include h hname hdir hgood hfresh

/-- The name for a new file. -/
theorem createFile_spec (ha : Allocated s0 s dp ip d i x) (halloc : x.type ≠ 0) (hfile : x.type ≠ tDir) :
    Runs P s (do
      if ← dirlink dp name (← inode ip).inum then
        iunlockput dp
        return ip
      else stop "create: dirlink") fun ip s' => ∃ i, Created calm s0 s' ip i ∧ (s'.low.node i).attrs.type = x.type := by
  have hd : s.low.node d = s0.low.node d := ha.other d ha.ne
  refine get_spec ?_
  rw [ha.ip.1.2]
  refine .bind (newEntry_spec h ha.cache ha.dp (by rw [hd]; exact hdir) hname i (by rw [hd]; exact hfresh)) ?_
  rintro r s1 ⟨rfl, ⟨k, hk, hlow1⟩, hc1, hh1, hk1⟩
  rw [hd] at hk hlow1
  refine .bind (iunlockput_temp_spec hc1) ?_
  rintro _ s2 ⟨hc2, hq2⟩
  have hpin : Held s0.users [ip] [] ip := Held.pin mem_cons_self
  have hkeep : Keeps (Held s0.users [ip] []) s.core s2.core := (hk1.mono fun _ => Held.cons).trans hq2.keeps
  have hip : Loads s2.core ip i := hc2.keeps_loads hkeep hpin hpin ha.ip
  have hlow2 : s2.low = s.low.write d ((s0.low.node d).put k ⟨i.val, name⟩) := by rw [hq2.low, hlow1]
  have hi : s2.low.node i = ⟨x, []⟩ := by rw [hlow2, Nodes.write_node, update_of_ne (Ne.symm ha.ne), ha.node]
  have hhist : s2.core.hist = s0.core.hist := by rw [hq2.hist, hh1, ha.hist]
  refine .ret ⟨i, ⟨hc2.unpin hip.1 ?_, hip, ha.keeps.trans (hkeep.mono fun _ => Held.cons_pin), .of_eq hhist,
    hlow2 ▸ ha.disks, .single ?_⟩, ?_⟩
  · rw [hi, ha.nlink]; decide
  · refine .create d i k name x ⟨hdir, hk, hfresh, fun hcalm => h.known.live hcalm d hgood⟩ ha.pos ha.free halloc
      hfile ha.nlink ?_ hi
      fun j hjd hji => ?_
    · rw [hlow2, Nodes.write_self]
    · rw [hlow2, Nodes.write_node, update_of_ne hjd, ha.other j hji]
  · rw [hi]

/-- The entries and the name for a new directory. -/
theorem createDir_spec (ha : Allocated s0 s dp ip d i x) (hx : x.type = tDir) (hsize : x.size = 0) :
    Runs P s (do
      incNlink dp
      iupdate dp
      if ← dirlink ip dot (← inode ip).inum then
        if ← dirlink ip dotdot (← inode dp).inum then pure () else stop "create dots"
      else stop "create dots"
      if ← dirlink dp name (← inode ip).inum then
        iunlockput dp
        return ip
      else stop "create: dirlink") fun ip s' => ∃ i, Created calm s0 s' ip i ∧ (s'.low.node i).attrs.type = x.type := by
  have hd : s.low.node d = s0.low.node d := ha.other d ha.ne
  have hdpin : Held s0.users [dp, ip] [] dp := Held.pin mem_cons_self
  have hipin : Held s0.users [dp, ip] [] ip := Held.pin (mem_cons_of_mem _ mem_cons_self)
  refine incNlink_spec ha.cache.pin ha.dp mem_cons_self fun s1 hlow1 hle1 hcount hc1 hk1 => ?_
  rw [hd] at hlow1 hcount
  have hip1 : Loads s1.core ip i := hc1.keeps_loads hk1 trivial hipin ha.ip
  have hdp1 : Loads s1.core dp d := hc1.keeps_loads hk1 trivial hdpin ha.dp
  have hi1 : s1.low.node i = ⟨x, []⟩ := by rw [hlow1, Nodes.write_node, update_of_ne (Ne.symm ha.ne), ha.node]
  -- "."
  refine get_spec ?_
  rw [hip1.1.2]
  refine .bind (newEntry_spec h hc1 hip1 (by rw [hi1]; exact hx) nameOk_dot i (by rw [hi1]; exact nofun)) ?_
  rintro r s2 ⟨rfl, ⟨k, hk, hlow2⟩, hc2, hh2, hk2⟩
  rw [hi1] at hk hlow2
  obtain rfl := hk.eq_zero
  have hip2 : Loads s2.core ip i := hc2.keeps_loads hk2 hipin hipin hip1
  have hdp2 : Loads s2.core dp d := hc2.keeps_loads hk2 hdpin hdpin hdp1
  have hi2 : s2.low.node i = ⟨x.withSize 16, [⟨i.val, dot⟩]⟩ := by
    rw [hlow2, Nodes.write_self]
    simp [Node.put, hsize]
  -- ".."
  refine get_spec ?_
  rw [hdp2.1.2]
  refine .bind (newEntry_spec h hc2 hip2 (by rw [hi2]; exact hx) nameOk_dotdot d ?_) ?_
  · rw [hi2]
    intro e he _
    rw [mem_singleton.mp he]
    show dot ≠ dotdot
    decide
  rintro r s3 ⟨rfl, ⟨k, hk, hlow3⟩, hc3, hh3, hk3⟩
  rw [hi2] at hk hlow3
  obtain rfl := hk.eq_one ha.pos.ne'
  have hip3 : Loads s3.core ip i := hc3.keeps_loads hk3 hipin hipin hip2
  have hdp3 : Loads s3.core dp d := hc3.keeps_loads hk3 hdpin hdpin hdp2
  have hi3 : s3.low.node i = ⟨(x.withSize 16).withSize 32, [⟨i.val, dot⟩, ⟨d.val, dotdot⟩]⟩ := by
    rw [hlow3, Nodes.write_self]
    simp [Node.put]
  have hother3 : ∀ j, j ≠ i → s3.low.node j = s1.low.node j := fun j hj => by
    rw [hlow3, Nodes.write_node, update_of_ne hj, hlow2, Nodes.write_node, update_of_ne hj]
  have hd3 : s3.low.node d = (s0.low.node d).relink ((s0.low.node d).attrs.nlink + 1) := by
    rw [hother3 d ha.ne, hlow1, Nodes.write_self]
  -- the name
  refine get_spec ?_
  rw [hip3.1.2]
  refine .bind (newEntry_spec h hc3 hdp3 (by rw [hd3]; exact hdir) hname i (by rw [hd3]; exact hfresh)) ?_
  rintro r s4 ⟨rfl, ⟨k, hk, hlow4⟩, hc4, hh4, hk4⟩
  rw [hd3] at hk hlow4
  have hdp4 : Loads s4.core dp d := hc4.keeps_loads hk4 hdpin hdpin hdp3
  refine .bind (iunlockput_pin_spec hc4 hdp4 not_mem_nil) ?_
  rintro _ s5 ⟨hc5, hdrop, hh5, hk5⟩
  obtain ⟨hset, hother5⟩ := hdrop.settled
  have hpin : Held s0.users [ip] [] ip := Held.pin mem_cons_self
  have hk35 : Keeps (Held s0.users [ip] []) s3.core s5.core := (hk4.mono fun _ => Held.cons_pin).trans hk5
  have hip5 : Loads s5.core ip i := hc5.keeps_loads hk35 hpin hpin hip3
  have hd4 : s4.low.node d = ((s0.low.node d).relink ((s0.low.node d).attrs.nlink + 1)).put k ⟨i.val, name⟩ := by
    rw [hlow4, Nodes.write_self]
  have hi5 : s5.low.node i = ⟨(x.withSize 16).withSize 32, [⟨i.val, dot⟩, ⟨d.val, dotdot⟩]⟩ := by
    rw [hother5 i (Ne.symm ha.ne), hlow4, Nodes.write_node, update_of_ne (Ne.symm ha.ne), hi3]
  have hhist : s5.core.hist = s1.core.hist := by rw [hh5, hh4, hh3, hh2]
  have hdisks4 : s4.low.disks = s0.low.disks := by
    rw [hlow4, hlow3, hlow2, hlow1]
    exact ha.disks
  refine .ret ⟨i, ⟨hc5.unpin hip5.1 ?_, hip5, ?_, ?_, hdrop.disks.trans hdisks4, .single ?_⟩, ?_⟩
  · rw [hi5]
    show x.nlink ≠ 0
    rw [ha.nlink]
    decide
  · exact ha.keeps.trans ((hk1.mono fun _ _ => trivial).trans (((hk2.trans hk3).mono fun _ h => h.cons_pin.cons_pin).trans
      (hk35.mono fun _ => Held.cons_pin)))
  · rw [hhist, ← ha.hist]
    exact hle1
  · rw [hhist]
    refine .mkdir d i k name _ ⟨hdir, hk, hfresh, fun hcalm => h.known.live hcalm d hgood⟩ ha.pos ha.free hcount ?_ ?_ ?_ hi5
      fun j hjd hji => ?_
    · exact hx
    · exact ha.nlink
    · rw [← hd4]
      exact hset
    · rw [hother5 j hjd, hlow4, Nodes.write_node, update_of_ne hjd, hother3 j hji, hlow1, Nodes.write_node,
        update_of_ne hjd, ha.other j hji]
  · rw [hi5]
    rfl

theorem createInode_spec {major minor : BitVec 16} (htype : type ≠ 0) (hc : Cache s0.users s [] [dp]) (hdp : Loads s.core dp d)
    (hq : Quiet (Held s0.users [] []) s0 s) :
    Runs P s (createInode dp name type major minor) fun ip s' => ∃ i, Created calm s0 s' ip i ∧
      (s'.low.node i).attrs.type = type := by
  have hlow : s.low = s0.low := hq.low
  have hnode : s.low.node = s0.low.node := by rw [hlow]
  refine get_spec ?_
  rw [hc.dev dp hdp.1.1]
  refine .bind (ialloc_spec h.panics htype hc (hc.allocated hdp)) ?_
  rintro ip s1 ⟨i, hi, hfree, hip1, hlow1, hh1, hc1, hk1⟩
  rw [hnode] at hfree
  have hdi : d ≠ i := by
    rintro rfl
    rw [hdir] at hfree
    exact nomatch hfree
  have hdheld : Held s0.users [ip] [dp] dp := Held.temp mem_cons_self
  have hiheld : Held s0.users [ip] [dp] ip := Held.pin mem_cons_self
  have hdp1 : Loads s1.core dp d := hc1.keeps_loads hk1 (.temp mem_cons_self) hdheld hdp
  have hi1 : s1.low.node i = { attrs := { type } } := by rw [hlow1, Nodes.write_self]
  refine .bind (ilock_spec hc1 hip1 fun h0 => absurd h0 (by rw [hi1]; exact htype)) ?_
  rintro _ s2 ⟨hc2, hip2, hq2⟩
  have hdp2 : Loads s2.core dp d := hc2.keeps_loads hq2.keeps hdheld hdheld hdp1
  have hi2 : s2.low.node i = { attrs := { type } } := by rw [hq2.low, hi1]
  refine modify_spec ?_
  rw [(hc2.sync ip i hip2).1, hi2]
  refine .bind (iupdate_spec (x := { type, major, minor, nlink := 1 }) (e := s2.core.hist) hc2 hip2 (by rw [hi2])
    (by rw [hi2]) fun _ => .inr mem_cons_self) ?_
  rintro _ s3 ⟨hlow3, hh3, hc3, hk3⟩
  have ha : Allocated s0 s3 dp ip d i { type, major, minor, nlink := 1 } := by
    refine ⟨hc3, hc3.keeps_loads hk3 trivial hdheld hdp2, hc3.keeps_loads hk3 trivial hiheld hip2, ?_, ?_, ?_, hdi, hi, hfree,
      ?_, fun j hj => ?_, rfl⟩
    · exact hq.keeps.trans ((hk1.mono fun _ => Held.cons).trans ((hq2.keeps.mono fun _ hb => hb.cons_pin.cons).trans
        (hk3.mono fun _ _ => trivial)))
    · rw [hh3, hq2.hist, hh1, hq.hist]
    · rw [hlow3, hq2.low, hlow1, hlow]
      rfl
    · rw [hlow3, Nodes.write_self, hi2]
    · rw [hlow3, Nodes.write_node, update_of_ne hj, hq2.low, hlow1, Nodes.write_node, update_of_ne hj, hnode]
  by_cases htd : type = tDir
  · rw [if_pos htd]
    exact createDir_spec h hname hdir hgood hfresh ha htd rfl
  · rw [if_neg htd]
    exact createFile_spec h hname hdir hgood hfresh ha htype htd

end New

/-- A call that has only looked for the inode that it returns. -/
theorem Created.of_quiet (hc : Cache s0.users s [] [ip]) (hip : Loads s.core ip i)
    (hq : Quiet (Held s0.users [] []) s0 s) : Created calm s0 s ip i := by
  have hlow : s.low = s0.low := hq.low
  exact ⟨hc, hip, hq.keeps, .of_eq hq.hist, by rw [hlow], by rw [hlow]⟩

theorem create_spec (h : Env P calm Good s p) {path : Path} (hstart : Start Good s.core p path)
    (major minor : BitVec 16) (htype : type ≠ 0) :
    Runs P s (create p path type major minor) fun r s' => match r with
      | none => Cache s.users s' [] [] ∧ Quiet (Held s.users [] []) s s'
      | some ip => ∃ i, Created calm s s' ip i ∧ (type = tFile → (s'.low.node i).attrs.type ≠ tDir) := by
  refine .bind (nameiparent_spec h.panics h.root h.known.closed hstart h.inv.ok.cache (h.inv.hasCwd h.used)) ?_
  rintro r s1 ⟨hq1, hr⟩
  cases r with
  | none => exact .ret ⟨hr, hq1⟩
  | some x =>
    obtain ⟨hname, d, hc1, hb1, hdir, hgood⟩ := hr
    refine .bind (ilock_spec hc1 hb1.1 fun h0 => absurd h0 (hc1.sync _ _ hb1).2) ?_
    rintro _ s2 ⟨hc2, hb2, hq2⟩
    replace hq2 := hq1.trans (hq2.mono fun _ => Held.cons)
    have hlow2 : s2.low = s.low := hq2.low
    refine .bind (dirlookup_spec h.panics hc2 hb2 (by rw [hlow2]; exact hdir) x.2) fun r s3 hr => ?_
    cases r with
    | none =>
      obtain ⟨rfl, hfresh⟩ := hr
      rw [hlow2] at hfresh
      refine .bind (createInode_spec h hname hdir hgood hfresh htype hc2 hb2 hq2) ?_
      rintro ip s4 ⟨i, hcr, ht⟩
      refine .ret ⟨i, hcr, fun htf => ?_⟩
      rw [ht, htf]
      decide
    | some y =>
      obtain ⟨k, -, i, hi, hentry, hc3, hip, hq3⟩ := hr
      rw [hlow2] at hentry
      have hgi := h.known.closed.entry d i _ hgood hdir (mem_of_getElem? hentry) rfl hi
      replace hq3 := hq2.trans (hq3.mono fun _ => Held.cons)
      have hc3' : Cache s.users s3 [] [x.1, y.1] := hc3.perm (.refl _) (.swap _ _ _)
      refine .bind (iunlockput_temp_spec hc3') ?_
      rintro _ s4 ⟨hc4, hq4⟩
      have hip4 : Caches s4.core y.1 i :=
        hc4.keeps_caches hq4.keeps (.temp mem_cons_self) (.temp mem_cons_self) hip
      replace hq4 := hq3.trans (hq4.mono fun _ => Held.cons)
      refine .bind (ilock_spec hc4 hip4 (by rw [hq4.low]; exact h.known.closed.typed i hgi)) ?_
      rintro _ s5 ⟨hc5, hip5, hq5⟩
      replace hq5 := hq4.trans (hq5.mono fun _ => Held.cons)
      refine get_spec ?_
      by_cases hfound : type = tFile ∧ ((s5.core.icache y.1).attrs.type = tFile ∨ (s5.core.icache y.1).attrs.type = tDevice)
      · rw [if_pos hfound]
        refine .ret ⟨i, .of_quiet hc5 hip5 hq5, fun _ => ?_⟩
        rw [← (hc5.sync _ _ hip5).1]
        rcases hfound.2 with ht | ht <;> rw [ht] <;> decide
      · rw [if_neg hfound]
        refine .bind (iunlockput_temp_spec hc5) ?_
        rintro _ s6 ⟨hc6, hq6⟩
        exact .ret ⟨hc6, hq5.trans hq6⟩

/-- The end of a transaction that drops the inode that `create` has returned. -/
theorem Created.putEnd (h : Env P calm Good s0 p) (hcr : Created calm s0 s ip i) (r : Int) :
    Runs P s (do iunlockput ip; endOp; return r) fun _ s' => Done calm s0 s' := by
  refine .bind (iunlockput_temp_spec hcr.cache) ?_
  rintro _ s1 ⟨hc1, hq1⟩
  refine endOp_run (.ret (h.inv.done (H := fun _ => False) (hc1.moved rfl rfl) ?_ ?_ ?_))
  · exact hcr.keeps.none.trans hq1.keeps.none
  · show s0.core.hist.Le s1.core.hist
    rw [hq1.hist]
    exact hcr.hist
  · show Txs calm s1.core.hist s0.low s1.low.commit
    rw [hq1.hist, hq1.low]
    exact .op hcr.disks hcr.txs

theorem sysCreate_spec (h : Env P calm Good s p) (path : Option Path) (hstart : ∀ q, path = some q → Start Good s.core p q)
    (major minor : BitVec 16) (htype : type ≠ 0) :
    Runs P s (sysCreate p path type major minor) fun _ s' => Done calm s s' := by
  refine beginOp_run ?_
  cases path with
  | none =>
    refine .bind (.ret (Q := fun r s' => r = none ∧ s' = s) ⟨rfl, rfl⟩) ?_
    rintro _ _ ⟨rfl, rfl⟩
    exact endOp_run (.ret (h.inv.quiet h.inv.ok.cache (.refl (fun _ => False) _)))
  | some path =>
    refine .bind (create_spec h (hstart path rfl) major minor htype) fun r s1 hr => ?_
    cases r with
    | none => exact endOp_run (.ret (h.inv.quiet hr.1 hr.2))
    | some ip =>
      obtain ⟨i, hcr, -⟩ := hr
      exact hcr.putEnd h _

end Xv6.Fs
