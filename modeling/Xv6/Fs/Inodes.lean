import Xv6.Fs.Cache

/-!
# The functions on inodes

What `iget`, `ilock`, `iput` and the others do to the inode cache and to the
table of inodes. Dropping a temporary reference changes nothing on the disk
(`iput_temp_spec`). Dropping a pin frees the inode exactly if it was the last
reference and there are no links (`iput_pin_spec`).
-/

namespace Xv6.Fs

variable {N : Nat} {u : Users} {s : St (Nodes N)} {pins temps : List Slot} {b : Slot} {i : Fin N}

/-- The panics that say that a table is full, and that of `exit` by the first process. -/
def exhausted : List String := ["iget: no inodes", "ialloc: no inodes", "dirlink", "init exiting"]

/-- The panics that say that a table is full, or that a system call itself can
cause. -/
def resources : List String := "unlink: nlink < 1" :: exhausted

/-- Every run on the table of inodes ends with a result that satisfies `Q`, or
with a panic that satisfies `P`. -/
abbrev Runs {α : Type} (P : String → Prop) (s : St (Nodes N)) (p : FsProg α) (Q : α → St (Nodes N) → Prop) : Prop :=
  p.Spec (handler nodeHandler) P s Q

variable {β : Type} {n : Nat} {q : Fin n → Bool}

theorem first_some {b : Fin n} (h : first q = some b) : q b = true :=
  List.find?_some (p := q) h

theorem first_none (h : first q = none) (b : Fin n) : q b = false := by
  have := List.find?_eq_none.mp h b (List.mem_finRange b)
  simpa using this

variable {P : String → Prop}

/-! ## References -/

/-- `iget` finds an entry of the cache, or recycles one. -/
theorem iget_run {dev inum : Nat} {Q : Slot → St (Nodes N) → Prop} (full : (∀ b, (s.core.icache b).ref ≠ 0) →
      (∀ c, 0 < (s.core.icache c).ref → (s.core.icache c).dev = dev → (s.core.icache c).inum ≠ inum) → P "iget: no inodes")
    (hit : ∀ b, 0 < (s.core.icache b).ref → (s.core.icache b).dev = dev → (s.core.icache b).inum = inum →
      Q b (s.withCore (s.core.setInode b { s.core.icache b with ref := (s.core.icache b).ref + 1 })))
    (miss : ∀ b, (∀ c, 0 < (s.core.icache c).ref → (s.core.icache c).dev = dev → (s.core.icache c).inum ≠ inum) →
      (s.core.icache b).ref = 0 →
      Q b (s.withCore (s.core.setInode b { s.core.icache b with dev, inum, ref := 1, valid := false }))) :
    Runs P s (iget dev inum) Q := by
  refine core_spec ?_
  cases hfound : first fun b => 0 < (s.core.icache b).ref && (s.core.icache b).dev = dev && (s.core.icache b).inum = inum with
  | some b =>
    have hq := first_some hfound
    simp only [Bool.and_eq_true, decide_eq_true_eq] at hq
    exact hit b hq.1.1 hq.1.2 hq.2
  | none =>
    have hother : ∀ c, 0 < (s.core.icache c).ref → (s.core.icache c).dev = dev → (s.core.icache c).inum ≠ inum :=
      fun c hr hd hi => by
      have := first_none hfound c
      simp [hr, hd, hi] at this
    cases hfree : first fun b => (s.core.icache b).ref = 0 with
    | some b => exact miss b hother (of_decide_eq_true (first_some hfree))
    | none => exact full (fun b => of_decide_eq_false (first_none hfree b)) hother

/-- The inode is cached, or an entry can be recycled for it. -/
def Room (s : St (Nodes N)) (i : Fin N) : Prop := (∃ b, Caches s.core b i) ∨ ∃ b, (s.core.icache b).ref = 0

/-- `iget` panics exactly if there is no room. -/
theorem iget_room (hP : ¬Room s i → P "iget: no inodes") (hc : Cache u s pins temps) (hi : 0 < i.val) :
    Runs P s (iget rootdev i.val) fun b s' =>
      Room s i ∧ Cache u s' pins (b :: temps) ∧ Caches s'.core b i ∧ Quiet (Held u pins temps) s s' := by
  refine iget_run (fun hfull hother => hP ?_)
    (fun b hr hd hb => ⟨.inl ⟨b, hr, hb⟩, hc.addTemp hr, ?_, Keeps.setInode fun _ => ⟨rfl, id⟩, rfl, rfl⟩)
    (fun b hn hr => ⟨.inr ⟨b, hr⟩, hc.recycle hr hi fun c hci => hn c hci.1 (hc.dev c hci.1) hci.2,
      ?_, Keeps.setInode fun hb => ?_, rfl, rfl⟩)
  · rintro (⟨b, hb⟩ | ⟨b, hb⟩)
    · exact hother b hb.1 (hc.dev b hb.1) hb.2
    · exact hfull b hb
  · simp [Caches, hb]
  · simp [Caches]
  · rw [← hc.ref_pos] at hb
    omega

theorem iget_spec (hP : ∀ m ∈ exhausted, P m) (hc : Cache u s pins temps) (hi : 0 < i.val) :
    Runs P s (iget rootdev i.val) fun b s' =>
      Cache u s' pins (b :: temps) ∧ Caches s'.core b i ∧ Quiet (Held u pins temps) s s' :=
  (iget_room (fun _ => hP _ (by decide)) hc hi).mono fun _ _ h => h.2

theorem idup_spec (hc : Cache u s pins temps) (hb : Caches s.core b i) :
    Runs P s (idup b) fun b' s' =>
      b' = b ∧ Cache u s' pins (b :: temps) ∧ Caches s'.core b i ∧ Quiet (Held u pins temps) s s' := by
  refine modify_spec (.ret ⟨rfl, hc.addTemp hb.1, ?_, Keeps.setInode fun _ => ⟨rfl, id⟩, rfl, rfl⟩)
  simp [Caches, hb.2]

/-! ## Locking -/

theorem ilock_spec (hc : Cache u s pins temps) (hb : Caches s.core b i)
    (ht : (s.low.node i).attrs.type = 0 → P "ilock: no type") :
    Runs P s (ilock b) fun _ s' => Cache u s' pins temps ∧ Loads s'.core b i ∧ Quiet (Held u pins temps) s s' := by
  refine get_spec ?_
  rw [if_neg (by have := hb.1; omega)]
  by_cases hv : (s.core.icache b).valid = true
  · rw [if_neg (by simp [hv])]
    exact .ret ⟨hc, ⟨hb, hv⟩, Quiet.refl _ s⟩
  · rw [if_pos (by simpa using hv)]
    have hfind : (s.core.icache b).find = some i := by simp [Inode.find, hb.2, i.isLt]
    refine .bind (Q := fun a s' => a = (s.low.node i).attrs ∧ s' = s) (low_spec ?_) ?_
    · simp only [nodeHandler, hfind]
      exact ⟨rfl, rfl⟩
    · rintro _ s ⟨rfl, rfl⟩
      refine modify_spec ?_
      by_cases hzero : (s.low.node i).attrs.type = 0
      · rw [if_pos hzero]
        exact stop_spec (ht hzero)
      · rw [if_neg hzero]
        refine .ret ⟨hc.load hb hzero, ?_, Keeps.setInode fun _ => ⟨rfl, fun _ => rfl⟩, rfl, rfl⟩
        simp [Loads, Caches, hb.1, hb.2]

theorem iunlock_spec (hb : Caches s.core b i) : Runs P s (iunlock b) fun _ s' => s' = s := by
  refine get_spec ?_
  rw [if_neg (by have := hb.1; omega)]
  exact .ret rfl

/-! ## Writing inodes -/

theorem find_eq (hb : Caches s.core b i) : (s.core.icache b).find = some i := by
  simp [Inode.find, hb.2, i.isLt]

section Loaded

variable (hb : Loads s.core b i) (ha : (s.core.icache b).attrs = (s.low.node i).attrs)

include hb ha

theorem onContents_eq {f : Fin N → Node → Res (Nodes N) β} : onContents b s.core s.low f = f i (s.low.node i) := by
  rw [onContents, find_eq hb.1]
  exact if_pos ⟨hb.2, hb.1.1, ha⟩

theorem itrunc_run {k : Unit → FsProg β} {Q : β → St (Nodes N) → Prop}
    (hk : Runs P ⟨s.core.setAttrs b ((s.low.node i).attrs.withSize 0),
      s.low.write i { attrs := (s.low.node i).attrs.withSize 0 }⟩ (k ()) Q) :
    Runs P s (itrunc b >>= k) Q := by
  refine .bind (Q := fun _ s' => s' = ⟨s.core.setAttrs b ((s.low.node i).attrs.withSize 0),
    s.low.write i { attrs := (s.low.node i).attrs.withSize 0 }⟩) ?_ (by rintro _ _ rfl; exact hk)
  refine low_ok (by simp only [nodeHandler]; exact onContents_eq hb ha) (.call ?_)
  show St.mk (s.core.setAttrs b ((s.core.icache b).attrs.withSize 0)) _ = _
  rw [ha]
  rfl

end Loaded

theorem iupdate_ok (hb : Loads s.core b i) (hsize : (s.core.icache b).attrs.size = (s.low.node i).attrs.size)
    (htype : (s.core.icache b).attrs.type = (s.low.node i).attrs.type ∨
      (s.core.icache b).attrs.type = 0 ∧ (s.low.node i).attrs.size = 0) :
    nodeHandler Unit (.iupdate b) s.core s.low = .ok () (s.low.write i ⟨(s.core.icache b).attrs, (s.low.node i).ents⟩) := by
  simp only [nodeHandler, find_eq hb.1]
  exact if_pos ⟨hb.2, hb.1.1, hsize, htype⟩

/-! ## Dropping references -/

/-- Without a reason to free the inode, `iput` only drops the reference. -/
theorem iput_drop {Q : Unit → St (Nodes N) → Prop}
    (hkeep : ¬ ((s.core.icache b).ref = 1 ∧ (s.core.icache b).valid = true ∧ (s.core.icache b).attrs.nlink = 0))
    (hq : Q () (s.withCore (s.core.setInode b { s.core.icache b with ref := (s.core.icache b).ref - 1 }))) :
    Runs P s (iput b) Q := by
  refine get_spec ?_
  rw [if_neg hkeep]
  exact .call hq

theorem iput_temp_spec (hc : Cache u s pins (b :: temps)) :
    Runs P s (iput b) fun _ s' => Cache u s' pins temps ∧ Quiet (Held u pins temps) s s' :=
  iput_drop hc.temp_in_use ⟨hc.dropTemp, Keeps.setInode fun _ => ⟨rfl, id⟩, rfl, rfl⟩

theorem iunlockput_temp_spec (hc : Cache u s pins (b :: temps)) :
    Runs P s (iunlockput b) fun _ s' => Cache u s' pins temps ∧ Quiet (Held u pins temps) s s' := by
  obtain ⟨i, -, hi⟩ := hc.caches (.temp List.mem_cons_self)
  refine .bind (iunlock_spec hi) ?_
  rintro _ _ rfl
  exact iput_temp_spec hc

/-- The table of inodes, where the inode `i` has been freed. -/
def Nodes.free (l : Nodes N) (i : Fin N) : Nodes N :=
  (l.write i { attrs := (l.node i).attrs.withSize 0 }).write i (l.node i).freed

theorem Nodes.free_node (l : Nodes N) (i : Fin N) :
    (l.free i).node = Function.update l.node i (l.node i).freed := by
  simp [free, write, Function.update_idem]

/-- What dropping a pin has done: it freed the inode, exactly if it was the last
reference and there are no links. -/
def Dropped (s s' : St (Nodes N)) (b : Slot) (i : Fin N) : Prop :=
  if (s.core.icache b).ref = 1 ∧ (s.low.node i).attrs.nlink = 0 then s'.low = s.low.free i else s'.low = s.low

theorem iput_pin_spec (hc : Cache u s (b :: pins) temps) (hb : Caches s.core b i) (htemp : b ∉ temps)
    (hv : (s.low.node i).attrs.nlink = 0 → (s.core.icache b).valid = true) :
    Runs P s (iput b) fun _ s' => Cache u s' pins temps ∧ Dropped s s' b i ∧ s'.core.hist = s.core.hist ∧
      Keeps (Held u pins temps) s.core s'.core := by
  by_cases hfree : (s.core.icache b).ref = 1 ∧ (s.low.node i).attrs.nlink = 0
  · have hb : Loads s.core b i := ⟨hb, hv hfree.2⟩
    obtain ⟨hattrs, htype⟩ := hc.sync b i hb
    have hheld : ¬ Held u pins temps b := by
      have := hc.ref b
      rw [List.count_cons_self] at this
      unfold Held
      omega
    refine get_spec ?_
    rw [if_pos ⟨hfree.1, hb.2, hattrs ▸ hfree.2⟩]
    refine itrunc_run hb hattrs (modify_spec ?_)
    simp only [St.withCore_mk, Core.setAttrs_self, Core.setAttrs_idem]
    refine low_ok (iupdate_ok (i := i) ?_ ?_ ?_) (modify_spec (.call ?_))
    · simp [Loads, Caches, hb.1.1, hb.1.2, hb.2]
    · simp
    · exact .inr ⟨by simp, by simp⟩
    · simp only [St.withLow_mk, St.withCore_mk, handler, Core.setAttrs_self, Core.setInode_setAttrs, Core.setInode_self,
        Core.setInode_idem, Nodes.write_self]
      refine ⟨hc.free hb.1 hfree.1 rfl (by simp [hfree.1]) (s.low.free_node i) rfl, ?_, rfl,
        Keeps.setInode fun h => (hheld h).elim⟩
      rw [Dropped, if_pos hfree]
      rfl
  · refine iput_drop (fun h => hfree ⟨h.1, ?_⟩) ⟨hc.dropPin hb htemp hv hfree, ?_, rfl, Keeps.setInode fun _ => ⟨rfl, id⟩⟩
    · exact (hc.sync b i ⟨hb, h.2.1⟩).1 ▸ h.2.2
    · rw [Dropped, if_neg hfree]
      rfl

theorem iunlockput_pin_spec (hc : Cache u s (b :: pins) temps) (hb : Loads s.core b i) (htemp : b ∉ temps) :
    Runs P s (iunlockput b) fun _ s' => Cache u s' pins temps ∧ Dropped s s' b i ∧ s'.core.hist = s.core.hist ∧
      Keeps (Held u pins temps) s.core s'.core := by
  refine .bind (iunlock_spec hb.1) ?_
  rintro _ s rfl
  exact iput_pin_spec hc hb.1 htemp fun _ => hb.2

/-! ## Changing inodes -/

/-- The attributes of an inode have been changed in memory, and are written. -/
theorem iupdate_spec {x : Attrs} {e : Hist} (hc : Cache u s pins temps) (hb : Loads s.core b i)
    (hsize : x.size = (s.low.node i).attrs.size) (htype : x.type = (s.low.node i).attrs.type)
    (horphan : x.nlink = 0 → 0 < u.count b ∨ b ∈ pins) :
    Runs P (s.withCore ((s.core.setAttrs b x).setHist e)) (iupdate b) fun _ s' =>
      s'.low = s.low.write i ⟨x, (s.low.node i).ents⟩ ∧ s'.core.hist = e ∧ Cache u s' pins temps ∧
        Keeps (fun _ => True) s.core s'.core := by
  have hok := iupdate_ok (s := s.withCore ((s.core.setAttrs b x).setHist e)) (b := b) (i := i)
    (by simp [Loads, Caches, hb.1.1, hb.1.2, hb.2]) (by simpa using hsize) (.inl (by simpa using htype))
  refine low_spec ?_
  rw [hok]
  simp only [Res.Holds, St.withCore_core, Core.setHist_icache, Core.setAttrs_self, St.withCore_low]
  refine ⟨rfl, rfl, hc.update (y := ⟨x, (s.low.node i).ents⟩) hb rfl rfl htype ?_ horphan, ?_⟩
  · intro hdir
    obtain ⟨hs, hm, hi⟩ := hc.dirs i (htype.symm.trans hdir)
    exact ⟨hsize.trans hs, hsize ▸ hm, hi⟩
  · have hk : Keeps (fun _ => True) s.core (s.core.setAttrs b x) := Keeps.setInode fun _ => ⟨rfl, id⟩
    exact ⟨rfl, rfl, rfl, hk.inum, hk.valid⟩

/-- `ialloc` finds a free inode. No entry of the cache is for it if they all are
for allocated ones. -/
theorem ialloc_spec (hP : ∀ m ∈ exhausted, P m) {type : BitVec 16} (htype : type ≠ 0) (hc : Cache u s pins temps)
    (hheld : ∀ b (i : Fin N), Caches s.core b i → (s.low.node i).attrs.type ≠ 0) :
    Runs P s (ialloc rootdev type) fun b s' => ∃ i : Fin N, 0 < i.val ∧ (s.low.node i).attrs.type = 0 ∧ Caches s'.core b i ∧
      s'.low = s.low.write i { attrs := { type } } ∧ s'.core.hist = s.core.hist ∧ Cache u s' (b :: pins) temps ∧
      Keeps (Held u pins temps) s.core s'.core := by
  refine .bind (Q := fun inum s' => ∃ i : Fin N, inum = i.val ∧ 0 < i.val ∧ (s.low.node i).attrs.type = 0 ∧
    s' = s.withLow (s.low.write i { attrs := { type } })) (low_spec ?_) ?_
  · simp only [nodeHandler]
    cases hfree : first fun i : Fin N => 0 < i.val && (s.low.node i).attrs.type = 0 with
    | none => exact hP _ (by decide)
    | some i =>
      have hq := first_some hfree
      simp only [Bool.and_eq_true, decide_eq_true_eq] at hq
      exact ⟨i, rfl, hq.1, hq.2, rfl⟩
  · rintro _ _ ⟨i, rfl, hi, hzero, rfl⟩
    have hn : ∀ b, ¬ Caches s.core b i := fun b hb => hheld b i hb hzero
    refine iget_run (fun _ _ => hP _ (by decide)) (fun b hr _ hb => (hn b ⟨hr, hb⟩).elim) fun b _ hr => ?_
    refine ⟨i, hi, hzero, by simp [Caches], rfl, rfl, hc.alloc hr hi hn htype rfl, Keeps.setInode fun hb => ?_⟩
    rw [← hc.ref_pos] at hb
    exact absurd hb (by have : (s.core.icache b).ref = 0 := hr; omega)

end Xv6.Fs
