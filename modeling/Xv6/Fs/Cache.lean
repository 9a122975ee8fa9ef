import Xv6.Framework.Tally
import Xv6.Fs.Node

/-!
# The inode cache

`Cache u s pins temps` is the invariant of the inode cache while a system call
runs. An entry's `ref` counts the references of open files and current
directories, `u`, and those of the call itself. Of these, `temps` are such as
path lookup takes and drops again, and `pins` are those for which the call may
let go of the inode's last link. Any other inode without links is in use by a
file or as a current directory, so dropping one of the `temps` never frees an
inode (`iput_temp_spec`), and looking up a path changes nothing on the disk.
-/

namespace Xv6.Fs

open Function List

variable {N : Nat}

/-- The entry `b` is in use, for the inode `i`. -/
def Caches (c : Core) (b : Slot) (i : Fin N) : Prop := 0 < (c.icache b).ref ∧ (c.icache b).inum = i.val

/-- The entry `b` is in use, for the inode `i`, and has been read from disk. -/
def Loads (c : Core) (b : Slot) (i : Fin N) : Prop := Caches c b i ∧ (c.icache b).valid = true

/-- The references to each entry from open files and current directories, and
the entries with a file that is open for writing. -/
structure Users where
  count : Slot → Nat
  writer : Slot → Prop
  pos : ∀ b, writer b → 0 < count b

/-- The entries of a directory are well formed. -/
structure DirOk (N : Nat) (x : Node) : Prop where
  size : x.attrs.size = 16 * x.ents.length
  fits : x.attrs.size ≤ maxfile * bsize
  inum : ∀ e ∈ x.ents, e.inum < N

structure Cache (u : Users) (s : St (Nodes N)) (pins temps : List Slot) : Prop where
  ref : ∀ b, (s.core.icache b).ref = u.count b + pins.count b + temps.count b
  uniq : ∀ b b' (i : Fin N), Caches s.core b i → Caches s.core b' i → b = b'
  dev : ∀ b, 0 < (s.core.icache b).ref → (s.core.icache b).dev = rootdev
  inum : ∀ b, 0 < (s.core.icache b).ref → ∃ i : Fin N, 0 < i.val ∧ (s.core.icache b).inum = i.val
  sync : ∀ b i, Loads s.core b i → (s.core.icache b).attrs = (s.low.node i).attrs ∧ (s.low.node i).attrs.type ≠ 0
  live : ∀ b i, Caches s.core b i → 0 < u.count b → (s.low.node i).attrs.type ≠ 0
  solid : ∀ b i, Caches s.core b i → u.writer b → (s.low.node i).attrs.type ≠ tDir
  dirs : ∀ i, (s.low.node i).attrs.type = tDir → DirOk N (s.low.node i)
  orphan : ∀ i, (s.low.node i).attrs.type ≠ 0 → (s.low.node i).attrs.nlink = 0 →
    ∃ b, Caches s.core b i ∧ ((s.core.icache b).valid = true ∧ 0 < u.count b ∨ b ∈ pins)

def Held (u : Users) (pins temps : List Slot) (b : Slot) : Prop := 0 < u.count b + pins.count b + temps.count b

/-- The entries in `H` still are for the same inodes, and those that were valid
are valid. Files and processes are not changed. -/
structure Keeps (H : Slot → Prop) (c c' : Core) : Prop where
  file : c'.file = c.file
  proc : c'.proc = c.proc
  pipe : c'.pipe = c.pipe
  inum : ∀ b, H b → (c'.icache b).inum = (c.icache b).inum
  valid : ∀ b, H b → (c.icache b).valid = true → (c'.icache b).valid = true

/-- Only the inode cache may have changed. -/
structure Quiet (H : Slot → Prop) (s s' : St (Nodes N)) : Prop where
  keeps : Keeps H s.core s'.core
  hist : s'.core.hist = s.core.hist
  low : s'.low = s.low

variable {u u' : Users} {s s' s'' : St (Nodes N)} {c c' c'' : Core} {pins temps : List Slot} {H H' : Slot → Prop}
  {b : Slot} {i : Fin N}

namespace Held

theorem temp (h : b ∈ temps) : Held u pins temps b := by
  have := count_pos_iff.mpr h
  unfold Held
  omega

theorem pin (h : b ∈ pins) : Held u pins temps b := by
  have := count_pos_iff.mpr h
  unfold Held
  omega

variable {a : Slot}

theorem cons (h : Held u pins temps b) : Held u pins (a :: temps) b := by
  unfold Held at *
  rw [count_cons]
  omega

theorem cons_pin (h : Held u pins temps b) : Held u (a :: pins) temps b := by
  unfold Held at *
  rw [count_cons]
  omega

end Held

namespace Keeps

theorem refl (H : Slot → Prop) (c : Core) : Keeps H c c := ⟨rfl, rfl, rfl, fun _ _ => rfl, fun _ _ h => h⟩

theorem mono (h : Keeps H c c') (hH : ∀ b, H' b → H b) : Keeps H' c c' :=
  { h with inum := fun b hb => h.inum b (hH b hb), valid := fun b hb => h.valid b (hH b hb) }

theorem none (h : Keeps H c c') : Keeps (fun _ => False) c c' := h.mono fun _ hb => hb.elim

theorem trans (h : Keeps H c c') (h' : Keeps H c' c'') : Keeps H c c'' where
  file := h'.file.trans h.file
  proc := h'.proc.trans h.proc
  pipe := h'.pipe.trans h.pipe
  inum := fun b hb => (h'.inum b hb).trans (h.inum b hb)
  valid := fun b hb hv => h'.valid b hb (h.valid b hb hv)

/-- A change of one entry. -/
theorem setInode {ip : Inode} (h : H b → ip.inum = (c.icache b).inum ∧ ((c.icache b).valid = true → ip.valid = true)) :
    Keeps H c (c.setInode b ip) := by
  refine ⟨rfl, rfl, rfl, fun a ha => ?_, fun a ha hv => ?_⟩ <;> by_cases hab : a = b
  · subst hab; rw [Core.setInode_self]; exact (h ha).1
  · rw [c.setInode_of_ne ip hab]
  · subst hab; rw [Core.setInode_self]; exact (h ha).2 hv
  · rw [c.setInode_of_ne ip hab]; exact hv

end Keeps

namespace Quiet

theorem refl (H : Slot → Prop) (s : St (Nodes N)) : Quiet H s s := ⟨Keeps.refl H s.core, rfl, rfl⟩

theorem mono (h : Quiet H s s') (hH : ∀ b, H' b → H b) : Quiet H' s s' := { h with keeps := h.keeps.mono hH }

theorem trans (h : Quiet H s s') (h' : Quiet H s' s'') : Quiet H s s'' :=
  ⟨h.keeps.trans h'.keeps, h'.hist.trans h.hist, h'.low.trans h.low⟩

end Quiet

namespace Cache

theorem ref_pos (h : Cache u s pins temps) : 0 < (s.core.icache b).ref ↔ Held u pins temps b := by
  rw [h.ref b, Held]

theorem caches (h : Cache u s pins temps) (hb : Held u pins temps b) : ∃ i : Fin N, 0 < i.val ∧ Caches s.core b i := by
  obtain ⟨i, hi, hinum⟩ := h.inum b (h.ref_pos.mpr hb)
  exact ⟨i, hi, h.ref_pos.mpr hb, hinum⟩

theorem pos (h : Cache u s pins temps) (hb : Caches s.core b i) : 0 < i.val := by
  obtain ⟨j, hj, hinum⟩ := h.inum b hb.1
  rw [← hb.2, hinum]
  exact hj

section Keeps

variable (h' : Cache u s' pins temps) (hk : Keeps H s.core s'.core) (hH : H b) (hb : Held u pins temps b)

include h' hk hH hb

theorem keeps_caches (hi : Caches s.core b i) : Caches s'.core b i :=
  ⟨h'.ref_pos.mpr hb, (hk.inum b hH).trans hi.2⟩

theorem keeps_loads (hi : Loads s.core b i) : Loads s'.core b i :=
  ⟨h'.keeps_caches hk hH hb hi.1, hk.valid b hH hi.2⟩

end Keeps

variable {pins' temps' : List Slot} {ip : Inode} {y : Node}

theorem perm (h : Cache u s pins temps) (hp : pins'.Perm pins) (ht : temps'.Perm temps) :
    Cache u s pins' temps' :=
  { h with
    ref := fun b => by rw [hp.count_eq, ht.count_eq]; exact h.ref b
    orphan := fun i ht hn => by
      obtain ⟨b, hb, ho⟩ := h.orphan i ht hn
      exact ⟨b, hb, ho.imp_right hp.mem_iff.mpr⟩ }

section Congr

variable (h : Cache u s pins temps) (hi : s'.core.icache = s.core.icache) (hn : s'.low.node = s.low.node)

include h hi hn

/-- Only what the cache is not about differs. -/
theorem congr
    (hu : ∀ b, u'.count b = u.count b) (hw : ∀ b, u'.writer b → u.writer b) : Cache u' s' pins temps := by
  have hc : ∀ b (i : Fin N), Caches s'.core b i ↔ Caches s.core b i := fun b i => by rw [Caches, Caches, hi]
  refine ⟨fun b => ?_, fun b b' i => ?_, fun b => ?_, fun b => ?_, fun b i => ?_, fun b i => ?_, fun b i => ?_, fun i => ?_,
    fun i => ?_⟩
  · rw [hi, hu]; exact h.ref b
  · rw [hc, hc]; exact h.uniq b b' i
  · rw [hi]; exact h.dev b
  · rw [hi]; exact h.inum b
  · rw [Loads, hc, hi, hn]; exact h.sync b i
  · rw [hc, hu, hn]; exact h.live b i
  · rw [hc, hn]; exact fun hb hb' => h.solid b i hb (hw b hb')
  · rw [hn]; exact h.dirs i
  · rw [hn, hi]
    simp only [hc, hu]
    exact h.orphan i

theorem moved : Cache u s' pins temps :=
  h.congr hi hn (fun _ => rfl) fun _ => id

end Congr

/-- A reference for which the last link may go. -/
theorem pin (h : Cache u s pins (b :: temps)) : Cache u s (b :: pins) temps :=
  { h with
    ref := fun c => by
      have := h.ref c
      rw [count_cons] at this ⊢
      omega
    orphan := fun i ht hn => by
      obtain ⟨c, hc, ho⟩ := h.orphan i ht hn
      exact ⟨c, hc, ho.imp_right (mem_cons_of_mem b)⟩ }

/-- An inode that has links need not be pinned. -/
theorem unpin (h : Cache u s (b :: pins) temps) (hb : Caches s.core b i) (hn : (s.low.node i).attrs.nlink ≠ 0) :
    Cache u s pins (b :: temps) :=
  { h with
    ref := fun c => by
      have := h.ref c
      rw [count_cons] at this ⊢
      omega
    orphan := fun j ht hnj => by
      obtain ⟨c, hc, ho⟩ := h.orphan j ht hnj
      refine ⟨c, hc, ho.imp_right fun hp => (mem_cons.mp hp).resolve_left ?_⟩
      rintro rfl
      obtain rfl : i = j := Fin.ext (hb.2.symm.trans hc.2)
      exact hn hnj }

/-- A file or a process takes over a reference. -/
theorem give (h : Cache u s pins (b :: temps)) (hu : ∀ c, u'.count c = u.count c + [b].count c)
    (hw : ∀ c, u'.writer c → u.writer c ∨ c = b ∧ ∀ i, Caches s.core b i → (s.low.node i).attrs.type ≠ tDir)
    (hb : ∀ i, Caches s.core b i → (s.low.node i).attrs.type ≠ 0) : Cache u' s pins temps :=
  { h with
    ref := fun c => by
      have := h.ref c
      rw [count_cons] at this
      rw [hu c, count_singleton, this]
      omega
    live := fun c i hc hp => by
      by_cases hcb : c = b
      · subst hcb; exact hb i hc
      · rw [hu c, count_singleton, if_neg (by simpa using Ne.symm hcb)] at hp
        exact h.live c i hc hp
    solid := fun c i hc hp => by
      rcases hw c hp with hp | ⟨rfl, hd⟩
      · exact h.solid c i hc hp
      · exact hd i hc
    orphan := fun i ht hn => by
      obtain ⟨c, hc, ho⟩ := h.orphan i ht hn
      exact ⟨c, hc, ho.imp_left fun ⟨hv, hp⟩ => ⟨hv, by rw [hu c]; omega⟩⟩ }

section Take

variable (h : Cache u s pins temps)

include h

/-- The call takes over the reference of a file or a process. -/
theorem take (hu : ∀ c, u.count c = u'.count c + [b].count c) (hw : ∀ c, u'.writer c → u.writer c) :
    Cache u' s (b :: pins) temps :=
  { h with
    ref := fun c => by
      rw [h.ref c, hu c, count_singleton, count_cons]
      omega
    live := fun c i hc hp => h.live c i hc (by rw [hu c]; omega)
    solid := fun c i hc hp => h.solid c i hc (hw c hp)
    orphan := fun i ht hn => by
      obtain ⟨c, hc, ho⟩ := h.orphan i ht hn
      refine ⟨c, hc, ?_⟩
      by_cases hcb : c = b
      · exact .inr (hcb ▸ mem_cons_self)
      · rcases ho with ⟨hv, hp⟩ | hp
        · rw [hu c, count_singleton, if_neg (by simpa using Ne.symm hcb)] at hp
          exact .inl ⟨hv, hp⟩
        · exact .inr (mem_cons_of_mem b hp) }

/-- A change of one entry, and of nothing else: its `ref`, and whether it is
valid. -/
theorem setInode
    (hcore : s'.core.icache = Function.update s.core.icache b ip) (hlow : s'.low = s.low)
    (hother : ∀ c, c ≠ b → pins'.count c + temps'.count c = pins.count c + temps.count c)
    (href : ip.ref = u.count b + pins'.count b + temps'.count b)
    (huniq : ∀ c (i : Fin N), c ≠ b → 0 < ip.ref → ip.inum = i.val → ¬ Caches s.core c i)
    (hdev : 0 < ip.ref → ip.dev = rootdev) (hinum : 0 < ip.ref → ∃ i : Fin N, 0 < i.val ∧ ip.inum = i.val)
    (hsync : ∀ i : Fin N, 0 < ip.ref → ip.inum = i.val → ip.valid = true →
      ip.attrs = (s.low.node i).attrs ∧ (s.low.node i).attrs.type ≠ 0)
    (hlive : 0 < ip.ref → 0 < u.count b → ip.inum = (s.core.icache b).inum)
    (horphan : ∀ i c, (s.low.node i).attrs.type ≠ 0 → (s.low.node i).attrs.nlink = 0 → Caches s.core c i →
      (s.core.icache c).valid = true ∧ 0 < u.count c ∨ c ∈ pins →
      (c ≠ b → (s.core.icache c).valid = true ∧ 0 < u.count c ∨ c ∈ pins') ∧
      (c = b → 0 < ip.ref ∧ ip.inum = i.val ∧ (ip.valid = true ∧ 0 < u.count b ∨ b ∈ pins'))) :
    Cache u s' pins' temps' := by
  obtain ⟨hself, hne⟩ := Function.eq_update_iff.1 hcore
  have hcaches : ∀ c (i : Fin N), c ≠ b → (Caches s'.core c i ↔ Caches s.core c i) := fun c i hc => by
    simp only [Caches, hne c hc]
  have hback : ∀ c (i : Fin N), Caches s'.core c i → 0 < u.count c → Caches s.core c i := fun c i hc hu => by
    by_cases hcb : c = b
    · subst hcb
      rw [Caches, hself] at hc
      exact ⟨by rw [h.ref c]; omega, (hlive hc.1 hu).symm.trans hc.2⟩
    · exact (hcaches c i hcb).mp hc
  refine ⟨fun c => ?_, fun c c' i hc hc' => ?_, fun c hc => ?_, fun c hc => ?_, fun c i hc => ?_, fun c i hc hu => ?_,
    fun c i hc hw => ?_, by rw [hlow]; exact h.dirs, fun i ht hn => ?_⟩
  · by_cases hcb : c = b
    · subst hcb; rw [hself, href]
    · rw [hne c hcb, h.ref c, add_assoc, ← hother c hcb, ← add_assoc]
  · by_cases hcb : c = b <;> by_cases hcb' : c' = b
    · rw [hcb, hcb']
    · subst hcb
      rw [Caches, hself] at hc
      exact absurd ((hcaches c' i hcb').mp hc') (huniq c' i hcb' hc.1 hc.2)
    · subst hcb'
      rw [Caches, hself] at hc'
      exact absurd ((hcaches c i hcb).mp hc) (huniq c i hcb hc'.1 hc'.2)
    · exact h.uniq c c' i ((hcaches c i hcb).mp hc) ((hcaches c' i hcb').mp hc')
  · by_cases hcb : c = b
    · subst hcb; rw [hself] at hc ⊢; exact hdev hc
    · rw [hne c hcb] at hc ⊢; exact h.dev c hc
  · by_cases hcb : c = b
    · subst hcb; rw [hself] at hc ⊢; exact hinum hc
    · rw [hne c hcb] at hc ⊢; exact h.inum c hc
  · rw [hlow]
    by_cases hcb : c = b
    · subst hcb
      rw [Loads, Caches, hself] at hc
      rw [hself]
      exact hsync i hc.1.1 hc.1.2 hc.2
    · rw [Loads, hcaches c i hcb, hne c hcb] at hc
      rw [hne c hcb]
      exact h.sync c i hc
  · rw [hlow]
    exact h.live c i (hback c i hc hu) hu
  · rw [hlow]
    exact h.solid c i (hback c i hc (u.pos c hw)) hw
  · rw [hlow] at ht hn
    obtain ⟨c, hc, ho⟩ := h.orphan i ht hn
    obtain ⟨h1, h2⟩ := horphan i c ht hn hc ho
    by_cases hcb : c = b
    · obtain ⟨hr, hi, ho⟩ := h2 hcb
      exact ⟨b, by rw [Caches, hself]; exact ⟨hr, hi⟩, by rw [hself]; exact ho⟩
    · exact ⟨c, (hcaches c i hcb).mpr hc, by rw [hne c hcb]; exact h1 hcb⟩

/-- One more reference to an entry that is in use. -/
theorem addTemp (hb : 0 < (s.core.icache b).ref) :
    Cache u (s.withCore (s.core.setInode b { s.core.icache b with ref := (s.core.icache b).ref + 1 })) pins (b :: temps) := by
  have hcount : ∀ c, c ≠ b → (b :: temps).count c = temps.count c := fun c hc => count_cons_of_ne (Ne.symm hc)
  obtain ⟨i, hi, hinum⟩ := h.inum b hb
  refine h.setInode rfl rfl (fun c hc => by rw [hcount c hc]) ?_ (fun c j hc _ hj hcj => ?_)
    (fun _ => h.dev b hb) (fun _ => ⟨i, hi, hinum⟩) (fun j _ hj hv => h.sync b j ⟨⟨hb, hj⟩, hv⟩) (fun _ _ => rfl)
    (fun j c _ _ hc ho => ⟨fun _ => ho, ?_⟩)
  · simp only [count_cons_self, h.ref b]
    omega
  · exact hc (h.uniq c b j hcj ⟨hb, hj⟩)
  · rintro rfl
    exact ⟨Nat.succ_pos _, hc.2, ho⟩

/-- An entry that is not in use is recycled, for an inode that is not cached. -/
theorem recycle (hb : (s.core.icache b).ref = 0) (hi : 0 < i.val) (hn : ∀ c, ¬ Caches s.core c i) :
    Cache u (s.withCore (s.core.setInode b { s.core.icache b with dev := rootdev, inum := i.val, ref := 1, valid := false }))
      pins (b :: temps) := by
  have hcount : ∀ c, c ≠ b → (b :: temps).count c = temps.count c := fun c hc => count_cons_of_ne (Ne.symm hc)
  have href := h.ref b
  refine h.setInode rfl rfl (fun c hc => by rw [hcount c hc]) ?_ (fun c j hc _ hj hcj => ?_)
    (fun _ => rfl) (fun _ => ⟨i, hi, rfl⟩) (fun j _ _ hv => nomatch hv) (fun _ hu => by omega)
    (fun j c _ _ hc ho => ⟨fun _ => ho, ?_⟩)
  · simp only [count_cons_self]
    omega
  · exact hn c (Fin.ext hj ▸ hcj)
  · rintro rfl
    exact absurd hc.1 (by omega)

/-- `ilock` has read the inode. -/
theorem load (hb : Caches s.core b i) (ht : (s.low.node i).attrs.type ≠ 0) :
    Cache u (s.withCore (s.core.setInode b { s.core.icache b with attrs := (s.low.node i).attrs, valid := true }))
      pins temps := by
  refine h.setInode rfl rfl (fun c _ => rfl) (h.ref b) (fun c j hc _ hj hcj => ?_)
    (fun _ => h.dev b hb.1) (fun _ => h.inum b hb.1) (fun j _ hj _ => ?_) (fun _ _ => rfl)
    (fun j c _ _ hc ho => ⟨fun _ => ho, ?_⟩)
  · exact hc (h.uniq c b j hcj ⟨hb.1, hj⟩)
  · obtain rfl : i = j := Fin.ext (hb.2.symm.trans hj)
    exact ⟨rfl, ht⟩
  · rintro rfl
    exact ⟨hb.1, hc.2, ho.imp_left fun ⟨_, hu⟩ => ⟨rfl, hu⟩⟩

end Take

/-- A temporary reference is dropped. -/
theorem dropTemp (h : Cache u s pins (b :: temps)) :
    Cache u (s.withCore (s.core.setInode b { s.core.icache b with ref := (s.core.icache b).ref - 1 })) pins temps := by
  have hcount : ∀ c, c ≠ b → (b :: temps).count c = temps.count c := fun c hc => count_cons_of_ne (Ne.symm hc)
  have href := h.ref b
  rw [count_cons_self] at href
  have hb : 0 < (s.core.icache b).ref := by omega
  refine h.setInode rfl rfl (fun c hc => by rw [hcount c hc]) ?_ (fun c j hc _ hj hcj => ?_)
    (fun _ => h.dev b hb) (fun _ => h.inum b hb) (fun j _ hj hv => h.sync b j ⟨⟨hb, hj⟩, hv⟩) (fun _ _ => rfl)
    (fun j c _ _ hc ho => ⟨fun _ => ho, ?_⟩)
  · show (s.core.icache b).ref - 1 = _
    omega
  · exact hc (h.uniq c b j hcj ⟨hb, hj⟩)
  · rintro rfl
    have hpos : 0 < u.count c + pins.count c := by
      rcases ho with ⟨_, hu⟩ | hp
      · omega
      · have := count_pos_iff.mpr hp; omega
    exact ⟨by show 0 < (s.core.icache c).ref - 1; omega, hc.2, ho⟩

/-- Dropping a temporary reference does not free the inode. -/
theorem temp_in_use (h : Cache u s pins (b :: temps)) :
    ¬ ((s.core.icache b).ref = 1 ∧ (s.core.icache b).valid = true ∧ (s.core.icache b).attrs.nlink = 0) := by
  rintro ⟨hr, hv, hn⟩
  obtain ⟨i, -, hi⟩ := h.caches (.temp mem_cons_self)
  obtain ⟨ha, ht⟩ := h.sync b i ⟨hi, hv⟩
  obtain ⟨c, hc, ho⟩ := h.orphan i ht (ha ▸ hn)
  obtain rfl := h.uniq b c i hi hc
  have href := h.ref b
  rw [count_cons_self] at href
  rcases ho with ⟨_, hu⟩ | hp
  · omega
  · have := count_pos_iff.mpr hp; omega

/-- A pin is dropped of an inode that has links, or that is in use otherwise. -/
theorem dropPin (h : Cache u s (b :: pins) temps) (hb : Caches s.core b i) (htemp : b ∉ temps)
    (hv : (s.low.node i).attrs.nlink = 0 → (s.core.icache b).valid = true)
    (hkeep : ¬ ((s.core.icache b).ref = 1 ∧ (s.low.node i).attrs.nlink = 0)) :
    Cache u (s.withCore (s.core.setInode b { s.core.icache b with ref := (s.core.icache b).ref - 1 })) pins temps := by
  have hcount : ∀ c, c ≠ b → (b :: pins).count c = pins.count c := fun c hc => count_cons_of_ne (Ne.symm hc)
  have href := h.ref b
  rw [count_cons_self, count_eq_zero_of_not_mem htemp] at href
  refine h.setInode rfl rfl (fun c hc => by rw [hcount c hc]) ?_ (fun c j hc _ hj hcj => ?_)
    (fun _ => h.dev b hb.1) (fun _ => h.inum b hb.1) (fun j _ hj hv => h.sync b j ⟨⟨hb.1, hj⟩, hv⟩) (fun _ _ => rfl)
    (fun j c _ hn hc ho => ⟨fun hcb => ?_, ?_⟩)
  · show (s.core.icache b).ref - 1 = _
    rw [count_eq_zero_of_not_mem htemp]
    omega
  · exact hc (h.uniq c b j hcj ⟨hb.1, hj⟩)
  · exact ho.imp_right fun hp => (mem_cons.mp hp).resolve_left hcb
  · rintro rfl
    obtain rfl : i = j := Fin.ext (hb.2.symm.trans hc.2)
    have hone : (s.core.icache c).ref ≠ 1 := fun hr => hkeep ⟨hr, hn⟩
    have hpos := hc.1
    refine ⟨by show 0 < (s.core.icache c).ref - 1; omega, hc.2, ?_⟩
    by_cases hu : 0 < u.count c
    · exact .inl ⟨hv hn, hu⟩
    · exact .inr (count_pos_iff.mp (by omega))

/-- The inode of an entry changes, on disk and in the cache. -/
theorem update (h : Cache u s pins temps) (hb : Loads s.core b i)
    (hcore : s'.core.icache = Function.update s.core.icache b { s.core.icache b with attrs := y.attrs })
    (hlow : s'.low.node = Function.update s.low.node i y) (ht : y.attrs.type = (s.low.node i).attrs.type)
    (hdir : y.attrs.type = tDir → DirOk N y) (horphan : y.attrs.nlink = 0 → 0 < u.count b ∨ b ∈ pins) :
    Cache u s' pins temps := by
  obtain ⟨hself, hne⟩ := Function.eq_update_iff.1 hcore
  have href := update_keep Inode.ref hcore rfl
  have hinum := update_keep Inode.inum hcore rfl
  have hvalid := update_keep Inode.valid hcore rfl
  have hcaches : ∀ c (j : Fin N), Caches s'.core c j ↔ Caches s.core c j := fun c j => by
    rw [Caches, href, hinum, Caches]
  obtain ⟨hnode, hother⟩ := Function.eq_update_iff.1 hlow
  have htypes := update_keep (fun x : Node => x.attrs.type) hlow ht
  refine ⟨fun c => by rw [href]; exact h.ref c, fun c c' j hc hc' => ?_, fun c hc => ?_, fun c hc => ?_, fun c j hc => ?_,
    fun c j hc hu => ?_, fun c j hc hw => ?_, fun j hj => ?_, fun j htj hn => ?_⟩
  · exact h.uniq c c' j ((hcaches c j).mp hc) ((hcaches c' j).mp hc')
  · rw [href] at hc
    rw [update_keep Inode.dev hcore rfl]
    exact h.dev c hc
  · rw [href] at hc
    rw [hinum]
    exact h.inum c hc
  · rw [Loads, hcaches, hvalid] at hc
    by_cases hj : j = i
    · subst hj
      obtain rfl := h.uniq c b j hc.1 hb.1
      rw [hself, hnode, ht]
      exact ⟨rfl, (h.sync c j hb).2⟩
    · have hcb : c ≠ b := fun e => hj (Fin.ext (hc.1.2.symm.trans (e ▸ hb.1.2)))
      rw [hne c hcb, hother j hj]
      exact h.sync c j hc
  · rw [htypes j]; exact h.live c j ((hcaches c j).mp hc) hu
  · rw [htypes j]; exact h.solid c j ((hcaches c j).mp hc) hw
  · by_cases hji : j = i
    · subst hji; rw [hnode] at hj ⊢; exact hdir hj
    · rw [hother j hji] at hj ⊢; exact h.dirs j hj
  · by_cases hj : j = i
    · subst hj
      rw [hnode] at hn
      exact ⟨b, (hcaches b j).mpr hb.1, (horphan hn).imp_left fun hu => ⟨by rw [hvalid]; exact hb.2, hu⟩⟩
    · rw [hother j hj] at htj hn
      obtain ⟨c, hc, ho⟩ := h.orphan j htj hn
      exact ⟨c, (hcaches c j).mpr hc, by rw [hvalid]; exact ho⟩

/-- The last reference to an inode is dropped, which is freed. -/
theorem free (h : Cache u s (b :: pins) temps) (hb : Caches s.core b i) (hone : (s.core.icache b).ref = 1)
    (hcore : s'.core.icache = Function.update s.core.icache b ip) (hip : ip.ref = 0)
    (hlow : s'.low.node = Function.update s.low.node i y) (ht : y.attrs.type = 0) : Cache u s' pins temps := by
  obtain ⟨hself, hne⟩ := Function.eq_update_iff.1 hcore
  have href := h.ref b
  rw [count_cons_self] at href
  have hfree : ∀ c (j : Fin N), Caches s'.core c j → c ≠ b ∧ j ≠ i ∧ Caches s.core c j := fun c j hc => by
    have hcb : c ≠ b := by
      rintro rfl
      rw [Caches, hself] at hc
      omega
    rw [Caches, hne c hcb] at hc
    exact ⟨hcb, fun e => hcb (h.uniq c b i (e ▸ hc) hb), hc⟩
  obtain ⟨hnode, hother⟩ := Function.eq_update_iff.1 hlow
  refine ⟨fun c => ?_, fun c c' j hc hc' => ?_, fun c hc => ?_, fun c hc => ?_, fun c j hc => ?_, fun c j hc hu => ?_,
    fun c j hc hw => ?_, fun j hj => ?_, fun j htj hn => ?_⟩
  · by_cases hcb : c = b
    · subst hcb; rw [hself, hip]; omega
    · rw [hne c hcb, h.ref c, count_cons_of_ne (Ne.symm hcb)]
  · exact h.uniq c c' j (hfree c j hc).2.2 (hfree c' j hc').2.2
  · by_cases hcb : c = b
    · subst hcb; rw [hself] at hc; omega
    · rw [hne c hcb] at hc ⊢; exact h.dev c hc
  · by_cases hcb : c = b
    · subst hcb; rw [hself] at hc; omega
    · rw [hne c hcb] at hc ⊢; exact h.inum c hc
  · obtain ⟨hcb, hj, hc'⟩ := hfree c j hc.1
    rw [Loads, hne c hcb] at hc
    rw [hne c hcb, hother j hj]
    exact h.sync c j ⟨hc', hc.2⟩
  · obtain ⟨hcb, hj, hc'⟩ := hfree c j hc
    rw [hother j hj]
    exact h.live c j hc' hu
  · obtain ⟨hcb, hj, hc'⟩ := hfree c j hc
    rw [hother j hj]
    exact h.solid c j hc' hw
  · by_cases hji : j = i
    · subst hji
      rw [hnode, ht] at hj
      exact nomatch hj
    · rw [hother j hji] at hj ⊢; exact h.dirs j hj
  · by_cases hji : j = i
    · subst hji
      rw [hnode] at htj
      exact absurd ht htj
    · rw [hother j hji] at htj hn
      obtain ⟨c, hc, ho⟩ := h.orphan j htj hn
      have hcb : c ≠ b := fun e => hji (Fin.ext (hc.2.symm.trans (e ▸ hb.2)))
      refine ⟨c, by rw [Caches, hne c hcb]; exact hc, ?_⟩
      rw [hne c hcb]
      exact ho.imp_right fun hp => (mem_cons.mp hp).resolve_left hcb

/-- A free inode is allocated, which is not cached, and an entry that is not in
use is recycled for it. -/
theorem alloc (h : Cache u s pins temps) (hb : (s.core.icache b).ref = 0) (hi : 0 < i.val) (hn : ∀ c, ¬ Caches s.core c i)
    {type : BitVec 16} (ht : type ≠ 0) {l : Nodes N} (hlow : l.node = Function.update s.low.node i { attrs := { type } }) :
    Cache u ⟨s.core.setInode b { s.core.icache b with dev := rootdev, inum := i.val, ref := 1, valid := false }, l⟩
      (b :: pins) temps := by
  have hc := (h.recycle hb hi hn).pin
  have hself : Caches (s.core.setInode b { s.core.icache b with dev := rootdev, inum := i.val, ref := 1, valid := false })
    b i :=
    ⟨by rw [Core.setInode_self]; exact one_pos, by rw [Core.setInode_self]⟩
  obtain ⟨hnode, hother⟩ := Function.eq_update_iff.1 hlow
  refine ⟨hc.ref, hc.uniq, hc.dev, hc.inum, fun c j hj => ?_, fun c j hj hu => ?_, fun c j hj hw => ?_, fun j hj => ?_,
    fun j htj hnj => ?_⟩
  · have hji : j ≠ i := by
      rintro rfl
      obtain rfl := hc.uniq c b j hj.1 hself
      have := hj.2
      simp at this
    show _ = (l.node j).attrs ∧ (l.node j).attrs.type ≠ 0
    rw [hother j hji]
    exact hc.sync c j hj
  · show (l.node j).attrs.type ≠ 0
    by_cases hji : j = i
    · subst hji; rw [hnode]; exact ht
    · rw [hother j hji]; exact hc.live c j hj hu
  · show (l.node j).attrs.type ≠ tDir
    have hji : j ≠ i := by
      rintro rfl
      obtain rfl := hc.uniq c b j hj hself
      have := u.pos c hw
      have := h.ref c
      omega
    rw [hother j hji]
    exact hc.solid c j hj hw
  · change (l.node j).attrs.type = tDir at hj
    show DirOk N (l.node j)
    by_cases hji : j = i
    · subst hji
      rw [hnode]
      exact ⟨rfl, Nat.zero_le _, fun e he => nomatch he⟩
    · rw [hother j hji] at hj ⊢; exact hc.dirs j hj
  · change (l.node j).attrs.type ≠ 0 at htj
    change (l.node j).attrs.nlink = 0 at hnj
    by_cases hji : j = i
    · subst hji; exact ⟨b, hself, .inr mem_cons_self⟩
    · rw [hother j hji] at htj hnj
      exact hc.orphan j htj hnj

end Cache

end Xv6.Fs
