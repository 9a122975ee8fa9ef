import Xv6.Fs.Runs

/-!
# Links and orphans

What runs from an image of `mkfs` say of the number of links of an inode:

* `links_exact`: it is the number of entries that refer to the inode, and an inode
  that no path leads to is in use;
* `lookup_finds_allocated`: path lookup finds no inode that is free;
* `commits_tidy`: every inode in a commit has a link;
* `directories_form_tree`: no directory has two parents, whatever calls there are.

The first two need that no path is looked up from a directory that was removed
(`Calm`), and `leak_in_removed_dir` and `lookup_finds_free_inode` are runs where
one was. The third needs that no inode loses its last link while it is in use,
which `orphan_after_crash` does.
-/

namespace Xv6.Fs

open Relation List

open Bool (and_eq_true eq_false_iff not_eq_true')

variable {N : Nat}

/-! ## Counting entries -/

/-- How many entries refer to the inode, other than those with the name `.`, in
directories that have links themselves. -/
def linkEntries (n : Table N) (i : Fin N) : Nat :=
  total n fun x => if x.attrs.type = tDir ∧ 0 < x.attrs.nlink.toInt then
    x.ents.countP fun a => a.inum = i.val ∧ a.name ≠ dot
  else 0

theorem toInt_pos_iff {k : BitVec 16} (h : k.toNat < 2 ^ 15) : 0 < k.toInt ↔ k ≠ 0 := by
  rw [BitVec.toInt_eq_toNat_cond, if_pos (by omega), ne_eq, ← BitVec.toNat_inj]
  show _ ↔ ¬ k.toNat = 0
  omega

variable {n : Table N} {i j : Fin N}

/-- The entries of a directory with links. -/
theorem countP_ents (hn : Dots n) (hdir : (n j).attrs.type = tDir) (hpos : 0 < i.val) :
    (n j).ents.countP (fun a => a.inum = i.val ∧ a.name ≠ dot) =
    (decide ((n j).parent = i.val)).toNat + (n j).subs.countP (·.inum = i.val) := by
  obtain ⟨-, ⟨p, rest, -, hents⟩, hnames⟩ := hn j hdir
  have hparent : (n j).parent = p := by rw [Node.parent, hents]; rfl
  have hsubs : (n j).subs = rest.filter (·.inum ≠ 0) := by rw [Node.subs, if_pos hdir, hents]; rfl
  have hrest : rest.countP (fun a => a.inum = i.val ∧ a.name ≠ dot) = (rest.filter (·.inum ≠ 0)).countP (·.inum = i.val) := by
    rw [countP_filter]
    refine countP_congr fun a ha => ?_
    rw [hents] at hnames
    have := hnames a ha
    simp only [decide_eq_true_eq, and_eq_true]
    constructor
    · rintro ⟨hi, -⟩
      exact ⟨hi, by omega⟩
    · rintro ⟨hi, h0⟩
      exact ⟨hi, (this h0).1⟩
  rw [hents, countP_cons, countP_cons, hrest, ← hsubs, hparent]
  have hdd : dotdot ≠ dot := by decide
  by_cases hp : p = i.val
  · simp [hp, hdd]
    omega
  · simp [hp]

/-- The links that there are, counted by entries. -/
theorem Exact.linkEntries_eq (h : Exact n) (hs : Small n) (hn : Dots n) (hpos : 0 < i.val) : linkEntries n i = links n i := by
  -- a directory has links if an entry refers to it, or if it is the root
  have hlive : ∀ j, (n j).attrs.type = tDir → ((n j).attrs.nlink ≠ 0 ↔ 0 < refs n j ∨ j.val = rootino) := fun j hj => by
    constructor
    · intro hne
      by_contra hno
      have hr : refs n j = 0 := by omega
      have hroot : j.val ≠ rootino := fun he => hno (.inr he)
      have hc := h.count j
      rw [links, hr, h.kids_of_subs_nil (h.bare j hroot hr), rootLink, if_neg hroot] at hc
      exact hne (BitVec.eq_of_toNat_eq hc.symm)
    · intro hor
      refine h.nlink_ne ?_
      unfold links rootLink
      rcases hor with hr | hr
      · omega
      · rw [if_pos hr]; omega
  have hw : ∀ j, (if (n j).attrs.type = tDir ∧ 0 < (n j).attrs.nlink.toInt then
      (n j).ents.countP fun a => a.inum = i.val ∧ a.name ≠ dot else 0) =
      (n j).subs.countP (·.inum = i.val) + ((isKid n i j).toNat + if j.val = rootino ∧ j = i then 1 else 0) := fun j => by
    by_cases hj : (n j).attrs.type = tDir
    · by_cases hne : (n j).attrs.nlink = 0
      · -- a directory without links has no entries that count
        have hno := mt (hlive j hj).mpr (not_not_intro hne)
        rw [not_or] at hno
        rw [if_neg (fun hc => (toInt_pos_iff (hs j)).mp hc.2 hne), h.bare j hno.2 (by omega)]
        have hk : isKid n i j = false := by
          rw [eq_false_iff, ne_eq, isKid_iff]
          exact fun hk => hno.1 hk.2.1
        rw [hk, if_neg (fun hc => hno.2 hc.1)]
        rfl
      · rw [if_pos ⟨hj, (toInt_pos_iff (hs j)).mpr hne⟩, countP_ents hn hj hpos, Nat.add_comm]
        congr 1
        rcases (hlive j hj).mp hne with hr | hr
        · have hroot : j.val ≠ rootino := fun he => by
            have := (h.root j he).2.1
            omega
          have hk : isKid n i j = decide ((n j).parent = i.val) := by
            refine Bool.eq_iff_iff.mpr ?_
            rw [isKid_iff, decide_eq_true_iff]
            exact ⟨fun hk => hk.2.2, fun hp => ⟨hj, hr, hp⟩⟩
          rw [hk, if_neg (fun hc => hroot hc.1), add_zero]
        · obtain ⟨-, h0, hp⟩ := h.root j hr
          have hk : isKid n i j = false := by
            rw [eq_false_iff, ne_eq, isKid_iff]
            rintro ⟨-, hpos, -⟩
            omega
          rw [hk, hp, ← hr]
          by_cases hji : j = i
          · simp [hji]
          · have : j.val ≠ i.val := fun he => hji (Fin.ext he)
            simp [hji, this]
    · rw [if_neg (fun hc => hj hc.1), Node.subs_of_file hj]
      have hk : isKid n i j = false := by
        rw [eq_false_iff, ne_eq, isKid_iff]
        exact fun hk => hj hk.1
      rw [hk, if_neg (fun hc => hj (h.root j hc.1).1)]
      rfl
  have hroot : total (fun j : Fin N => j) (fun j => if j.val = rootino ∧ j = i then 1 else 0) = rootLink i := by
    have hzero : ∀ j : Fin N, j ≠ i → (if j.val = rootino ∧ j = i then 1 else 0) = 0 := fun j hj => if_neg fun hc => hj hc.2
    exact (total_single (f := fun j : Fin N => j) hzero).trans (by simp only [and_true, rootLink])
  have hsum : linkEntries n i = total (fun j : Fin N => j) fun j => (n j).subs.countP (·.inum = i.val) +
      ((isKid n i j).toNat + if j.val = rootino ∧ j = i then 1 else 0) := total_congr hw
  rw [hsum, total_add, total_add, hroot, links, add_assoc]
  congr 1
  · exact total_congr fun _ => rfl
  · congr 1
    exact total_congr fun _ => rfl

/-! ## Exact link counts -/

/-- An open file or a current directory refers to the inode. -/
def InUse (c : Core) (i : Fin N) : Prop :=
  ∃ b, Caches c b i ∧ ((∃ f, fileRef b (c.file f) = true) ∨ ∃ p, (c.proc p).cwd = some b)

theorem inUse_of_users {s : St (Nodes N)} {b : Slot} (hb : Caches s.core b i) (h : 0 < s.users.count b) : InUse s.core i := by
  refine ⟨b, hb, ?_⟩
  rcases Nat.eq_zero_or_pos (tally s.core.file (fileRef b)) with h0 | hpos
  · have hp : 0 < tally s.core.proc (cwdRef b) := by
      have : 0 < tally s.core.file (fileRef b) + tally s.core.proc (cwdRef b) := h
      omega
    obtain ⟨p, hp⟩ := exists_of_tally_pos hp
    exact .inr ⟨p, of_decide_eq_true hp⟩
  · exact .inl (exists_of_tally_pos hpos)

/-- In a run without removed directories the tree is exact. -/
theorem Reach.exact (hw : WellFormed n) (hx : Exact n) {s : St (Nodes N)} (hr : Reach nodeHandler Calm (boot n) s)
    (hh : s.core.hist.wrapped = false) : Exact s.low.node := by
  obtain ⟨hroot, -⟩ := hw.root
  have := Reach.induct (I := fun n => Dots n ∧ Exact n) (K := fun e => e.wrapped = false) hw (fun _ _ hle => hle.wrapped)
    (fun s p x hs hc hI => sysCall_calm hw.small hroot (hs.inv hw) hI.2 hc)
    (fun e n n' he htx hI => ⟨htx.dots hI.1, htx.exact (fun _ hc => hc.wrapped he) hI.1 trivial hI.2⟩) ⟨hw.dots, hx⟩ hr hh
  exact this.1.2

/-- In every run from an image of `mkfs` that looks up no path from a removed
directory, and in which no number of links overflows, `nlink` of every inode is
the number of entries that refer to it, and every inode is reachable from the
root or in use. -/
theorem links_exact (img : Image) (s : St (Nodes ninodes)) (hr : Reach nodeHandler Calm (boot (mkfs img)) s)
    (hh : s.core.hist.negative = false) (i : Fin ninodes) (hi : (s.low.node i).attrs.type ≠ 0) :
    (s.low.node i).attrs.nlink.toInt = linkEntries s.low.node i ∧
    (ReflTransGen (Sub s.low.node) ⟨rootino, by decide⟩ i ∨ InUse s.core i) := by
  obtain ⟨hw, hx, hs, hp⟩ := mkfs_ok img
  obtain ⟨hroot, -⟩ := hw.root
  have hinv := hr.inv hw
  obtain ⟨⟨hn, hx, hs, hp⟩, -⟩ := Reach.induct (I := fun n => Dots n ∧ Exact n ∧ Small n ∧ Positive n)
    (K := fun e => e.negative = false) hw (fun _ _ hle => hle.negative)
    (fun s p x hs hc hI => sysCall_calm hw.small hroot (hs.inv hw) hI.2.1 hc)
    (fun e n n' he htx ⟨hn, hx, hs, hp⟩ =>
      ⟨htx.dots hn, htx.exact hs.counted hn trivial hx, htx.small hn hx.tree he hs, htx.positive hp⟩) ⟨hw.dots,
        hx, hs, hp⟩ hr hh
  have hpos := hp i hi
  refine ⟨?_, ?_⟩
  · rw [hx.linkEntries_eq hs hn hpos, hx.count, BitVec.toInt_eq_toNat_cond, if_pos (by have := hs i; omega)]
  · by_cases hri : i.val = rootino
    · obtain rfl : i = ⟨rootino, by decide⟩ := Fin.ext hri
      exact .inl .refl
    · by_cases hrefs : refs s.low.node i = 0
      · -- nothing refers to it, so it has no links, and is in use
        have hc := hx.count i
        rw [links, hrefs, hx.kids_of_subs_nil (hx.bare i hri hrefs), rootLink, if_neg hri] at hc
        obtain ⟨b, hb, hu⟩ := hinv.ok.cache.orphan i hi (BitVec.eq_of_toNat_eq hc.symm)
        rcases hu with ⟨-, hu⟩ | hu
        · exact .inr (inUse_of_users hb hu)
        · cases hu
      · exact .inl (hx.reachable hroot (Nat.pos_of_ne_zero hrefs)).to_reflTransGen

/-- An image without files, and some paths. -/
def emptyImage : Image := ⟨[], by decide +kernel, nofun⟩
def pathRoot : Path := ⟨[47], by decide, by decide⟩
def pathA : Path := ⟨[47, 97], by decide, by decide⟩
def pathAB : Path := ⟨[47, 97, 47, 98], by decide, by decide⟩
def pathX : Path := ⟨[120], by decide, by decide⟩
def pathUp : Path := ⟨[46, 46], by decide, by decide⟩

/-- After `mkdir a` the count of the new directory is right. -/
theorem links_exact_after_mkdir : ∃ s, Reach nodeHandler Calm (boot (mkfs emptyImage)) s ∧ (s.low.node 2).attrs.type = tDir ∧
    (s.low.node 2).attrs.nlink.toInt = linkEntries s.low.node 2 := by
  have h : outcome nodeHandler (boot (mkfs emptyImage)) [(0, .mkdir (some pathA))]
      (fun s => !s.core.hist.negative && (s.low.node 2).attrs.type = tDir) = true := by decide +kernel
  obtain ⟨s, hr, hq⟩ :=
    (Reach.refl (C := Calm)).of_outcome h fun c hc s => .of_absolute (by rw [mem_singleton.mp hc]; decide +revert)
  simp only [and_eq_true, not_eq_true', decide_eq_true_eq] at hq
  exact ⟨s, hr, hq.2, (links_exact emptyImage s hr hq.1 2 (by rw [hq.2]; decide)).1⟩

/-- A device is made in the current directory after that was removed, and then
the process leaves the directory. -/
def leak : List (Pid × Call) :=
  [(0, .mkdir (some pathA)), (0, .chdir (some pathA)), (0, .unlink (some pathA)), (0, .mknod (some pathX) 1 1),
    (0, .chdir (some pathRoot))]

/-- An inode that no entry refers to has no entries, and is not below the root. -/
theorem no_entries (h : ∀ d, ∀ a ∈ (n d).ents, a.inum ≠ i.val) : linkEntries n i = 0 ∧
    ∀ r, ReflTransGen (Sub n) r i → r = i := by
  refine ⟨?_, fun r hr => ?_⟩
  · by_contra h0
    obtain ⟨d, hd⟩ := exists_of_total_pos (Nat.pos_of_ne_zero h0)
    split at hd
    · obtain ⟨a, ha, hai⟩ := countP_pos_iff.mp hd
      exact h d a ha (of_decide_eq_true hai).1
    · cases hd
  · rcases ReflTransGen.cases_tail hr with heq | ⟨d, -, a, ha, hai⟩
    · exact heq.symm
    · rw [Node.subs, if_pos (Node.dir_of_mem_subs ha)] at ha
      exact absurd hai (h d a (mem_of_mem_drop (mem_of_mem_filter ha)))

set_option maxRecDepth 100000 in
/-- Without the condition on removed directories an inode leaks: it has a link
count of 1, no entry refers to it, and it is not in use. -/
theorem leak_in_removed_dir : ∃ s, Reach nodeHandler Anything (boot (mkfs emptyImage)) s ∧ s.core.hist.negative = false ∧
    ∃ i : Fin ninodes, (s.low.node i).attrs.type ≠ 0 ∧ (s.low.node i).attrs.nlink.toInt ≠ linkEntries s.low.node i ∧
      ¬ (ReflTransGen (Sub s.low.node) ⟨rootino, by decide⟩ i ∨ InUse s.core i) := by
  have h : outcome nodeHandler (boot (mkfs emptyImage)) leak
    (fun s => !s.core.hist.negative && ((s.low.node 3).attrs.type ≠ 0 &&
      ((s.low.node 3).attrs.nlink = 1 && (decide (∀ d, ∀ a ∈ (s.low.node d).ents, a.inum ≠ 3) &&
        decide (∀ b, 0 < (s.core.icache b).ref → (s.core.icache b).inum ≠ 3))))) = true := by decide +kernel
  obtain ⟨s, hr, hq⟩ := Reach.after h
  simp only [and_eq_true, not_eq_true', decide_eq_true_eq] at hq
  obtain ⟨hneg, htype, hnlink, hents, hcache⟩ := hq
  obtain ⟨hlinks, hpath⟩ := no_entries (i := (3 : Fin ninodes)) hents
  refine ⟨s, hr, hneg, 3, htype, ?_, ?_⟩
  · rw [hnlink, hlinks]
    decide
  · rintro (hreach | ⟨b, hb, -⟩)
    · exact absurd (hpath _ hreach) (by decide)
    · exact hcache b hb.1 hb.2

/-! ## Path lookup -/

/-- In every run from an image of `mkfs` that looks up no path from a removed
directory, and in which no number of links wraps to 0, a call does not find a
free inode by its path. -/
theorem lookup_finds_allocated (img : Image) (s : St (Nodes ninodes)) (hr : Reach nodeHandler Calm (boot (mkfs img)) s)
    (hh : s.core.hist.wrapped = false) (p : Pid) (x : Call) (hc : Calm s p x) :
    (sysCall p x).run (handler nodeHandler) s ≠ .panic "ilock: no type" ∧
      ∀ d i a, Linked s.low.node d → (s.low.node d).attrs.type = tDir → a ∈ (s.low.node d).ents → a.inum = i.val → a.inum ≠ 0 →
        (s.low.node i).attrs.type ≠ 0 := by
  have hm := mkfs_ok img
  obtain ⟨hroot, -⟩ := hm.wellFormed.root
  have hinv := hr.inv hm.wellFormed
  have hx := hr.exact hm.wellFormed hm.exact hh
  refine ⟨fun hpanic => ?_, fun d i a hd hdir ha hai h0 => (hx.linked_entry hinv.dots hd hdir ha hai (by omega)).1⟩
  have hspec := sysCall_calm hm.wellFormed.small hroot hinv hx hc
  unfold Runs Eff.Spec at hspec
  rw [hpanic] at hspec
  have hmem : "ilock: no type" ∈ resources := hspec
  exact nomatch hmem

/-- After `mkdir a` the directory can be looked up. -/
theorem lookup_finds_allocated_after_mkdir : ∃ s, Reach nodeHandler Calm (boot (mkfs emptyImage)) s ∧
    (sysCall 0 (.chdir (some pathA))).run (handler nodeHandler) s ≠ .panic "ilock: no type" := by
  have h : outcome nodeHandler (boot (mkfs emptyImage)) [(0, .mkdir (some pathA))] (fun s => !s.core.hist.wrapped) = true := by
    decide +kernel
  obtain ⟨s, hr, hq⟩ :=
    (Reach.refl (C := Calm)).of_outcome h fun c hc s => .of_absolute (by rw [mem_singleton.mp hc]; decide +revert)
  rw [not_eq_true'] at hq
  exact ⟨s, hr, (lookup_finds_allocated emptyImage s hr hq 0 _ (.of_absolute (by decide))).1⟩

/-- `mkdir a`, `mkdir a/b`, `chdir a/b`, `unlink a/b` and `unlink a`, with paths
from the root: `..` of the current directory now names a free inode. -/
def removeParent : List (Pid × Call) :=
  [(0, .mkdir (some pathA)), (0, .mkdir (some pathAB)), (0, .chdir (some pathAB)), (0, .unlink (some pathAB)),
    (0, .unlink (some pathA))]

set_option maxRecDepth 100000 in
/-- Without the condition on removed directories the panic can be reached. -/
theorem lookup_finds_free_inode : ∃ s, Reach nodeHandler Anything (boot (mkfs emptyImage)) s ∧ s.core.hist.wrapped = false ∧
    (sysCall 0 (.chdir (some pathUp))).run (handler nodeHandler) s = .panic "ilock: no type" := by
  have h : outcome nodeHandler (boot (mkfs emptyImage)) removeParent (fun s => !s.core.hist.wrapped &&
      ((sysCall 0 (.chdir (some pathUp))).run (handler nodeHandler) s).panics "ilock: no type") = true := by decide +kernel
  obtain ⟨s, hr, hq⟩ := Reach.after h
  rw [and_eq_true, not_eq_true'] at hq
  exact ⟨s, hr, hq.1, Res.panics_iff.1 hq.2⟩

/-! ## The tree of directories -/

/-- `refs` and `Sub` are about the entries other than `.` and `..`. -/
structure DirTree (n : Table N) : Prop where
  one : ∀ i, (n i).attrs.type = tDir → refs n i ≤ 1
  dots : ∀ i, (n i).attrs.type = tDir → ∃ p rest, (n i).ents = ⟨i.val, dot⟩ :: ⟨p, dotdot⟩ :: rest ∧
    (i.val = rootino → p = rootino) ∧ ∀ d, Sub n d i → p = d.val
  acyclic : ∀ i, ¬ TransGen (Sub n) i i

theorem Tree.dirTree (h : Tree n) (hn : Dots n) : DirTree n := by
  refine ⟨h.uniq, fun i hi => ?_, h.acyclic⟩
  obtain ⟨p, rest, -, hents⟩ := (hn i hi).dots
  have hp : (n i).parent = p := by rw [Node.parent, hents]; rfl
  exact ⟨p, rest, hents, fun hr => hp ▸ (h.root i hr).2.2, fun d hd => hp ▸ h.up d i hd hi⟩

/-- In every run from an image of `mkfs` in which no number of links wraps to 0, the
directories form a tree, now and in every commit. -/
theorem directories_form_tree (img : Image) (s : St (Nodes ninodes)) (hr : Reach nodeHandler Anything (boot (mkfs img)) s)
    (hh : s.core.hist.wrapped = false) : DirTree s.low.node ∧ ∀ m ∈ s.low.disks, DirTree m := by
  obtain ⟨hw, hx, -⟩ := mkfs_ok img
  obtain ⟨hroot, -⟩ := hw.root
  obtain ⟨h, hdisks⟩ :=
    Reach.induct (I := fun n => Dots n ∧ Tree n) (K := fun e => e.wrapped = false) hw (fun _ _ hle => hle.wrapped)
    (fun s p x hs _ _ => sysCall_any hw.small hroot (hs.inv hw) p x)
    (fun e n n' he htx ⟨hn, ht⟩ => ⟨htx.dots hn, htx.tree (fun _ hc => hc.wrapped he) hn ht⟩) ⟨hw.dots, hx.tree⟩ hr hh
  exact ⟨h.2.dirTree h.1, fun m hm => (hdisks m hm).2.dirTree (hdisks m hm).1⟩

set_option maxRecDepth 100000 in
theorem directories_form_tree_removed : ∃ s, Reach nodeHandler Anything (boot (mkfs emptyImage)) s ∧ 5 < s.low.disks.length ∧
    ∀ m ∈ s.low.disks, DirTree m := by
  have h : outcome nodeHandler (boot (mkfs emptyImage)) removeParent
      (fun s => !s.core.hist.wrapped && decide (5 < s.low.disks.length)) = true := by decide +kernel
  obtain ⟨s, hr, hq⟩ := Reach.after h
  rw [and_eq_true, not_eq_true', decide_eq_true_eq] at hq
  exact ⟨s, hr, hq.2, (directories_form_tree emptyImage s hr hq.1).2⟩

/-! ## Orphans -/

/-- In every run from an image of `mkfs` in which no inode loses its last link
while it is in use, and no number of links overflows, every inode of every
commit has a link. A crash leaves the disk as of one of the commits. -/
theorem commits_tidy (img : Image) (s : St (Nodes ninodes)) (hr : Reach nodeHandler Anything (boot (mkfs img)) s)
    (hk : s.core.hist.kept = false) (hh : s.core.hist.negative = false) (n : Table ninodes) (hn : n ∈ s.low.disks)
    (i : Fin ninodes) (hi : (n i).attrs.type ≠ 0) : 1 ≤ (n i).attrs.nlink.toInt := by
  have hm := mkfs_ok img
  obtain ⟨hroot, -⟩ := hm.wellFormed.root
  have hall := Reach.induct (I := fun n => Dots n ∧ Exact n ∧ Small n ∧ Tidy n)
    (K := fun e => e.negative = false ∧ e.kept = false) hm.wellFormed (fun _ _ hle he => ⟨hle.negative he.1, hle.kept he.2⟩)
    (fun s p x hs _ hI => sysCall_calm hm.wellFormed.small hroot (hs.inv hm.wellFormed) hI.2.1 fun q _ _ _ b i hb hi =>
      hI.2.2.2 i ((hs.inv hm.wellFormed).ok.cache.live b i hi (users_pos hb)))
    (fun e n n' he htx ⟨hn, hx, hs, ht⟩ =>
      ⟨htx.dots hn, htx.exact hs.counted hn trivial hx, htx.small hn hx.tree he.1 hs, htx.tidy hs.counted hn hx he.2 ht⟩)
    ⟨hm.wellFormed.dots, hm.exact, hm.small, hm.wellFormed.tidy⟩ hr ⟨hh, hk⟩
  obtain ⟨-, -, hs, ht⟩ := hall.2 n hn
  have := (toInt_pos_iff (hs i)).mpr (ht i hi)
  omega

/-- After `mkdir a` and `unlink a` the last commit has no orphans. -/
theorem commits_tidy_after_unlink : ∃ s, Reach nodeHandler Anything (boot (mkfs emptyImage)) s ∧
    ∃ n ∈ s.low.disks.head?, ∀ i : Fin ninodes, (n i).attrs.type ≠ 0 → 1 ≤ (n i).attrs.nlink.toInt := by
  have h : outcome nodeHandler (boot (mkfs emptyImage)) [(0, .mkdir (some pathA)), (0, .unlink (some pathA))]
      (fun s => !s.core.hist.kept && (!s.core.hist.negative && s.low.disks.head?.isSome)) = true := by decide +kernel
  obtain ⟨s, hr, hq⟩ := Reach.after h
  simp only [and_eq_true, not_eq_true'] at hq
  obtain ⟨hk, hneg, hsome⟩ := hq
  obtain ⟨n, hn⟩ := Option.isSome_iff_exists.mp hsome
  exact ⟨s, hr, n, hn, commits_tidy emptyImage s hr hk hneg n (mem_of_mem_head? hn)⟩

set_option maxRecDepth 100000 in
/-- A file that was removed while it was open is an orphan after a crash: the
last commit has it, without a link. -/
theorem orphan_after_crash : ∃ s, Reach nodeHandler Anything (boot (mkfs emptyImage)) s ∧ s.core.hist.negative = false ∧
    ∃ n ∈ s.low.disks.head?, ∃ i : Fin ninodes, (n i).attrs.type ≠ 0 ∧ (n i).attrs.nlink.toInt < 1 := by
  have h : outcome nodeHandler (boot (mkfs emptyImage)) [(0, .open (some pathA) oCreate), (0, .unlink (some pathA))]
      (fun s => !s.core.hist.negative && match s.low.disks.head? with
        | some n => (n 2).attrs.type ≠ 0 && (n 2).attrs.nlink.toInt < 1
        | none => false) = true := by decide +kernel
  obtain ⟨s, hr, hq⟩ := Reach.after h
  rw [and_eq_true, not_eq_true'] at hq
  obtain ⟨hneg, hq⟩ := hq
  refine ⟨s, hr, hneg, ?_⟩
  cases hd : s.low.disks.head? with
  | none => rw [hd] at hq; cases hq
  | some n =>
    rw [hd] at hq
    simp only [and_eq_true, decide_eq_true_eq] at hq
    exact ⟨n, rfl, 2, hq.1, hq.2⟩

end Xv6.Fs
