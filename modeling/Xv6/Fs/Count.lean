import Xv6.Fs.Links

/-!
# Numbers of links

`nlink` is a short, and neither `link` nor `mkdir` looks at it before `nlink++`. As long
as no `nlink` of 32767 is incremented every number of links stays in range, and `unlink`
finds no inode without a link (`nlink_in_range`).

The limit can be reached. Two directories with 16383 links each to one file need 517
blocks, and a disk of `FSSIZE` blocks has 954 for data (`crowded`). The next link makes
the number negative, and `unlink` panics (`nlink_overflows`).
-/

namespace Xv6.Fs

open Function List

variable {N : Nat} {n : Table N} {s : St (Nodes N)}

/-! ## In range -/

theorem Tree.entry_linked (ht : Tree n) (hs : Small n) (hn : Dots n) {d i : Fin N} {k : Nat} {name : Name}
    (hdir : (n d).attrs.type = tDir) (hpos : 0 < i.val) (hentry : (n d).ents[k]? = some ⟨i.val, name⟩) (hdot : name ≠ dot)
    (hdotdot : name ≠ dotdot) : 0 < (n i).attrs.nlink.toInt := by
  obtain ⟨a, ha, hai⟩ := sub_of_entry hn hdir hpos hentry hdot hdotdot
  have hrefs := refs_pos ha hai
  have hcount := ht.count i
  unfold links at hcount
  refine (toInt_pos_iff (hs i)).mpr fun h0 => ?_
  rw [h0, show (0 : BitVec 16).toNat = 0 from rfl] at hcount
  omega

/-- If the numbers of links are large enough, `unlink` finds a link. -/
theorem sysCall_counted (hN : N ≤ 2 ^ 16) (hroot : rootino < N) (h : Inv s) (ht : Tree s.low.node) (hs : Small s.low.node)
    (p : Pid)
    (x : Call) : Runs (fun m => m ≠ "unlink: nlink < 1") s (sysCall p x) fun _ s' => Done False s s' := by
  have hknown : Known (fun m => m ≠ "unlink: nlink < 1") False (fun _ => True) s.low.node := by
    refine ⟨⟨fun _ _ _ => by decide, fun _ _ _ _ _ _ _ _ => trivial⟩, fun hf => hf.elim,
      fun d i k name hdir hpos he hd hdd hlt => ?_⟩
    have := ht.entry_linked hs h.dots hdir hpos he hd hdd
    omega
  exact sysCall_spec h (fun hused => ⟨hN, hroot, by decide, h, hused, hknown⟩) x fun q _ =>
    ⟨fun _ _ => trivial, fun _ _ _ _ _ _ => trivial⟩

/-- In every run from a well-formed file system in which no `nlink` of 32767 is
incremented, every `nlink` is between 0 and 32767, and no call panics because an entry
names an inode without links. -/
theorem nlink_in_range (n : Table N) (hw : WellFormed n) (ht : Tree n) (hs : Small n) (s : St (Nodes N))
    (hr : Reach nodeHandler Anything (boot n) s) (hh : s.core.hist.negative = false) :
    (∀ i, 0 ≤ (s.low.node i).attrs.nlink.toInt ∧ (s.low.node i).attrs.nlink.toInt ≤ 32767) ∧
    ∀ p x, (sysCall p x).run (handler nodeHandler) s ≠ .panic "unlink: nlink < 1" := by
  obtain ⟨hroot, -⟩ := hw.root
  obtain ⟨⟨-, ht', hs'⟩, -⟩ := Reach.induct (I := fun n => Dots n ∧ Tree n ∧ Small n) (K := fun e => e.negative = false) hw
    (fun _ _ hle he => hle.negative he) (fun s p x hs _ _ => sysCall_any hw.small hroot (hs.inv hw) p x)
    (fun e n n' he htx ⟨hn, ht, hs⟩ => ⟨htx.dots hn, htx.tree hs.counted hn ht, htx.small hn ht he hs⟩) ⟨hw.dots, ht, hs⟩ hr hh
  refine ⟨fun i => ?_, fun p x hpanic => ?_⟩
  · have hi := hs' i
    rw [BitVec.toInt_eq_toNat_of_lt (by omega)]
    omega
  · have hspec := sysCall_counted hw.small hroot (hr.inv hw) ht' hs' p x
    unfold Runs Eff.Spec at hspec
    rw [hpanic] at hspec
    exact hspec rfl

def pathF : Path := ⟨[47, 102], by decide, by decide⟩
def pathD : Path := ⟨[47, 100], by decide, by decide⟩
def pathE : Path := ⟨[47, 101], by decide, by decide⟩
def pathRootX : Path := ⟨[47, 120], by decide, by decide⟩

set_option maxRecDepth 100000 in
/-- `mkdir d` gives the root another link. -/
theorem nlink_in_range_after_mkdir : ∃ s, Reach nodeHandler Anything (boot (mkfs emptyImage)) s ∧
    (s.low.node 2).attrs.type = tDir ∧
    ∀ i, 0 ≤ (s.low.node i).attrs.nlink.toInt ∧ (s.low.node i).attrs.nlink.toInt ≤ 32767 := by
  have h : outcome nodeHandler (boot (mkfs emptyImage)) [(0, .mkdir (some pathD))] (fun s => !s.core.hist.negative &&
      decide ((s.low.node 2).attrs.type = tDir)) = true := by decide +kernel
  obtain ⟨s, hr, hq⟩ := Reach.after h
  rw [Bool.and_eq_true, Bool.not_eq_true', decide_eq_true_eq] at hq
  have hm := mkfs_ok emptyImage
  exact ⟨s, hr, hq.2, (nlink_in_range _ hm.wellFormed hm.exact.tree hm.small s hr hq.1).1⟩

/-! ## Out of range -/

/-- Names of two bytes. -/
def nameOf (j : Nat) : Name := [UInt8.ofNat (65 + j % 128), UInt8.ofNat (65 + j / 128)]

theorem nameOf_inj {j k : Nat} (hj : j < 16384) (hk : k < 16384) (h : nameOf j = nameOf k) : j = k := by
  simp only [nameOf, List.cons.injEq, and_true] at h
  have h1 := congrArg UInt8.toNat h.1
  have h₂ := congrArg UInt8.toNat h.2
  simp only [UInt8.toNat_ofNat'] at h1 h₂
  omega

theorem nameOf_ne (j : Nat) : nameOf j ≠ dot ∧ nameOf j ≠ dotdot := by
  refine ⟨fun h => by simp [nameOf, dot] at h, fun h => ?_⟩
  simp only [nameOf, dotdot, List.cons.injEq, and_true] at h
  have h1 := congrArg UInt8.toNat h.1
  simp only [UInt8.toNat_ofNat', show (46 : UInt8).toNat = 46 from rfl] at h1
  omega

/-- A directory in the root with `k` entries for the inode 2. -/
def crowd (d k : Nat) : Node where
  attrs := { type := tDir, nlink := 1, size := 16 * (k + 2) }
  ents := ⟨d, dot⟩ :: ⟨rootino, dotdot⟩ :: (range k).map fun j => ⟨2, nameOf j⟩

/-- The file `f` has `c 3` links in the directory `d` and `c 4` in the directory `e`. -/
def crowded (c : Nat → Nat) : Table ninodes := fun i =>
  if i.val = rootino then
    { attrs := { type := tDir, nlink := 3, size := 1024 }
      ents := [⟨1, dot⟩, ⟨1, dotdot⟩, ⟨2, [102]⟩, ⟨3, [100]⟩, ⟨4, [101]⟩] ++ replicate 59 ⟨0, []⟩ }
  else if i.val = 2 then { attrs := { type := tFile, nlink := .ofNat 16 (1 + c 3 + c 4) } }
  else if i.val = 3 ∨ i.val = 4 then crowd i.val (c i.val)
  else {}

/-- `FSSIZE`, and the blocks that `mkfs` keeps for the boot block, the superblock, the log, the
inodes and the bitmap. -/
abbrev fssize : Nat := 1000
abbrev nmeta : Nat := 2 + 30 + (ninodes / 16 + 1) + (fssize / (bsize * 8) + 1)

/-- The blocks that files of these sizes need. -/
def dataBlocks (n : Table N) : Nat :=
  ((finRange N).map fun i =>
    let k := ((n i).attrs.size + bsize - 1) / bsize
    k + if ndirect < k then 1 else 0).sum

set_option maxRecDepth 100000 in
theorem crowded_zero : ∃ s, Reach nodeHandler Calm (boot (mkfs emptyImage)) s ∧ s.core.hist.negative = false ∧
    s.low.node = crowded 0 := by
  have h : outcome nodeHandler (boot (mkfs emptyImage))
      [(0, .open (some pathF) oCreate), (0, .mkdir (some pathD)), (0, .mkdir (some pathE))] (fun s => !s.core.hist.negative &&
        decide (∀ i, s.low.node i = crowded 0 i)) = true := by decide +kernel
  have hcalm : ∀ c ∈ [((0 : Pid), Call.open (some pathF) oCreate), (0, .mkdir (some pathD)), (0, .mkdir (some pathE))],
      ∀ q ∈ c.2.paths, q.bytes.head? = some slash := fun c hc => by
    simp only [mem_cons, not_mem_nil, or_false] at hc
    rcases hc with rfl | rfl | rfl <;> decide
  obtain ⟨s, hr, hq⟩ := (Reach.refl (C := Calm)).of_outcome h fun c hc s => .of_absolute (hcalm c hc)
  rw [Bool.and_eq_true, Bool.not_eq_true', decide_eq_true_eq] at hq
  exact ⟨s, hr, hq.1, funext hq.2⟩

/-- What is known of these tables. -/
structure Fine (n : Table N) : Prop where
  dots : Dots n
  exact : Exact n
  small : Small n

theorem Tx.fine {e : Hist} {n' : Table N} (h : Tx True e n n') (he : e.negative = false) (hn : Fine n) : Fine n' :=
  ⟨h.dots hn.dots, h.exact hn.small.counted hn.dots trivial hn.exact, h.small hn.dots hn.exact.tree he hn.small⟩

theorem crowded_zero_fine : Fine (crowded 0) := by
  obtain ⟨s, hr, hh, hs⟩ := crowded_zero
  have hm := mkfs_ok emptyImage
  obtain ⟨hroot, -⟩ := hm.wellFormed.root
  have hall := Reach.induct (I := Fine) (K := fun e => e.negative = false) hm.wellFormed (fun _ _ hle he => hle.negative he)
    (fun s p x hs hc hI => sysCall_calm hm.wellFormed.small hroot (hs.inv hm.wellFormed) hI.exact hc)
    (fun e n n' he htx hn => htx.fine he hn) ⟨hm.wellFormed.dots, hm.exact, hm.small⟩ hr hh
  rw [← hs]
  exact hall.1

section Crowded

variable {c : Nat → Nat} {d i : Fin ninodes}

theorem crowded_dir (hd : d.val = 3 ∨ d.val = 4) : crowded c d = crowd d.val (c d.val) := by
  rw [crowded, if_neg (by simp only [rootino]; omega), if_neg (by omega), if_pos hd]

theorem crowded_file (hi : i.val = 2) : crowded c i = { attrs := { type := tFile, nlink := .ofNat 16 (1 + c 3 + c 4) } } := by
  rw [crowded, if_neg (by simp only [rootino]; omega), if_pos hi]

theorem crowded_congr {c' : Nat → Nat} (hi : i.val ≠ 2) (h : c' i.val = c i.val) : crowded c' i = crowded c i := by
  simp only [crowded, if_neg hi, h]

theorem crowd_put (d k : Nat) : (crowd d k).put (k + 2) ⟨2, nameOf k⟩ = crowd d (k + 1) := by
  have hlen : (crowd d k).ents.length = k + 2 := by simp [crowd]
  rw [Node.put, if_neg (by omega)]
  simp only [crowd, Attrs.withSize, range_succ, map_append, map_cons, map_nil, cons_append]
  congr 2
  omega

theorem crowded_link (hd : d.val = 3 ∨ d.val = 4) (hk : c d.val < 16384) (hc : 1 + c 3 + c 4 < 32767) :
    Tx True {} (crowded c) (crowded (update c d.val (c d.val + 1))) := by
  have hd2 : d.val ≠ 2 := by omega
  have hlen : (crowd d.val (c d.val)).ents.length = c d.val + 2 := by simp [crowd]
  have hsum : 1 + update c d.val (c d.val + 1) 3 + update c d.val (c d.val + 1) 4 = 1 + c 3 + c 4 + 1 := by
    rcases hd with hd | hd <;> rw [hd, update_self, update_of_ne (by decide)] <;> omega
  have hnlink : BitVec.ofNat 16 (1 + c 3 + c 4) ≠ 32767 ∧ BitVec.ofNat 16 (1 + c 3 + c 4) ≠ -1 := by
    constructor <;> intro h <;> have := congrArg BitVec.toNat h <;> simp only [BitVec.toNat_ofNat] at this
    · rw [show (32767 : BitVec 16).toNat = 32767 from rfl] at this
      omega
    · rw [show (-1 : BitVec 16).toNat = 65535 from rfl] at this
      omega
  refine .link d 2 (c d.val + 2) (nameOf (c d.val)) ⟨?_, ⟨?_, ?_⟩, ?_, fun _ => ?_⟩ (by decide) ?_ ?_ ?_ ?_ ?_
    fun j hjd hj2 => ?_
  · rw [crowded_dir hd]; rfl
  · rw [crowded_dir hd, hlen]
  · rw [crowded_dir hd]
    exact fun h => absurd h (by omega)
  · rw [crowded_dir hd]
    intro e he _
    simp only [crowd, mem_cons, mem_map, mem_range] at he
    rcases he with rfl | rfl | ⟨j, hj, rfl⟩
    · exact (nameOf_ne _).1.symm
    · exact (nameOf_ne _).2.symm
    · intro heq
      have := nameOf_inj (by omega) hk heq
      omega
  · rw [crowded_dir hd]; exact (by decide : (1 : BitVec 16) ≠ 0)
  · rw [crowded_file rfl]; exact (by decide : tFile ≠ 0)
  · rw [crowded_file rfl]; exact (by decide : tFile ≠ tDir)
  · rw [crowded_file rfl]
    exact ⟨fun _ => hnlink.1, fun _ => hnlink.2⟩
  · rw [crowded_dir hd, crowded_dir hd, update_self]
    exact (crowd_put d.val (c d.val)).symm
  · left
    rw [crowded_file rfl, crowded_file rfl, hsum, Node.relink]
    simp only [Attrs.withNlink, BitVec.ofNat_add]
    rfl
  · refine crowded_congr (fun h => hj2 (Fin.ext h)) (update_of_ne (fun h => hjd (Fin.ext h)) ..)

/-- As many links as there is room for in a directory. -/
theorem crowded_fine (hd : d.val = 3 ∨ d.val = 4) (h0 : c d.val = 0) (h : Fine (crowded c)) (k : Nat) (hk : k ≤ 16383)
    (hc : c 3 + c 4 + k < 32767) : Fine (crowded (update c d.val k)) := by
  induction k with
  | zero =>
    rw [← h0, update_eq_self]
    exact h
  | succ k ih =>
    have hlink := crowded_link (c := update c d.val k) hd (by rw [update_self]; omega) ?_
    · rw [update_self, update_idem] at hlink
      exact hlink.fine rfl (ih (by omega) (by omega))
    · rcases hd with hd | hd <;> rw [hd] at h0 ⊢ <;> rw [update_self, update_of_ne (by decide)] <;> omega

theorem crowded_wellFormed (h : Dots (crowded c)) (h3 : c 3 ≤ 16383) (h4 : c 4 ≤ 16383) : WellFormed (crowded c) := by
  refine ⟨by decide, ⟨by decide, rfl⟩, h, fun i hi => ?_, fun i hi => ?_⟩
  · by_cases hr : i.val = rootino
    · rw [crowded, if_pos hr]
      exact ⟨by decide, by decide, by decide⟩
    · by_cases h2 : i.val = 2
      · rw [crowded_file h2] at hi
        exact absurd hi (by decide : tFile ≠ tDir)
      · by_cases hd : i.val = 3 ∨ i.val = 4
        · have hk : c i.val ≤ 16383 := by rcases hd with hd | hd <;> rw [hd] <;> assumption
          rw [crowded_dir hd]
          refine ⟨by simp [crowd], ?_, fun e he => ?_⟩
          · simp only [crowd, maxfile, ndirect, nindirect, bsize]
            omega
          · simp only [crowd, mem_cons, mem_map, mem_range] at he
            rcases he with rfl | rfl | ⟨j, hj, rfl⟩
            · exact i.isLt
            · decide
            · exact (by decide : 2 < ninodes)
        · rw [crowded, if_neg hr, if_neg h2, if_neg hd] at hi
          exact absurd hi (by decide : (0 : BitVec 16) ≠ tDir)
  · by_cases hr : i.val = rootino
    · rw [crowded, if_pos hr]
      exact (by decide : (3 : BitVec 16) ≠ 0)
    · by_cases h2 : i.val = 2
      · rw [crowded_file h2]
        intro h0
        have := congrArg BitVec.toNat h0
        simp only [BitVec.toNat_ofNat, show (0 : BitVec 16).toNat = 0 from rfl] at this
        omega
      · by_cases hd : i.val = 3 ∨ i.val = 4
        · rw [crowded_dir hd]
          exact (by decide : (1 : BitVec 16) ≠ 0)
        · rw [crowded, if_neg hr, if_neg h2, if_neg hd] at hi
          exact absurd rfl hi

end Crowded

/-- 16383 links in each of the two directories. -/
def full : Table ninodes := crowded (update (update 0 3 16383) 4 16383)

theorem full_fine : Fine full := by
  have h := crowded_fine (d := 3) (.inl rfl) rfl crowded_zero_fine 16383 (by decide) (by decide)
  exact crowded_fine (d := 4) (.inr rfl) rfl h 16383 (by decide) (by decide)

set_option maxRecDepth 100000 in
/-- On a disk of `FSSIZE` blocks the 32768th link makes the number of links negative. -/
theorem nlink_overflows : ∃ n : Table ninodes, WellFormed n ∧ Exact n ∧ Small n ∧ dataBlocks n ≤ fssize - nmeta ∧
    ∃ s, Reach nodeHandler Anything (boot n) s ∧ (s.low.node 2).attrs.nlink.toInt = -32768 ∧
      (sysCall 0 (.unlink (some pathRootX))).run (handler nodeHandler) s = .panic "unlink: nlink < 1" := by
  have h : outcome nodeHandler (boot full) [(0, .link (some pathF) (some pathRootX))] (fun s =>
      decide ((s.low.node 2).attrs.nlink.toInt = -32768) &&
      ((sysCall 0 (.unlink (some pathRootX))).run (handler nodeHandler) s).panics "unlink: nlink < 1") = true := by
        decide +kernel
  obtain ⟨s, hr, hq⟩ := Reach.after h
  rw [Bool.and_eq_true, decide_eq_true_eq] at hq
  exact ⟨full, crowded_wellFormed full_fine.dots (by decide) (by decide), full_fine.exact, full_fine.small, by
    decide +kernel, s, hr,
    hq.1, Res.panics_iff.1 hq.2⟩

end Xv6.Fs
