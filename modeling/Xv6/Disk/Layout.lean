import Mathlib.Data.Finset.Card
import Mathlib.Data.Finset.Range
import Mathlib.Data.Nat.Bitwise
import Xv6.Disk.Model
import Xv6.Framework.Owner

/-!
# What the blocks of a disk say

The free map, the inodes and the blocks of each inode, as the bytes of the disk
have them. The blocks that inodes refer to are in use, and each of them is
referred to once; a file has all blocks up to its size (`Wf`).

`State.inode` is the table of inodes with the one in memory in its place, which
may be ahead of that on disk.
-/

namespace Xv6.Disk

/-! ## The free map -/

theorem testBit_eq (m : Bytes) (bi : Nat) : testBit m bi = (m (bi / 8)).toNat.testBit (bi % 8) := by
  rw [testBit, mask, Nat.one_shiftLeft, Nat.and_two_pow]
  cases (m (bi / 8)).toNat.testBit (bi % 8) <;> simp

theorem testBit_setBit (m : Bytes) (i j : Nat) : testBit (setBit m i) j = (decide (j = i) || testBit m j) := by
  rw [testBit_eq, testBit_eq, setBit]
  by_cases hb : j / 8 = i / 8
  · have hlt := (m (i / 8)).toNat_lt
    have hor : (m (i / 8)).toNat ||| mask i < 2 ^ 8 :=
      Nat.or_lt_two_pow hlt (by rw [mask, Nat.one_shiftLeft]; exact Nat.pow_lt_pow_right (by decide) (by omega))
    have hd : decide (i % 8 = j % 8) = decide (j = i) := decide_eq_decide.2 (by omega)
    rw [hb, Function.update_self, UInt8.toNat_ofNat', Nat.mod_eq_of_lt hor, Nat.testBit_or, mask, Nat.one_shiftLeft,
      Nat.testBit_two_pow, Bool.or_comm, hd]
  · rw [Function.update_of_ne hb, decide_eq_false (by rintro rfl; exact hb rfl), Bool.false_or]

/-- The first bit that is 0. -/
theorem freeBit_spec (m : Bytes) (b size : Nat) (turns bi : Nat) (hbi : bi + turns = bpb) :
    match freeBit m b size turns bi with
    | some i => i < bpb ∧ b + i < size ∧ testBit m i = false ∧ ∀ j, bi ≤ j → j < i → testBit m j = true
    | none => ∀ i, bi ≤ i → i < bpb → b + i < size → testBit m i = true := by
  induction turns generalizing bi with
  | zero =>
    intro i h1 h2 _
    omega
  | succ turns ih =>
    rw [freeBit]
    by_cases hlt : bi < bpb ∧ b + bi < size
    · rw [if_pos hlt]
      by_cases hbit : testBit m bi = true
      · rw [if_pos hbit]
        have h := ih (bi + 1) (by omega)
        cases hf : freeBit m b size turns (bi + 1) with
        | some i =>
          rw [hf] at h
          refine ⟨h.1, h.2.1, h.2.2.1, fun j h1 h2 => ?_⟩
          by_cases hj : j = bi
          · rw [hj, hbit]
          · exact h.2.2.2 j (by omega) h2
        | none =>
          rw [hf] at h
          intro i h1 h2 h3
          by_cases hi : i = bi
          · rw [hi, hbit]
          · exact h i (by omega) h2 h3
      · rw [if_neg hbit]
        exact ⟨hlt.1, hlt.2, by simpa using hbit, fun j h1 h2 => absurd h2 (by omega)⟩
    · rw [if_neg hlt]
      intro i h1 h2 h3
      omega

/-! ## Inodes on disk -/

variable {m : Bytes} {o n k : Nat} {addrs : Nat → Nat} {x : Inode}

theorem putAddrs_apply_of_not {x : Nat} (h : x < o + 12 ∨ o + 12 + 4 * n ≤ x) : putAddrs m o addrs n x = m x := by
  induction n with
  | zero => rfl
  | succ n ih => rw [putAddrs, putLE_apply_of_not (by omega), ih (by omega)]

theorem getLE_putAddrs (hk : k < n) :
    getLE (putAddrs m o addrs n) (o + 12 + 4 * k) 4 = addrs k % 256 ^ 4 := by
  induction n with
  | zero => omega
  | succ n ih =>
    rw [putAddrs]
    rcases Nat.lt_succ_iff_lt_or_eq.1 hk with hk | rfl
    · rw [getLE_putLE_sep (by omega), ih hk]
    · rw [getLE_putLE_self]

theorem putDinode_apply_of_not {y : Nat} (h : y < o ∨ o + dinodeSize ≤ y) :
    putDinode m o x y = m y := by
  simp only [putDinode, dinodeSize] at *
  rw [putAddrs_apply_of_not (by simp only [ndirect]; omega), putLE_apply_of_not (by omega), putLE_apply_of_not (by omega),
    putLE_apply_of_not (by omega), putLE_apply_of_not (by omega), putLE_apply_of_not (by omega)]

theorem getDinode_congr {m' : Bytes} (h : ∀ y, o ≤ y → y < o + dinodeSize → m y = m' y) :
    getDinode m o = getDinode m' o := by
  have hfield : ∀ a k, o ≤ a → a + k ≤ o + dinodeSize → getLE m a k = getLE m' a k := fun a k h1 h2 =>
    getLE_congr fun y _ _ => h y (by omega) (by omega)
  have haddrs : getAddrs m o = getAddrs m' o := by
    funext k
    unfold getAddrs
    split
    · rename_i hk
      simp only [ndirect] at hk
      exact hfield _ _ (by omega) (by simp only [dinodeSize]; omega)
    · rfl
  have hd : dinodeSize = 64 := rfl
  simp only [getDinode, haddrs]
  rw [hfield o 2, hfield (o + 2) 2, hfield (o + 4) 2, hfield (o + 6) 2, hfield (o + 8) 4]
  all_goals omega

/-- The fields of the inode fit into those on disk. -/
structure Inode.Fits (x : Inode) : Prop where
  size : x.size ≤ maxfile * bsize
  addrs : ∀ k, x.addrs k < 256 ^ 4
  none : ∀ k, ndirect + 1 ≤ k → x.addrs k = 0

theorem getDinode_putDinode (hx : x.Fits) (m : Bytes) (o : Nat) : getDinode (putDinode m o x) o = x := by
  have hsize : x.size < 256 ^ 4 := lt_of_le_of_lt hx.size (by decide)
  have haddrs : getAddrs (putDinode m o x) o = x.addrs := by
    funext k
    unfold getAddrs
    split
    · rw [putDinode, getLE_putAddrs ‹_›, Nat.mod_eq_of_lt (hx.addrs k)]
    · exact (hx.none k (by omega)).symm
  -- the other fields are below the addresses
  have hlow : ∀ {m : Bytes} {a k : Nat}, a + k ≤ o + 12 → getLE (putAddrs m o x.addrs (ndirect + 1)) a k = getLE m a k :=
    fun h => getLE_congr fun y _ _ => putAddrs_apply_of_not (.inl (by omega))
  have hbv : ∀ v : BitVec 16, .ofNat 16 (v.toNat % 256 ^ 2) = v := fun v => by
    rw [Nat.mod_eq_of_lt (show v.toNat < 256 ^ 2 from v.isLt), BitVec.ofNat_toNat, BitVec.setWidth_eq]
  have htype : getLE (putDinode m o x) o 2 = x.type.toNat % 256 ^ 2 := by
    rw [putDinode, hlow (by omega)]
    repeat rw [getLE_putLE_sep (by omega)]
    rw [getLE_putLE_self]
  have hmajor : getLE (putDinode m o x) (o + 2) 2 = x.major.toNat % 256 ^ 2 := by
    rw [putDinode, hlow (by omega)]
    repeat rw [getLE_putLE_sep (by omega)]
    rw [getLE_putLE_self]
  have hminor : getLE (putDinode m o x) (o + 4) 2 = x.minor.toNat % 256 ^ 2 := by
    rw [putDinode, hlow (by omega)]
    repeat rw [getLE_putLE_sep (by omega)]
    rw [getLE_putLE_self]
  have hnlink : getLE (putDinode m o x) (o + 6) 2 = x.nlink.toNat % 256 ^ 2 := by
    rw [putDinode, hlow (by omega)]
    repeat rw [getLE_putLE_sep (by omega)]
    rw [getLE_putLE_self]
  have hsz : getLE (putDinode m o x) (o + 8) 4 = x.size := by
    rw [putDinode, hlow (by omega), getLE_putLE_self, Nat.mod_eq_of_lt hsize]
  simp only [getDinode, haddrs, htype, hmajor, hminor, hnlink, hsz, hbv]

/-! ## The blocks of an inode -/

/-- The number of places where an inode refers to blocks. -/
abbrev nref : Nat := ndirect + 1 + nindirect

/-- What an inode refers to in a place: its addresses, and after them those in its
indirect block; 0 if there is no block. -/
def ref (block : Nat → Bytes) (x : Inode) (p : Nat) : Nat :=
  if p < ndirect + 1 then x.addrs p
  else if x.addrs ndirect ≠ 0 ∧ p < nref then getLE (block (x.addrs ndirect)) (4 * (p - (ndirect + 1))) 4
  else 0

/-- The place of block `k` of the contents. -/
def place (k : Nat) : Nat := if k < ndirect then k else k + 1

theorem place_ne (k : Nat) : place k ≠ ndirect := by
  unfold place
  split <;> omega

theorem place_inj {k' : Nat} (h : place k = place k') : k = k' := by
  unfold place at h
  split at h <;> split at h <;> omega

/-- The indirect block is all that is read. -/
theorem ref_congr {block block' : Nat → Bytes} (h : x.addrs ndirect ≠ 0 → block' (x.addrs ndirect) = block (x.addrs ndirect))
    (p : Nat) : ref block' x p = ref block x p := by
  unfold ref
  split
  · rfl
  · split
    · rw [h (‹_ ∧ _›).1]
    · rfl

/-- The first block after the metadata. -/
def nmeta (sb : Superblock) : Nat := sb.bmapstart + sb.size / bpb + 1

/-- The parts of the disk come one after the other: the boot block and the super
block, the log, the inodes, the free map and the data. -/
structure Layout (sb : Superblock) : Prop where
  log : 2 + sb.nlog ≤ sb.inodestart
  inodes : sb.inodestart + sb.ninodes / ipb + 1 ≤ sb.bmapstart
  map : nmeta sb ≤ sb.size
  int : sb.size < 2 ^ 31

namespace Layout

variable {sb : Superblock} (h : Layout sb)

include h

variable {i : Nat}

theorem iblock_lt (hi : i < sb.ninodes) : iblock i sb < sb.bmapstart := by
  have := h.inodes
  have := Nat.div_le_div_right (c := ipb) hi.le
  unfold iblock
  omega

omit h in
theorem bblock_lt {b : Nat} (hb : b < sb.size) : bblock b sb < nmeta sb := by
  have := Nat.div_le_div_right (c := bpb) hb.le
  unfold bblock nmeta
  omega

omit h in
theorem le_bblock (b : Nat) : sb.bmapstart ≤ bblock b sb := Nat.le_add_left ..

theorem iblock_ne_bblock (hi : i < sb.ninodes) (b : Nat) : iblock i sb ≠ bblock b sb := by
  have h1 := h.iblock_lt hi
  have h2 : sb.bmapstart ≤ bblock b sb := le_bblock b
  omega

theorem iblock_lt_nmeta (hi : i < sb.ninodes) : iblock i sb < nmeta sb := by
  have h1 := h.iblock_lt hi
  have h2 : sb.bmapstart ≤ nmeta sb := (Nat.le_add_right ..).trans (Nat.le_add_right ..)
  omega

omit h in
theorem nmeta_pos : 0 < nmeta sb := Nat.succ_pos _

end Layout

namespace State

/-- Is the bit of block `b` set in the free map? -/
def bit (s : State) (b : Nat) : Bool := testBit (s.block (bblock b s.sb)) (b % bpb)

def freeBlocks (s : State) : List Nat := (List.range s.sb.size).filter fun b => !s.bit b

def nfree (s : State) : Nat := s.freeBlocks.length

def dinode (s : State) (i : Nat) : Inode := getDinode (s.block (iblock i s.sb)) (ioff i)

/-- Inode `i`, which is in memory if it is the one that the process has locked. -/
def inode (s : State) (i : Nat) : Inode := if i = s.inum then s.ip else s.dinode i

def Alloc (s : State) (i : Nat) : Prop := i < s.sb.ninodes ∧ (s.inode i).type ≠ 0

instance (s : State) (i : Nat) : Decidable (s.Alloc i) := inferInstanceAs (Decidable (_ ∧ _))

/-- The block that an inode refers to in a place. -/
def owner (s : State) (q : Nat × Nat) : Option Nat :=
  if s.Alloc q.1 ∧ ref s.block (s.inode q.1) q.2 ≠ 0 then some (ref s.block (s.inode q.1) q.2) else none

/-- The blocks that are in use. -/
def used (s : State) : Set Nat := {b | b < s.sb.size ∧ s.bit b = true}

variable {i p : Nat}

theorem owner_of_ne {s : State} (hi : s.Alloc i) (h : ref s.block (s.inode i) p ≠ 0) :
    s.owner (i, p) = some (ref s.block (s.inode i) p) := if_pos ⟨hi, h⟩

theorem owner_of_eq {s : State} (h : ref s.block (s.inode i) p = 0) : s.owner (i, p) = none :=
  if_neg fun hp => hp.2 h

theorem of_owner {s : State} {b : Nat} (h : s.owner (i, p) = some b) :
    s.Alloc i ∧ ref s.block (s.inode i) p = b ∧ b ≠ 0 := by
  unfold owner at h
  split at h
  · rename_i hp
    exact ⟨hp.1, Option.some_inj.1 h, Option.some_inj.1 h ▸ hp.2⟩
  · cases h

theorem owner_congr {s s' : State} {q : Nat × Nat} (hi : s'.Alloc q.1 ↔ s.Alloc q.1)
    (href : s.Alloc q.1 → ref s'.block (s'.inode q.1) q.2 = ref s.block (s.inode q.1) q.2) : s'.owner q = s.owner q := by
  unfold owner
  by_cases h : s.Alloc q.1
  · rw [href h]
    simp only [h, hi.2 h]
  · rw [if_neg fun hp => h (hi.1 hp.1), if_neg fun hp => h hp.1]

theorem inode_self (s : State) : s.inode s.inum = s.ip := if_pos rfl

theorem inode_of_ne (s : State) (h : i ≠ s.inum) : s.inode i = s.dinode i := if_neg h

end State

/-- A file system in which every block is as it should be. -/
structure Wf (s : State) : Prop where
  layout : Layout s.sb
  owned : Owned s.used {b | b < nmeta s.sb} s.owner
  fits : ∀ i, s.Alloc i → (s.inode i).Fits
  /-- A file has the blocks up to its size. -/
  present : ∀ i, s.Alloc i → ∀ k, k * bsize < (s.inode i).size → s.owner (i, place k) ≠ none
  current : s.Alloc s.inum

/-- The inode on disk is that in memory. -/
def Synced (s : State) : Prop := s.dinode s.inum = s.ip

namespace Wf

variable {s : State} (h : Wf s)

include h

variable {b : Nat}

theorem of_owner {q : Nat × Nat} (hq : s.owner q = some b) : nmeta s.sb ≤ b ∧ b < s.sb.size ∧ s.bit b = true :=
  ⟨not_lt.1 (h.owned.apart hq), h.owned.mem_used hq⟩

theorem bit_of_lt (hb : b < nmeta s.sb) : s.bit b = true := ((h.owned.used_iff b).2 (.inl hb)).2

theorem le_of_free (hb : s.bit b = false) : nmeta s.sb ≤ b := by
  by_contra hlt
  rw [h.bit_of_lt (not_le.1 hlt)] at hb
  cases hb

theorem owner_ne_of_free (hb : s.bit b = false) (q : Nat × Nat) : s.owner q ≠ some b := fun hq => by
  rw [(h.of_owner hq).2.2] at hb
  cases hb

theorem ip_fits : s.ip.Fits := by
  have := h.fits s.inum h.current
  rwa [State.inode_self] at this

end Wf

end Xv6.Disk
