import Mathlib.Order.Interval.Finset.Nat
import Xv6.Disk.Alloc

/-!
# The contents of an inode

The contents of an inode are an array of bytes, spread over its blocks
(`State.byteAt`). What `writei` writes is there afterwards and everything else is
as before, in this inode and in all others (`writei_spec`); `readi` reads the
bytes of the array (`readi_spec`).

A copy from user memory may stop in the middle. Then `writei` has changed the
bytes up to there, but the size of the file only grows to the blocks that were
copied whole, and the value that it returns is that of a write that succeeds.
-/

namespace Xv6.Disk

open List State
open BitVec (toNat_add lt_def)

variable {s s' : State} {b : Nat} {P : String → Prop} {B : Finset Nat}

/-! ## `either_copyin` -/

theorem length_copyin_le (mem : Mem) (src : BitVec 64) (n : Nat) : (copyin mem src n).length ≤ n := by
  induction n generalizing src with
  | zero => exact Nat.le_refl 0
  | succ n ih =>
    rw [copyin]
    cases mem src with
    | none => exact Nat.zero_le _
    | some x => exact Nat.succ_le_succ (ih _)

theorem length_copyin_of_some {mem : Mem} (h : ∀ a, ∃ x, mem a = some x) (src : BitVec 64) (n : Nat) :
    (copyin mem src n).length = n := by
  induction n generalizing src with
  | zero => rfl
  | succ n ih =>
    obtain ⟨x, hx⟩ := h src
    rw [copyin, hx]
    exact congrArg (· + 1) (ih _)

/-- A copy in two parts. -/
theorem copyin_add (mem : Mem) (src : BitVec 64) (m n : Nat) :
    copyin mem src (m + n) =
      if (copyin mem src m).length < m then copyin mem src m else copyin mem src m ++ copyin mem (src + .ofNat 64 m) n := by
  induction m generalizing src with
  | zero => simp [copyin]
  | succ m ih =>
    rw [Nat.succ_add, copyin, copyin]
    cases mem src with
    | none => exact (if_pos (Nat.succ_pos m)).symm
    | some x =>
      have hsrc : src + 1 + .ofNat 64 m = src + .ofNat 64 (m + 1) := by
        rw [BitVec.add_assoc, add_comm m 1, BitVec.ofNat_add]
        rfl
      simp only [ih, length_cons, Nat.succ_lt_succ_iff, hsrc]
      split <;> rfl

/-! ## Bytes of the contents -/

namespace State

/-- Byte `pos` of the contents of inode `i`. -/
def byteAt (s : State) (i pos : Nat) : UInt8 :=
  match s.owner (i, place (pos / bsize)) with
  | some b => s.block b (pos % bsize)
  | none => 0

def contents (s : State) (i : Nat) : List UInt8 := (range (s.inode i).size).map (s.byteAt i)

end State

variable {i pos e off' : Nat} {lh : List Nat}

theorem byteAt_of_owner (h : s.owner (i, place (pos / bsize)) = some b) : s.byteAt i pos = s.block b (pos % bsize) := by
  rw [State.byteAt, h]

theorem byteAt_of_none (h : s.owner (i, place (pos / bsize)) = none) : s.byteAt i pos = 0 := by
  rw [State.byteAt, h]

/-- The contents of the other inodes are as before. -/
theorem Frame.byteAt (h : Frame s s') (hi : i ≠ s.inum) (pos : Nat) : s'.byteAt i pos = s.byteAt i pos := by
  unfold State.byteAt
  rw [h.others hi]
  cases ho : s.owner (i, place (pos / bsize)) with
  | none => rfl
  | some c =>
    show s'.block c _ = s.block c _
    rw [h.data hi ho]

theorem Frame.inode (h : Frame s s') (hlt : i < s.sb.ninodes) (hi : i ≠ s.inum) : s'.inode i = s.inode i := by
  rw [inode_of_ne _ hi, inode_of_ne _ (h.inum ▸ hi), h.dinode hlt]

/-- An allocation does not change the contents. -/
theorem Mapped.byteAt {n a : Nat} (h : Mapped s n a s') (pos : Nat) : s'.byteAt s.inum pos = s.byteAt s.inum pos := by
  by_cases hp : pos / bsize = n
  · cases ho : s.owner (s.inum, place n) with
    | none => rw [byteAt_of_owner (hp ▸ h.addr), byteAt_of_none (hp ▸ ho), h.zero ho]
    | some c =>
      rw [byteAt_of_owner (hp ▸ h.kept.owner ho), byteAt_of_owner (hp ▸ ho), h.kept.own (place_ne n) ho]
  · have hown := h.only (p := place (pos / bsize)) (fun e => hp (place_inj e)) (place_ne _)
    cases ho : s.owner (s.inum, place (pos / bsize)) with
    | none => rw [byteAt_of_none ho, byteAt_of_none (hown.trans ho)]
    | some c => rw [byteAt_of_owner ho, byteAt_of_owner (hown.trans ho), h.kept.own (place_ne _) ho]

/-! ## A write into one block -/

/-- How many free blocks a write to the blocks from `a` to `e` of the inode takes. -/
def State.need (s : State) (a e : Nat) : Nat :=
  ((Finset.Ico a e).filter fun n => s.owner (s.inum, place n) = none).card +
    if a < e ∧ ndirect < e ∧ s.ip.addrs ndirect = 0 then 1 else 0

/-- What a write to the blocks from `a` to `e` of the inode logs, before the inode
itself. -/
def State.logged (s : State) (a e : Nat) : Finset Nat := s.fresh (s.need a e) ∪ (Finset.Ico a e).biUnion s.touched

theorem store_apply (m : Bytes) (o : Nat) (l : List UInt8) (x : Nat) :
    store m o l x = if o ≤ x ∧ x < o + l.length then l.getD (x - o) 0 else m x := by
  unfold store
  by_cases hlo : o ≤ x
  · rw [if_pos hlo]
    by_cases hhi : x < o + l.length
    · have : x - o < l.length := by omega
      rw [if_pos ⟨hlo, hhi⟩, getD_eq_getElem?_getD, getD_eq_getElem?_getD, getElem?_eq_getElem this]
      rfl
    · rw [if_neg fun h => hhi h.2, getD_eq_getElem?_getD, getElem?_eq_none (by omega)]
      rfl
  · rw [if_neg hlo, if_neg fun h => hlo h.1]

section Store

variable {n a o : Nat} {l : List UInt8} (h : Wf s) (ha : s.owner (s.inum, place n) = some a)

include h ha

theorem owner_ne_indirect (i : Nat) : s.owner (i, ndirect) ≠ some a :=
  fun e => place_ne n (Prod.mk.inj (h.owned.inj e ha)).2.symm

theorem wf_store (m : Bytes) : Wf (s.setBlock a m) := h.setBlock (h.of_owner ha).1 (owner_ne_indirect h ha) m

theorem owner_store (m : Bytes) (q : Nat × Nat) : (s.setBlock a m).owner q = s.owner q :=
  owner_setBlock h.layout (h.of_owner ha).1 m (owner_ne_indirect h ha q.1)

theorem need_store (m : Bytes) (x e : Nat) : (s.setBlock a m).need x e = s.need x e := by
  unfold State.need
  simp only [owner_store h ha]
  rfl

theorem logged_store (m : Bytes) (x e : Nat) : (s.setBlock a m).logged x e = s.logged x e := by
  unfold State.logged State.fresh State.touched
  simp only [need_store h ha, owner_store h ha, freeBlocks_setBlock m (h.of_owner ha).1]
  rfl

theorem frame_store (m : Bytes) : Frame s (s.setBlock a m) where
  sb := rfl
  inum := rfl
  held := rfl
  outstanding := rfl
  lh := fun _ => id
  dinode hi := dinode_setBlock h.layout (h.of_owner ha).1 m hi
  attrs := rfl
  owner ho := (owner_store h ha m _).trans ho
  others _ := owner_store h ha m _
  data hi ho := setBlock_of_ne _ _ _ fun e => hi (Prod.mk.inj (h.owned.inj ho (e ▸ ha))).1

theorem byteAt_store (hl : o + l.length ≤ bsize) (pos : Nat) :
    (s.setBlock a (store (s.block a) o l)).byteAt s.inum pos =
      if n * bsize + o ≤ pos ∧
        pos < n * bsize + o + l.length then l.getD (pos - (n * bsize + o)) 0 else s.byteAt s.inum pos := by
  have hdiv := Nat.div_add_mod pos bsize
  have hmod := Nat.mod_lt pos (show 0 < bsize by decide)
  by_cases hp : pos / bsize = n
  · rw [hp, mul_comm] at hdiv
    rw [byteAt_of_owner (hp ▸ (owner_store h ha _ _).trans ha), setBlock_self, store_apply, byteAt_of_owner (hp ▸ ha)]
    by_cases hin : o ≤ pos % bsize ∧ pos % bsize < o + l.length
    · rw [if_pos hin, if_pos (by omega), show pos - (n * bsize + o) = pos % bsize - o by omega]
    · rw [if_neg hin, if_neg (by omega)]
  · have hout : ¬(n * bsize + o ≤ pos ∧ pos < n * bsize + o + l.length) := fun hin => hp <| by
      refine Nat.div_eq_of_lt_le (by omega) ?_
      rw [Nat.succ_mul]
      omega
    rw [if_neg hout]
    have hown := owner_store h ha (store (s.block a) o l) (s.inum, place (pos / bsize))
    cases ho : s.owner (s.inum, place (pos / bsize)) with
    | none => rw [byteAt_of_none ho, byteAt_of_none (hown.trans ho)]
    | some c =>
      have hc : c ≠ a := fun e => hp (place_inj (Prod.mk.inj (h.owned.inj ho (e ▸ ha))).2)
      rw [byteAt_of_owner ho, byteAt_of_owner (hown.trans ho), setBlock_of_ne _ _ _ hc]

end Store

/-! ## `writei` -/

/-- The first block is mapped, and the others are left. -/
theorem Mapped.need {n a : Nat} (h : Mapped s n a s') (hn : n < e) : s.need n e = s.cost n + s'.need (n + 1) e := by
  have hcount : ((Finset.Ico n e).filter fun i => s.owner (s.inum, place i) = none).card =
      (if s.owner (s.inum, place n) = none then 1 else 0) +
        ((Finset.Ico (n + 1) e).filter fun i => s'.owner (s'.inum, place i) = none).card := by
    have hrest : ((Finset.Ico (n + 1) e).filter fun i => s'.owner (s'.inum, place i) = none) =
        (Finset.Ico (n + 1) e).filter fun i => s.owner (s.inum, place i) = none := by
      refine Finset.filter_congr fun i hi => ?_
      rw [Finset.mem_Ico] at hi
      rw [h.kept.inum, h.only (fun e => by have := place_inj e; omega) (place_ne i)]
    have hnot : n ∉ (Finset.Ico (n + 1) e).filter fun i => s.owner (s.inum, place i) = none := by
      simp
    have hico : Finset.Ico n e = insert n (Finset.Ico (n + 1) e) := by
      ext i
      simp only [Finset.mem_Ico, Finset.mem_insert]
      omega
    rw [hrest, hico, Finset.filter_insert]
    split
    · rw [Finset.card_insert_of_notMem hnot, Nat.add_comm]
    · rw [zero_add]
  have hind : (if n < e ∧ ndirect < e ∧ s.ip.addrs ndirect = 0 then 1 else 0) =
      (if ndirect ≤ n ∧ s.ip.addrs ndirect = 0 then 1 else 0) +
        if n + 1 < e ∧ ndirect < e ∧ s'.ip.addrs ndirect = 0 then 1 else 0 := by
    by_cases hd : ndirect ≤ n
    · have hne := h.indirect hd
      simp [hn, hd, hne, lt_of_le_of_lt hd hn]
    · rw [h.direct (by omega)]
      have : n + 1 < e ↔ ndirect < e ∨ n + 1 < e := by omega
      by_cases hde : ndirect < e
      · simp [hn, hd, hde, show n + 1 < e by omega]
      · simp [hd, hde]
  unfold State.need State.cost
  rw [hcount, hind]
  omega

theorem cost_le_need {n : Nat} (hn : n < e) : s.cost n ≤ s.need n e := by
  refine Nat.add_le_add ?_ ?_
  · split
    · refine Finset.card_pos.2 ⟨n, ?_⟩
      simp only [Finset.mem_filter, Finset.mem_Ico]
      exact ⟨⟨Nat.le_refl n, hn⟩, ‹_›⟩
    · exact Nat.zero_le _
  · by_cases hd : ndirect ≤ n ∧ s.ip.addrs ndirect = 0
    · rw [if_pos hd, if_pos ⟨hn, by omega, hd.2⟩]
    · rw [if_neg hd]
      exact Nat.zero_le _

theorem touched_subset_logged {a n : Nat} (ha : a ≤ n) (hn : n < e) : s.touched n ⊆ s.logged a e :=
  (Finset.subset_biUnion_of_mem s.touched (Finset.mem_Ico.2 ⟨ha, hn⟩)).trans Finset.subset_union_right

theorem fresh_subset_logged {a m : Nat} (h : m ≤ s.need a e) : s.fresh m ⊆ s.logged a e :=
  (fresh_mono h).trans Finset.subset_union_left

/-- The blocks after the first one log what is left. -/
theorem Mapped.touched {n a j : Nat} (h : Mapped s n a s') (hwf : Wf s) (hn : n < e) (hj : n < j) (hje : j < e) :
    s'.touched j ⊆ s.logged n e := by
  have hown : s'.owner (s'.inum, place j) = s.owner (s.inum, place j) := by
    rw [h.kept.inum, h.only (fun e => by have := place_inj e; omega) (place_ne j)]
  cases ho : s.owner (s.inum, place j) with
  | some b =>
    rw [touched_of_owner (hown.trans ho), ← touched_of_owner ho]
    exact touched_subset_logged hj.le hje
  | none =>
    rw [State.touched, hown, ho]
    dsimp only
    split
    · rename_i hind
      by_cases h0 : s.ip.addrs ndirect = 0
      · obtain ⟨l, hlen, hl, hnew⟩ := h.free
        refine Finset.singleton_subset_iff.2 (fresh_subset_logged (cost_le_need hn) ?_)
        rw [← hlen]
        exact (mem_fresh_of_append (m := 0) hl (hnew h0 hind.2)).1
      · have hkept := h.kept.owner (owner_direct hwf (p := ndirect) (by omega) h0)
        rw [← h.kept.inum, owner_direct h.wf (by omega) hind.2, Option.some_inj] at hkept
        rw [hkept, ← touched_of_none ho hind.1 h0]
        exact touched_subset_logged hj.le hje
    · exact Finset.empty_subset _

theorem Mapped.logged {n a : Nat} (h : Mapped s n a s') (hwf : Wf s) (hn : n < e) : s'.logged (n + 1) e ⊆ s.logged n e := by
  refine Finset.union_subset ?_ (Finset.biUnion_subset.2 fun j hj => ?_)
  · obtain ⟨l, hlen, hl, -⟩ := h.free
    refine (fresh_of_append hl h.kept.sb).trans (fresh_subset_logged ?_)
    rw [h.need hn, hlen]
  · rw [Finset.mem_Ico] at hj
    exact h.touched hwf hn hj.1 hj.2

theorem need_self (s : State) (n : Nat) : s.need n n = 0 := by
  rw [State.need, if_neg fun h => lt_irrefl n h.1, Finset.Ico_self]
  rfl

theorem logged_self (s : State) (n : Nat) : s.logged n n = ∅ := by
  rw [State.logged, need_self, Finset.Ico_self]
  rfl

/-- Where the loop of `writei` stops that can copy the bytes `l` of `n` bytes. -/
def stopAt (off n : Nat) (l : List UInt8) : Nat := if l.length < n then max off ((off + l.length) / bsize * bsize) else off + n

/-- The bytes `l` have been written at `off`, where `n` bytes were to be written. -/
structure Wrote (s : State) (off n : Nat) (l : List UInt8) (off' : Nat) (s' : State) : Prop where
  wf : Wf s'
  frame : Frame s s'
  bytes : ∀ pos, s'.byteAt s.inum pos = if off ≤ pos ∧ pos < off + l.length then l.getD (pos - off) 0 else s.byteAt s.inum pos
  present : ∀ pos, off ≤ pos → pos < off' → s'.owner (s.inum, place (pos / bsize)) ≠ none
  stop : off' = stopAt off n l

/-- In how many blocks the `n` bytes at `off` are. -/
def span (off n : Nat) : Nat := if n = 0 then 0 else (off + n - 1) / bsize + 1 - off / bsize

/-- The piece of `n` bytes at `off` that is in the first block. -/
def piece (off n : Nat) : Nat := min n (bsize - off % bsize)

section Piece

variable (off n : Nat)

theorem piece_le : piece off n ≤ n := min_le_left ..

theorem piece_pos (hn : 0 < n) : 0 < piece off n := by
  simp only [piece, bsize]
  omega

theorem piece_fits : off % bsize + piece off n ≤ bsize := by
  simp only [piece, bsize]
  omega

variable {off n} in
theorem next_block (h : piece off n < n) :
    (off + piece off n) / bsize = off / bsize + 1 ∧ (off + piece off n) % bsize = 0 := by
  simp only [piece, bsize] at *
  omega

theorem span_piece (hn : 0 < n) : span off n = span (off + piece off n) (n - piece off n) + 1 := by
  rw [span, if_neg (by omega)]
  by_cases hlast : piece off n < n
  · have hnext := next_block hlast
    rw [span, if_neg (by omega), hnext.1, show off + piece off n + (n - piece off n) - 1 = off + n - 1 by omega]
    have : off / bsize + 1 ≤ (off + n - 1) / bsize := by
      rw [← hnext.1]
      exact Nat.div_le_div_right (by omega)
    omega
  · have hle := piece_le off n
    rw [show n - piece off n = 0 by omega, span, if_pos rfl]
    have hfits := piece_fits off n
    simp only [bsize] at *
    omega

variable {off n} in
theorem div_lt_maxfile (hn : 0 < n) (h : off + n ≤ maxfile * bsize) : off / bsize < maxfile := by
  rw [Nat.div_lt_iff_lt_mul (by decide)]
  omega

end Piece

theorem Wf.withLh (h : Wf s) (lh : List Nat) : Wf (s.withLh lh) := ⟨h.layout, h.owned, h.fits, h.present, h.current⟩

theorem Frame.withLh (h : Frame s s') (hlh : s'.log.lh ⊆ lh) : Frame s (s'.withLh lh) :=
  { h with lh := List.Subset.trans h.lh hlh }

theorem Wrote.nil (h : Wf s) (off : Nat) : Wrote s off 0 [] off s where
  wf := h
  frame := Frame.refl s
  bytes pos := by rw [if_neg (by simp)]
  present pos h1 h₂ := by omega
  stop := rfl

/-- The bytes of the first piece, of which maybe not all were copied. -/
theorem Wrote.first {off n a : Nat} {l : List UInt8} (hm : Mapped s (off / bsize) a s') (hl : l.length ≤ piece off n) :
    Wf (s'.setBlock a (store (s'.block a) (off % bsize) l)) ∧ Frame s (s'.setBlock a (store (s'.block a) (off % bsize) l)) ∧
      ∀ pos, (s'.setBlock a (store (s'.block a) (off % bsize) l)).byteAt s.inum pos =
        if off ≤ pos ∧ pos < off + l.length then l.getD (pos - off) 0 else s.byteAt s.inum pos := by
  have hinum := hm.kept.inum
  have ha : s'.owner (s'.inum, place (off / bsize)) = some a := hinum ▸ hm.addr
  have hfits := piece_fits off n
  have hoff : off / bsize * bsize + off % bsize = off := by rw [mul_comm]; exact Nat.div_add_mod off bsize
  refine ⟨wf_store hm.wf ha _, hm.kept.toFrame.trans (frame_store hm.wf ha _), fun pos => ?_⟩
  have hb := byteAt_store (o := off % bsize) (l := l) hm.wf ha (by omega) pos
  rw [hoff, hinum, hm.byteAt] at hb
  exact hb

/-- The first piece, and then the others. -/
theorem Wrote.step {off n a : Nat} {l l' : List UInt8} {s1 s2 : State} (hm : Mapped s (off / bsize) a s1)
    (hlh : s1.log.lh ⊆ lh) (hl : l.length = piece off n)
    (h : Wrote ((s1.setBlock a (store (s1.block a) (off % bsize) l)).withLh lh) (off + piece off n) (n - piece off n)
      l' off' s2)
    (hl' : l'.length ≤ n - piece off n) : Wrote s off n (l ++ l') off' s2 := by
  obtain ⟨-, hframe, hbytes⟩ := Wrote.first (n := n) hm hl.le
  have hinum : ((s1.setBlock a (store (s1.block a) (off % bsize) l)).withLh lh).inum = s.inum := hframe.inum
  have hle := piece_le off n
  refine ⟨h.wf, (hframe.withLh hlh).trans h.frame, fun pos => ?_, fun pos h1 h₂ => ?_, ?_⟩
  · have hb := h.bytes pos
    rw [hinum] at hb
    rw [hb, length_append]
    by_cases hrest : off + piece off n ≤ pos ∧ pos < off + piece off n + l'.length
    · rw [if_pos hrest, if_pos (by omega), getD_append_right _ _ _ _ (by omega)]
      congr 1
      omega
    · rw [if_neg hrest]
      refine (hbytes pos).trans ?_
      by_cases hfirst : off ≤ pos ∧ pos < off + l.length
      · rw [if_pos hfirst, if_pos (by omega), getD_append _ _ _ _ (by omega)]
      · rw [if_neg hfirst, if_neg (by omega)]
  · by_cases hrest : off + piece off n ≤ pos
    · have := h.present pos hrest h₂
      rwa [hinum] at this
    · -- the first block stays where `bmap` has put it
      have hdiv : pos / bsize = off / bsize := by
        have hfits := piece_fits off n
        simp only [bsize] at *
        omega
      have ho : ((s1.setBlock a (store (s1.block a) (off % bsize) l)).withLh lh).owner (s.inum,
        place (off / bsize)) = some a :=
        (frame_store hm.wf (hm.kept.inum ▸ hm.addr) _).owner hm.addr
      rw [hdiv, h.frame.owner ho]
      exact Option.some_ne_none _
  · rw [h.stop, stopAt, stopAt, length_append]
    by_cases hlt : l'.length < n - piece off n
    · have hnext := next_block (show piece off n < n by omega)
      rw [if_pos hlt, if_pos (by omega), hl, ← add_assoc]
      simp only [bsize] at *
      omega
    · rw [if_neg hlt, if_neg (by omega)]
      omega

theorem writeLoop_spec (mem : Mem) {n : Nat} (turns tot off : Nat) (src : BitVec 64) (h : Wf s) (hheld : s.held = [])
    (htot : tot ≤ n)
    (hmax : off + (n - tot) ≤ maxfile * bsize) (hturns : n - tot < turns)
    (hr : Room P s B) (hB : s.logged (off / bsize) (off / bsize + span off (n - tot)) ⊆ B)
    (hfree : s.need (off / bsize) (off / bsize + span off (n - tot)) ≤ s.nfree ∨ P "balloc: out of blocks") :
    Cmd.Spec P s (writeLoop mem n turns tot off src) fun off' s' =>
      Wrote s off (n - tot) (copyin mem src (n - tot)) off' s' ∧ Room P s' B := by
  induction turns generalizing s tot off src with
  | zero => omega
  | succ turns ih =>
    rw [writeLoop]
    by_cases hlt : tot < n
    · rw [if_pos hlt]
      have hspan := span_piece off (n - tot) (by omega)
      have hple := piece_le off (n - tot)
      have hppos := piece_pos off (n - tot) (by omega)
      have hn : off / bsize < off / bsize + span off (n - tot) := by omega
      have hcost : s.cost (off / bsize) ≤ s.nfree ∨ P "balloc: out of blocks" :=
        hfree.imp_left fun hle => (cost_le_need hn).trans hle
      have hB1 : s.fresh (s.cost (off / bsize)) ∪ s.touched (off / bsize) ⊆ B :=
        (Finset.union_subset (fresh_subset_logged (cost_le_need hn)) (touched_subset_logged (le_rfl) hn)).trans hB
      refine .bind (bmap_spec h hheld hr hB1 hcost (div_lt_maxfile (by omega) hmax)) fun a s1 ⟨hm, hr1, hmem⟩ => ?_
      have hheld1 : s1.held = [] := hm.kept.held.trans hheld
      have ha : s1.owner (s1.inum, place (off / bsize)) = some a := hm.kept.inum ▸ hm.addr
      refine .bind (bread_spec (by simp [hheld1]) hr1 (by simp [hheld1])) ?_
      rintro _ _ rfl
      refine .get (.modify ?_)
      show Cmd.Spec P ((s1.withHeld (a :: s1.held)).setBlock a
        (store (s1.block a) (off % bsize) (copyin mem src (piece off (n - tot)))))
        (if (copyin mem src (piece off (n - tot))).length < piece off (n - tot) then _ else _) _
      have hcopy := copyin_add mem src (piece off (n - tot)) (n - tot - piece off (n - tot))
      rw [Nat.add_sub_cancel' hple] at hcopy
      generalize hl : copyin mem src (piece off (n - tot)) = l at hcopy ⊢
      have hlle : l.length ≤ piece off (n - tot) := hl ▸ length_copyin_le mem src _
      obtain ⟨hwf, hframe, hbytes⟩ := Wrote.first (n := n - tot) hm hlle
      have herase : (a :: s1.held).erase a = s1.held := erase_cons_head ..
      by_cases hshort : l.length < piece off (n - tot)
      · -- the copy stops in this piece
        rw [if_pos hshort] at hcopy ⊢
        rw [hcopy]
        have hstop : off = stopAt off (n - tot) l := by
          have hfits := piece_fits off (n - tot)
          rw [stopAt, if_pos (by omega)]
          simp only [bsize] at *
          omega
        refine .modify (.ret ?_)
        show Wrote s off (n - tot) l off (((s1.withHeld (a :: s1.held)).setBlock a _).withHeld ((a :: s1.held).erase a)) ∧ _
        rw [herase]
        exact ⟨⟨hwf, hframe, hbytes, fun pos h1 h₂ => by omega, hstop⟩, hr1.outstanding, hr1.fits⟩
      · rw [if_neg hshort] at hcopy ⊢
        rw [hcopy]
        have hr' : Room P ((s1.withHeld (a :: s1.held)).setBlock a (store (s1.block a) (off % bsize) l)) B :=
          ⟨hr1.outstanding, hr1.fits⟩
        refine .bind (logWrite_spec hr' a) ?_
        rintro _ _ rfl
        refine .modify ?_
        show Cmd.Spec P (((((s1.withHeld (a :: s1.held)).setBlock a (store (s1.block a) (off % bsize) l)).withLh
          (insertLh a s1.log.lh)).withHeld ((a :: s1.held).erase a))) _ _
        rw [herase]
        have hsub : n - (tot + piece off (n - tot)) = n - tot - piece off (n - tot) := by omega
        have hlh : s1.log.lh ⊆ insertLh a s1.log.lh := fun c hc => mem_insertLh.2 (.inr hc)
        have hnext := ih (s := (s1.setBlock a (store (s1.block a) (off % bsize) l)).withLh (insertLh a s1.log.lh))
          (tot + piece off (n - tot)) (off + piece off (n - tot)) (src + .ofNat 64 (piece off (n - tot))) (hwf.withLh _) hheld1
          (by omega) (by omega) (by omega) (hr1.insertLh hmem _) ?_ ?_
        · rw [hsub] at hnext
          refine .mono hnext fun off' s2 h₂ => ⟨?_, h₂.2⟩
          exact .step hm hlh (by omega) h₂.1 (length_copyin_le _ _ _)
        · rw [hsub]
          by_cases hlast : piece off (n - tot) < n - tot
          · rw [(next_block hlast).1, show off / bsize + 1 + span (off + piece off (n - tot)) (n - tot - piece off (n - tot)) =
              off / bsize + span off (n - tot) by omega]
            refine (Finset.Subset.trans ?_ (hm.logged h hn)).trans hB
            exact Finset.subset_of_eq (logged_store hm.wf ha (store (s1.block a) (off % bsize) l) _ _)
          · rw [show n - tot - piece off (n - tot) = 0 by omega,
              show span (off + piece off (n - tot)) 0 = 0 from if_pos rfl, add_zero,
              logged_self]
            exact Finset.empty_subset _
        · rw [hsub]
          by_cases hlast : piece off (n - tot) < n - tot
          · refine hfree.imp_left fun hle => ?_
            have hneed := hm.need hn
            obtain ⟨f, hlen, hf, -⟩ := hm.free
            have hnf' : ((s1.setBlock a (store (s1.block a) (off % bsize) l)).withLh (insertLh a s1.log.lh)).nfree =
              s1.nfree :=
              congrArg List.length (freeBlocks_setBlock _ (hm.wf.of_owner ha).1)
            have hnf : s.nfree = f.length + s1.nfree := by rw [State.nfree, hf, length_append, State.nfree]
            have hneed' := need_store hm.wf ha (store (s1.block a) (off % bsize) l) (off / bsize + 1)
              (off / bsize + span off (n - tot))
            rw [hnf', (next_block hlast).1,
              show off / bsize + 1 + span (off + piece off (n - tot)) (n - tot - piece off (n - tot)) =
              off / bsize + span off (n - tot) by omega]
            refine (le_of_eq hneed').trans ?_
            omega
          · rw [show n - tot - piece off (n - tot) = 0 by omega,
              show span (off + piece off (n - tot)) 0 = 0 from if_pos rfl, add_zero,
              need_self]
            exact .inl (Nat.zero_le _)
    · rw [if_neg hlt]
      have h0 : n - tot = 0 := by omega
      rw [h0]
      exact .ret ⟨Wrote.nil h off, hr⟩

/-! ## `iupdate` -/

section Iupdate

variable (h : Wf s)

/-- The disk with the inode written to it. -/
def State.written (s : State) : State := s.setBlock (iblock s.inum s.sb)
    (putDinode (s.block (iblock s.inum s.sb)) (ioff s.inum) s.ip)

include h

theorem block_written {c : Nat} (hc : nmeta s.sb ≤ c) : s.written.block c = s.block c := by
  have := h.layout.iblock_lt_nmeta h.current.1
  exact setBlock_of_ne _ _ _ (by omega)

theorem dinode_written_self : s.written.dinode s.inum = s.ip := by
  unfold State.dinode State.written
  rw [setBlock_sb, setBlock_self]
  exact getDinode_putDinode h.ip_fits _ _

omit h in
theorem dinode_written {i : Nat} (hi : i ≠ s.inum) : s.written.dinode i = s.dinode i := by
  unfold State.dinode State.written
  rw [setBlock_sb]
  by_cases hb : iblock i s.sb = iblock s.inum s.sb
  · -- another inode of the same block
    rw [hb, setBlock_self]
    refine getDinode_congr fun y h1 h₂ => putDinode_apply_of_not ?_
    simp only [iblock, ioff, ipb, dinodeSize, bsize] at *
    omega
  · rw [setBlock_of_ne _ _ _ hb]

omit h in
theorem inode_written (i : Nat) : s.written.inode i = s.inode i := by
  unfold State.inode
  by_cases hi : i = s.inum
  · rw [if_pos hi, if_pos (by exact hi)]
    rfl
  · rw [if_neg hi, if_neg (by exact hi), dinode_written hi]

theorem bit_written (c : Nat) : s.written.bit c = s.bit c := by
  unfold State.bit State.written
  rw [setBlock_sb, setBlock_of_ne _ _ _ (h.layout.iblock_ne_bblock h.current.1 c).symm]

theorem owner_written (q : Nat × Nat) : s.written.owner q = s.owner q := by
  refine owner_congr ?_ fun hi => ?_
  · unfold State.Alloc
    rw [inode_written]
    rfl
  · rw [inode_written]
    refine ref_congr (fun hne => block_written h ?_) _
    exact (h.of_owner (owner_of_ne (p := ndirect) hi hne)).1

theorem Wf.written : Wf s.written where
  layout := h.layout
  owned := h.owned.congr (fun c => and_congr_right fun _ => by rw [bit_written h]) (owner_written h)
  fits i hi := by
    rw [State.Alloc, inode_written] at hi
    rw [inode_written]
    exact h.fits i hi
  present i hi k hk := by
    rw [State.Alloc, inode_written] at hi
    rw [inode_written] at hk
    rw [owner_written h]
    exact h.present i hi k hk
  current := by
    refine ⟨h.current.1, ?_⟩
    rw [inode_written]
    exact h.current.2

theorem byteAt_written (i pos : Nat) : s.written.byteAt i pos = s.byteAt i pos := by
  unfold State.byteAt
  rw [owner_written h]
  cases ho : s.owner (i, place (pos / bsize)) with
  | none => rfl
  | some c =>
    show s.written.block c _ = s.block c _
    rw [block_written h (h.of_owner ho).1]

end Iupdate

theorem iupdate_spec (hheld : s.held = []) (hr : Room P s B) :
    Cmd.Spec P s iupdate fun _ s' => s' = s.written.withLh (insertLh (iblock s.inum s.sb) s.log.lh) := by
  refine .get (.bind (bread_spec (by simp [hheld]) hr (by simp [hheld])) ?_)
  rintro _ _ rfl
  exact .get (writeBack_spec hr _ _)

/-! ## The size -/

section Resize

/-- The state in which the inode has at least the size `size`. -/
def State.resize (s : State) (size : Nat) : State := s.withIp (s.ip.withSize (max s.ip.size size))

variable (size : Nat)

/-- This is what `writei` does. -/
theorem ite_resize : (if size > s.ip.size then s.withIp (s.ip.withSize size) else s) = s.resize size := by
  unfold State.resize
  split
  · rw [max_eq_right (by omega)]
  · rw [max_eq_left (by omega)]
    rfl

theorem inode_resize_self : (s.resize size).inode s.inum = s.ip.withSize (max s.ip.size size) := if_pos rfl

theorem inode_resize_of_ne {i : Nat} (hi : i ≠ s.inum) : (s.resize size).inode i = s.inode i :=
  (if_neg hi).trans (inode_of_ne _ hi).symm

theorem inode_resize (i : Nat) :
    ((s.resize size).inode i).type = (s.inode i).type ∧ ((s.resize size).inode i).addrs = (s.inode i).addrs := by
  by_cases hi : i = s.inum
  · rw [hi, inode_resize_self, inode_self]
    exact ⟨rfl, rfl⟩
  · rw [inode_resize_of_ne size hi]
    exact ⟨rfl, rfl⟩

theorem alloc_resize (i : Nat) : (s.resize size).Alloc i ↔ s.Alloc i := by
  unfold State.Alloc
  rw [(inode_resize size i).1]
  rfl

theorem owner_resize (q : Nat × Nat) : (s.resize size).owner q = s.owner q := by
  refine owner_congr (alloc_resize size q.1) fun _ => ?_
  unfold ref
  rw [(inode_resize size q.1).2]
  rfl

theorem byteAt_resize (i pos : Nat) : (s.resize size).byteAt i pos = s.byteAt i pos := by
  unfold State.byteAt
  rw [owner_resize]
  rfl

/-- A file may grow up to where it has blocks. -/
theorem Wf.resize (h : Wf s) (hmax : size ≤ maxfile * bsize)
    (hpres : ∀ k, s.ip.size ≤ k * bsize → k * bsize < size → s.owner (s.inum, place k) ≠ none) : Wf (s.resize size) where
  layout := h.layout
  owned := h.owned.congr (fun _ => Iff.rfl) (owner_resize size)
  fits i hi := by
    rw [alloc_resize] at hi
    by_cases hne : i = s.inum
    · rw [hne, inode_resize_self]
      exact ⟨Nat.max_le.2 ⟨h.ip_fits.size, hmax⟩, h.ip_fits.addrs, h.ip_fits.none⟩
    · rw [inode_resize_of_ne size hne]
      exact h.fits i hi
  present i hi k hk := by
    rw [alloc_resize] at hi
    rw [owner_resize]
    by_cases hne : i = s.inum
    · rw [hne, inode_resize_self] at hk
      rw [hne]
      by_cases hold : k * bsize < s.ip.size
      · exact h.present s.inum h.current k (by rwa [inode_self])
      · exact hpres k (not_lt.1 hold) ((lt_max_iff.1 hk).resolve_left hold)
    · rw [inode_resize_of_ne size hne] at hk
      exact h.present i hi k hk
  current := (alloc_resize size s.inum).2 h.current

end Resize

/-- What `writei` does with `n` bytes at `off`, of which it can copy the bytes `l`. -/
structure Stored (s : State) (off n : Nat) (l : List UInt8) (s' : State) : Prop where
  wf : Wf s'
  synced : Synced s'
  sb : s'.sb = s.sb
  inum : s'.inum = s.inum
  held : s'.held = s.held
  outstanding : s'.log.outstanding = s.log.outstanding
  size : s'.ip.size = max s.ip.size (stopAt off n l)
  attrs : s'.ip = { s.ip with size := s'.ip.size, addrs := s'.ip.addrs }
  bytes : ∀ pos, s'.byteAt s.inum pos = if off ≤ pos ∧ pos < off + l.length then l.getD (pos - off) 0 else s.byteAt s.inum pos
  /-- The other inodes are as before. -/
  inode : ∀ i, i < s.sb.ninodes → i ≠ s.inum → s'.inode i = s.inode i
  owner : ∀ i p, i ≠ s.inum → s'.owner (i, p) = s.owner (i, p)
  others : ∀ i pos, i ≠ s.inum → s'.byteAt i pos = s.byteAt i pos

theorem stopAt_le {off n : Nat} {l : List UInt8} : stopAt off n l ≤ off + n := by
  unfold stopAt
  split
  · have := Nat.div_mul_le_self (off + l.length) bsize
    omega
  · exact le_rfl

/-- After the loop the size and the inode on disk follow. -/
theorem Wrote.stored {off n : Nat} {l : List UInt8} (h : Wrote s off n l off' s') (hoff : off ≤ s.ip.size)
    (hmax : off + n ≤ maxfile * bsize) (lh : List Nat) : Stored s off n l ((s'.resize off').written.withLh lh) := by
  have hle : off' ≤ off + n := h.stop ▸ stopAt_le
  have hinum := h.frame.inum
  have hsize : s'.ip.size = s.ip.size := by rw [h.frame.attrs]
  have hwf' : Wf (s'.resize off') := by
    refine h.wf.resize off' (hle.trans hmax) fun k hlo hhi => ?_
    have hp := h.present (k * bsize) (by omega) hhi
    rwa [Nat.mul_div_cancel _ (by decide), ← hinum] at hp
  have hself : (s'.resize off').inum = s.inum := hinum
  have hbytes : ∀ i pos, ((s'.resize off').written.withLh lh).byteAt i pos = s'.byteAt i pos := fun i pos =>
    (byteAt_written hwf' i pos).trans (byteAt_resize off' i pos)
  refine ⟨hwf'.written.withLh lh, dinode_written_self hwf', h.frame.sb, hinum, h.frame.held, h.frame.outstanding,
    ?_, ?_, fun pos => ?_,
    fun i hlt hi => ?_, fun i p hi => ?_, fun i pos hi => ?_⟩
  · show max s'.ip.size off' = _
    rw [hsize, h.stop]
  · have hattrs := h.frame.attrs
    show s'.ip.withSize _ = { s.ip with size := max s'.ip.size off', addrs := s'.ip.addrs }
    rw [hattrs]
    rfl
  · exact (hbytes s.inum pos).trans (h.bytes pos)
  · have hi' : i ≠ s'.inum := fun e => hi (e.trans hinum)
    have h1 : ((s'.resize off').written.withLh lh).inode i = (s'.resize off').inode i := inode_written (s := s'.resize off') i
    rw [h1, inode_resize_of_ne off' hi', h.frame.inode hlt hi]
  · refine (owner_written hwf' (i, p)).trans ((owner_resize off' (i, p)).trans ?_)
    exact h.frame.others hi
  · exact (hbytes i pos).trans (h.frame.byteAt hi pos)

/-- What a write of `n` bytes at `off` logs, before the inode itself. -/
def State.writeLogged (s : State) (off n : Nat) : Finset Nat := s.logged (off / bsize) (off / bsize + span off n)

/-- Nothing is to be written. -/
theorem Stored.nil (h : Wf s) (hsync : Synced s) {off : Nat} (hoff : off ≤ s.ip.size) : Stored s off 0 [] s where
  wf := h
  synced := hsync
  sb := rfl
  inum := rfl
  held := rfl
  outstanding := rfl
  size := (max_eq_left hoff).symm
  attrs := rfl
  bytes pos := by rw [if_neg (by simp)]
  inode _ _ _ := rfl
  owner _ _ _ := rfl
  others _ _ _ := rfl

/-- `writei` where it does not fail at once. -/
theorem writei_spec (mem : Mem) (src : BitVec 64) (off n : BitVec 32) (h : Wf s) (hsync : Synced s) (hheld : s.held = [])
    (hoff : off.toNat ≤ s.ip.size) (hmax : off.toNat + n.toNat ≤ maxfile * bsize)
    (hr : 0 < n.toNat → Room P s (s.writeLogged off.toNat n.toNat))
    (hfree : s.need (off.toNat / bsize) (off.toNat / bsize + span off.toNat n.toNat) ≤ s.nfree ∨ P "balloc: out of blocks") :
    Cmd.Spec P s (writei mem src off n) fun r s' =>
      r = n.toInt ∧ Stored s off.toNat n.toNat (copyin mem src n.toNat) s' ∧
        (0 < n.toNat → s'.log.lh.length ≤ min logsize (s.sb.nlog - 1) ∨ P "too big a transaction") := by
  have hadd : (off + n).toNat = off.toNat + n.toNat := by
    have : maxfile * bsize < 2 ^ 32 := by decide
    rw [toNat_add, Nat.mod_eq_of_lt (by omega)]
  have hlt : ¬(off.toNat > s.ip.size ∨ off + n < off) := by
    rw [lt_def]
    omega
  unfold writei
  refine .get ?_
  rw [if_neg hlt, if_neg (by omega)]
  by_cases hn : n.toNat = 0
  · have hn' : ¬0 < n := by
      rw [lt_def, hn]
      exact lt_irrefl 0
    have hloop : (writeLoop mem n.toNat (n.toNat + 1) 0 off.toNat src).run s = .ok off.toNat s := by
      rw [hn]
      rfl
    refine .bind (.of_run (Q := fun _ s' => s' = s) hloop rfl) ?_
    rintro _ _ rfl
    rw [if_neg hn', hn]
    exact .ret ⟨rfl, Stored.nil h hsync hoff, fun h0 => absurd h0 (lt_irrefl 0)⟩
  · have hn' : 0 < n := lt_def.2 (Nat.pos_of_ne_zero hn)
    refine .bind (writeLoop_spec mem (n.toNat + 1) 0 off.toNat src h hheld (Nat.zero_le _) hmax (Nat.lt_succ_self _)
      (hr (Nat.pos_of_ne_zero hn)) (Finset.Subset.refl _) hfree) fun off' s1 ⟨hw, hr1⟩ => ?_
    rw [if_pos hn']
    refine .modify ?_
    rw [ite_resize]
    have hr2 : Room P (s1.resize off') (s.writeLogged off.toNat n.toNat) := ⟨hr1.outstanding, hr1.fits⟩
    refine .bind (iupdate_spec (hw.frame.held.trans hheld) hr2) ?_
    rintro _ _ rfl
    refine .ret ⟨rfl, hw.stored hoff hmax _, fun _ => hr2.fits.imp (fun ⟨h1, h2⟩ => ?_) And.left⟩
    have hlen := length_insertLh_le (iblock (s1.resize off').inum (s1.resize off').sb) (s1.resize off').log.lh
    have hsb : (s1.resize off').sb = s.sb := hw.frame.sb
    show (insertLh _ _).length ≤ _
    unfold State.logLen at h1 h2
    rw [hsb] at h2
    omega

/-- `writei` fails without a change. -/
theorem writei_fails (mem : Mem) (src : BitVec 64) (off n : BitVec 32)
    (hbad : s.ip.size < off.toNat ∨ 2 ^ 32 ≤ off.toNat + n.toNat ∨ maxfile * bsize < off.toNat + n.toNat) :
    (writei mem src off n).run s = .ok (-1) s := by
  unfold writei
  rw [Cmd.run_get]
  by_cases hfirst : off.toNat > s.ip.size ∨ off + n < off
  · rw [if_pos hfirst]
    rfl
  · rw [lt_def] at hfirst
    have hsum : (off + n).toNat = off.toNat + n.toNat := by
      rw [toNat_add] at hfirst ⊢
      omega
    have hge : ¬2 ^ 32 ≤ off.toNat + n.toNat := by
      have := (off + n).isLt
      omega
    rw [if_neg (by rwa [lt_def]), if_pos (by omega)]
    rfl

/-! ## `readi` -/

theorem div_mod_add {off : Nat} (h : off % bsize + i < bsize) :
    (off + i) / bsize = off / bsize ∧ (off + i) % bsize = off % bsize + i := by
  simp only [bsize] at *
  omega

section Read

variable (h : Wf s) (hheld : s.held = []) (hbuf : s.log.lh.length < nbuf ∨ P "bget: no buffers")

include hheld hbuf

omit h in
theorem bread_alone (b : Nat) : Cmd.Spec P s (bread b) fun _ s' => s' = s.withHeld [b] := by
  have hle : s.inUse.length ≤ s.log.lh.length := by
    rw [State.inUse, hheld, nil_append]
    exact (dedup_sublist _).length_le
  refine .get ?_
  rw [id, if_neg (by simp [hheld])]
  split
  · exact .panic (hbuf.resolve_left (by omega))
  · exact .of_run rfl (by rw [← hheld])

include h

theorem mapIndirect_there {j a : Nat} (hj : j < nindirect) (hind : s.ip.addrs ndirect ≠ 0)
    (ho : s.owner (s.inum, ndirect + 1 + j) = some a) :
    Cmd.Spec P s (mapIndirect (s.ip.addrs ndirect) j) fun x s' => x = a ∧ s' = s := by
  rw [owner_indirect h hj hind] at ho
  by_cases hz : s.entry j = 0
  · rw [if_pos hz] at ho
    cases ho
  · rw [if_neg hz, Option.some_inj] at ho
    refine .bind (bread_alone hheld hbuf _) ?_
    rintro _ _ rfl
    refine .get ?_
    show Cmd.Spec P _ (if s.entry j = 0 then _ else _) _
    rw [if_neg hz]
    refine .modify (.ret ⟨ho, ?_⟩)
    show (s.withHeld [_]).withHeld (List.erase [_] _) = s
    rw [erase_cons_head, ← hheld]
    rfl

/-- A block that is there. -/
theorem bmap_there {n a : Nat} (hn : n < maxfile) (ho : s.owner (s.inum, place n) = some a) :
    Cmd.Spec P s (bmap n) fun x s' => x = a ∧ s' = s := by
  have hmf : maxfile = ndirect + nindirect := rfl
  have href := of_owner ho
  rw [inode_self] at href
  have haddr : ∀ k, s.ip.addrs k ≠ 0 → (allocAddr k).run s = .ok (s.ip.addrs k) s := fun k hk => by
    unfold allocAddr
    rw [Cmd.run_get, if_neg hk]
    rfl
  unfold bmap
  by_cases hd : n < ndirect
  · have hplace : place n = n := if_pos hd
    rw [hplace, ref, if_pos (by omega)] at href
    rw [if_pos hd]
    exact .of_run (haddr n (by omega)) ⟨href.2.1, rfl⟩
  · have hplace : place n = ndirect + 1 + (n - ndirect) := by
      rw [place, if_neg hd]
      omega
    rw [hplace] at ho
    have hind : s.ip.addrs ndirect ≠ 0 := fun hz => by
      rw [hplace, ref, if_neg (by omega), if_neg fun hp => hp.1 hz] at href
      exact href.2.2 href.2.1.symm
    rw [if_neg hd, if_pos (by omega)]
    refine .bind (.of_run (Q := fun x s' => x = s.ip.addrs ndirect ∧ s' = s) (haddr _ hind) ⟨rfl, rfl⟩) ?_
    rintro _ _ ⟨rfl, rfl⟩
    exact mapIndirect_there h hheld hbuf (by omega) hind ho

theorem readLoop_spec {n : Nat} (turns tot off : Nat) (htot : tot ≤ n) (hturns : n - tot < turns)
    (hsize : off + (n - tot) ≤ s.ip.size) :
    Cmd.Spec P s (readLoop (fun _ _ => true) n turns tot off) fun l s' =>
      l = (range (n - tot)).map (fun i => s.byteAt s.inum (off + i)) ∧ s' = s := by
  induction turns generalizing tot off with
  | zero => omega
  | succ turns ih =>
    rw [readLoop]
    by_cases hlt : tot < n
    · rw [if_pos hlt]
      have hple := piece_le off (n - tot)
      have hppos := piece_pos off (n - tot) (by omega)
      have hfits := piece_fits off (n - tot)
      have hmax := h.ip_fits.size
      have hblock : off / bsize * bsize < s.ip.size := lt_of_le_of_lt (Nat.div_mul_le_self ..) (by omega)
      cases ho : s.owner (s.inum, place (off / bsize)) with
      | none => exact absurd ho (h.present s.inum h.current _ (by rwa [inode_self]))
      | some a =>
        refine .bind (bmap_there h hheld hbuf (div_lt_maxfile (n := n - tot) (by omega) (by omega)) ho) ?_
        rintro a s ⟨rfl, rfl⟩
        refine .bind (bread_alone hheld hbuf a) ?_
        rintro _ _ rfl
        have hrest := ih (tot + piece off (n - tot)) (off + piece off (n - tot)) (by omega) (by omega) (by omega)
        have herase : (s.withHeld [a]).withHeld ([a].erase a) = s := by
          rw [erase_cons_head, ← hheld]
          rfl
        show Cmd.Spec P ((s.withHeld [a]).withHeld ([a].erase a)) (readLoop (fun _ _ => true) n turns
          (tot + piece off (n - tot)) (off + piece off (n - tot)) >>= fun l =>
            pure (slice (s.block a) (off % bsize) (piece off (n - tot)) ++ l)) _
        rw [herase]
        refine .bind hrest ?_
        rintro _ s ⟨rfl, rfl⟩
        refine .ret ⟨?_, rfl⟩
        -- the bytes of this block, and then those of the others
        have hslice : slice (s.block a) (off % bsize) (piece off (n - tot)) =
            (range (piece off (n - tot))).map fun i => s.byteAt s.inum (off + i) := by
          refine map_congr_left fun i hi => ?_
          rw [mem_range] at hi
          obtain ⟨hdiv, hmod⟩ := div_mod_add (show off % bsize + i < bsize by omega)
          rw [byteAt_of_owner (hdiv ▸ ho), hmod]
        rw [hslice]
        generalize piece off (n - tot) = m at *
        rw [show n - tot = m + (n - (tot + m)) by omega, range_add, map_append, map_map]
        refine congrArg _ (map_congr_left fun i _ => ?_)
        rw [Function.comp_apply, add_assoc]
    · rw [if_neg hlt, show n - tot = 0 by omega]
      exact .ret ⟨rfl, rfl⟩

/-- `readi` returns what is in the contents. -/
theorem readi_spec (off n : BitVec 32) (hoff : off.toNat ≤ s.ip.size) (hadd : off.toNat + n.toNat < 2 ^ 32) :
    Cmd.Spec P s (readi (fun _ _ => true) off n) fun l s' => l = ((s.contents s.inum).drop off.toNat).take n.toNat ∧
      s' = s := by
  have hsum : (off + n).toNat = off.toNat + n.toNat := by rw [toNat_add, Nat.mod_eq_of_lt hadd]
  have hlt : ¬(off.toNat > s.ip.size ∨ off + n < off) := by
    rw [lt_def]
    omega
  have hclip : (if (off + n).toNat > s.ip.size then s.ip.size - off.toNat else n.toNat) = min n.toNat
    (s.ip.size - off.toNat) := by
    rw [hsum]
    split <;> omega
  refine .get ?_
  rw [if_neg hlt]
  show Cmd.Spec P s (readLoop _ (if _ then _ else _) ((if _ then _ else _) + 1) 0 off.toNat) _
  rw [hclip]
  refine (readLoop_spec h hheld hbuf _ 0 _ (Nat.zero_le _) (by omega) (by omega)).mono ?_
  rintro _ _ ⟨rfl, rfl⟩
  rw [State.contents, inode_self]
  refine ⟨ext_getElem ?_ fun i h1 h₂ => ?_, rfl⟩
  · simp
  · simp

end Read

/-! ## The contents as a list -/

theorem length_contents (s : State) (i : Nat) : (s.contents i).length = (s.inode i).size := by simp [State.contents]

/-- The contents where the bytes `l` have been written at `off`. -/
theorem contents_write {off : Nat} {l : List UInt8} (hsize : (s'.inode i).size = max (s.inode i).size (off + l.length))
    (hoff : off ≤ (s.inode i).size)
    (hbytes : ∀ pos, s'.byteAt i pos = if off ≤ pos ∧ pos < off + l.length then l.getD (pos - off) 0 else s.byteAt i pos) :
    s'.contents i = (s.contents i).take off ++ l ++ (s.contents i).drop (off + l.length) := by
  refine ext_getElem ?_ fun pos h1 h₂ => ?_
  · simp only [length_append, length_take, length_drop, length_contents, hsize]
    omega
  · simp only [State.contents, getElem_map, getElem_range, hbytes, getElem_append, length_append,
      length_take, length_map, length_range, getElem_take, getElem_drop, min_eq_left hoff]
    by_cases hin : off ≤ pos ∧ pos < off + l.length
    · rw [if_pos hin, dif_pos hin.2, dif_neg (by omega), getD_eq_getElem _ _ (by omega)]
    · rw [if_neg hin]
      by_cases hlo : pos < off
      · rw [dif_pos (by omega), dif_pos hlo]
      · rw [dif_neg (by omega)]
        congr 1
        omega

/-- The contents after a write of which all was copied. -/
theorem Stored.contents {off n : Nat} {l : List UInt8} (h : Stored s off n l s') (hl : l.length = n) (hoff : off ≤ s.ip.size) :
    s'.contents s.inum = (s.contents s.inum).take off ++ l ++ (s.contents s.inum).drop (off + n) := by
  have hold : (s.inode s.inum).size = s.ip.size := by rw [inode_self]
  rw [← hl] at h ⊢
  refine contents_write ?_ (hold ▸ hoff) h.bytes
  rw [hold, ← h.inum, inode_self, h.size, stopAt, if_neg (lt_irrefl _)]

theorem Stored.others_contents {off n : Nat} {l : List UInt8} (h : Stored s off n l s') (hlt : i < s.sb.ninodes)
    (hi : i ≠ s.inum) :
    s'.contents i = s.contents i := by
  unfold State.contents
  rw [h.inode i hlt hi]
  exact map_congr_left fun pos _ => h.others i pos hi

/-- In a transaction with room in the log, and with enough free blocks, the
contents of inodes are arrays of bytes: `writei` replaces a part of one of them,
and `readi` then reads it. -/
theorem contents_are_arrays (mem : Mem) (src : BitVec 64) (off n : BitVec 32) (h : Wf s) (hsync : Synced s)
    (hheld : s.held = []) :
    (off.toNat ≤ s.ip.size → off.toNat + n.toNat ≤ maxfile * bsize → (copyin mem src n.toNat).length = n.toNat →
      s.need (off.toNat / bsize) (off.toNat / bsize + span off.toNat n.toNat) ≤ s.nfree →
      (0 < n.toNat → 1 ≤ s.log.outstanding ∧ s.logLen (s.writeLogged off.toNat n.toNat) < min logsize (s.sb.nlog - 1)) →
      ∃ s', (writei mem src off n).run s = .ok n.toNat s' ∧ Wf s' ∧ Synced s' ∧ s'.inum = s.inum ∧
        s'.contents s.inum =
          (s.contents s.inum).take off.toNat ++ copyin mem src n.toNat ++ (s.contents s.inum).drop (off.toNat + n.toNat) ∧
        s'.ip.size = max s.ip.size (off.toNat + n.toNat) ∧
        (∀ i, i < s.sb.ninodes → i ≠ s.inum → s'.contents i = s.contents i ∧ s'.inode i = s.inode i ∧
          ∀ p, s'.owner (i, p) = s.owner (i, p)) ∧
        (0 < n.toNat → s'.log.lh.length ≤ min logsize (s.sb.nlog - 1)) ∧
        (s'.log.lh.length < nbuf → ∀ off' n' : BitVec 32, off'.toNat ≤ s'.ip.size → off'.toNat + n'.toNat < 2 ^ 32 →
          (readi (fun _ _ => true) off' n').run s' = .ok (((s'.contents s.inum).drop off'.toNat).take n'.toNat) s')) ∧
    (s.ip.size < off.toNat ∨ 2 ^ 32 ≤ off.toNat + n.toNat ∨ maxfile * bsize < off.toNat + n.toNat →
      (writei mem src off n).run s = .ok (-1) s) := by
  constructor
  · intro hoff hmax hcopy hfree hroom
    have hr : 0 < n.toNat → Room (fun _ => False) s (s.writeLogged off.toNat n.toNat) := fun hn => by
      obtain ⟨hout, hlen⟩ := hroom hn
      exact ⟨.inl hout, .inl ⟨by omega, by omega⟩⟩
    obtain ⟨r, s', hrun, rfl, hst, hlh⟩ := (writei_spec mem src off n h hsync hheld hoff hmax hr (.inl hfree)).result
    have hint : n.toInt = n.toNat := by
      have : maxfile * bsize < 2 ^ 31 := by decide
      rw [BitVec.toInt_eq_toNat_of_lt]
      omega
    refine ⟨s', hint ▸ hrun, hst.wf, hst.synced, hst.inum, hst.contents hcopy hoff, ?_, fun i hlt hi => ?_,
      fun hn => (hlh hn).resolve_right id, fun hbuf off' n' h1 h₂ => ?_⟩
    · rw [hst.size, stopAt, if_neg (by omega)]
    · exact ⟨hst.others_contents hlt hi, hst.inode i hlt hi, fun p => hst.owner i p hi⟩
    · obtain ⟨_, _, hread, rfl, rfl⟩ :=
        (readi_spec (P := fun _ => False) hst.wf (hst.held.trans hheld) (.inl hbuf) off' n' h1 h₂).result
      rw [hread, hst.inum]
  · exact writei_fails mem src off n

/-! ### A small disk -/

namespace Small

/-- 100 blocks with an empty file. -/
def sb : Superblock := { size := 100, ninodes := 2, nlog := 30, logstart := 2, inodestart := 32, bmapstart := 33 }

def file : Inode := { type := 2, major := 0, minor := 0, nlink := 1, size := 0, addrs := fun _ => 0 }

/-- The free map: the first 34 blocks are in use. -/
def map : Bytes := fun x => if x < 4 then 255 else if x = 4 then 3 else 0

def disk : State where
  sb := sb
  block b := if b = 33 then map else if b = 32 then putDinode (fun _ => 0) 64 file else fun _ => 0
  held := []
  log := { outstanding := 1, lh := [] }
  inum := 1
  ip := file

theorem file_fits : file.Fits := ⟨by decide, fun _ => show 0 < 256 ^ 4 by decide, fun _ _ => rfl⟩

theorem synced : Synced disk := getDinode_putDinode file_fits (fun _ => 0) 64

theorem alloc {i : Nat} (hi : disk.Alloc i) : i = 1 := by
  have h0 : ¬disk.Alloc 0 := by decide +kernel
  have h2 : i < 2 := hi.1
  by_contra hne
  obtain rfl : i = 0 := by omega
  exact h0 hi

theorem owner (q : Nat × Nat) : disk.owner q = none := by
  by_cases hi : disk.Alloc q.1
  · refine owner_of_eq ?_
    rw [alloc hi]
    show ref disk.block file q.2 = 0
    unfold ref
    split
    · rfl
    · exact if_neg fun h => h.1 rfl
  · exact if_neg fun h => hi h.1

theorem wf : Wf disk where
  layout := ⟨by decide, by decide, by decide, by decide⟩
  owned := by
    refine ⟨fun b => ?_, fun h => ?_, fun h => ?_⟩
    · have hbit : ∀ b < 100, disk.bit b = true ↔ b < 34 := by decide +kernel
      have hused : b ∈ disk.used ↔ b < 34 :=
        ⟨fun h => (hbit b h.1).1 h.2, fun h => ⟨show b < 100 by omega, (hbit b (by omega)).2 h⟩⟩
      rw [hused]
      refine ⟨.inl, fun h => h.resolve_right ?_⟩
      rintro ⟨q, hq⟩
      rw [owner] at hq
      cases hq
    · rw [owner] at h
      cases h
    · rw [owner] at h
      cases h
  fits i hi := by
    rw [alloc hi]
    exact file_fits
  present i hi k hk := by
    rw [alloc hi] at hk
    exact nomatch hk
  current := by decide

end Small

/-- The log of 30 blocks has room for 26 blocks, the indirect block and the block
of the free map. -/
theorem contents_are_arrays_small : ∃ s', (writei (fun _ => some 7) 0 0 26624).run Small.disk = .ok 26624 s' ∧
    s'.contents 1 = copyin (fun _ => some 7) 0 26624 ∧ s'.ip.size = 26624 ∧ s'.log.lh.length ≤ 29 ∧
    (readi (fun _ _ => true) 1000 100).run s' = .ok (((s'.contents 1).drop 1000).take 100) s' := by
  obtain ⟨s', hrun, -, -, -, hcont, hsize, -, hlh, hread⟩ :=
    (contents_are_arrays (fun _ => some 7) 0 0 26624 Small.wf Small.synced rfl).1 (by decide) (by decide)
      (length_copyin_of_some (fun _ => ⟨7, rfl⟩) 0 _) (by decide +kernel) fun _ => ⟨by decide, by decide +kernel⟩
  have hlen : s'.log.lh.length ≤ 29 := hlh (by decide)
  have hsize : s'.ip.size = 26624 := hsize
  refine ⟨s', hrun, ?_, hsize, hlen, hread (Nat.lt_of_le_of_lt hlen (by decide)) 1000 100 ?_ (by decide)⟩
  · rw [show s'.contents 1 = _ from hcont, drop_eq_nil_of_le (Nat.zero_le _), append_nil]
    rfl
  · rw [hsize]
    decide

/-- With 27 blocks there is no room for the inode. -/
theorem writei_too_big : Wf Small.disk ∧ Synced Small.disk ∧ Small.disk.held = [] ∧ 1 ≤ Small.disk.log.outstanding ∧
    Small.disk.need 0 (span 0 27648) ≤ Small.disk.nfree ∧ (copyin (fun _ => some 7) 0 27648).length = 27648 ∧
    (writei (fun _ => some 7) 0 0 27648).run Small.disk = .panic "too big a transaction" := by
  refine ⟨Small.wf, Small.synced, rfl, by decide, by decide +kernel, ?_, ?_⟩
  · exact length_copyin_of_some (fun _ => ⟨7, rfl⟩) 0 _
  · exact Res.panics_iff.1 (by decide +kernel)

end Xv6.Disk
