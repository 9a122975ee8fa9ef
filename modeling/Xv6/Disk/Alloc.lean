import Xv6.Disk.Layout

/-!
# Allocating blocks

What a change of one block changes of the file system, and what `balloc` and
`bmap` do. `bmap` adds at most two blocks to the inode, an indirect block and the
one it was called for; all blocks that inodes refer to stay where they are, and
no block of data changes (`bmap_spec`).

A call stops with a panic if there are not enough free blocks, or if the
transaction is too big for the log or for the buffer cache; the specifications
have the panics that are allowed as a parameter.
-/

namespace Xv6.Disk

open Function List State

variable {s : State} {b : Nat} {q : Nat × Nat} {l : List Nat}

/-! ## A change of one block -/

namespace State

variable (s : State) (b : Nat) (m : Bytes)

@[simp] theorem setBlock_self : (s.setBlock b m).block b = m := update_self ..

theorem setBlock_of_ne {c : Nat} (h : c ≠ b) : (s.setBlock b m).block c = s.block c := update_of_ne h ..

end State

section SetBlock

variable (hl : Layout s.sb) (hb : nmeta s.sb ≤ b) (m : Bytes)

theorem bit_setBlock {c : Nat} (hb : nmeta s.sb ≤ b) (hc : c < s.sb.size) : (s.setBlock b m).bit c = s.bit c := by
  have := Layout.bblock_lt hc
  unfold State.bit
  rw [setBlock_sb, setBlock_of_ne _ _ _ (by omega)]

theorem freeBlocks_setBlock (hb : nmeta s.sb ≤ b) : (s.setBlock b m).freeBlocks = s.freeBlocks :=
  filter_congr fun c hc => by rw [bit_setBlock m hb (mem_range.1 hc)]

include hl hb

variable {i : Nat}

theorem dinode_setBlock (hi : i < s.sb.ninodes) : (s.setBlock b m).dinode i = s.dinode i := by
  have := hl.iblock_lt_nmeta hi
  unfold State.dinode
  rw [setBlock_sb, setBlock_of_ne _ _ _ (by omega)]

theorem inode_setBlock (hi : i < s.sb.ninodes) : (s.setBlock b m).inode i = s.inode i := by
  unfold State.inode
  rw [dinode_setBlock hl hb m hi]
  rfl

theorem alloc_setBlock : (s.setBlock b m).Alloc i ↔ s.Alloc i := by
  exact and_congr_right fun hi => by rw [inode_setBlock hl hb m hi]

theorem owner_setBlock (hind : s.owner (q.1, ndirect) ≠ some b) : (s.setBlock b m).owner q = s.owner q := by
  refine owner_congr (alloc_setBlock hl hb m) fun hi => ?_
  rw [inode_setBlock hl hb m hi.1]
  refine ref_congr (fun h => setBlock_of_ne _ _ _ fun e => hind ?_) _
  rw [← e]
  exact owner_of_ne hi h

end SetBlock

/-- A block that is not an indirect block may have any bytes. -/
theorem Wf.setBlock (h : Wf s) (hb : nmeta s.sb ≤ b) (hind : ∀ i, s.owner (i, ndirect) ≠ some b) (m : Bytes) :
    Wf (s.setBlock b m) where
  layout := h.layout
  owned := by
    refine h.owned.congr (fun c => ?_) fun q => owner_setBlock h.layout hb m (hind q.1)
    exact and_congr_right fun hc => by rw [bit_setBlock m hb hc]
  fits i hi := by
    rw [alloc_setBlock h.layout hb] at hi
    rw [inode_setBlock h.layout hb m hi.1]
    exact h.fits i hi
  present i hi k hk := by
    rw [alloc_setBlock h.layout hb] at hi
    rw [inode_setBlock h.layout hb m hi.1] at hk
    rw [owner_setBlock h.layout hb m (hind i)]
    exact h.present i hi k hk
  current := (alloc_setBlock h.layout hb m).2 h.current

/-! ## A block is taken -/

/-- Block `b` is marked in the free map and zeroed. -/
@[simps! -fullyApplied sb held log inum ip]
def State.take (s : State) (b : Nat) : State :=
  (s.setBlock (bblock b s.sb) (setBit (s.block (bblock b s.sb)) (b % bpb))).setBlock b fun _ => 0

namespace State

@[simp] theorem take_self (s : State) (b : Nat) : (s.take b).block b = fun _ => 0 := setBlock_self ..

end State

section Take

variable (hl : Layout s.sb) (hb : nmeta s.sb ≤ b) (hlt : b < s.sb.size)

include hlt

variable {c i : Nat}

theorem block_take (hc : nmeta s.sb ≤ c) (hne : c ≠ b) : (s.take b).block c = s.block c := by
  have := Layout.bblock_lt hlt
  unfold State.take
  rw [setBlock_of_ne _ _ _ hne, setBlock_of_ne _ _ _ (by omega)]

include hb

theorem bit_take (hc : c < s.sb.size) : (s.take b).bit c = (decide (c = b) || s.bit c) := by
  have hset : (s.take b).bit c = (s.setBlock (bblock b s.sb) (setBit (s.block (bblock b s.sb)) (b % bpb))).bit c :=
    bit_setBlock _ hb hc
  rw [hset]
  unfold State.bit
  rw [setBlock_sb]
  by_cases hbb : bblock c s.sb = bblock b s.sb
  · have hd : decide (c % bpb = b % bpb) = decide (c = b) := by
      refine decide_eq_decide.2 ⟨fun hmod => ?_, fun e => by rw [e]⟩
      have hdiv : c / bpb = b / bpb := by
        unfold bblock at hbb
        omega
      rw [← Nat.div_add_mod c bpb, ← Nat.div_add_mod b bpb, hmod, hdiv]
    rw [hbb, setBlock_self, testBit_setBit, hd]
  · rw [setBlock_of_ne _ _ _ hbb, decide_eq_false (by rintro rfl; exact hbb rfl), Bool.false_or]

omit hlt

include hl

theorem dinode_take (hi : i < s.sb.ninodes) : (s.take b).dinode i = s.dinode i := by
  have hset : (s.take b).dinode i = (s.setBlock (bblock b s.sb) (setBit (s.block (bblock b s.sb)) (b % bpb))).dinode i :=
    dinode_setBlock (s := s.setBlock (bblock b s.sb) _) hl hb _ hi
  rw [hset]
  unfold State.dinode
  rw [setBlock_sb, setBlock_of_ne _ _ _ (hl.iblock_ne_bblock hi b)]

theorem inode_take (hi : i < s.sb.ninodes) : (s.take b).inode i = s.inode i := by
  unfold State.inode
  rw [dinode_take hl hb hi]
  rfl

omit hb hl in
/-- The first free block is taken. -/
theorem freeBlocks_take (hb : nmeta s.sb ≤ b) (hlt : b < s.sb.size) (hfree : s.bit b = false)
    (hfirst : ∀ c, c < b → s.bit c = true) : s.freeBlocks = b :: (s.take b).freeBlocks := by
  obtain ⟨m, hm⟩ : ∃ m, s.sb.size = b + (m + 1) := ⟨s.sb.size - (b + 1), by omega⟩
  have hbits : ∀ c, c < b + (m + 1) → (s.take b).bit c = (decide (c = b) || s.bit c) := fun c hc => bit_take hb hlt (hm ▸ hc)
  have hsplit : range (b + (m + 1)) = range b ++ b :: (range m).map fun i => b + (i + 1) := by
    rw [range_add, range_succ_eq_map, map_cons, map_map]
    rfl
  have hnil : ∀ s : State, (∀ c, c < b → s.bit c = true) → (range b).filter (fun c => !s.bit c) = [] := fun s h =>
    filter_eq_nil_iff.2 fun c hc => by simp [h c (mem_range.1 hc)]
  have hfirst' : ∀ c, c < b → (s.take b).bit c = true := fun c hc => by
    rw [hbits c (by omega), hfirst c hc, Bool.or_true]
  unfold State.freeBlocks
  rw [take_sb, hm, hsplit, filter_append, filter_append, filter_cons_of_pos (by simp [hfree]),
    filter_cons_of_neg (by simp [hbits b (by omega)]), hnil s hfirst, hnil (s.take b) hfirst']
  refine congrArg (b :: ·) (filter_congr fun c hc => ?_)
  obtain ⟨i, hi, rfl⟩ := mem_map.1 hc
  rw [hbits _ (by have := mem_range.1 hi; omega), decide_eq_false (by omega), Bool.false_or]

end Take

/-! ## Buffers and the log -/

/-- The length of the log with the blocks `B` in it. -/
def State.logLen (s : State) (B : Finset Nat) : Nat := s.log.lh.length + (B.filter (· ∉ s.log.lh)).card

/-- The panics of a transaction that is too big are allowed, or the log has room
for the blocks `B` and for one more. -/
structure Room (P : String → Prop) (s : State) (B : Finset Nat) : Prop where
  outstanding : 1 ≤ s.log.outstanding ∨ P "log_write outside of trans"
  fits : (s.logLen B < logsize ∧ s.logLen B + 1 < s.sb.nlog) ∨ (P "too big a transaction" ∧ P "bget: no buffers")

variable {P : String → Prop} {B : Finset Nat}

/-- The log with block `b` in it. -/
def insertLh (b : Nat) (lh : List Nat) : List Nat := if b ∈ lh then lh else lh ++ [b]

variable {c i p j n k : Nat} {lh : List Nat} {s' s'' s1 : State}

theorem mem_insertLh : c ∈ insertLh b lh ↔ c = b ∨ c ∈ lh := by
  unfold insertLh
  split
  · exact ⟨.inr, fun h => h.elim (fun e => e ▸ ‹_›) id⟩
  · simp [or_comm]

theorem length_insertLh_le (b : Nat) (lh : List Nat) : (insertLh b lh).length ≤ lh.length + 1 := by
  unfold insertLh
  split <;> simp

/-- A block of `B` has its room in the log. -/
theorem logLen_insertLh (hb : b ∈ B) (m : Bytes) : ((s.setBlock b m).withLh (insertLh b s.log.lh)).logLen B = s.logLen B := by
  show (insertLh b s.log.lh).length + (B.filter (· ∉ insertLh b s.log.lh)).card = _
  unfold State.logLen
  by_cases hin : b ∈ s.log.lh
  · rw [insertLh, if_pos hin]
  · have herase : B.filter (· ∉ insertLh b s.log.lh) = (B.filter (· ∉ s.log.lh)).erase b := by
      ext c
      simp only [Finset.mem_filter, Finset.mem_erase, mem_insertLh]
      tauto
    have hmem : b ∈ B.filter (· ∉ s.log.lh) := Finset.mem_filter.2 ⟨hb, hin⟩
    have hpos := Finset.card_pos.2 ⟨b, hmem⟩
    rw [herase, Finset.card_erase_of_mem hmem, insertLh, if_neg hin, length_append, length_singleton]
    omega

theorem Room.insertLh (h : Room P s B) (hb : b ∈ B) (m : Bytes) :
    Room P ((s.setBlock b m).withLh (insertLh b s.log.lh)) B where
  outstanding := h.outstanding
  fits := by rw [logLen_insertLh hb]; exact h.fits

theorem bread_spec (hb : b ∉ s.held) (hr : Room P s B) (hheld : ∀ c ∈ s.held, c ∈ B) :
    Cmd.Spec P s (bread b) fun _ s' => s' = s.withHeld (b :: s.held) := by
  refine .get ?_
  rw [id, if_neg hb]
  split
  · rename_i hfull
    refine .panic ?_
    rcases hr.fits with ⟨hfits, -⟩ | hP
    · -- the locked blocks are among those that the log has room for
      have hsub : (s.held ++ s.log.lh).toFinset ⊆ s.log.lh.toFinset ∪ B.filter (· ∉ s.log.lh) := fun c hc => by
        simp only [mem_toFinset, mem_append, Finset.mem_union, Finset.mem_filter] at hc ⊢
        by_cases hlh : c ∈ s.log.lh
        · exact .inl hlh
        · exact .inr ⟨hheld c (hc.resolve_right hlh), hlh⟩
      have hle : s.inUse.length ≤ s.logLen B := by
        rw [State.inUse, ← card_toFinset]
        exact (Finset.card_le_card hsub).trans ((Finset.card_union_le _ _).trans
          (Nat.add_le_add_right (toFinset_card_le _) _))
      have h1 := hfull.2
      have h2 : nbuf = logsize := rfl
      omega
    · exact hP.2
  · exact .of_run rfl rfl

theorem logWrite_spec (hr : Room P s B) (b : Nat) :
    Cmd.Spec P s (logWrite b) fun _ s' => s' = s.withLh (insertLh b s.log.lh) := by
  refine .get ?_
  rw [id]
  split
  · rename_i hfull
    refine .panic ?_
    rcases hr.fits with ⟨h1, h2⟩ | hP
    · unfold State.logLen at h1 h2
      omega
    · exact hP.1
  · split
    · rename_i hout
      refine .panic (hr.outstanding.resolve_left (by omega))
    · unfold insertLh
      split
      · exact .of_run rfl rfl
      · exact .of_run rfl rfl

theorem writeBack_spec (hr : Room P s B) (b : Nat) (m : Bytes) :
    Cmd.Spec P (s.withHeld (b :: s.held)) (writeBack b m) fun _ s' => s' = (s.setBlock b m).withLh (insertLh b s.log.lh) := by
  have hr' : Room P ((s.withHeld (b :: s.held)).setBlock b m) B := ⟨hr.outstanding, hr.fits⟩
  refine .modify (.bind (logWrite_spec hr' b) ?_)
  rintro _ _ rfl
  refine .of_run rfl ?_
  show State.withHeld _ ((b :: s.held).erase b) = _
  rw [erase_cons_head]
  rfl

theorem bzero_spec (hb : b ∉ s.held) (hr : Room P s B) (hheld : ∀ c ∈ s.held, c ∈ B) :
    Cmd.Spec P s (bzero b) fun _ s' => s' = (s.setBlock b fun _ => 0).withLh (insertLh b s.log.lh) := by
  refine .bind (bread_spec hb hr hheld) ?_
  rintro _ _ rfl
  exact writeBack_spec hr b _

/-! ## `balloc` -/

/-- The blocks that are locked are blocks of data in use. -/
def HeldOk (s : State) : Prop := ∀ b ∈ s.held, nmeta s.sb ≤ b ∧ b < s.sb.size ∧ s.bit b = true

/-- What `balloc` does: it takes the first free block `b`. -/
structure Taken (s : State) (b : Nat) (s' : State) : Prop where
  lt : b < s.sb.size
  free : s.bit b = false
  first : ∀ c, c < b → s.bit c = true
  eq : s' = (s.take b).withLh (insertLh b (insertLh (bblock b s.sb) s.log.lh))

/-- The blocks from `b` on that have their bits in one block of the free map. -/
theorem div_mod_bpb {b : Nat} (hb : b % bpb = 0) (hi : i < bpb) : (b + i) / bpb = b / bpb ∧ (b + i) % bpb = i := by
  simp only [show bpb = 8192 from rfl] at *
  omega

section Balloc

variable (hheld : HeldOk s) (hr : Room P s B) (hk : ∀ c ∈ s.held, c ∈ B)
  (hB : ∀ b, b < s.sb.size → s.bit b = false → (∀ c, c < b → s.bit c = true) → b ∈ B ∧ bblock b s.sb ∈ B)
  (hfree : 1 ≤ s.nfree ∨ P "balloc: out of blocks")

include hheld hr hk hB hfree

theorem ballocFrom_spec (turns b : Nat) (hb : b % bpb = 0) (hle : b / bpb ≤ s.sb.size / bpb + 1)
    (hturns : s.sb.size / bpb + 2 ≤ turns + b / bpb) (hset : ∀ c, c < b → c < s.sb.size → s.bit c = true) :
    Cmd.Spec P s (ballocFrom turns b) fun b' s' => Taken s b' s' ∧ Room P s' B := by
  induction turns generalizing b with
  | zero => omega
  | succ turns ih =>
    rw [ballocFrom]
    refine .get ?_
    by_cases hlt : b < s.sb.size
    · rw [if_pos hlt]
      have hnb : bblock b s.sb ∉ s.held := fun hmem => by
        have h1 := (hheld _ hmem).1
        have h2 := Layout.bblock_lt hlt
        omega
      refine .bind (bread_spec hnb hr hk) ?_
      rintro _ _ rfl
      refine .get ?_
      -- the bits of this block are those of the `bpb` blocks from `b` on
      have hbit : ∀ i, i < bpb → s.bit (b + i) = testBit (s.block (bblock b s.sb)) i := fun i hi => by
        rw [State.bit, bblock, (div_mod_bpb hb hi).1, (div_mod_bpb hb hi).2]
        rfl
      have hbits := freeBit_spec (s.block (bblock b s.sb)) b s.sb.size bpb 0 (zero_add _)
      dsimp only [State.withHeld]
      cases hf : freeBit (s.block (bblock b s.sb)) b s.sb.size bpb 0 with
      | some bi =>
        rw [hf] at hbits
        obtain ⟨hbi, hsize, hzero, hbelow⟩ := hbits
        rw [← hbit bi hbi] at hzero
        have hfirst : ∀ c, c < b + bi → s.bit c = true := fun c hc => by
          by_cases hcb : c < b
          · exact hset c hcb (by omega)
          · have := hbelow (c - b) (Nat.zero_le _) (by omega)
            rwa [← hbit _ (by omega), show b + (c - b) = c by omega] at this
        obtain ⟨hmem, hmap⟩ := hB _ hsize hzero hfirst
        have hbb : bblock (b + bi) s.sb = bblock b s.sb := by rw [bblock, bblock, (div_mod_bpb hb hbi).1]
        have hr' := hr.insertLh (hbb ▸ hmap) (setBit (s.block (bblock b s.sb)) bi)
        refine .bind (writeBack_spec hr _ _) ?_
        rintro _ _ rfl
        have hnew : b + bi ∉ s.held := fun hmem => by
          rw [(hheld _ hmem).2.2] at hzero
          cases hzero
        refine .bind (bzero_spec hnew hr' hk) ?_
        rintro _ _ rfl
        refine .ret ⟨⟨hsize, hzero, hfirst, ?_⟩, hr'.insertLh hmem _⟩
        rw [State.take, hbb, (div_mod_bpb hb hbi).2]
        rfl
      | none =>
        rw [hf] at hbits
        refine .modify ?_
        have hs : (s.withHeld (bblock b s.sb :: s.held)).withHeld ((bblock b s.sb :: s.held).erase (bblock b s.sb)) = s := by
          rw [erase_cons_head]
          rfl
        show Cmd.Spec P ((s.withHeld (bblock b s.sb :: s.held)).withHeld ((bblock b s.sb :: s.held).erase (bblock b s.sb))) _ _
        rw [hs]
        have hd : b / bpb < s.sb.size / bpb + 1 := Nat.lt_succ_of_le (Nat.div_le_div_right hlt.le)
        have hdiv : (b + bpb) / bpb = b / bpb + 1 := Nat.add_div_right b (by decide)
        refine ih (b + bpb) (by rw [Nat.add_mod_right, hb]) (by omega) (by omega) fun c hc hcs => ?_
        by_cases hcb : c < b
        · exact hset c hcb hcs
        · have := hbits (c - b) (Nat.zero_le _) (by omega) (by omega)
          rw [← hbit _ (by omega), show b + (c - b) = c by omega] at this
          exact this
    · rw [if_neg hlt]
      refine .panic (hfree.resolve_left ?_)
      -- all bits are set
      have hnone : s.freeBlocks = [] := filter_eq_nil_iff.2 fun c hc => by
        have hc := mem_range.1 hc
        simp [hset c (by omega) hc]
      rw [State.nfree, hnone]
      decide

theorem balloc_spec : Cmd.Spec P s balloc fun b s' => Taken s b s' ∧ Room P s' B :=
  Cmd.Spec.get (ballocFrom_spec hheld hr hk hB hfree (s.sb.size / bpb + 2) 0 rfl (by simp) (by simp) fun c hc =>
    absurd hc (by omega))

end Balloc

/-! ## A place gets a block -/

/-- What inodes refer to is as before, after a block was taken. -/
theorem owner_take (h : Wf s) (hfree : s.bit b = false) (hlt : b < s.sb.size) (q : Nat × Nat) :
    (s.take b).owner q = s.owner q := by
  have hb := h.le_of_free hfree
  have hinode : ∀ {i}, i < s.sb.ninodes → (s.take b).inode i = s.inode i := inode_take h.layout hb
  refine owner_congr ?_ fun hi => ?_
  · exact and_congr_right fun hi => by rw [hinode hi]
  · rw [hinode hi.1]
    refine ref_congr (fun hne => ?_) _
    have ho : s.owner (q.1, ndirect) = some ((s.inode q.1).addrs ndirect) := owner_of_ne hi hne
    refine block_take hlt (h.of_owner ho).1 fun e => ?_
    exact h.owner_ne_of_free hfree _ (e ▸ ho)

/-- An address is stored in the inode; an indirect block is zeroed. -/
theorem owner_setAddr (hi : s.Alloc s.inum) (hp : p < ndirect + 1) (hzero : s.ip.addrs p = 0)
    (hind : p = ndirect → s.block b = fun _ => 0) (hb : b ≠ 0) :
    (s.withIp (s.ip.setAddr p b)).owner = update s.owner (s.inum, p) (some b) := by
  have hself : (s.withIp (s.ip.setAddr p b)).inode s.inum = s.ip.setAddr p b := if_pos rfl
  have hip : s.inode s.inum = s.ip := s.inode_self
  have hi' : (s.withIp (s.ip.setAddr p b)).Alloc s.inum := by
    refine ⟨hi.1, ?_⟩
    rw [hself, Inode.setAddr, ← hip]
    exact hi.2
  funext ⟨i, p'⟩
  by_cases hq : (i, p') = (s.inum, p)
  · obtain ⟨rfl, rfl⟩ := Prod.mk.inj hq
    rw [update_self]
    have href : ref s.block (s.ip.setAddr p' b) p' = b := by
      rw [ref, if_pos hp, Inode.setAddr_self]
    rw [owner_of_ne hi' (by rw [hself]; exact href.symm ▸ hb), hself]
    exact congrArg some href
  · rw [update_of_ne hq]
    by_cases hii : i = s.inum
    · subst hii
      have hne : p' ≠ p := fun e => hq (e ▸ rfl)
      refine owner_congr (iff_of_true hi' hi) fun _ => ?_
      show ref s.block ((s.withIp (s.ip.setAddr p b)).inode s.inum) p' = ref s.block (s.inode s.inum) p'
      rw [hself, hip]
      unfold ref
      by_cases hp' : p' < ndirect + 1
      · rw [if_pos hp', if_pos hp', Inode.setAddr_of_ne _ _ hne]
      · rw [if_neg hp', if_neg hp']
        by_cases hpn : p = ndirect
        · subst hpn
          rw [Inode.setAddr_self, hzero, hind rfl, getLE_zero, ite_self, if_neg fun h => h.1 rfl]
        · rw [Inode.setAddr_of_ne _ _ (Ne.symm hpn)]
    · have hother : (s.withIp (s.ip.setAddr p b)).inode i = s.inode i := by
        rw [inode_of_ne _ hii, inode_of_ne _ (by exact hii)]
        rfl
      refine owner_congr ?_ fun _ => ?_
      · unfold State.Alloc
        rw [hother]
        exact Iff.rfl
      · show ref s.block ((s.withIp (s.ip.setAddr p b)).inode i) p' = ref s.block (s.inode i) p'
        rw [hother]

/-- The address in the indirect block at place `j`. -/
abbrev State.entry (s : State) (j : Nat) : Nat := getLE (s.block (s.ip.addrs ndirect)) (4 * j) 4

/-- The state with an address stored in the indirect block. -/
def State.putIndirect (s : State) (j b : Nat) : State :=
  s.setBlock (s.ip.addrs ndirect) (putLE (s.block (s.ip.addrs ndirect)) (4 * j) 4 b)

theorem owner_putIndirect (hl : Layout s.sb) (hcur : s.Alloc s.inum) (hdata : nmeta s.sb ≤ s.ip.addrs ndirect)
    (huniq : ∀ i, i ≠ s.inum → s.owner (i, ndirect) ≠ some (s.ip.addrs ndirect)) (hj : j < nindirect) (hb : b ≠ 0)
    (hb' : b < 256 ^ 4) :
    (s.putIndirect j b).owner =
      update s.owner (s.inum, ndirect + 1 + j) (some b) := by
  have hip : s.inode s.inum = s.ip := s.inode_self
  have hind : s.ip.addrs ndirect ≠ 0 := by
    have : 0 < nmeta s.sb := Layout.nmeta_pos
    omega
  have halloc : ∀ {i}, (s.putIndirect j b).Alloc i ↔ s.Alloc i :=
    alloc_setBlock hl hdata _
  have hinode : ∀ {i}, i < s.sb.ninodes → (s.putIndirect j b).inode i = s.inode i := inode_setBlock hl hdata _
  funext ⟨i, p⟩
  by_cases hii : i = s.inum
  · subst hii
    have href : ref (s.putIndirect j b).block s.ip p =
        if p = ndirect + 1 + j then b else ref s.block s.ip p := by
      unfold ref
      rw [State.putIndirect, setBlock_self]
      by_cases hp : p < ndirect + 1
      · rw [if_pos hp, if_pos hp, if_neg (by omega)]
      · rw [if_neg hp, if_neg hp]
        by_cases hlt : s.ip.addrs ndirect ≠ 0 ∧ p < nref
        · rw [if_pos hlt, if_pos hlt]
          by_cases hpj : p = ndirect + 1 + j
          · rw [if_pos hpj, hpj, Nat.add_sub_cancel_left, getLE_putLE_self, Nat.mod_eq_of_lt hb']
          · rw [if_neg hpj, getLE_putLE_sep (by omega)]
        · have hge : nref ≤ p := not_lt.1 fun h => hlt ⟨hind, h⟩
          have hn : nref = ndirect + 1 + nindirect := rfl
          rw [if_neg hlt, if_neg hlt, if_neg (by omega)]
    by_cases hp : p = ndirect + 1 + j
    · rw [hp, update_self]
      rw [if_pos hp, hp] at href
      rw [owner_of_ne (halloc.2 hcur) (by rw [hinode hcur.1, hip, href]; exact hb), hinode hcur.1, hip, href]
    · rw [update_of_ne fun e => hp (Prod.mk.inj e).2]
      rw [if_neg hp] at href
      refine owner_congr halloc fun _ => ?_
      rw [hinode hcur.1, hip, href]
  · rw [update_of_ne fun e => hii (Prod.mk.inj e).1]
    exact owner_setBlock hl hdata _ (huniq i hii)

/-- A place of the inode gets a block that was free. -/
theorem Wf.grow (h : Wf s) (hfree : s.bit b = false) (hlt : b < s.sb.size) (hnone : s.owner (s.inum, p) = none)
    (hsb : s'.sb = s.sb) (hinum : s'.inum = s.inum) (hbit : ∀ c, c < s.sb.size → s'.bit c = (decide (c = b) || s.bit c))
    (howner : s'.owner = update s.owner (s.inum, p) (some b))
    (hother : ∀ i, i < s.sb.ninodes → i ≠ s.inum → s'.inode i = s.inode i) (htype : s'.ip.type = s.ip.type)
    (hsize : s'.ip.size = s.ip.size) (hfits : s'.ip.Fits) : Wf s' := by
  have hip : s.inode s.inum = s.ip := s.inode_self
  have hip' : s'.inode s.inum = s'.ip := hinum ▸ s'.inode_self
  have halloc : ∀ {i}, s'.Alloc i ↔ s.Alloc i := fun {i} => by
    unfold State.Alloc
    rw [hsb]
    refine and_congr_right fun hi => ?_
    by_cases hii : i = s.inum
    · rw [hii, hip, hip', htype]
    · rw [hother i hi hii]
  refine ⟨hsb ▸ h.layout, ?_, fun i hi => ?_, fun i hi k hk => ?_, hinum ▸ halloc.2 h.current⟩
  · rw [howner, hsb]
    have hused : s'.used = insert b s.used := by
      ext c
      show (c < s'.sb.size ∧ s'.bit c = true) ↔ c = b ∨ (c < s.sb.size ∧ s.bit c = true)
      rw [hsb]
      constructor
      · rintro ⟨hc, hcb⟩
        rw [hbit c hc, Bool.or_eq_true, decide_eq_true_eq] at hcb
        exact hcb.imp id fun h => ⟨hc, h⟩
      · rintro (rfl | ⟨hc, hcb⟩)
        · exact ⟨hlt, by rw [hbit c hlt, decide_eq_true rfl, Bool.true_or]⟩
        · exact ⟨hc, by rw [hbit c hc, hcb, Bool.or_true]⟩
    rw [hused]
    refine h.owned.alloc (fun hmem => ?_) hnone
    rw [hmem.2] at hfree
    cases hfree
  · by_cases hii : i = s.inum
    · rw [hii, hip']
      exact hfits
    · have hi' := halloc.1 hi
      rw [hother i hi'.1 hii]
      exact h.fits i hi'
  · have hi' := halloc.1 hi
    have hold : s.owner (i, place k) ≠ none := by
      refine h.present i hi' k ?_
      by_cases hii : i = s.inum
      · rw [hii, hip', hsize] at hk
        rwa [hii, hip]
      · rwa [hother i hi'.1 hii] at hk
    rw [howner]
    by_cases hq : (i, place k) = (s.inum, p)
    · rw [hq, update_self]
      exact Option.some_ne_none _
    · rwa [update_of_ne hq]

/-- What changes of the inode's contents keep: the other inodes and their blocks,
and the blocks that the inode has. -/
structure Frame (s s' : State) : Prop where
  sb : s'.sb = s.sb
  inum : s'.inum = s.inum
  held : s'.held = s.held
  outstanding : s'.log.outstanding = s.log.outstanding
  lh : s.log.lh ⊆ s'.log.lh
  dinode : ∀ {i}, i < s.sb.ninodes → s'.dinode i = s.dinode i
  attrs : s'.ip = { s.ip with addrs := s'.ip.addrs }
  owner : ∀ {q b}, s.owner q = some b → s'.owner q = some b
  others : ∀ {i p}, i ≠ s.inum → s'.owner (i, p) = s.owner (i, p)
  data : ∀ {i p b}, i ≠ s.inum → s.owner (i, p) = some b → s'.block b = s.block b

/-- What an allocation of blocks for the inode keeps. -/
structure Kept (s s' : State) : Prop extends Frame s s' where
  own : ∀ {p b}, p ≠ ndirect → s.owner (s.inum, p) = some b → s'.block b = s.block b

theorem Frame.refl (s : State) : Frame s s where
  sb := rfl
  inum := rfl
  held := rfl
  outstanding := rfl
  lh := fun _ => id
  dinode _ := rfl
  attrs := rfl
  owner := id
  others _ := rfl
  data _ _ := rfl

theorem Frame.trans (h : Frame s s') (h' : Frame s' s'') : Frame s s'' where
  sb := h'.sb.trans h.sb
  inum := h'.inum.trans h.inum
  held := h'.held.trans h.held
  outstanding := h'.outstanding.trans h.outstanding
  lh := List.Subset.trans h.lh h'.lh
  dinode hi := (h'.dinode (h.sb ▸ hi)).trans (h.dinode hi)
  attrs := by rw [h'.attrs, h.attrs]
  owner ho := h'.owner (h.owner ho)
  others hi := (h'.others (h.inum ▸ hi)).trans (h.others hi)
  data hi ho := (h'.data (h.inum ▸ hi) (h.owner ho)).trans (h.data hi ho)

theorem Kept.refl (s : State) : Kept s s := ⟨Frame.refl s, fun _ _ => rfl⟩

theorem Kept.trans (h : Kept s s') (h' : Kept s' s'') : Kept s s'' :=
  ⟨h.toFrame.trans h'.toFrame, fun hp ho => (h'.own hp (h.inum ▸ h.owner ho)).trans (h.own hp ho)⟩

theorem owner_of_update (hnone : s.owner (s.inum, p) = none)
    (howner : s'.owner = update s.owner (s.inum, p) (some b)) (ho : s.owner q = some c) : s'.owner q = some c := by
  have hne : q ≠ (s.inum, p) := fun e => by rw [e, hnone] at ho; cases ho
  rw [howner, update_of_ne hne, ho]

theorem others_of_update {p' : Nat} (howner : s'.owner = update s.owner (s.inum, p) (some b))
    (hi : i ≠ s.inum) : s'.owner (i, p') = s.owner (i, p') := by
  rw [howner, update_of_ne fun e => hi (Prod.mk.inj e).1]

/-- Place `p` of the inode has got block `b`, which is zeroed. -/
structure Grown (s : State) (p b : Nat) (s' : State) : Prop where
  wf : Wf s'
  kept : Kept s s'
  absent : s.owner (s.inum, p) = none
  owner : s'.owner = update s.owner (s.inum, p) (some b)
  zero : s'.block b = fun _ => 0
  free : s.freeBlocks = b :: s'.freeBlocks

theorem Taken.kept_lh (ht : Taken s b s') : s.log.lh ⊆ s'.log.lh := by
  rw [ht.eq]
  exact fun c hc => mem_insertLh.2 (.inr (mem_insertLh.2 (.inr hc)))

theorem owner_direct (h : Wf s) (hp : p < ndirect + 1) (hne : s.ip.addrs p ≠ 0) :
    s.owner (s.inum, p) = some (s.ip.addrs p) := by
  have href : ref s.block (s.inode s.inum) p = s.ip.addrs p := by rw [inode_self, ref, if_pos hp]
  rw [owner_of_ne h.current (href.symm ▸ hne), href]

theorem owner_direct_none (hp : p < ndirect + 1) (hz : s.ip.addrs p = 0) : s.owner (s.inum, p) = none := by
  refine owner_of_eq ?_
  rw [inode_self, ref, if_pos hp, hz]

/-- What the indirect block has for the place. -/
theorem owner_indirect (h : Wf s) (hj : j < nindirect) (hind : s.ip.addrs ndirect ≠ 0) :
    s.owner (s.inum, ndirect + 1 + j) = if s.entry j = 0 then none
      else some (s.entry j) := by
  have href : ref s.block (s.inode s.inum) (ndirect + 1 + j) = s.entry j := by
    rw [inode_self, ref, if_neg (by omega), Nat.add_sub_cancel_left, if_pos ⟨hind, by unfold nref; omega⟩]
  split
  · exact owner_of_eq (href.trans ‹_›)
  · rw [owner_of_ne h.current (href.symm ▸ ‹_›), href]

/-- A block that `balloc` takes is not block 0, and the inode stays allocated. -/
theorem Wf.of_free (h : Wf s) (hfree : s.bit b = false) : b ≠ 0 ∧ (s.take b).Alloc s.inum := by
  have hb := h.le_of_free hfree
  refine ⟨(lt_of_lt_of_le Layout.nmeta_pos hb).ne', h.current.1, ?_⟩
  rw [inode_take h.layout hb h.current.1]
  exact h.current.2

/-- The block that `balloc` took becomes an address of the inode. -/
theorem Grown.setAddr (h : Wf s) (ht : Taken s b s1) (hp : p < ndirect + 1) (hzero : s.ip.addrs p = 0) :
    Grown s p b (s1.withIp (s1.ip.setAddr p b)) := by
  have hlh := ht.kept_lh
  obtain ⟨hlt, hfree, hfirst, rfl⟩ := ht
  have hb := h.le_of_free hfree
  obtain ⟨hpos, halloc⟩ := h.of_free hfree
  have hint := h.layout.int
  have hfits := h.ip_fits
  have hnone := owner_direct_none hp hzero
  have howner : ((s.take b).withIp ((s.take b).ip.setAddr p b)).owner = update s.owner (s.inum, p) (some b) := by
    rw [owner_setAddr halloc hp hzero (fun _ => take_self s b) hpos, funext (owner_take h hfree hlt)]
    rfl
  have hother : ∀ i, i < s.sb.ninodes → i ≠ s.inum → ((s.take b).withIp ((s.take b).ip.setAddr p b)).inode i = s.inode i := by
    intro i hi hne
    rw [← inode_take h.layout hb hi, inode_of_ne _ (by exact hne), inode_of_ne _ (by exact hne)]
    rfl
  refine ⟨?_, ?_, hnone, howner, take_self s b, freeBlocks_take hb hlt hfree hfirst⟩
  · refine h.grow (p := p) hfree hlt hnone rfl rfl (fun c hc => bit_take hb hlt hc) howner hother rfl rfl ?_
    refine ⟨hfits.size, fun j => ?_, fun j hj => ?_⟩
    · by_cases hj : j = p
      · rw [hj]
        show (s.ip.setAddr p b).addrs p < 256 ^ 4
        rw [Inode.setAddr_self]
        omega
      · show (s.ip.setAddr p b).addrs j < 256 ^ 4
        rw [Inode.setAddr_of_ne _ _ hj]
        exact hfits.addrs j
    · show (s.ip.setAddr p b).addrs j = 0
      rw [Inode.setAddr_of_ne _ _ (by omega)]
      exact hfits.none j hj
  · have hdata : ∀ {q c}, s.owner q = some c → (s.take b).block c = s.block c := fun ho =>
      block_take hlt (h.of_owner ho).1 fun e => h.owner_ne_of_free hfree _ (e ▸ ho)
    exact ⟨⟨rfl, rfl, rfl, rfl, hlh, dinode_take h.layout hb, rfl, owner_of_update hnone howner, others_of_update howner,
      fun _ => hdata⟩, fun _ => hdata⟩

/-- The block that `balloc` took becomes an address in the indirect block. -/
theorem Grown.setIndirect (h : Wf s) (ht : Taken s b s1) (hj : j < nindirect) (hind : s.ip.addrs ndirect ≠ 0)
    (hzero : s.entry j = 0) :
    Grown s (ndirect + 1 + j) b ((s1.putIndirect j b).withLh (insertLh (s.ip.addrs ndirect) s1.log.lh)) := by
  have hlh := ht.kept_lh
  obtain ⟨hlt, hfree, hfirst, rfl⟩ := ht
  have hb := h.le_of_free hfree
  obtain ⟨hpos, htake⟩ := h.of_free hfree
  have hint := h.layout.int
  have ho := owner_direct h (p := ndirect) (by omega) hind
  have hdata' := (h.of_owner ho).1
  have hindb : s.ip.addrs ndirect ≠ b := fun e => h.owner_ne_of_free hfree _ (e ▸ ho)
  have hnone : s.owner (s.inum, ndirect + 1 + j) = none := by rw [owner_indirect h hj hind, if_pos hzero]
  have howner : ((s.take b).putIndirect j b).owner =
      update s.owner (s.inum, ndirect + 1 + j) (some b) := by
    have huniq : ∀ i, i ≠ (s.take b).inum → (s.take b).owner (i, ndirect) ≠ some ((s.take b).ip.addrs ndirect) :=
      fun i hi e => by
      rw [owner_take h hfree hlt] at e
      exact hi (Prod.mk.inj (h.owned.inj e ho)).1
    refine (owner_putIndirect (s := s.take b) h.layout htake hdata' huniq hj hpos (by omega)).trans ?_
    rw [funext (owner_take h hfree hlt)]
    rfl
  have hother : ∀ {i}, i < s.sb.ninodes →
      ((s.take b).putIndirect j b).inode i = s.inode i :=
    fun hi => (inode_setBlock (s := s.take b) h.layout hdata' _ hi).trans (inode_take h.layout hb hi)
  have hbit : ∀ c, c < s.sb.size →
      ((s.take b).putIndirect j b).bit c =
        (decide (c = b) || s.bit c) :=
    fun c hc => (bit_setBlock (s := s.take b) _ hdata' hc).trans (bit_take hb hlt hc)
  refine ⟨?_, ?_, hnone, howner, ?_, ?_⟩
  · exact h.grow (p := ndirect + 1 + j) hfree hlt hnone rfl rfl hbit howner (fun i hi _ => hother hi) rfl rfl h.ip_fits
  · have hdata : ∀ {q c}, q ≠ (s.inum, ndirect) → s.owner q = some c →
        ((s.take b).putIndirect j b).block c = s.block c := by
      intro q c hne ho'
      have hc : c ≠ s.ip.addrs ndirect := fun e => hne (h.owned.inj ho' (e ▸ ho))
      refine (setBlock_of_ne _ _ _ hc).trans ?_
      exact block_take hlt (h.of_owner ho').1 fun e => h.owner_ne_of_free hfree _ (e ▸ ho')
    refine ⟨⟨rfl, rfl, rfl, rfl, fun c hc => mem_insertLh.2 (.inr (hlh hc)), fun hi => ?_, rfl, owner_of_update hnone howner,
      others_of_update howner, fun hi => hdata fun e => hi (Prod.mk.inj e).1⟩, fun hp => hdata fun e => hp (Prod.mk.inj e).2⟩
    exact (dinode_setBlock (s := s.take b) h.layout hdata' _ hi).trans (dinode_take h.layout hb hi)
  · exact (setBlock_of_ne _ _ _ hindb.symm).trans (take_self s b)
  · exact (freeBlocks_take hb hlt hfree hfirst).trans (congrArg (b :: ·) (freeBlocks_setBlock (s := s.take b) _ hdata').symm)

/-! ## `bmap` -/

/-- How many blocks `bmap` allocates for block `k` of the inode. -/
def State.cost (s : State) (k : Nat) : Nat :=
  (if s.owner (s.inum, place k) = none then 1 else 0) + if ndirect ≤ k ∧ s.ip.addrs ndirect = 0 then 1 else 0

/-- What `balloc` logs that is called `m` times: the first `m` free blocks, and
their blocks of the free map. -/
def State.fresh (s : State) (m : Nat) : Finset Nat :=
  (s.freeBlocks.take m).toFinset ∪ (s.freeBlocks.take m).toFinset.image (bblock · s.sb)

/-- What a write to block `n` of the inode logs that is there already: the block,
or the indirect block that gets its address. -/
def State.touched (s : State) (n : Nat) : Finset Nat :=
  match s.owner (s.inum, place n) with
  | some b => {b}
  | none => if ndirect ≤ n ∧ s.ip.addrs ndirect ≠ 0 then {s.ip.addrs ndirect} else ∅

/-- What `bmap` does for block `k` of the inode. -/
structure Mapped (s : State) (k a : Nat) (s' : State) : Prop where
  wf : Wf s'
  kept : Kept s s'
  addr : s'.owner (s.inum, place k) = some a
  only : ∀ {p}, p ≠ place k → p ≠ ndirect → s'.owner (s.inum, p) = s.owner (s.inum, p)
  zero : s.owner (s.inum, place k) = none → s'.block a = fun _ => 0
  free : ∃ l, l.length = s.cost k ∧ s.freeBlocks = l ++ s'.freeBlocks ∧
    (s.ip.addrs ndirect = 0 → s'.ip.addrs ndirect ≠ 0 → s'.ip.addrs ndirect ∈ l)
  indirect : ndirect ≤ k → s'.ip.addrs ndirect ≠ 0
  direct : k < ndirect → s'.ip.addrs ndirect = s.ip.addrs ndirect

theorem mem_fresh {m : Nat} : c ∈ s.fresh m ↔ ∃ b ∈ s.freeBlocks.take m, c = b ∨ c = bblock b s.sb := by
  simp only [State.fresh, Finset.mem_union, mem_toFinset, Finset.mem_image]
  constructor
  · rintro (h | ⟨b, h, rfl⟩)
    · exact ⟨c, h, .inl rfl⟩
    · exact ⟨b, h, .inr rfl⟩
  · rintro ⟨b, h, rfl | rfl⟩
    · exact .inl h
    · exact .inr ⟨b, h, rfl⟩

/-- The blocks `l` have been taken. -/
theorem fresh_of_append {m : Nat} (h : s.freeBlocks = l ++ s'.freeBlocks) (hsb : s'.sb = s.sb) :
    s'.fresh m ⊆ s.fresh (l.length + m) := fun c hc => by
  rw [mem_fresh] at hc ⊢
  rw [h, take_length_add_append]
  rw [hsb] at hc
  exact hc.imp fun b hb => ⟨mem_append_right _ hb.1, hb.2⟩

theorem mem_fresh_of_append {m : Nat} (h : s.freeBlocks = l ++ s'.freeBlocks) (hb : b ∈ l) :
    b ∈ s.fresh (l.length + m) ∧ bblock b s.sb ∈ s.fresh (l.length + m) := by
  have hmem : b ∈ s.freeBlocks.take (l.length + m) := by
    rw [h, take_length_add_append]
    exact mem_append_left _ hb
  exact ⟨mem_fresh.2 ⟨b, hmem, .inl rfl⟩, mem_fresh.2 ⟨b, hmem, .inr rfl⟩⟩

theorem fresh_mono {m m' : Nat} (h : m ≤ m') : s.fresh m ⊆ s.fresh m' := fun c hc => by
  rw [mem_fresh] at hc ⊢
  exact hc.imp fun b hb => ⟨(take_subset_take_left _ h) hb.1, hb.2⟩

/-- The next block that `balloc` takes. -/
theorem Wf.fresh_one (h : Wf s) (hB : s.fresh 1 ⊆ B) (b : Nat) (hlt : b < s.sb.size) (hfree : s.bit b = false)
    (hfirst : ∀ c, c < b → s.bit c = true) : b ∈ B ∧ bblock b s.sb ∈ B :=
  (mem_fresh_of_append (l := [b]) (m := 0) (freeBlocks_take (h.le_of_free hfree) hlt hfree hfirst) mem_cons_self).imp
    (fun h => hB h) fun h => hB h

theorem touched_of_owner (h : s.owner (s.inum, place n) = some b) : s.touched n = {b} := by rw [State.touched, h]

theorem touched_of_none (h : s.owner (s.inum, place n) = none) (hn : ndirect ≤ n) (hind : s.ip.addrs ndirect ≠ 0) :
    s.touched n = {s.ip.addrs ndirect} := by
  rw [State.touched, h]
  exact if_pos ⟨hn, hind⟩

/-- The indirect block is there, and was taken if it was not there before. -/
structure WithIndirect (s s' : State) : Prop where
  wf : Wf s'
  kept : Kept s s'
  indirect : s'.ip.addrs ndirect ≠ 0
  only : ∀ p, p ≠ ndirect → s'.owner (s.inum, p) = s.owner (s.inum, p)
  free : ∃ l, l.length = (if s.ip.addrs ndirect = 0 then 1 else 0) ∧ s.freeBlocks = l ++ s'.freeBlocks ∧
    (s.ip.addrs ndirect = 0 → s'.ip.addrs ndirect ∈ l)

section Bmap

variable (h : Wf s) (hheld : s.held = []) (hr : Room P s B)

include h hheld hr

theorem allocAddr_spec (hp : p < ndirect + 1) (hB : s.ip.addrs p = 0 → s.fresh 1 ⊆ B)
    (hfree : s.ip.addrs p = 0 → 1 ≤ s.nfree ∨ P "balloc: out of blocks") :
    Cmd.Spec P s (allocAddr p) fun a s' => (s.ip.addrs p ≠ 0 ∧ a = s.ip.addrs p ∧ s' = s) ∨
      (s.ip.addrs p = 0 ∧ Grown s p a s' ∧ s'.ip = s.ip.setAddr p a ∧ Room P s' B) := by
  refine .get ?_
  by_cases hzero : s.ip.addrs p = 0
  · rw [if_pos hzero]
    refine .bind (balloc_spec (fun c hc => ?_) hr (by simp [hheld]) (h.fresh_one (hB hzero)) (hfree hzero))
      fun b s1 ⟨ht, hr1⟩ => ?_
    · rw [hheld] at hc
      cases hc
    · have hip : s1.ip = s.ip := by rw [ht.eq]; rfl
      refine .modify (.ret (.inr ⟨hzero, Grown.setAddr h ht hp hzero, ?_, hr1.outstanding, hr1.fits⟩))
      rw [← hip]
      rfl
  · rw [if_neg hzero]
    exact .ret (.inl ⟨hzero, rfl, rfl⟩)

theorem mapIndirect_spec (hj : j < nindirect) (hind : s.ip.addrs ndirect ≠ 0)
    (hB : s.entry j = 0 → s.fresh 1 ⊆ B ∧ s.ip.addrs ndirect ∈ B)
    (hfree : s.entry j = 0 → 1 ≤ s.nfree ∨ P "balloc: out of blocks") :
    Cmd.Spec P s (mapIndirect (s.ip.addrs ndirect) j) fun a s' =>
      (a ≠ 0 ∧ a = s.entry j ∧ s' = s) ∨
      (s.entry j = 0 ∧ Grown s (ndirect + 1 + j) a s' ∧ s'.ip = s.ip ∧ Room P s' B) := by
  have ho := owner_direct h (p := ndirect) (by omega) hind
  refine .bind (bread_spec (by simp [hheld]) hr (by simp [hheld])) ?_
  rintro _ _ rfl
  refine .get ?_
  show Cmd.Spec P _ (if s.entry j = 0 then _ else _) _
  by_cases hz : s.entry j = 0
  · rw [if_pos hz]
    obtain ⟨hfresh, hmem⟩ := hB hz
    have hlocked : ∀ c ∈ s.ip.addrs ndirect :: s.held, c = s.ip.addrs ndirect := fun c hc => by
      rwa [hheld, mem_singleton] at hc
    have hok : HeldOk (s.withHeld (s.ip.addrs ndirect :: s.held)) := fun c hc => by
      rw [hlocked c hc]
      exact h.of_owner ho
    have hr' : Room P (s.withHeld (s.ip.addrs ndirect :: s.held)) B := ⟨hr.outstanding, hr.fits⟩
    refine .bind (balloc_spec hok hr' (fun c hc => hlocked c hc ▸ hmem) (h.fresh_one hfresh) (hfree hz))
      fun b s1 ⟨ht, hr1⟩ => ?_
    -- without the indirect block among the locked ones
    obtain ⟨hlt, hbit, hfirst, rfl⟩ := ht
    have ht : Taken s b ((s.take b).withLh (insertLh b (insertLh (bblock b s.sb) s.log.lh))) := ⟨hlt, hbit, hfirst, rfl⟩
    have hr'' : Room P ((s.take b).withLh (insertLh b (insertLh (bblock b s.sb) s.log.lh))) B := ⟨hr1.outstanding, hr1.fits⟩
    refine .get (.bind (writeBack_spec hr'' (s.ip.addrs ndirect) _) ?_)
    rintro _ _ rfl
    exact .ret (.inr ⟨hz, Grown.setIndirect h ht hj hind hz, rfl, hr''.insertLh hmem _⟩)
  · rw [if_neg hz]
    refine .modify (.ret (.inl ⟨hz, rfl, ?_⟩))
    show (s.withHeld _).withHeld ((s.ip.addrs ndirect :: s.held).erase _) = s
    rw [erase_cons_head]
    rfl

theorem allocAddr_indirect_spec (hB : s.ip.addrs ndirect = 0 → s.fresh 1 ⊆ B)
    (hfree : s.ip.addrs ndirect = 0 → 1 ≤ s.nfree ∨ P "balloc: out of blocks") :
    Cmd.Spec P s (allocAddr ndirect) fun ind s' => s'.ip.addrs ndirect = ind ∧ WithIndirect s s' ∧ Room P s' B := by
  refine .mono (allocAddr_spec h hheld hr (by omega) hB hfree) fun ind s1 hq => ?_
  rcases hq with ⟨hz, rfl, rfl⟩ | ⟨hz, hg, hip, hr1⟩
  · exact ⟨rfl, ⟨h, Kept.refl _, hz, fun _ _ => rfl, [], by rw [if_neg hz]; rfl, rfl, fun e => absurd e hz⟩, hr⟩
  · have hind : s1.ip.addrs ndirect = ind := by rw [hip, Inode.setAddr_self]
    have ho : s1.owner (s.inum, ndirect) = some ind := by rw [hg.owner, update_self]
    refine ⟨hind, ⟨hg.wf, hg.kept, hind ▸ (of_owner ho).2.2, fun p hp => ?_, [ind], by rw [if_pos hz]; rfl, hg.free,
      fun _ => ?_⟩, hr1⟩
    · rw [hg.owner, update_of_ne fun e => hp (Prod.mk.inj e).2]
    · rw [hind]
      exact mem_cons_self

variable (hB : s.fresh (s.cost n) ∪ s.touched n ⊆ B) (hfree : s.cost n ≤ s.nfree ∨ P "balloc: out of blocks")

include hB hfree

theorem bmap_direct_spec (hn : n < ndirect) :
    Cmd.Spec P s (bmap n) fun a s' => Mapped s n a s' ∧ Room P s' B ∧ a ∈ B := by
  obtain ⟨hfresh, htouched⟩ := Finset.union_subset_iff.1 hB
  have hplace : place n = n := if_pos hn
  have hcost : s.cost n = if s.ip.addrs n = 0 then 1 else 0 := by
    have hlow : ¬(ndirect ≤ n ∧ s.ip.addrs ndirect = 0) := fun h => absurd h.1 (by omega)
    rw [State.cost, hplace, if_neg hlow, add_zero]
    by_cases hz : s.ip.addrs n = 0
    · rw [if_pos hz, if_pos (owner_direct_none (by omega) hz)]
    · rw [if_neg hz, owner_direct h (by omega) hz, if_neg (by simp)]
  unfold bmap
  rw [if_pos hn]
  refine .mono (allocAddr_spec h hheld hr (by omega) (fun hz => ?_) fun hz => ?_) fun a s' hq => ?_
  · rwa [hcost, if_pos hz] at hfresh
  · rwa [hcost, if_pos hz] at hfree
  · rcases hq with ⟨hz, rfl, rfl⟩ | ⟨hz, hg, hip, hr'⟩
    · have ho : s'.owner (s'.inum, place n) = some (s'.ip.addrs n) := by rw [hplace]; exact owner_direct h (by omega) hz
      rw [touched_of_owner ho] at htouched
      refine ⟨⟨h, Kept.refl _, ho, fun _ _ => rfl, fun hnone => ?_,
        ⟨[], by rw [hcost, if_neg hz]; rfl, rfl, fun h0 h1 => absurd h0 h1⟩, fun hge => absurd hge (by omega),
          fun _ => rfl⟩, hr,
        htouched (Finset.mem_singleton_self _)⟩
      rw [ho] at hnone
      cases hnone
    · have haddr : s'.ip.addrs ndirect = s.ip.addrs ndirect := by rw [hip, Inode.setAddr_of_ne _ _ (by omega)]
      rw [hcost, if_pos hz] at hfresh
      refine ⟨⟨hg.wf, hg.kept, ?_, fun hne _ => ?_, fun _ => hg.zero,
        ⟨[a], by rw [hcost, if_pos hz]; rfl, hg.free, fun h0 h1 => absurd (haddr.trans h0) h1⟩,
          fun hge => absurd hge (by omega),
        fun _ => haddr⟩, hr', hfresh (mem_fresh_of_append (l := [a]) (m := 0) hg.free mem_cons_self).1⟩
      · rw [hg.owner, hplace, update_self]
      · rw [hg.owner, update_of_ne fun e => hne (by rw [hplace]; exact (Prod.mk.inj e).2)]

theorem bmap_indirect_spec (hn : ndirect ≤ n) (hmax : n < maxfile) :
    Cmd.Spec P s (bmap n) fun a s' => Mapped s n a s' ∧ Room P s' B ∧ a ∈ B := by
  obtain ⟨hfresh, htouched⟩ := Finset.union_subset_iff.1 hB
  have hmf : maxfile = ndirect + nindirect := rfl
  have hplace : place n = ndirect + 1 + (n - ndirect) := by
    rw [place, if_neg (by omega)]
    omega
  have hne : place n ≠ ndirect := place_ne n
  have hind : s.ip.addrs ndirect = 0 → 1 ≤ s.cost n := fun hz => by
    rw [State.cost, if_pos (show ndirect ≤ n ∧ s.ip.addrs ndirect = 0 from ⟨hn, hz⟩)]
    omega
  unfold bmap
  rw [if_neg (by omega), if_pos (by omega)]
  refine .bind (allocAddr_indirect_spec h hheld hr (fun hz => (fresh_mono (hind hz)).trans hfresh) fun hz => ?_) ?_
  · exact hfree.imp_left fun hle => (hind hz).trans hle
  rintro _ s1 ⟨rfl, hw, hr1⟩
  obtain ⟨l, hlen, hl, hnew⟩ := hw.free
  have hinum : s1.inum = s.inum := hw.kept.inum
  have howner := owner_indirect (j := n - ndirect) hw.wf (by omega) hw.indirect
  rw [← hplace, hinum, hw.only _ hne] at howner
  -- the cost is that of both blocks
  have hcost : s.cost n = l.length + if s1.entry (n - ndirect) = 0 then 1 else 0 := by
    rw [State.cost, howner, Nat.add_comm, hlen]
    congr 1
    · simp [hn]
    · split <;> simp
  refine .mono (mapIndirect_spec hw.wf (hw.kept.held.trans hheld) hr1 (by omega) hw.indirect (fun hz => ?_) fun hz => ?_)
    fun a s' hq => ?_
  · rw [if_pos hz] at howner hcost
    rw [hcost] at hfresh
    refine ⟨(fresh_of_append hl hw.kept.sb).trans hfresh, ?_⟩
    by_cases h0 : s.ip.addrs ndirect = 0
    · exact hfresh (mem_fresh_of_append hl (hnew h0)).1
    · rw [touched_of_none howner hn h0] at htouched
      have ho := hw.kept.owner (owner_direct h (p := ndirect) (by omega) h0)
      rw [← hinum, owner_direct hw.wf (by omega) hw.indirect, Option.some_inj] at ho
      rw [ho]
      exact htouched (Finset.mem_singleton_self _)
  · refine hfree.imp_left fun hle => ?_
    rw [hcost, if_pos hz, State.nfree, hl, length_append] at hle
    exact Nat.le_of_add_le_add_left hle
  · rcases hq with ⟨ha, rfl, rfl⟩ | ⟨hz, hg, hip, hr'⟩
    · rw [if_neg ha] at howner hcost
      rw [touched_of_owner howner] at htouched
      refine ⟨⟨hw.wf, hw.kept, (hw.only _ hne).trans howner,
        fun _ hp => hw.only _ hp, fun e => ?_, ⟨l, hcost.symm, hl, fun h0 _ => hnew h0⟩,
        fun _ => hw.indirect, fun hlt => absurd hlt (by omega)⟩, hr1, htouched (Finset.mem_singleton_self _)⟩
      rw [howner] at e
      cases e
    · rw [if_pos hz] at howner hcost
      rw [hcost] at hfresh
      have hl' : s.freeBlocks = (l ++ [a]) ++ s'.freeBlocks := by rw [hl, hg.free, append_assoc, singleton_append]
      refine ⟨⟨hg.wf, hw.kept.trans hg.kept, ?_, fun hp hp' => ?_, fun _ => hg.zero,
        ⟨l ++ [a], by rw [hcost, length_append, length_singleton], hl', fun h0 _ => ?_⟩,
        fun _ => by rw [hip]; exact hw.indirect, fun hlt => absurd hlt (by omega)⟩, hr', ?_⟩
      · rw [hg.owner, hinum, hplace, update_self]
      · rw [hg.owner, hinum, update_of_ne fun e => hp (by rw [hplace]; exact (Prod.mk.inj e).2), hw.only _ hp']
      · rw [hip]
        exact mem_append_left _ (hnew h0)
      · have hmem := (mem_fresh_of_append (m := 0) hl' (mem_append_right l (mem_cons_self (a := a)))).1
        rw [length_append] at hmem
        exact hfresh hmem

theorem bmap_spec (hmax : n < maxfile) :
    Cmd.Spec P s (bmap n) fun a s' => Mapped s n a s' ∧ Room P s' B ∧ a ∈ B := by
  by_cases hn : n < ndirect
  · exact bmap_direct_spec h hheld hr hB hfree hn
  · exact bmap_indirect_spec h hheld hr hB hfree (by omega) hmax

end Bmap

end Xv6.Disk
