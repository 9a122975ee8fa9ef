import Mathlib.Algebra.BigOperators.Fin
import Mathlib.Algebra.Order.BigOperators.Group.Finset
import Mathlib.Data.Fintype.BigOperators
import Mathlib.Data.List.Count
import Xv6.Log.Model

/-!
# The buffer cache's invariant

`Bio` says what holds of the buffers between any two steps: a block is in at
most one buffer; a process that has referenced a buffer for a block finds
that block in it; a sleep-lock is held by the process that has locked it,
once; and a buffer's `refcnt` is the number of references to it, plus one if
its block is pinned by the log. One lemma says for each step of `bio.c` that
it keeps this.
-/

namespace Xv6.Log

open Function List Finset

/-- The buffers that a process has locked and read, with their blocks, and
the one that it has referenced and not locked yet, or not read yet, or that
it is releasing; the flag says whether it is locked. -/
structure Refs where
  held : List (BufId × Nat) := []
  pend : Option (BufId × Nat × Bool) := none

namespace Refs

/-- The process has a reference to `i`, for block `b`. -/
def Has (r : Refs) (i : BufId) (b : Nat) : Prop := (i, b) ∈ r.held ∨ ∃ l, r.pend = some (i, b, l)

/-- How many references to `i` the process has. -/
def count (r : Refs) (i : BufId) : Nat := r.held.countP (·.1 = i) + r.pend.toList.countP (·.1 = i)

/-- How many locks of `i` the process has. -/
def locks (r : Refs) (i : BufId) : Nat :=
  r.held.countP (·.1 = i) + r.pend.toList.countP fun p => p.1 = i ∧ p.2.2 = true

theorem count_le (r : Refs) (i : BufId) : r.count i ≤ r.locks i + 1 := by
  have h : r.pend.toList.countP (·.1 = i) ≤ r.pend.toList.length := countP_le_length
  have : r.pend.toList.length ≤ 1 := by cases r.pend <;> simp
  unfold count locks
  omega

theorem has_pend {held : List (BufId × Nat)} {i j : BufId} {b c : Nat} {l : Bool} :
    Has ⟨held, some (i, b, l)⟩ j c ↔ (j, c) ∈ held ∨ i = j ∧ b = c := by
  simp [Has]

theorem Has.count_pos {r : Refs} {i : BufId} {b : Nat} (h : r.Has i b) : 0 < r.count i := by
  rcases h with h | ⟨l, h⟩
  · exact Nat.add_pos_left (countP_pos_iff.mpr ⟨_, h, by simp⟩) _
  · exact Nat.add_pos_right _ (by simp [h])

end Refs

/-- How many references processes have to buffer `i`. -/
def refs (holds : List (Pid × BufId)) (i : BufId) : Nat := holds.countP (·.2 = i)

theorem refs_cons (holds : List (Pid × BufId)) (t : Pid) (i j : BufId) :
    refs ((t, i) :: holds) j = refs holds j + if i = j then 1 else 0 := by
  simp [refs, countP_cons]

theorem refs_erase {holds : List (Pid × BufId)} {t : Pid} {i : BufId} (h : 0 < holds.count (t, i)) (j : BufId) :
    refs (holds.erase (t, i)) j + (if i = j then 1 else 0) = refs holds j := by
  have := (perm_cons_erase (count_pos_iff.mp h)).countP_eq fun p => decide (p.2 = j)
  rw [countP_cons] at this
  simpa [refs] using this.symm

theorem refs_eq_sum (holds : List (Pid × BufId)) (i : BufId) : refs holds i = ∑ t, holds.count (t, i) := by
  induction holds with
  | nil => simp [refs]
  | cons p holds ih =>
    obtain ⟨u, j⟩ := p
    rw [refs_cons, ih]
    simp only [count_cons, sum_add_distrib, Nat.add_left_cancel_iff, beq_iff_eq, Prod.mk.injEq]
    by_cases hj : j = i <;> simp [hj]

/-- 1 if the buffer's block is pinned by the log. -/
def pin (pins : List Nat) (x : Buf) : Nat := if x.dev = rootdev ∧ x.blockno ∈ pins then 1 else 0

/-- The buffers `buf` and the list `lru`, against the references of the
processes and the blocks that the log has pinned. -/
structure Bio (buf : BufId → Buf) (lru : List BufId) (holds : List (Pid × BufId)) (pins : List Nat)
    (ρ : Pid → Refs) : Prop where
  mem_lru : ∀ i, i ∈ lru
  uniq : ∀ i j, (buf i).dev = rootdev → (buf j).dev = rootdev → (buf i).blockno = (buf j).blockno → i = j
  has : ∀ t i b, (ρ t).Has i b → (buf i).dev = rootdev ∧ (buf i).blockno = b
  valid : ∀ t i b, (i, b) ∈ (ρ t).held → (buf i).valid = true
  lock : ∀ t i, (ρ t).locks i = if (buf i).lock = some t then 1 else 0
  counts : ∀ t i, holds.count (t, i) = (ρ t).count i
  refcnt : ∀ i, (buf i).refcnt.toNat = refs holds i + pin pins (buf i)
  pinned : ∀ b ∈ pins, ∃ i, (buf i).dev = rootdev ∧ (buf i).blockno = b ∧ (buf i).valid = true
  nodup : pins.Nodup

namespace Bio

variable {buf : BufId → Buf} {lru : List BufId} {holds : List (Pid × BufId)} {pins : List Nat} {ρ : Pid → Refs}
  {t : Pid} {i : BufId} {b : Nat} {r : Refs}

variable (h : Bio buf lru holds pins ρ)

include h

theorem locks_le_one (t : Pid) (i : BufId) : (ρ t).locks i ≤ 1 := by
  rw [h.lock]; split <;> omega

theorem lock_eq (hl : 0 < (ρ t).locks i) : (buf i).lock = some t := by
  rw [h.lock] at hl
  by_contra hne
  rw [if_neg hne] at hl
  exact nomatch hl

theorem lock_of_held (hm : (i, b) ∈ (ρ t).held) : (buf i).lock = some t :=
  h.lock_eq (Nat.add_pos_left (countP_pos_iff.mpr ⟨_, hm, by simp⟩) _)

/-- A process does not hold the buffer that it has just locked. -/
theorem not_held (hp : (ρ t).pend = some (i, b, true)) (c : Nat) :
    (i, c) ∉ (ρ t).held := by
  intro hm
  have h1 := h.locks_le_one t i
  have h2 : 0 < (ρ t).held.countP (·.1 = i) := countP_pos_iff.mpr ⟨_, hm, by simp⟩
  simp only [Refs.locks, hp, Option.toList_some, countP_singleton, and_self, decide_true, if_true] at h1
  omega

theorem lock_of_pend (hp : (ρ t).pend = some (i, b, true)) :
    (buf i).lock = some t := h.lock_eq (Nat.add_pos_right _ (by simp [hp]))

/-- A process has at most two references to a buffer, so `refcnt` is far
from overflowing. -/
theorem refs_le (i : BufId) : refs holds i ≤ 2 * nproc := by
  rw [refs_eq_sum]
  refine le_trans (sum_le_card_nsmul _ _ 2 fun t _ => ?_) (by simp [mul_comm])
  rw [h.counts]
  have h1 := (ρ t).count_le i
  have h2 := h.locks_le_one t i
  omega

theorem refs_pos (hr : (ρ t).Has i b) : 0 < refs holds i := by
  have : 0 < holds.count (t, i) := by rw [h.counts]; exact hr.count_pos
  exact countP_pos_iff.mpr ⟨_, count_pos_iff.mp this, by simp⟩

/-- Nobody has a reference to a buffer with `refcnt` 0, and its block is not
pinned. -/
theorem of_refcnt_zero (h0 : (buf i).refcnt = 0) :
    (∀ t b, ¬ (ρ t).Has i b) ∧ pin pins (buf i) = 0 := by
  have hc := h.refcnt i
  rw [h0, BitVec.ofNat_eq_ofNat, BitVec.toNat_ofNat, Nat.zero_mod] at hc
  refine ⟨fun t b hr => ?_, by omega⟩
  have := h.refs_pos hr
  omega

/-- A buffer's block is not pinned if no buffer for it is valid. -/
theorem not_mem_pins (hd : (buf i).dev = rootdev) (hv : (buf i).valid = false) :
    (buf i).blockno ∉ pins := by
  intro hp
  obtain ⟨j, hjd, hjb, hjv⟩ := h.pinned _ hp
  obtain rfl := h.uniq i j hd hjd hjb.symm
  exact absurd (hv.symm.trans hjv) (by decide)

/-- The pinned blocks take up one buffer each. -/
theorem pins_lt {l : List Nat} (hl : l.Sublist pins) (hb : (buf i).blockno ∉ l) :
    l.length < nbuf := by
  have hsub : l.toFinset ⊆ (Finset.univ.erase i).image fun j => (buf j).blockno := by
    intro b hbp
    obtain ⟨j, -, hjb, -⟩ := h.pinned b (hl.subset (mem_toFinset.mp hbp))
    refine mem_image.mpr ⟨j, mem_erase.mpr ⟨?_, mem_univ j⟩, hjb⟩
    rintro rfl
    exact hb (hjb ▸ mem_toFinset.mp hbp)
  have hcard := (card_le_card hsub).trans card_image_le
  rw [toFinset_card_of_nodup (h.nodup.sublist hl), card_erase_of_mem (mem_univ i), card_univ,
    Fintype.card_fin] at hcard
  exact lt_of_le_of_lt hcard (by decide)

variable {x : Buf} {lru' : List BufId}

/-- A step that changes buffer `i`, but not which block it is for, and the
references of process `t`. -/
theorem upd {holds' : List (Pid × BufId)}
    (hd : x.dev = (buf i).dev) (hb : x.blockno = (buf i).blockno) (hv : (buf i).valid = true → x.valid = true)
    (hlru : ∀ j, j ∈ lru') (hhas : ∀ j c, r.Has j c → (buf j).dev = rootdev ∧ (buf j).blockno = c)
    (hvalid : ∀ j c, (j, c) ∈ r.held → (j, c) ∈ (ρ t).held ∨ j = i ∧ x.valid = true)
    (hlock : ∀ u j, (update ρ t r u).locks j = if (update buf i x j).lock = some u then 1 else 0)
    (hcounts : ∀ u j, holds'.count (u, j) = (update ρ t r u).count j)
    (hrefcnt : ∀ j, (update buf i x j).refcnt.toNat = refs holds' j + pin pins (buf j)) :
    Bio (update buf i x) lru' holds' pins (update ρ t r) := by
  have hdev := update_keep Buf.dev rfl hd
  have hblk := update_keep Buf.blockno rfl hb
  have hval : ∀ j, (buf j).valid = true → (update buf i x j).valid = true := fun j hj => by
    by_cases hji : j = i
    · subst hji; rw [update_self]; exact hv hj
    · rwa [update_of_ne hji]
  refine ⟨hlru, fun j k => ?_, fun u j c => ?_, fun u j c hm => ?_, hlock, hcounts, fun j => ?_, fun c hc => ?_,
    h.nodup⟩
  · simp only [hdev, hblk]; exact h.uniq j k
  · rw [hdev, hblk]
    by_cases hu : u = t
    · subst hu; rw [update_self]; exact hhas j c
    · rw [update_of_ne hu]; exact h.has u j c
  · by_cases hu : u = t
    · subst hu
      rw [update_self] at hm
      rcases hvalid j c hm with hm | ⟨rfl, hx⟩
      · exact hval j (h.valid u j c hm)
      · rwa [update_self]
    · rw [update_of_ne hu] at hm
      exact hval j (h.valid u j c hm)
  · rw [hrefcnt, pin, pin, hdev, hblk]
  · obtain ⟨j, hjd, hjb, hjv⟩ := h.pinned c hc
    exact ⟨j, (hdev j).trans hjd, (hblk j).trans hjb, hval j hjv⟩

/-- The sleep-locks, if `t` is the only process whose lock of `i` changes. -/
theorem lock_upd (hx : ∀ u, u ≠ t → (x.lock = some u ↔ (buf i).lock = some u))
    (hr : ∀ j, r.locks j = if j = i then if x.lock = some t then 1 else 0 else (ρ t).locks j) (u : Pid) (j : BufId) :
    (update ρ t r u).locks j = if (update buf i x j).lock = some u then 1 else 0 := by
  by_cases hu : u = t
  · subst hu
    rw [update_self, hr]
    by_cases hj : j = i
    · subst hj; simp
    · rw [if_neg hj, update_of_ne hj, h.lock]
  · rw [update_of_ne hu, h.lock]
    by_cases hj : j = i
    · subst hj; simp [hx u hu]
    · rw [update_of_ne hj]

theorem lock_keep (hx : x.lock = (buf i).lock) (hr : ∀ j, r.locks j = (ρ t).locks j)
    (u : Pid) (j : BufId) : (update ρ t r u).locks j = if (update buf i x j).lock = some u then 1 else 0 := by
  rw [update_keep Buf.lock rfl hx, ← h.lock]
  exact update_keep (Refs.locks · j) rfl (hr j) u

theorem counts_upd (hr : ∀ j, r.count j = (ρ t).count j) (u : Pid) (j : BufId) :
    holds.count (u, j) = (update ρ t r u).count j := by
  rw [h.counts]
  exact (update_keep (Refs.count · j) rfl (hr j) u).symm

theorem refcnt_upd (hx : x.refcnt = (buf i).refcnt) (j : BufId) :
    (update buf i x j).refcnt.toNat = refs holds j + pin pins (buf j) := by
  rw [← h.refcnt, update_keep Buf.refcnt rfl hx]

/-- The references, if `t` gets a new one. -/
theorem counts_cons (hr : (ρ t).pend = none) (u : Pid) (j : BufId) :
    ((t, i) :: holds).count (u, j) = (update ρ t { ρ t with pend := some (i, b, false) } u).count j := by
  have := h.counts u j
  by_cases hu : u = t
  · subst hu; simp [Refs.count, hr, count_cons, this]
  · simp [hu, this, Ne.symm hu]

omit h in
theorem pin_le (pins : List Nat) (x : Buf) : pin pins x ≤ 1 := by unfold pin; split <;> omega

/-- `bget` finds the block. -/
theorem hit (hr : (ρ t).pend = none) (hd : (buf i).dev = rootdev) :
    Bio (update buf i { buf i with refcnt := (buf i).refcnt + 1 }) lru ((t, i) :: holds) pins
      (update ρ t { ρ t with pend := some (i, (buf i).blockno, false) }) := by
  refine h.upd rfl rfl id h.mem_lru (fun j c hj => ?_) (fun j c hj => .inl hj)
    (h.lock_keep rfl fun j => by simp [Refs.locks, hr]) (h.counts_cons hr) fun j => ?_
  · rcases Refs.has_pend.1 hj with hj | ⟨rfl, rfl⟩
    · exact h.has t j c (.inl hj)
    · exact ⟨hd, rfl⟩
  · have := h.refcnt j
    rw [refs_cons]
    by_cases hj : j = i
    · subst hj
      have h1 := h.refs_le j
      have h2 := pin_le pins (buf j)
      rw [update_self, BitVec.toNat_add, this, if_pos rfl]
      simp only [nproc] at h1
      simp; omega
    · rw [update_of_ne hj, if_neg (Ne.symm hj), this]; rfl

/-- `bget` recycles a buffer, for a block that is in no buffer. -/
theorem miss (hr : (ρ t).pend = none)
    (hno : ∀ j, ¬ ((buf j).dev = rootdev ∧ (buf j).blockno = b)) (h0 : (buf i).refcnt = 0) :
    Bio (update buf i { buf i with dev := rootdev, blockno := b, valid := false, refcnt := 1 }) lru
      ((t, i) :: holds) pins (update ρ t { ρ t with pend := some (i, b, false) }) := by
  obtain ⟨hfree, hpin⟩ := h.of_refcnt_zero h0
  have hzero : refs holds i = 0 := by
    have := h.refcnt i
    rw [h0, BitVec.ofNat_eq_ofNat, BitVec.toNat_ofNat, Nat.zero_mod] at this
    omega
  have hbp : b ∉ pins := fun hb => by
    obtain ⟨j, hjd, hjb, -⟩ := h.pinned b hb
    exact hno j ⟨hjd, hjb⟩
  refine ⟨h.mem_lru, fun j k => ?_, fun u j c hj => ?_, fun u j c hj => ?_,
    h.lock_keep rfl fun j => by simp [Refs.locks, hr], h.counts_cons hr, fun j => ?_, fun c hc => ?_, h.nodup⟩
  · by_cases hj : j = i <;> by_cases hk : k = i
    · intros; rw [hj, hk]
    · subst hj
      rw [update_self, update_of_ne hk]
      exact fun _ hd hb => absurd ⟨hd, hb.symm⟩ (hno k)
    · subst hk
      rw [update_self, update_of_ne hj]
      exact fun hd _ hb => absurd ⟨hd, hb⟩ (hno j)
    · rw [update_of_ne hj, update_of_ne hk]
      exact h.uniq j k
  · -- A reference to `i` can only be the new one.
    by_cases hu : u = t
    · subst hu
      rw [update_self] at hj
      rcases Refs.has_pend.1 hj with hj | ⟨rfl, rfl⟩
      · have hji : j ≠ i := fun e => hfree u c (e ▸ .inl hj)
        rw [update_of_ne hji]
        exact h.has u j c (.inl hj)
      · simp
    · rw [update_of_ne hu] at hj
      have hji : j ≠ i := fun e => hfree u c (e ▸ hj)
      rw [update_of_ne hji]
      exact h.has u j c hj
  · have hm : (j, c) ∈ (ρ u).held := by
      by_cases hu : u = t
      · subst hu; simpa using hj
      · rwa [update_of_ne hu] at hj
    have hji : j ≠ i := fun e => hfree u c (e ▸ .inl hm)
    rw [update_of_ne hji]
    exact h.valid u j c hm
  · rw [refs_cons]
    by_cases hj : j = i
    · subst hj
      simp [hzero, pin, hbp]
    · rw [update_of_ne hj, if_neg (Ne.symm hj), h.refcnt j]; rfl
  · obtain ⟨j, hjd, hjb, hjv⟩ := h.pinned c hc
    have hji : j ≠ i := by
      rintro rfl
      rw [pin, if_pos ⟨hjd, hjb ▸ hc⟩] at hpin
      exact nomatch hpin
    exact ⟨j, by rwa [update_of_ne hji], by rwa [update_of_ne hji],
      by rwa [update_of_ne hji]⟩

theorem acquiresleep (hr : (ρ t).pend = some (i, b, false)) (hl : (buf i).lock = none) :
    Bio (update buf i { buf i with lock := some t }) lru holds pins
      (update ρ t { ρ t with pend := some (i, b, true) }) := by
  refine h.upd rfl rfl id h.mem_lru (fun j c hj => h.has t j c ?_) (fun j c hj => .inl hj)
    (h.lock_upd (fun u hu => ?_) fun j => ?_) (h.counts_upd fun j => ?_) (h.refcnt_upd rfl)
  · rcases Refs.has_pend.1 hj with hj | ⟨rfl, rfl⟩
    · exact .inl hj
    · exact .inr ⟨false, hr⟩
  · simp [hl, Ne.symm hu]
  · have := h.lock t i
    rw [hl] at this
    by_cases hj : j = i
    · subst hj; simpa [Refs.locks, hr] using this
    · simp [Refs.locks, hr, hj, Ne.symm hj]
  · simp [Refs.count, hr]

/-- `bread` has the block's data. -/
theorem read (hr : (ρ t).pend = some (i, b, true)) (data : Bytes) :
    Bio (update buf i { buf i with valid := true, data := data }) lru holds pins
      (update ρ t ⟨(i, b) :: (ρ t).held, none⟩) := by
  refine h.upd rfl rfl (fun _ => rfl) h.mem_lru (fun j c hj => h.has t j c ?_) (fun j c hj => ?_)
    (h.lock_keep rfl fun j => by simp [Refs.locks, hr, countP_cons]) (h.counts_upd fun j => ?_) (h.refcnt_upd rfl)
  · rcases hj with hj | ⟨l, hj⟩
    · rcases mem_cons.mp hj with hj | hj
      · simp only [Prod.mk.injEq] at hj
        obtain ⟨rfl, rfl⟩ := hj
        exact .inr ⟨true, hr⟩
      · exact .inl hj
    · cases hj
  · rcases mem_cons.mp hj with hj | hj
    · simp only [Prod.mk.injEq] at hj
      exact .inr ⟨hj.1, rfl⟩
    · exact .inl hj
  · simp [Refs.count, hr, countP_cons]

theorem setData (data : Bytes) :
    Bio (update buf i { buf i with data := data }) lru holds pins ρ := by
  have := h.upd (t := 0) (r := ρ 0) (i := i) (x := { buf i with data := data }) rfl rfl id h.mem_lru (h.has 0)
    (fun j c hj => .inl hj) (h.lock_keep rfl fun _ => rfl) (h.counts_upd fun _ => rfl) (h.refcnt_upd rfl)
  rwa [update_eq_self] at this

omit h in
theorem countP_erase {α : Type} [BEq α] [LawfulBEq α] {l : List α} {a : α} (h : a ∈ l) (p : α → Bool) :
    l.countP p = (l.erase a).countP p + if p a then 1 else 0 := by
  rw [(perm_cons_erase h).countP_eq p, countP_cons]

/-- `brelse` releases the sleep-lock. -/
theorem releasesleep (hr : (ρ t).pend = none) (hm : (i, b) ∈ (ρ t).held) :
    Bio (update buf i { buf i with lock := none }) lru holds pins
      (update ρ t ⟨(ρ t).held.erase (i, b), some (i, b, false)⟩) := by
  have herase := countP_erase hm
  have hone : (ρ t).locks i = 1 := by
    have h1 := h.locks_le_one t i
    have h2 : 0 < (ρ t).locks i := Nat.add_pos_left (countP_pos_iff.mpr ⟨_, hm, by simp⟩) _
    omega
  have hl := h.lock_of_held hm
  refine h.upd rfl rfl id h.mem_lru (fun j c hj => h.has t j c ?_) (fun j c hj => .inl (mem_of_mem_erase hj))
    (h.lock_upd (fun u hu => ?_) fun j => ?_) (h.counts_upd fun j => ?_) (h.refcnt_upd rfl)
  · rcases Refs.has_pend.1 hj with hj | ⟨rfl, rfl⟩
    · exact .inl (mem_of_mem_erase hj)
    · exact .inl hm
  · simp [hl, Ne.symm hu]
  · have := herase fun p => decide (p.1 = j)
    by_cases hj : j = i
    · subst hj
      have hsum : (ρ t).locks j = (ρ t).held.countP (·.1 = j) := by simp [Refs.locks, hr]
      simp only [decide_true, if_true] at this
      have hz : ((ρ t).held.erase (j, b)).countP (·.1 = j) = 0 := by omega
      rw [if_pos rfl, if_neg (by simp), Refs.locks, hz]
      simp
    · rw [if_neg hj, Refs.locks, Refs.locks, this]
      simp [hr, Ne.symm hj]
  · have := herase fun p => decide (p.1 = j)
    simp [Refs.count, hr, countP_cons] at this ⊢
    omega

/-- `brelse` drops the reference; `lru` may be reordered. -/
theorem unref (hr : (ρ t).pend = some (i, b, false)) (hlru : ∀ j, j ∈ lru') :
    Bio (update buf i { buf i with refcnt := (buf i).refcnt - 1 }) lru' (holds.erase (t, i)) pins
      (update ρ t { ρ t with pend := none }) := by
  have hpos : 0 < holds.count (t, i) := by
    rw [h.counts]; exact Refs.Has.count_pos (b := b) (.inr ⟨false, hr⟩)
  refine h.upd rfl rfl id hlru (fun j c hj => h.has t j c ?_) (fun j c hj => .inl hj)
    (h.lock_keep rfl fun j => by simp [Refs.locks, hr]) (fun u j => ?_) fun j => ?_
  · rcases hj with hj | ⟨l, hj⟩
    · exact .inl hj
    · cases hj
  · have := h.counts u j
    by_cases hu : u = t
    · subst hu
      by_cases hj : j = i
      · subst hj
        simp [Refs.count, hr] at this ⊢
        omega
      · simp [Refs.count, hr, hj, Ne.symm hj] at this ⊢
        exact this
    · simp [hu, this]
  · have hc := h.refcnt j
    have he := refs_erase hpos j
    by_cases hj : j = i
    · subst hj
      rw [if_pos rfl] at he
      rw [update_self, BitVec.toNat_sub_of_le (by rw [BitVec.le_def, hc]; simp; omega), hc]
      simp; omega
    · rw [if_neg (Ne.symm hj)] at he
      rw [update_of_ne hj, hc, ← he]; rfl

/-- A step that changes only the pins, and the `refcnt` of buffer `i`. -/
theorem repin {v : BitVec 32} {pins' : List Nat} (hd : (buf i).dev = rootdev)
    (hv : v.toNat = refs holds i + pin pins' (buf i)) (hp : ∀ c, c ≠ (buf i).blockno → (c ∈ pins' ↔ c ∈ pins))
    (hi : (buf i).blockno ∈ pins' → (buf i).valid = true) (hn : pins'.Nodup) :
    Bio (update buf i { buf i with refcnt := v }) lru holds pins' ρ := by
  have keep {α : Type} (φ : Buf → α) := update_keep (f := buf) (i := i) (x := { buf i with refcnt := v }) φ rfl
  have hdev := keep Buf.dev rfl
  have hblk := keep Buf.blockno rfl
  have hval := keep Buf.valid rfl
  have hlk := keep Buf.lock rfl
  refine ⟨h.mem_lru, ?_, ?_, ?_, ?_, h.counts, fun j => ?_, fun c hc => ?_, hn⟩
  · simp only [hdev, hblk]; exact h.uniq
  · simp only [hdev, hblk]; exact h.has
  · simp only [hval]; exact h.valid
  · simp only [hlk]; exact h.lock
  · rw [pin, hdev, hblk, ← pin]
    by_cases hj : j = i
    · subst hj; rwa [update_self]
    · rw [update_of_ne hj, h.refcnt j, pin, pin]
      congr 1
      by_cases hjd : (buf j).dev = rootdev
      · have hne : (buf j).blockno ≠ (buf i).blockno := fun e => hj (h.uniq j i hjd hd e)
        simp only [hjd, true_and, hp _ hne]
      · simp only [hjd, false_and]
  · simp only [hdev, hblk, hval]
    by_cases hci : c = (buf i).blockno
    · exact ⟨i, hd, hci.symm, hi (hci ▸ hc)⟩
    · exact h.pinned c ((hp c hci).mp hc)

omit h in
/-- `bunpin`, of the first pinned block. -/
theorem bunpin (h : Bio buf lru holds (b :: pins) ρ) (hr : (i, b) ∈ (ρ t).held) :
    Bio (update buf i { buf i with refcnt := (buf i).refcnt - 1 }) lru holds pins ρ := by
  obtain ⟨hd, rfl⟩ := h.has t i b (.inl hr)
  obtain ⟨hb, hn⟩ := nodup_cons.mp h.nodup
  refine h.repin hd ?_ (fun c hc => by simp [hc]) (fun _ => h.valid t i _ hr) hn
  have hc := h.refcnt i
  rw [pin, if_pos ⟨hd, mem_cons_self⟩] at hc
  rw [pin, if_neg fun hp => hb hp.2, BitVec.toNat_sub_of_le (by rw [BitVec.le_def, hc]; simp), hc]
  simp

/-- `bpin`, of a block that was not pinned. -/
theorem bpin (hr : (i, b) ∈ (ρ t).held) (hb : b ∉ pins) :
    Bio (update buf i { buf i with refcnt := (buf i).refcnt + 1 }) lru holds (pins ++ [b]) ρ := by
  obtain ⟨hd, rfl⟩ := h.has t i b (.inl hr)
  refine h.repin hd ?_ (fun c hc => by simp [hc]) (fun _ => h.valid t i _ hr)
    (h.nodup.append (nodup_singleton _) (by simpa using hb))
  have hc := h.refcnt i
  have hle := h.refs_le i
  rw [pin, if_neg fun hp => hb hp.2] at hc
  rw [pin, if_pos ⟨hd, by simp⟩, BitVec.toNat_add, hc]
  simp only [nproc] at hle
  simp; omega

end Bio

end Xv6.Log
