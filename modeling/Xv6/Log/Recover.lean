import Xv6.Log.Boot

/-!
# Recovery

`recover_from_log` runs alone, on a fresh buffer cache. From a disk that
satisfies `Recov`, it returns, every disk on the way still satisfies `Recov`
for the same blocks, and in the end they are in place with an empty header
(`initlog_runs`).

`Alone` describes the cache between two calls: which buffers are held, and
which are stuck. `install_trans` calls `bunpin` for blocks that were pinned
before the crash, not since, so that in recovery each installed block's
buffer ends with a `refcnt` below 0 and is never used again. Recovery goes
through because the log has fewer blocks than there are buffers.
-/

namespace Xv6.Log

open Function List

variable {L : Layout} {t : Pid} {s s' : State} {held stuck : List (BufId × Nat)} {i : BufId} {b : Nat}

/-- The cache of a process that runs alone. -/
structure Alone (t : Pid) (held stuck : List (BufId × Nat)) (s : State) : Prop where
  mem_lru : ∀ i, i ∈ s.lru
  uniq : ∀ i j, (s.buf i).dev = rootdev → (s.buf j).dev = rootdev → (s.buf i).blockno = (s.buf j).blockno → i = j
  vals : ∀ i, (s.buf i).dev = rootdev → (s.buf i).valid = true → (s.buf i).data = s.disk (s.buf i).blockno
  has : ∀ p ∈ held ++ stuck, (s.buf p.1).dev = rootdev ∧ (s.buf p.1).blockno = p.2
  one : ∀ p ∈ held, (s.buf p.1).refcnt = 1 ∧ (s.buf p.1).lock = some t ∧ (s.buf p.1).valid = true
  wedged : ∀ p ∈ stuck, (s.buf p.1).refcnt ≠ 0 ∧ (s.buf p.1).lock = none
  free : ∀ i, i ∉ (held ++ stuck).map Prod.fst → (s.buf i).refcnt = 0 ∧ (s.buf i).lock = none
  nodup : ((held ++ stuck).map Prod.fst).Nodup

namespace Alone

variable (h : Alone t held stuck s)

include h

theorem congr (hbuf : s'.buf = s.buf) (hlru : s'.lru = s.lru) (hdisk : s'.disk = s.disk) :
    Alone t held stuck s' := by
  obtain ⟨h1, h2, h3, h4, h5, h6, h7, h8⟩ := h
  rw [← hbuf] at h2 h3 h4 h5 h6 h7
  rw [← hdisk] at h3
  exact ⟨by rwa [hlru], h2, h3, h4, h5, h6, h7, h8⟩

theorem not_mem (h0 : (s.buf i).refcnt = 0) : i ∉ (held ++ stuck).map Prod.fst := by
  intro hi
  obtain ⟨p, hp, rfl⟩ := mem_map.mp hi
  rcases mem_append.mp hp with hp | hp
  · exact absurd (h0.symm.trans (h.one p hp).1) (by decide)
  · exact (h.wedged p hp).1 h0

/-- A buffer for a block that is neither held nor stuck is free. -/
theorem not_mem_of_block (hb : ∀ p ∈ held ++ stuck, p.2 ≠ (s.buf i).blockno) :
    i ∉ (held ++ stuck).map Prod.fst := by
  intro hi
  obtain ⟨p, hp, rfl⟩ := mem_map.mp hi
  exact hb p hp (h.has p hp).2.symm

/-- A free buffer is taken for block `b`. -/
theorem take (hi : i ∉ (held ++ stuck).map Prod.fst)
    (hb : ∀ j, (s.buf j).dev = rootdev → (s.buf j).blockno = b → j = i) (hlru : s'.lru = s.lru)
    (hdisk : s'.disk = s.disk) (hbuf : s'.buf = update s.buf i ⟨true, rootdev, b, some t, 1, s.disk b⟩) :
    Alone t ((i, b) :: held) stuck s' := by
  have hother : ∀ p ∈ held ++ stuck, s'.buf p.1 = s.buf p.1 := fun p hp => by
    rw [hbuf, update_of_ne]
    rintro rfl
    exact hi (mem_map_of_mem hp)
  obtain ⟨hself, hne⟩ := eq_update_iff.1 hbuf
  refine ⟨by rw [hlru]; exact h.mem_lru, fun j k => ?_, fun j => ?_, fun p hp => ?_, fun p hp => ?_, fun p hp => ?_,
    fun j hj => ?_, ?_⟩
  · by_cases hj : j = i <;> by_cases hk : k = i
    · intros; rw [hj, hk]
    · subst hj
      rw [hself, hne k hk]
      exact fun _ hd he => (hb k hd he.symm).symm
    · subst hk
      rw [hself, hne j hj]
      exact fun hd _ he => hb j hd he
    · rw [hne j hj, hne k hk]; exact h.uniq j k
  · by_cases hj : j = i
    · subst hj; rw [hself, hdisk]; exact fun _ _ => rfl
    · rw [hne j hj, hdisk]; exact h.vals j
  · rcases mem_cons.mp hp with rfl | hp
    · rw [hself]; exact ⟨rfl, rfl⟩
    · rw [hother p hp]; exact h.has p hp
  · rcases mem_cons.mp hp with rfl | hp
    · rw [hself]; exact ⟨rfl, rfl, rfl⟩
    · rw [hother p (mem_append_left _ hp)]; exact h.one p hp
  · rw [hother p (mem_append_right _ hp)]; exact h.wedged p hp
  · simp only [cons_append, map_cons, mem_cons, not_or] at hj
    rw [hne j hj.1]; exact h.free j hj.2
  · simp only [cons_append, map_cons, nodup_cons]
    exact ⟨hi, h.nodup⟩

omit h in
/-- A buffer is released, with `refcnt` `rc`; it is stuck if that is not 0. -/
theorem leave (h : Alone t ((i, b) :: held) stuck s) (rc : BitVec 32) (hlru : ∀ j, j ∈ s'.lru)
    (hdisk : s'.disk = s.disk) (hbuf : s'.buf = update s.buf i { s.buf i with lock := none, refcnt := rc }) :
    Alone t held (if rc = 0 then stuck else (i, b) :: stuck) s' := by
  have hnd : i ∉ (held ++ stuck).map Prod.fst ∧ ((held ++ stuck).map Prod.fst).Nodup := by
    simpa only [cons_append, map_cons, nodup_cons] using h.nodup
  have hother : ∀ p ∈ held ++ stuck, s'.buf p.1 = s.buf p.1 := fun p hp => by
    rw [hbuf, update_of_ne]
    rintro rfl
    exact hnd.1 (mem_map_of_mem hp)
  obtain ⟨hself, hne⟩ := eq_update_iff.1 hbuf
  have hdev := update_keep Buf.dev hbuf rfl
  have hblk := update_keep Buf.blockno hbuf rfl
  have hmem : ∀ p, p ∈ (if rc = 0 then stuck else (i, b) :: stuck) → p ∈ stuck ∨ p = (i, b) ∧ rc ≠ 0 := fun p hp => by
    split at hp
    · exact .inl hp
    · rcases mem_cons.mp hp with rfl | hp
      · exact .inr ⟨rfl, ‹_›⟩
      · exact .inl hp
  refine ⟨hlru, fun j k => ?_, fun j => ?_, fun p hp => ?_, fun p hp => ?_, fun p hp => ?_, fun j hj => ?_, ?_⟩
  · simp only [hdev, hblk]; exact h.uniq j k
  · rw [hdev, hblk, update_keep Buf.valid hbuf rfl, update_keep Buf.data hbuf rfl, hdisk]; exact h.vals j
  · rw [hdev, hblk]
    refine h.has p ?_
    rcases mem_append.mp hp with hp | hp
    · exact mem_cons_of_mem _ (mem_append_left _ hp)
    · rcases hmem p hp with hp | ⟨rfl, -⟩
      · exact mem_cons_of_mem _ (mem_append_right _ hp)
      · exact mem_cons_self
  · rw [hother p (mem_append_left _ hp)]
    exact h.one p (mem_cons_of_mem _ hp)
  · rcases hmem p hp with hp | ⟨rfl, hrc⟩
    · rw [hother p (mem_append_right _ hp)]; exact h.wedged p hp
    · rw [hself]; exact ⟨hrc, rfl⟩
  · by_cases hji : j = i
    · subst hji
      rw [hself]
      refine ⟨?_, rfl⟩
      by_contra hrc
      rw [if_neg (show ¬ rc = 0 from hrc)] at hj
      exact hj (by simp)
    · rw [hne j hji]
      refine h.free j fun hm => hj ?_
      simp only [cons_append, map_cons, mem_cons, hji, false_or, map_append,
        mem_append] at hm ⊢
      refine hm.imp_right fun hm => ?_
      split
      · exact hm
      · exact mem_cons_of_mem _ hm
  · split
    · exact hnd.2
    · rw [map_append, map_cons, perm_middle.nodup_iff, ← map_append]
      exact nodup_cons.mpr hnd

theorem perm {held' : List (BufId × Nat)} (hp : held.Perm held') : Alone t held' stuck s where
  mem_lru := h.mem_lru
  uniq := h.uniq
  vals := h.vals
  has := fun p hm => h.has p ((hp.append_right stuck).mem_iff.mpr hm)
  one := fun p hm => h.one p (hp.mem_iff.mpr hm)
  wedged := h.wedged
  free := fun i hi => h.free i fun hm => hi (((hp.append_right stuck).map _).mem_iff.mp hm)
  nodup := ((hp.append_right stuck).map _).nodup_iff.mp h.nodup

/-- A buffer that is held is given new contents, and written. -/
theorem write (hm : (i, b) ∈ held) {data : Bytes} (hlru : s'.lru = s.lru)
    (hdisk : s'.disk = update s.disk b data)
    (hbuf : s'.buf = update s.buf i { s.buf i with data := data }) : Alone t held stuck s' := by
  obtain ⟨hd, hb⟩ := h.has (i, b) (mem_append_left _ hm)
  have hdev := update_keep Buf.dev hbuf rfl
  have hblk := update_keep Buf.blockno hbuf rfl
  have hval := update_keep Buf.valid hbuf rfl
  have hcnt := update_keep Buf.refcnt hbuf rfl
  have hlk := update_keep Buf.lock hbuf rfl
  refine ⟨by rw [hlru]; exact h.mem_lru, fun j k => ?_, fun j hjd hjv => ?_, fun p hp => ?_, fun p hp => ?_,
    fun p hp => ?_, fun j hj => ?_, h.nodup⟩
  · simp only [hdev, hblk]; exact h.uniq j k
  · rw [hdev] at hjd
    rw [hval] at hjv
    rw [hblk, hdisk, hbuf]
    by_cases hj : j = i
    · subst hj; rw [hb]; simp
    · have hne : (s.buf j).blockno ≠ b := fun e => hj (h.uniq j i hjd hd (e.trans hb.symm))
      rw [update_of_ne hj, update_of_ne hne]
      exact h.vals j hjd hjv
  · rw [hdev, hblk]; exact h.has p hp
  · rw [hval, hcnt, hlk]; exact h.one p hp
  · rw [hcnt, hlk]; exact h.wedged p hp
  · rw [hcnt, hlk]; exact h.free j hj

end Alone

/-- `bget` finds a buffer, if there are enough of them. -/
theorem bgetRef_ok (h : Alone t held stuck s) (hb : ∀ p ∈ held ++ stuck, p.2 ≠ b) (hn : (held ++ stuck).length < nbuf) :
    ∃ i x, bgetRef rootdev b t s = .ok i ((s.modBuf i fun _ => x).modHist fun h => { h with holds := (t, i) :: h.holds }) ∧
      i ∉ (held ++ stuck).map Prod.fst ∧ (∀ j, (s.buf j).dev = rootdev → (s.buf j).blockno = b → j = i) ∧
      x.dev = rootdev ∧ x.blockno = b ∧ x.lock = none ∧ x.refcnt = 1 ∧ (x.valid = true → x.data = s.disk b) := by
  unfold bgetRef
  split
  · rename_i i hf
    have hfound := find?_some hf
    simp only [decide_eq_true_eq] at hfound
    obtain ⟨hd, rfl⟩ := hfound
    have hi := h.not_mem_of_block hb
    obtain ⟨h0, hl⟩ := h.free i hi
    refine ⟨i, { s.buf i with refcnt := (s.buf i).refcnt + 1 }, rfl, hi, fun j hjd hjb => h.uniq j i hjd hd hjb, hd,
      rfl, hl, ?_, h.vals i hd⟩
    show (s.buf i).refcnt + 1 = 1
    rw [h0]; rfl
  · rename_i hf
    have hno : ∀ j, ¬ ((s.buf j).dev = rootdev ∧ (s.buf j).blockno = b) := fun j => by
      simpa using find?_eq_none.mp hf j (h.mem_lru j)
    split
    · rename_i i hf0
      have h0 := find?_some hf0
      simp only [decide_eq_true_eq] at h0
      have hi := h.not_mem h0
      exact ⟨i, { s.buf i with dev := rootdev, blockno := b, valid := false, refcnt := 1 }, rfl, hi,
        fun j hjd hjb => absurd ⟨hjd, hjb⟩ (hno j), rfl, rfl, (h.free i hi).2, rfl, fun hv => absurd hv (by simp)⟩
    · rename_i hnone
      -- one of the buffers is neither held nor stuck
      obtain ⟨i, hi⟩ : ∃ i : BufId, i ∉ (held ++ stuck).map Prod.fst := by
        by_contra hall
        simp only [not_exists, not_not] at hall
        have := List.Nodup.length_le_card (nodup_finRange nbuf)
        have hle : (Finset.univ : Finset BufId).card ≤ ((held ++ stuck).map Prod.fst).toFinset.card :=
          Finset.card_le_card fun i _ => mem_toFinset.mpr (hall i)
        have := hle.trans (toFinset_card_le _)
        rw [Finset.card_univ, Fintype.card_fin, length_map] at this
        omega
      have := find?_eq_none.mp hnone i (mem_reverse.mpr (h.mem_lru i))
      exact absurd (h.free i hi).1 (by simpa using this)

variable {J : State → Prop} {α : Type}

theorem getLog_runs (hJ : J s) : Prog.Runs t J getLog s fun l s' => l = s.log ∧ s = s' := .step hJ rfl hJ ⟨rfl, rfl⟩

/-- `bread` returns a buffer with the block. -/
theorem bread_runs (h : Alone t held stuck s) (hb : ∀ p ∈ held ++ stuck, p.2 ≠ b)
    (hn : (held ++ stuck).length < nbuf) (hJ : ∀ s' : State, s'.disk = s.disk → J s') :
    Prog.Runs t J (bread rootdev b) s fun i s' =>
      Alone t ((i, b) :: held) stuck s' ∧ s'.disk = s.disk ∧ s'.log = s.log ∧ s'.hist.inst = s.hist.inst := by
  obtain ⟨i, x, hget, hi, huniq, hxd, hxb, hxl, hxr, hxv⟩ := bgetRef_ok h hb hn
  refine .act (hJ s rfl) hget (.act (hJ _ rfl) (if_pos ?_) (.act (hJ _ rfl) rfl (.ret ?_ ?_)))
  · simp [hxl]
  · split <;> exact hJ _ rfl
  · obtain ⟨v, dev, blk, lk, rc, data⟩ := x
    subst hxd hxb hxr
    have hv : (((s.modBuf i fun _ => ⟨v, rootdev, blk, lk, 1, data⟩).modHist
        fun h => { h with holds := (t, i) :: h.holds }).modBuf i ({ · with lock := some t })).buf i =
        ⟨v, rootdev, blk, some t, 1, data⟩ := by simp
    rw [hv]
    split
    · rename_i hvalid
      refine ⟨h.take hi huniq rfl rfl ?_, rfl, rfl, rfl⟩
      simp [hvalid, hxv hvalid]
    · refine ⟨h.take hi huniq rfl rfl ?_, rfl, rfl, rfl⟩
      simp

/-- `brelse` of a buffer that is not otherwise referenced. -/
theorem brelse_runs (h : Alone t ((i, b) :: held) stuck s) (hJ : ∀ s' : State, s'.disk = s.disk → J s') :
    Prog.Runs t J (brelse i) s fun _ s' =>
      Alone t held stuck s' ∧ s'.disk = s.disk ∧ s'.log = s.log ∧ s'.hist.inst = s.hist.inst := by
  obtain ⟨hr, hl, hv⟩ := h.one (i, b) mem_cons_self
  refine .act (hJ s rfl) (if_pos hl) (.act (hJ _ rfl) rfl (.ret ?_ ?_))
  · split <;> exact hJ _ rfl
  · have hlru : ∀ j, j ∈ i :: s.lru.erase i := fun j => by
      by_cases hj : j = i
      · subst hj; exact mem_cons_self
      · exact mem_cons_of_mem _ ((mem_erase_of_ne hj).mpr (h.mem_lru j))
    rw [if_pos (by simp [hr])]
    refine ⟨?_, rfl, rfl, rfl⟩
    exact h.leave 0 hlru rfl (by simp [hr])

variable {β : Type} {q : KProg β} {Q : β → State → Prop} {d v : Nat → Bytes} {hs : List Nat}

/-- The end of an iteration of `install_trans`: `bunpin` takes the `refcnt`
of `dbuf` to 0 although it is still held, and `brelse` then takes it below
0. -/
theorem unpin_runs {d l : BufId} {c : Nat}
    (h : Alone t ((d, b) :: (l, c) :: held) stuck s) (hJ : ∀ s' : State, s'.disk = s.disk → J s')
    (hq : ∀ s', Alone t held ((d, b) :: stuck) s' → s'.disk = s.disk → s'.log = s.log → Prog.Runs t J q s' Q) :
    Prog.Runs t J (do bunpin d; brelse l; brelse d; q) s Q := by
  have hdl : l ≠ d := by
    have := h.nodup
    simp only [cons_append, map_cons, nodup_cons, mem_cons, not_or] at this
    exact fun e => this.1.1 e.symm
  obtain ⟨hdr, hdk, -⟩ := h.one (d, b) mem_cons_self
  obtain ⟨hlr, hlk, -⟩ := h.one (l, c) (mem_cons_of_mem _ mem_cons_self)
  have hlru : ∀ j, j ∈ l :: s.lru.erase l := fun j => by
    by_cases hj : j = l
    · subst hj; exact mem_cons_self
    · exact mem_cons_of_mem _ ((mem_erase_of_ne hj).mpr (h.mem_lru j))
  have h1 : Alone t ((d, b) :: held) stuck
      { s with buf := update s.buf l { s.buf l with lock := none, refcnt := 0 }, lru := l :: s.lru.erase l } :=
    (h.perm (List.Perm.swap _ _ _)).leave 0 hlru rfl rfl
  refine .act (hJ s rfl) rfl (.act (hJ _ rfl) (if_pos ?_) (.act (hJ _ rfl) rfl ?_))
  · simpa [hdl] using hlk
  rw [if_pos (by simp [hdl, hlr])]
  refine .act (hJ _ rfl) (if_pos ?_) (.act (hJ _ rfl) rfl ?_)
  · simpa [hdl, Ne.symm hdl] using hdk
  rw [if_neg (by simp [Ne.symm hdl, hdr])]
  refine hq _ (h1.leave (-1) hlru rfl ?_) rfl rfl
  funext j
  by_cases hj : j = d
  · subst hj; simp [Ne.symm hdl, hdr]
  · by_cases hjl : j = l
    · subst hjl; simp [hdl, hlr]
    · simp [hj, hjl]

/-- A held buffer is given new contents and written to the disk. -/
theorem write_runs {f : Pid → State → Res State Unit} (h : Alone t held stuck s) (hm : (i, b) ∈ held) {data : Bytes}
    (hf : f t s = .ok () (s.modBuf i ({ · with data := data })))
    (hJ : ∀ s' : State, s'.disk = s.disk ∨ s'.disk = update s.disk b data → J s')
    (hq : ∀ s', Alone t held stuck s' → s'.disk = update s.disk b data → s'.log = s.log →
      Prog.Runs t J q s' Q) : Prog.Runs t J (do .step f; bwrite i; q) s Q := by
  obtain ⟨-, hb⟩ := h.has (i, b) (mem_append_left _ hm)
  obtain ⟨-, hl, -⟩ := h.one (i, b) hm
  have hdisk : update s.disk ((s.modBuf i ({ · with data := data })).buf i).blockno
      ((s.modBuf i ({ · with data := data })).buf i).data = update s.disk b data := by
    rw [State.modBuf_buf, update_self]
    rw [show (s.buf i).blockno = b from hb]
  refine .act (hJ s (.inl rfl)) hf (.act (hJ _ (.inl rfl)) (if_pos ?_) (hq _ ?_ hdisk rfl))
  · simpa using hl
  · exact h.write hm rfl hdisk rfl

/-- A disk on the way: installing a block of the log keeps `Recov`. -/
theorem Recov.install (h : Recov L d v) {j : Nat} (hb : (headBlocks (d L.start))[j]? = some b) :
    Recov L (update d b (d (L.start + j + 1))) v ∧
      headBlocks (update d b (d (L.start + j + 1)) L.start) = headBlocks (d L.start) := by
  have hhome : ∀ {c}, ¬ L.Home c → update d b (d (L.start + j + 1)) c = d c := fun hc =>
    update_of_ne ((h.home b (mem_of_getElem? hb)).ne hc).symm _ _
  have hstart := hhome Layout.not_home_start
  refine ⟨?_, by rw [hstart]⟩
  refine ⟨by rw [hstart]; exact h.nodup, by rw [hstart]; exact h.home, by rw [hstart]; exact h.lt,
    by rw [hstart]; exact h.fits, fun k c hk => ?_, fun c hc hn => ?_⟩
  · rw [hstart] at hk
    have := (List.getElem?_eq_some_iff.mp hk).1
    rw [hhome (Layout.not_home_log (by have := h.fits; omega))]
    exact h.log k c hk
  · rw [hstart] at hn
    have hne : c ≠ b := fun e => hn (e ▸ mem_of_getElem? hb)
    rw [update_of_ne hne]
    exact h.rest c hc hn

/-- Recovery before iteration `k` of `install_trans`: the first `k` blocks
are in place, and their buffers are stuck. -/
structure Installing (L : Layout) (t : Pid) (v : Nat → Bytes) (hs : List Nat) (k : Nat) (s : State) : Prop where
  recov : Recov L s.disk v
  head : headBlocks (s.disk L.start) = hs
  start : s.log.start = L.start
  dev : s.log.dev = rootdev
  lh : s.log.lh = hs
  placed : ∀ b ∈ hs.take k, s.disk b = v b
  cache : ∃ stuck, Alone t [] stuck s ∧ stuck.map Prod.snd = (hs.take k).reverse

theorem installTrans_runs (h : Installing L t v hs 0 s) :
    Prog.Runs t (fun s => Recov L s.disk v) installTrans s fun _ s' => Installing L t v hs hs.length s' := by
  refine Prog.Runs.loopTo (I := Installing L t v hs) (fun k s h => h.recov) ?_ ?_ (Nat.zero_le hs.length) h
  · intro k s hk h
    obtain ⟨b, hb⟩ : ∃ b, hs[k]? = some b := ⟨_, getElem?_eq_getElem hk⟩
    obtain ⟨stuck, ha, hst⟩ := h.cache
    have hJ : ∀ s' : State, s'.disk = s.disk → Recov L s'.disk v := fun s' e => e ▸ h.recov
    have hlt : stuck.length = k := by
      rw [← length_map (f := Prod.snd), hst, length_reverse, length_take]; omega
    have hlen := h.recov.lt
    have hfits := h.recov.fits
    rw [h.head] at hlen hfits
    have hmem : ∀ p ∈ stuck, p.2 ∈ hs.take k := fun p hp => by
      rw [← mem_reverse, ← hst]; exact mem_map_of_mem hp
    have hhome : ∀ c ∈ hs, L.Home c := by rw [← h.head]; exact h.recov.home
    have hnl : ¬ L.Home (L.start + k + 1) := Layout.not_home_log (by omega)
    have hbk : b ∉ hs.take k := fun hm => by
      have hnd := h.recov.nodup
      rw [h.head] at hnd
      obtain ⟨j, hj, he⟩ := mem_take_iff_getElem.mp hm
      have := (List.getElem?_eq_some_iff.mp hb).2
      have := (List.Nodup.getElem_inj_iff hnd).mp (he.trans this.symm)
      omega
    refine .bind (getLog_runs h.recov) ?_
    rintro _ _ ⟨rfl, rfl⟩
    rw [h.lh, hb, h.start, h.dev]
    refine .bind (bread_runs ha (fun p hp => ?_) (by simp; omega) hJ) ?_
    · exact (hhome _ (mem_of_mem_take (hmem p hp))).ne hnl
    rintro l s1 ⟨ha1, hd1, hl1, -⟩
    refine .bind (bread_runs ha1 (fun p hp => ?_) (by simp; omega) (fun s' e => hJ s' (e.trans hd1))) ?_
    · rcases mem_cons.mp hp with rfl | hp
      · exact ((hhome b (mem_of_getElem? hb)).ne hnl).symm
      · exact fun e => hbk (e ▸ hmem p hp)
    rintro d s2 ⟨ha2, hd2, hl2, -⟩
    have hd2 := hd2.trans hd1
    obtain ⟨hrec, hhead⟩ := h.recov.install (j := k) (b := b) (by rw [h.head]; exact hb)
    have hdata : (s2.buf l).data = s.disk (L.start + k + 1) := by
      obtain ⟨h1, h2⟩ := ha2.has (l, L.start + k + 1) (by simp)
      rw [ha2.vals l h1 (ha2.one _ (mem_cons_of_mem _ mem_cons_self)).2.2, h2, hd2]
    refine write_runs ha2 mem_cons_self rfl (fun s' e => ?_) fun s3 ha3 hd3 hl3 => ?_
    · rcases e with e | e
      · exact hJ s' (e.trans hd2)
      · rw [e, hdata, hd2]; exact hrec
    rw [hdata, hd2] at hd3
    refine unpin_runs ha3 (fun s' e => by rw [e, hd3]; exact hrec) fun s4 ha4 hd4 hl4 => ?_
    have hd4 := hd4.trans hd3
    have hl4 : s4.log = s.log := hl4.trans (hl3.trans (hl2.trans hl1))
    have hv : s.disk (L.start + k + 1) = v b := h.recov.log k b (by rw [h.head]; exact hb)
    have htake : hs.take (k + 1) = hs.take k ++ [b] := by
      rw [take_add_one, hb]; rfl
    refine .ret (by rw [hd4]; exact hrec) ⟨rfl, by rw [hd4]; exact hrec, by rw [hd4, hhead, h.head],
      by rw [hl4, h.start], by rw [hl4, h.dev], by rw [hl4, h.lh], fun c hc => ?_, (d, b) :: stuck, ha4, ?_⟩
    · rw [htake, mem_append, mem_singleton] at hc
      rw [hd4, hv]
      by_cases hcb : c = b
      · rw [hcb, update_self]
      · rw [update_of_ne hcb]
        exact h.placed c (hc.resolve_right hcb)
    · rw [htake, reverse_append, map_cons, hst]; rfl
  · intro s h
    refine .bind (getLog_runs h.recov) ?_
    rintro _ _ ⟨rfl, rfl⟩
    rw [h.lh, getElem?_eq_none (le_rfl)]
    exact .ret h.recov ⟨(), rfl, h.recov, h⟩

/-- The header is written with `n = 0` once every block is in place. -/
theorem eraseHead_runs (h : Installing L t v hs hs.length s) :
    Prog.Runs t (fun s => Recov L s.disk v) (do clearHead; writeHead) s fun _ s' =>
      headBlocks (s'.disk L.start) = [] ∧ ∀ b, L.Home b → s'.disk b = v b := by
  obtain ⟨stuck, ha, hst⟩ := h.cache
  have hlen : stuck.length = hs.length := by
    rw [← length_map (f := Prod.snd), hst, length_reverse, take_length]
  have hlt := h.recov.lt
  rw [h.head] at hlt
  -- both disks on the way are as recovery will leave them
  have hd : ∀ b, L.Home b → s.disk b = v b := fun b hb => by
    by_cases hm : b ∈ hs
    · exact h.placed b (by rwa [take_length])
    · exact h.recov.rest b hb (by rwa [h.head])
  have hd' : ∀ {data} b, L.Home b → update s.disk L.start data b = v b := fun b hb => by
    rw [update_of_ne (hb.ne Layout.not_home_start)]; exact hd b hb
  refine .bind (R := fun _ s' => Alone t [] stuck s' ∧ s'.disk = s.disk ∧ s'.log = { s.log with lh := [] })
    (.step h.recov rfl h.recov ⟨ha.congr rfl rfl rfl, rfl, rfl⟩) ?_
  rintro - s0 ⟨ha0, hd0, hl0⟩
  refine .bind (getLog_runs (by rw [hd0]; exact h.recov)) ?_
  rintro _ _ ⟨rfl, rfl⟩
  rw [hl0, h.start, h.dev]
  refine .bind (bread_runs ha0 (fun p hp => ?_) (by simp; omega) fun s' e => by rw [e, hd0]; exact h.recov) ?_
  · have hm : p.2 ∈ hs := by
      rw [← take_length (l := hs), ← mem_reverse, ← hst]; exact mem_map_of_mem hp
    exact (h.recov.home _ (by rwa [h.head])).ne Layout.not_home_start
  rintro i s1 ⟨ha1, hd1, hl1, -⟩
  have hd1 : s1.disk = s.disk := hd1.trans hd0
  have hlh : s1.log.lh = [] := by rw [hl1, hl0]
  have hnil : headBlocks (putHead (s1.buf i).data s1.log.lh) = [] := by
    rw [hlh]; exact headBlocks_putHead _ (by decide) (by simp)
  have hrec : Recov L (update s.disk L.start (putHead (s1.buf i).data s1.log.lh)) v :=
    .of_nil (by rw [update_self]; exact hnil) hd'
  refine write_runs ha1 mem_cons_self rfl (fun s' e => ?_) fun s2 ha2 hd2 hl2 => ?_
  · rcases e with e | e
    · rw [e, hd1]; exact h.recov
    · rw [e, hd1]; exact hrec
  rw [hd1] at hd2
  refine (brelse_runs ha2 fun s' e => by rw [e, hd2]; exact hrec).mono ?_
  rintro - s3 ⟨-, hd3, -⟩
  rw [hd3, hd2, update_self]
  exact ⟨hnil, hd'⟩

/-- The cache is empty when `initlog` reads the header. -/
theorem alone_booted (d : Nat → Bytes) : Alone t [] [] (booted L d) := by
  refine ⟨fun i => ?_, fun i j hi => ?_, fun i hi => ?_, by simp, by simp, by simp, fun i _ => ⟨rfl, rfl⟩, .nil⟩
  · simp [booted, binit]
  · exact absurd hi (by simp [booted, binit, rootdev])
  · exact absurd hi (by simp [booted, binit, rootdev])

theorem readHead_runs (hJ : ∀ s' : State, s'.disk = d → J s') :
    Prog.Runs t J readHead (booted L d) fun _ s => Alone t [] [] s ∧ s.disk = d ∧
      s.log = ⟨L.start, L.size, 0, false, rootdev, headBlocks (d L.start), none⟩ ∧ s.hist.inst = 0 := by
  refine .bind (getLog_runs (hJ (booted L d) rfl)) ?_
  rintro _ _ ⟨rfl, rfl⟩
  refine .bind (bread_runs (alone_booted d) (by simp) (by decide) hJ) ?_
  rintro i s1 ⟨ha1, hd1, hl1, hi1⟩
  have ha1 : Alone t [(i, L.start)] [] s1 := ha1
  have hd1 : s1.disk = d := hd1
  have hdata : (s1.buf i).data = d L.start := by
    obtain ⟨h1, h2⟩ := ha1.has (i, L.start) (by simp)
    rw [ha1.vals i h1 (ha1.one _ mem_cons_self).2.2, h2, hd1]
  refine .act (hJ _ hd1) rfl ?_
  have ha2 : Alone t [(i, L.start)] [] (s1.modLog ({ · with lh := headBlocks (s1.buf i).data })) :=
    ha1.congr rfl rfl rfl
  refine (brelse_runs ha2 fun s' e => hJ s' (e.trans hd1)).mono ?_
  rintro - s3 ⟨ha3, hd3, hl3, hi3⟩
  refine ⟨ha3, hd3.trans hd1, ?_, hi3.trans hi1⟩
  rw [hl3, State.modLog_log, hl1, hdata]
  rfl

/-- Recovery returns; the disk satisfies `Recov` in every state on the way,
and in the end every block is in place. -/
theorem initlog_runs (h : Recov L d v) :
    Prog.Runs t (fun s => Recov L s.disk v) (initlog L.start L.size) (binit d) fun _ s =>
      headBlocks (s.disk L.start) = [] ∧ ∀ b, L.Home b → s.disk b = v b := by
  refine .bind (R := fun _ s => s = booted L d) (.step h rfl h rfl) ?_
  rintro - _ rfl
  refine .bind (readHead_runs fun s' e => by rw [e]; exact h) ?_
  rintro - s ⟨ha, hd, hl, -⟩
  have hs : Installing L t v (headBlocks (d L.start)) 0 s :=
    ⟨hd ▸ h, by rw [hd], by rw [hl], by rw [hl], by rw [hl], by simp, [], ha, by simp⟩
  exact (installTrans_runs hs).bind fun _ s' hs' => eraseHead_runs hs'

end Xv6.Log
