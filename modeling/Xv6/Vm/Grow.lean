import Xv6.Vm.Space

/-!
# Growing and shrinking an address space

The user memory of a process of size `sz` is the pages below `pages sz`.
`uvmdealloc` frees those above the new size (`uvmdealloc_spec`), and `uvmalloc`
maps zeroed pages up to the new size, or leaves everything as it was
(`uvmalloc_spec`).
-/

namespace Xv6.Vm

open List BitVec

variable {s s' : State} {root : Page} {free free' : List Page} {n : Nat} {oldsz newsz : Addr}

/-- The number of pages of a memory of `sz` bytes. -/
def pages (sz : Nat) : Nat := (sz + 4095) / 4096

/-! ## Sizes and pages -/

theorem pgroundup_eq {a : Addr} (h : a.toNat < 2 ^ 63) : pgroundup a = pageAddr (pages a.toNat) := by
  have hdown : pgroundup a = pgrounddown (a + 4096 - 1) := rfl
  refine eq_of_toNat_eq ?_
  rw [hdown, pgrounddown_toNat, toNat_sub, toNat_add, pageAddr, toNat_ofNat, pages,
    pgsize_toNat, show (1 : Addr).toNat = 1 from rfl]
  omega

theorem pageAddr_toNat_of_le (h : n ≤ 32768) : (pageAddr n).toNat = 4096 * n := by
  rw [pageAddr, toNat_ofNat]
  omega

variable {m : Nat}

theorem range_perm (h : m ≤ n) : (range n).Perm (List.range' m (n - m) ++ range m) := by
  obtain ⟨j, rfl⟩ := Nat.exists_eq_add_of_le h
  rw [Nat.add_sub_cancel_left, range_eq_range', range_eq_range', ← range'_append_1 (s := 0) (m := m), zero_add]
  exact perm_append_comm

/-- A number of pages fits in an `int`. -/
theorem npages_toNat (hm : m ≤ n) (hn : n ≤ 32768) :
    ((((pageAddr n - pageAddr m) / 4096).setWidth 32 : BitVec 32).signExtend 64).toNat = n - m := by
  have hd : ((pageAddr n - pageAddr m) / 4096).toNat = n - m := by
    rw [toNat_udiv, toNat_sub, pageAddr_toNat_of_le hn, pageAddr_toNat_of_le (le_trans hm hn),
      pgsize_toNat]
    omega
  have hw : (((pageAddr n - pageAddr m) / 4096).setWidth 32).toNat = n - m := by
    rw [toNat_setWidth, hd]
    omega
  rw [signExtend_eq_setWidth_of_msb_false, toNat_setWidth, hw]
  · omega
  · rw [msb_eq_false_iff_two_mul_lt, hw]
    omega

section

variable [Image]

/-! ## uvmdealloc -/

/-- `uvmdealloc` frees the pages from the new size on. -/
theorem uvmdealloc_spec (newsz : Addr) (h : Space s root free (range n)) (hold : pages oldsz.toNat = n)
    (hlt : newsz.toNat < oldsz.toNat) :
    ∃ s' free', (uvmdealloc (base root) oldsz newsz).run s = .ok newsz s' ∧ Space s' root free' (range (pages newsz.toNat)) ∧
      Moves root (range (pages newsz.toNat)) s free (range n) s' free' (range (pages newsz.toNat)) ∧
      ∀ k, pages newsz.toNat ≤ k → k < n → frameAt s root k ∈ free' := by
  have hn := h.length_le
  rw [length_range] at hn
  have hle : pages newsz.toNat ≤ n := by
    unfold pages at hold ⊢
    omega
  have hold' : oldsz.toNat < 2 ^ 63 := by
    unfold pages at hold
    omega
  have hup : pgroundup oldsz = pageAddr n := by rw [pgroundup_eq hold', hold]
  have hup' : pgroundup newsz = pageAddr (pages newsz.toNat) := pgroundup_eq (by omega)
  have hva := pageAddr_toNat_of_le hn
  have hva' := pageAddr_toNat_of_le (le_trans hle hn)
  rw [uvmdealloc, if_neg (by rw [ge_iff_le, le_def]; omega), hup, hup']
  dsimp only
  by_cases heq : pages newsz.toNat = n
  · -- no page is freed
    rw [heq, decide_eq_false (BitVec.lt_irrefl _)]
    exact ⟨s, free, rfl, h, .refl _ _ _ _ _, fun k h1 h2 => absurd h1 (not_le.2 h2)⟩
  · rw [decide_eq_true (lt_def.2 (by omega)), Cmd.when, if_pos rfl]
    have hnp := npages_toNat hle hn
    have hs := h.perm (range_perm hle).symm
    rw [← hnp] at hs
    obtain ⟨s', free', hrun, hu⟩ := hs.unmap (by rw [hnp, trapframe_toNat]; omega)
    refine ⟨s', free', by rw [Cmd.run_bind hrun]; rfl, hu.space, hu.moves.reorder ?_ (.refl _), fun k h1 h2 => ?_⟩
    · rw [hnp]
      exact range_perm hle
    · refine hu.freed _ (.inr (mem_map_of_mem ?_))
      rw [hnp, mem_range'_1]
      omega

theorem uvmdealloc_ge (h : oldsz.toNat ≤ newsz.toNat) : (uvmdealloc (base root) oldsz newsz).run s = .ok oldsz s := by
  rw [uvmdealloc, if_pos (le_def.2 h)]
  rfl

variable {m n' : Nat} {s1 : State} {free1 : List Page}

/-- Back to the first `m` of the `n` pages. -/
theorem uvmdealloc_pages (h : Space s root free (range n)) (hm : m ≤ n) :
    ∃ r s' free', (uvmdealloc (base root) (pageAddr n) (pageAddr m)).run s = .ok r s' ∧ Space s' root free' (range m) ∧
      Moves root (range m) s free (range n) s' free' (range m) := by
  have hn := h.length_le
  rw [length_range] at hn
  have hva := pageAddr_toNat_of_le hn
  have hva' := pageAddr_toNat_of_le (le_trans hm hn)
  have hpages : ∀ {k}, k ≤ 32768 → pages (pageAddr k).toNat = k := fun hk => by
    rw [pages, pageAddr_toNat_of_le hk]
    omega
  rcases lt_or_eq_of_le hm with hlt | rfl
  · obtain ⟨s', free', hrun, hs, hmv, -⟩ := uvmdealloc_spec (pageAddr m) h (hpages hn) (by omega)
    rw [hpages (le_trans hm hn)] at hs hmv
    exact ⟨_, s', free', hrun, hs, hmv⟩
  · exact ⟨_, s, free, uvmdealloc_ge (le_rfl), h, .refl _ _ _ _ _⟩

/-! ## uvmalloc -/

/-- User memory has grown from `n` to `n'` pages, which are zero. -/
structure Grew (root : Page) (n n' : Nat) (s : State) (free : List Page) (s' : State) (free' : List Page) : Prop where
  space : Space s' root free' (range n')
  moves : Moves root (range n) s free (range n) s' free' (range n')
  fresh : ∀ k, n ≤ k → k < n' → (∀ i, heap s' (frameAt s' root k) i = 0) ∧
    ∃ e, translate s' (base root) (pageAddr k) = some e ∧ pteFlags e = userPerm.setWidth 64 ||| pteV

/-- Memory is back at `m` of the `n` pages. -/
structure Undone (root : Page) (m n : Nat) (s : State) (free : List Page) (s' : State) (free' : List Page) : Prop where
  space : Space s' root free' (range m)
  moves : Moves root (range m) s free (range n) s' free' (range m)

theorem Undone.trans (h : Undone root m n' s1 free1 s' free') (hm : m ≤ n)
    (hmv : Moves root (range n) s free (range n) s1 free1 (range n')) : Undone root m n s free s' free' where
  space := h.space
  moves := (hmv.mono fun _ hk => mem_range.2 (lt_of_lt_of_le (mem_range.1 hk) hm)).trans h.moves
    fun _ hk => h.space.lt_trapframe hk

theorem Grew.step (h1 : Grew root n (n + 1) s free s1 free1)
    (h2 : Grew root (n + 1) n' s1 free1 s' free') (hn : n < n') : Grew root n n' s free s' free' where
  space := h2.space
  moves := h1.moves.trans (h2.moves.mono fun _ hk => mem_range.2 (Nat.lt_succ_of_lt (mem_range.1 hk)))
    fun _ hk => h2.space.lt_trapframe (mem_range.2 (lt_trans (mem_range.1 hk) hn))
  fresh k hk hk' := by
    rcases lt_or_eq_of_le hk with hlt | rfl
    · exact h2.fresh k hlt hk'
    · -- the page is as it was after the first turn
      obtain ⟨hz, e, he, hf⟩ := h1.fresh n (le_rfl) (Nat.lt_succ_self _)
      have hmem : n ∈ range (n + 1) := mem_range.2 (Nat.lt_succ_self _)
      have hlt := h2.space.lt_trapframe (mem_range.2 hn)
      have hent := h2.moves.entries (pageAddr n) (pageAddr_lt hlt)
        (.inl (by rw [pageAddr_div hlt]; exact hmem))
      refine ⟨fun i => ?_, e, hent.trans he, hf⟩
      rw [frameAt_congr hent, h2.moves.contents n hmem]
      exact hz i

omit [Image] in
theorem heap_kalloc_zero {c : Page} (s : State) (l : List Addr) :
    (∀ q, q ≠ c → heap ((({ s with freelist := l } : State).memset (base c) 5).memset (base c) 0) q = heap s q) ∧
    ∀ i, heap ((({ s with freelist := l } : State).memset (base c) 5).memset (base c) 0) c i = 0 :=
  ⟨fun q hq => by rw [heap_memset_ne hq, heap_memset_ne hq, heap_freelist], fun i => heap_memset_zero _ _ _⟩

theorem Grew.refl (h : Space s root free (range n)) : Grew root n n s free s free :=
  ⟨h, .refl _ _ _ _ _, fun _ hk hk' => absurd hk (not_le.2 hk')⟩

/-- A turn of the loop of `uvmalloc`: a zeroed page is mapped, or everything is
undone. -/
theorem uvmallocFrom_turn (t : Nat) (h : Space s root free (range n)) (hm : m ≤ n) (hlt : 4096 * n < newsz.toNat) :
    (∃ s' free', (uvmallocFrom (base root) (pageAddr m) newsz (t + 1) (pageAddr n)).run s = .ok 0 s' ∧
      Undone root m n s free s' free') ∨
    ∃ s1 free1, (uvmallocFrom (base root) (pageAddr m) newsz (t + 1) (pageAddr n)).run s =
        (uvmallocFrom (base root) (pageAddr m) newsz t (pageAddr (n + 1))).run s1 ∧ Grew root n (n + 1) s free s1 free1 := by
  have hn := h.length_le
  rw [length_range] at hn
  have hnlt : 4096 * n < trapframe.toNat := by
    rw [trapframe_toNat]
    omega
  rw [uvmallocFrom, if_pos (lt_def.2 (by rw [pageAddr_toNat_of_le hn]; exact hlt))]
  cases free with
  | nil =>
    obtain ⟨r, s', free', hrun, hs, hmv⟩ := uvmdealloc_pages h hm
    refine .inl ⟨s', free', ?_, hs, hmv⟩
    rw [Cmd.run_bind (kalloc_nil h.list), if_pos rfl, Cmd.run_bind hrun]
    rfl
  | cons c rest =>
    obtain ⟨hsame, hzero⟩ := heap_kalloc_zero (c := c) s (rest.map base)
    have hcne : base c ≠ 0 := (h.ram c (mem_owned.2 (.inl mem_cons_self))).ne_zero
    obtain ⟨r, s2, free2, hrun, hcase⟩ := h.mapPage userPerm hnlt (by simp) rfl hsame (by decide) (by decide)
    rw [Cmd.run_bind (kalloc_cons h.list), if_neg hcne]
    rcases hcase with ⟨rfl, hs, hmv, hc, hfc, e, he, hflags⟩ | ⟨rfl, s3, hkf, hs, hmv⟩
    · have hp : (range (n + 1)).Perm (n :: range n) := by
        rw [range_succ]
        exact perm_append_singleton _ _
      refine .inr ⟨s2, free2, ?_, hs.perm hp, hmv.reorder (.refl _) hp, fun k hk hk' => ?_⟩
      · rw [memset, Cmd.run_modify, Cmd.run_bind hrun, if_neg (by decide), pageAddr_succ]
      · obtain rfl : k = n := by omega
        refine ⟨fun i => ?_, e, he, hflags⟩
        rw [hfc, hc]
        exact hzero i
    · obtain ⟨r, s', free', hrun', hs', hmv'⟩ := uvmdealloc_pages hs hm
      refine .inl ⟨s', free', ?_, Undone.trans ⟨hs', hmv'⟩ hm hmv⟩
      rw [memset, Cmd.run_modify, Cmd.run_bind hrun, if_pos (by decide), Cmd.run_bind hkf, Cmd.run_bind hrun']
      rfl

/-- The loop of `uvmalloc`, with `n` pages mapped. -/
theorem uvmallocFrom_spec {t : Nat} (h : Space s root free (range n)) (hm : m ≤ n) (hle : n ≤ pages newsz.toNat)
    (ht : newsz.toNat ≤ 4096 * (n + t)) :
    ∃ r s' free', (uvmallocFrom (base root) (pageAddr m) newsz (t + 1) (pageAddr n)).run s = .ok r s' ∧
      ((r = newsz ∧ Grew root n (pages newsz.toNat) s free s' free') ∨ (r = 0 ∧ Undone root m n s free s' free')) := by
  induction t generalizing s free n with
  | zero =>
    have hn := h.length_le
    rw [length_range] at hn
    have hpages : pages newsz.toNat = n := by
      unfold pages at hle ⊢
      omega
    rw [uvmallocFrom, if_neg (by rw [lt_def, pageAddr_toNat_of_le hn]; omega), hpages]
    exact ⟨newsz, s, free, rfl, .inl ⟨rfl, .refl h⟩⟩
  | succ t ih =>
    have hn := h.length_le
    rw [length_range] at hn
    by_cases hlt : 4096 * n < newsz.toNat
    · rcases uvmallocFrom_turn (t + 1) h hm hlt with ⟨s', free', hrun, hu⟩ | ⟨s1, free1, hrun, hg⟩
      · exact ⟨0, s', free', hrun, .inr ⟨rfl, hu⟩⟩
      · have hle' : n + 1 ≤ pages newsz.toNat := by
          unfold pages
          omega
        obtain ⟨r, s', free', hrun', hcase⟩ := ih hg.space (by omega) hle' (by omega)
        refine ⟨r, s', free', hrun.trans hrun', ?_⟩
        rcases hcase with ⟨hr, hg'⟩ | ⟨hr, hu⟩
        · exact .inl ⟨hr, hg.step hg' hle'⟩
        · exact .inr ⟨hr, hu.trans hm hg.moves⟩
    · have hpages : pages newsz.toNat = n := by
        unfold pages at hle ⊢
        omega
      rw [uvmallocFrom, if_neg (by rw [lt_def, pageAddr_toNat_of_le hn]; exact hlt), hpages]
      exact ⟨newsz, s, free, rfl, .inl ⟨rfl, .refl h⟩⟩

/-- `uvmalloc` maps zeroed pages up to the new size, or changes nothing. -/
theorem uvmalloc_spec (newsz : Addr) (h : Space s root free (range n)) (hold : pages oldsz.toNat = n)
    (hle : oldsz.toNat ≤ newsz.toNat) :
    ∃ r s' free', (uvmalloc (base root) oldsz newsz).run s = .ok r s' ∧
      ((r = newsz ∧ Grew root n (pages newsz.toNat) s free s' free') ∨ (r = 0 ∧ Undone root n n s free s' free')) := by
  have hn := h.length_le
  rw [length_range] at hn
  have hold' : oldsz.toNat < 2 ^ 63 := by
    unfold pages at hold
    omega
  have hsub : (newsz - oldsz).toNat = newsz.toNat - oldsz.toNat := by
    rw [toNat_sub]
    omega
  rw [uvmalloc, if_neg (by rw [lt_def]; omega), pgroundup_eq hold', hold]
  refine uvmallocFrom_spec (t := (newsz - oldsz).toNat / 4096 + 1) h (Nat.le_refl n) ?_ ?_
  · unfold pages at hold ⊢
    omega
  · unfold pages at hold
    omega

end

end Xv6.Vm
