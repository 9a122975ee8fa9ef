import Xv6.Vm.Grow
import Xv6.Vm.Proc

/-!
# sbrk

`growproc` computes the new size in 32 bits. When memory grows the sum cannot
wrap, as there is less physical memory than that. When memory is to shrink by
more than its size the sum does wrap, to a size above the old one; `uvmdealloc`
then frees nothing, and `growproc` returns 0 with the size unchanged. In all
other cases it does what it should (`growproc_resizes_iff`).
-/

namespace Xv6.Vm

open List

variable {s s' : State} {root : Page} {free free' : List Page} {ks ks' keep : List Nat} {va : Addr}

/-- What `growproc` should do: on success the size changes by `n`, the bytes that
stay are as they were, new pages are zero, and pages above the new size are
unmapped and freed; on failure nothing changes, and the pages taken off the free
list are nodes of the page table. -/
def Resizes [Image] (s : State) (root : Page) (p : Proc) (n : BitVec 32) : Prop :=
  ∃ r p' s', (growproc p n).run s = .ok (r, p') s' ∧
    ((r = 0 ∧ (p'.sz.toNat : Int) = p.sz.toNat + n.toInt ∧
      (∀ va : Addr, va.toNat < p.sz.toNat → va.toNat < p'.sz.toNat → memAt s' root va = memAt s root va) ∧
      (∀ va : Addr, 4096 * pages p.sz.toNat ≤ va.toNat → va.toNat < 4096 * pages p'.sz.toNat → memAt s' root va = some 0) ∧
      (∀ k, pages p'.sz.toNat ≤ k → 4096 * k < trapframe.toNat → translate s' (base root) (pageAddr k) = none) ∧
      ∀ k, pages p'.sz.toNat ≤ k → k < pages p.sz.toNat → base (frameAt s root k) ∈ s'.freelist) ∨
    (r = -1 ∧ p'.sz = p.sz ∧ (∀ va, translate s' (base root) va = translate s (base root) va) ∧
      (∀ va : Addr, va.toNat < trapframe.toNat → memAt s' root va = memAt s root va) ∧
      (s'.freelist ++ (tree s' root).map base).Perm (s.freelist ++ (tree s root).map base)))

section

variable [Image]

/-- The translations of an address space whose pages are all kept. -/
theorem Undone.translate {n : Nat} (h : Space s root free (range n)) (hu : Undone root n n s free s' free') (va : Addr) :
    translate s' (base root) va = translate s (base root) va := by
  by_cases hva : va < maxva
  · by_cases hk : va.toNat / 4096 ∈ range n ∨ trapframe.toNat ≤ va.toNat
    · exact hu.moves.entries va hva hk
    · rw [not_or, not_le] at hk
      rw [h.rest va hk.2 hk.1, hu.space.rest va hk.2 hk.1]
  · rw [translate_of_le (BitVec.not_lt.1 hva), translate_of_le (BitVec.not_lt.1 hva)]

/-- The pages that an attempt to grow took are nodes of the page table. -/
theorem Undone.perm {n : Nat} (h : Space s root free (range n)) (hu : Undone root n n s free s' free') :
    (s'.freelist ++ (tree s' root).map base).Perm (s.freelist ++ (tree s root).map base) := by
  have hp := hu.moves.perm
  rw [owned, owned, frames_congr fun k _ => hu.translate h (pageAddr k)] at hp
  rw [h.list, hu.space.list, ← map_append, ← map_append]
  exact ((perm_append_right_iff _).1 hp).map base

/-! ## growproc -/

section

variable {p : Proc} {n : BitVec 32}

theorem sz_le (h : Space s root free (range (pages p.sz.toNat))) : p.sz.toNat ≤ 2 ^ 27 := by
  have hn := h.length_le
  rw [length_range, pages] at hn
  omega

omit [Image] in
theorem setWidth_of_lt {r : Addr} (h : r.toNat < 2 ^ 32) : ((r.setWidth 32 : BitVec 32).setWidth 64 : Addr) = r := by
  refine BitVec.eq_of_toNat_eq ?_
  rw [BitVec.toNat_setWidth, BitVec.toNat_setWidth]
  omega

omit [Image] in
theorem sum_toNat (p : Proc) (n : BitVec 32) :
    ((p.sz.setWidth 32 + n).setWidth 64 : Addr).toNat = (p.sz.toNat + n.toNat) % 2 ^ 32 := by
  rw [BitVec.toNat_setWidth, BitVec.toNat_add, BitVec.toNat_setWidth]
  omega

variable (h : Space s root free (range (pages p.sz.toNat))) (hp : p.pagetable = base root)

include h hp

theorem growproc_of_pos (hn : 0 < n.toInt) : growproc p n = (do
    let r ← uvmalloc (base root) p.sz ((p.sz.setWidth 32 + n).setWidth 64)
    if (r.setWidth 32 : BitVec 32) = 0 then return (-1,
      p) else return (0, { p with sz := (r.setWidth 32 : BitVec 32).setWidth 64 })) := by
  have hsz := sz_le h
  rw [growproc]
  rw [if_pos (by rw [BitVec.slt_iff_toInt_lt]; exact hn), setWidth_of_lt (by omega), hp]

theorem growproc_of_neg (hn : n.toInt < 0) : growproc p n = (do
    let r ← uvmdealloc (base root) p.sz ((p.sz.setWidth 32 + n).setWidth 64)
    return (0, { p with sz := (r.setWidth 32 : BitVec 32).setWidth 64 })) := by
  have hsz := sz_le h
  rw [growproc]
  rw [if_neg (by rw [BitVec.slt_iff_toInt_lt]; exact Int.not_lt.2 (Int.le_of_lt hn)),
    if_pos (by rw [BitVec.slt_iff_toInt_lt]; exact hn), setWidth_of_lt (by omega), hp]

/-- Growing memory. -/
theorem growproc_pos (hn : 0 < n.toInt) : Resizes s root p n := by
  have hsz := sz_le h
  have hint : n.toInt = n.toNat ∧ n.toNat < 2 ^ 31 := by
    rw [BitVec.toInt_eq_toNat_cond] at hn ⊢
    have := n.isLt
    split at hn <;> omega
  have hsum := sum_toNat p n
  rw [Nat.mod_eq_of_lt (by omega)] at hsum
  obtain ⟨r, s', free', hrun, hcase⟩ := uvmalloc_spec ((p.sz.setWidth 32 + n).setWidth 64) h rfl (by omega)
  rw [Resizes, growproc_of_pos h hp hn, Cmd.run_bind hrun]
  rcases hcase with ⟨rfl, hg⟩ | ⟨rfl, hu⟩
  · -- all pages have been allocated
    have hw := setWidth_of_lt (show ((p.sz.setWidth 32 + n).setWidth 64 : Addr).toNat < 2 ^ 32 by omega)
    have hne : ((p.sz.setWidth 32 + n).setWidth 64).setWidth 32 ≠ (0 : BitVec 32) := fun h0 => by
      rw [h0] at hw
      rw [← hw] at hsum
      simp at hsum
      omega
    rw [if_neg hne]
    refine ⟨0, _, s', rfl, .inl ⟨rfl, ?_, fun va hva _ => ?_, fun va hlo hhi => ?_, fun k hk hlt => ?_, fun k hk hlt => ?_⟩⟩
    · dsimp only
      rw [hw, hsum, hint.1]
      rfl
    · have hm : va.toNat / 4096 ∈ range (pages p.sz.toNat) := by
        rw [mem_range, pages]
        omega
      exact hg.moves.memAt h hg.space hm hm (by rw [mem_range] at hm ⊢; unfold pages at hm ⊢; omega)
    · dsimp only at hhi
      rw [hw] at hhi
      refine memAt_zero hg.space (mem_range.2 (by omega)) (hg.fresh _ (by omega) (by omega)).1
    · dsimp only at hk
      rw [hw] at hk
      exact hg.space.none_of_not_mem hlt (by rw [mem_range]; omega)
    · dsimp only at hk
      rw [hw, hsum] at hk
      unfold pages at hk hlt
      omega
  · -- the pages have been freed again
    refine ⟨-1, p, s', rfl, .inr ⟨rfl, rfl, hu.translate h, fun va hva => ?_, hu.perm h⟩⟩
    by_cases hk : va.toNat / 4096 ∈ range (pages p.sz.toNat)
    · exact hu.moves.memAt h hu.space hk hk hk
    · rw [memAt, memAt, hu.translate h, h.rest va hva hk]
      rfl

/-- Shrinking memory, by no more than its size. -/
theorem growproc_neg (hn : n.toInt < 0) (hle : 0 ≤ (p.sz.toNat : Int) + n.toInt) : Resizes s root p n := by
  have hsz := sz_le h
  have hint : n.toInt = n.toNat - 2 ^ 32 := by
    rw [BitVec.toInt_eq_toNat_cond] at hn ⊢
    have := n.isLt
    split at hn <;> omega
  have hsum := sum_toNat p n
  have hlt := n.isLt
  rw [show (p.sz.toNat + n.toNat) % 2 ^ 32 = p.sz.toNat + n.toNat - 2 ^ 32 by omega] at hsum
  have hw := setWidth_of_lt (show ((p.sz.setWidth 32 + n).setWidth 64 : Addr).toNat < 2 ^ 32 by omega)
  obtain ⟨s', free', hrun, hs, hm, hfreed⟩ := uvmdealloc_spec ((p.sz.setWidth 32 + n).setWidth 64) h rfl (by omega)
  rw [Resizes, growproc_of_neg h hp hn, Cmd.run_bind hrun]
  refine ⟨0, _, s', rfl, .inl ⟨rfl, ?_, fun va hva hva' => ?_, fun va hlo hhi => ?_, fun k hk hlt => ?_, fun k hk hlt => ?_⟩⟩
  · dsimp only
    rw [hw, hsum]
    omega
  · dsimp only at hva'
    rw [hw] at hva'
    refine hm.memAt h hs ?_ ?_ ?_ <;> rw [mem_range, pages] <;> omega
  · dsimp only at hhi
    rw [hw, hsum] at hhi
    unfold pages at hlo hhi
    omega
  · dsimp only at hk
    rw [hw] at hk
    exact hs.none_of_not_mem hlt (by rw [mem_range]; omega)
  · dsimp only at hk
    rw [hw] at hk
    rw [hs.list]
    exact mem_map_of_mem (hfreed k hk hlt)

/-- The sum wraps: nothing is freed, and the size stays. -/
theorem growproc_wrap (hn : (p.sz.toNat : Int) + n.toInt < 0) : (growproc p n).run s = .ok (0, p) s := by
  have hsz := sz_le h
  have hint : n.toInt = n.toNat - 2 ^ 32 ∧ 2 ^ 31 ≤ n.toNat := by
    rw [BitVec.toInt_eq_toNat_cond] at hn ⊢
    have := n.isLt
    split at hn <;> omega
  have hsum := sum_toNat p n
  rw [Nat.mod_eq_of_lt (by omega)] at hsum
  rw [growproc_of_neg h hp (by omega), Cmd.run_bind (uvmdealloc_ge (by omega)), setWidth_of_lt (by omega)]
  rfl

/-- `growproc` changes the size by `n` if and only if it does not become
negative. -/
theorem growproc_resizes_iff : Resizes s root p n ↔ 0 ≤ (p.sz.toNat : Int) + n.toInt := by
  have hsz := sz_le h
  refine ⟨fun hr => Int.not_lt.1 fun hn => ?_, fun hle => ?_⟩
  · obtain ⟨r, p', s', hrun, hres⟩ := hr
    rw [growproc_wrap h hp hn] at hrun
    cases hrun
    rcases hres with ⟨-, heq, -⟩ | ⟨hr, -⟩
    · omega
    · exact nomatch hr
  · rcases Int.lt_trichotomy n.toInt 0 with hn | hn | hn
    · exact growproc_neg h hp hn hle
    · have hzero : n = 0 := BitVec.eq_of_toInt_eq hn
      subst hzero
      refine ⟨0, p, s, ?_, .inl ⟨rfl, ?_, fun va _ _ => rfl, fun va hlo hhi => ?_, fun k hk hlt => ?_, fun k hk hlt => ?_⟩⟩
      · rw [growproc]
        rw [if_neg (by decide), if_neg (by decide), setWidth_of_lt (by omega)]
        rfl
      · rw [hn, Int.add_zero]
      · omega
      · exact h.none_of_not_mem hlt (by rw [mem_range]; omega)
      · omega
    · exact growproc_pos h hp hn

end

end

/-! ## A process of one page -/

local instance sbrkImage : Image := instImage

/-- A process without memory, and some free pages. -/
def smallProc : Proc := ⟨.running, 1, none, 0, base emptyRoot, 0, fun _ => none, 0, []⟩

def smallFree : List Page := (range 11).map fun k => 0x80011 + .ofNat 52 k

def smallState : State := ⟨fun _ => 0, smallFree.map base⟩

theorem space_smallState : Space smallState emptyRoot smallFree (range (pages smallProc.sz.toNat)) := by
  refine .of_zero (fun i => ?_) rfl (by decide) fun p hp => ?_
  · have hz : getLE (fun _ => 0) (slot emptyRoot i).toNat 8 = 0 := getLE_const fun _ _ _ => rfl
    rw [heap, State.pte, smallState, hz]
    rfl
  · rcases mem_append.1 hp with hp | hp
    · obtain ⟨k, hk, rfl⟩ := mem_map.1 hp
      have hall : ∀ k ∈ range 11, Image.end_ ≤ base (0x80011 + .ofNat 52 k) ∧ base (0x80011 + .ofNat 52 k) < phystop := by
        decide
      exact ⟨(hall k hk).1, (hall k hk).2⟩
    · rw [mem_singleton.1 hp]
      exact ⟨by decide, by decide⟩

set_option maxRecDepth 100000 in
theorem smallProc_grows : (do
    let r ← uvmalloc (base emptyRoot) 0 4096
    if r = 4096 then Cmd.panic "grown" else pure () : KCmd Unit).run smallState = .panic "grown" :=
  Res.panics_iff.1 (by decide +kernel)

/-- A process of one page. -/
theorem exists_onePage : ∃ s free, (uvmalloc (base emptyRoot) 0 4096).run smallState = .ok 4096 s ∧
    Space s emptyRoot free (range (pages 4096)) := by
  obtain ⟨r, s, free, hrun, hcase⟩ := uvmalloc_spec 4096 space_smallState rfl (by decide)
  replace hrun : (uvmalloc (base emptyRoot) 0 4096).run smallState = .ok r s := hrun
  have hg := smallProc_grows
  rw [Cmd.run_bind hrun] at hg
  by_cases hr : r = 4096
  · subst hr
    rcases hcase with ⟨-, hg⟩ | ⟨hr, -⟩
    · exact ⟨s, free, hrun, hg.space⟩
    · exact nomatch hr
  · rw [if_neg hr] at hg
    cases hg

/-- It can give up half of its page. -/
theorem growproc_resizes_half : ∃ s free, Space s emptyRoot free (range (pages 4096)) ∧
    Resizes s emptyRoot { smallProc with sz := 4096 } (-2048) := by
  obtain ⟨s, free, -, h⟩ := exists_onePage
  exact ⟨s, free, h, (growproc_resizes_iff (p := { smallProc with sz := 4096 }) h rfl).2 (by decide)⟩

/-- Asked to give up two pages, it keeps its page, and `growproc` returns 0. -/
theorem growproc_two_pages : ∃ s free, Space s emptyRoot free (range (pages 4096)) ∧
    (growproc { smallProc with sz := 4096 } (-8192)).run s = .ok (0, { smallProc with sz := 4096 }) s ∧
    ¬ Resizes s emptyRoot { smallProc with sz := 4096 } (-8192) := by
  obtain ⟨s, free, -, h⟩ := exists_onePage
  have hrun := growproc_wrap (p := { smallProc with sz := 4096 }) (n := -8192) h rfl (by decide)
  refine ⟨s, free, h, hrun, ?_⟩
  rintro ⟨r, p', s', hrun', hres⟩
  rw [hrun] at hrun'
  cases hrun'
  rcases hres with ⟨-, heq, -⟩ | ⟨hr, -⟩
  · exact nomatch heq
  · exact nomatch hr

end Xv6.Vm
