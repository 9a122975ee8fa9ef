import Xv6.Vm.Grow
import Xv6.Vm.Proc

/-!
# The page table of a process

`proc_pagetable` makes an address space without user memory, with the trampoline
and the trapframe mapped above it (`procPagetable_spec`); `proc_freepagetable`
takes such an address space down, and all of its pages are free again
(`procFreepagetable_spec`). Before all that, `kinit` has put the pages behind the
kernel on the free list (`kinit_frees_ram`).
-/

namespace Xv6.Vm

open List BitVec

open Radix

variable {s s' s1 : State} {root : Page} {free free' : List Page} {ks : List Nat} {a va : Addr}

/-- The trampoline and the trapframe are mapped, but not for the user. -/
structure Top (s : State) (root : Page) : Prop where
  trampoline : ∃ e, translate s (base root) trampoline = some e ∧ pteFlags e = pteR ||| pteX ||| pteV
  trapframe : ∃ e, translate s (base root) trapframe = some e ∧ pteFlags e = pteR ||| pteW ||| pteV

/-! ## Page tables without leaves -/

theorem leafless_of_none {h : Heap Page Pte 512} {L : Nat} {p : Page} (hl : Linked h L p)
    (hnone : ∀ f : Nat → Fin 512, lookup child h valid f L p = none) : Leafless h L p := by
  induction L generalizing p with
  | zero =>
    intro i
    have hi := hnone fun _ => i
    simpa [Radix.lookup, leaf, valid] using hi
  | succ L ih =>
    intro i hv
    obtain ⟨hx, hl⟩ := hl i hv
    refine ⟨hx, ih hl fun f => ?_⟩
    have hi := hnone fun k => if k = L + 1 then i else f k
    rw [lookup_succ, if_pos rfl, child_of_valid hv, Option.bind_some] at hi
    rw [← hi]
    exact lookup_samePath fun k hk => (if_neg (by omega)).symm

/-- The address that a path leads to. -/
theorem exists_path (f : Nat → Fin 512) (h : (f 2).val < 256) : ∃ va, va < maxva ∧ SamePath 2 f (path va) := by
  have h₀ := (f 0).isLt
  have h1 := (f 1).isLt
  have hva : (.ofNat 64 ((f 2).val * 2 ^ 30 + (f 1).val * 2 ^ 21 + (f 0).val * 2 ^ 12) : Addr).toNat =
      (f 2).val * 2 ^ 30 + (f 1).val * 2 ^ 21 + (f 0).val * 2 ^ 12 := by
    rw [toNat_ofNat]
    omega
  refine ⟨.ofNat 64 ((f 2).val * 2 ^ 30 + (f 1).val * 2 ^ 21 + (f 0).val * 2 ^ 12), lt_maxva.2 (by omega),
    fun k hk => Fin.ext ?_⟩
  show (.ofNat 64 _ : Addr).toNat / 2 ^ (12 + 9 * k) % 512 = _
  rw [hva]
  obtain rfl | rfl | rfl : k = 0 ∨ k = 1 ∨ k = 2 := by omega
  · omega
  · omega
  · omega

/-- A page table that maps nothing has no leaves. -/
theorem Shape.leafless (h : Shape s root) (hnone : ∀ va, va < maxva → translate s (base root) va = none) : Leafless
    (heap s) 2 root := by
  intro i hv
  have hi : i.val < 256 := not_le.1 fun hle => hv (h.half i hle)
  obtain ⟨hx, hl⟩ := h.linked i hv
  refine ⟨hx, leafless_of_none hl fun f => ?_⟩
  obtain ⟨va, hva, hpath⟩ := exists_path (fun k => if k = 2 then i else f k) hi
  have hn := hnone va hva
  rw [translate_eq hva, lookup_samePath hpath, lookup_succ, if_pos rfl, child_of_valid hv, Option.bind_some] at hn
  rw [← hn]
  exact lookup_samePath fun k (hk : k ≤ 1) => (if_neg (by omega)).symm

section

variable [Image]

/-! ## Above user memory -/

/-- Pages have moved between the free list and the nodes of the page table; user
memory is mapped as it was. -/
structure Rearranged (root : Page) (ks : List Nat) (s : State) (free : List Page) (s' : State) (free' : List Page) : Prop where
  space : Space s' root free' ks
  perm : (owned s' root free' ks).Perm (owned s root free ks)
  frame : ∀ q, q ∉ owned s root free ks → heap s' q = heap s q

theorem Rearranged.trans {s2 : State} {free1 free2 : List Page} (h1 : Rearranged root ks s free s1 free1)
    (h2 : Rearranged root ks s1 free1 s2 free2) : Rearranged root ks s free s2 free2 where
  space := h2.space
  perm := h2.perm.trans h1.perm
  frame q hq := by rw [h2.frame q (mt h1.perm.mem_iff.1 hq), h1.frame q hq]

omit [Image] in
theorem not_samePage_of_top (hva : va.toNat < trapframe.toNat) (ha : trapframe.toNat ≤ a.toNat) : ¬ SamePage a va := by
  rw [trapframe_toNat] at hva ha
  omega

omit [Image] in
theorem lt_maxva_of_lt (hva : va.toNat < trapframe.toNat) : va < maxva := by
  rw [trapframe_toNat] at hva
  exact lt_maxva.2 (by omega)

/-- Translations below the trapframe that stay as they were. -/
theorem Space.of_below (h : Space s root free ks) (hlist : s'.freelist = free'.map base)
    (htree : (free' ++ tree s' root).Perm (free ++ tree s root))
    (hbelow : ∀ va : Addr, va.toNat < trapframe.toNat → translate s' (base root) va = translate s (base root) va)
    (hshape : Shape s' root)
    (hframe : ∀ q, q ∉ free ++ tree s root → heap s' q = heap s q) : Rearranged root ks s free s' free' := by
  have hat : ∀ k ∈ ks, translate s' (base root) (pageAddr k) = translate s (base root) (pageAddr k) := fun k hk => by
    refine hbelow _ ?_
    rw [pageAddr_toNat (h.lt_trapframe hk)]
    exact h.lt_trapframe hk
  have hp : (owned s' root free' ks).Perm (owned s root free ks) := by
    rw [owned, owned, frames_congr hat]
    exact htree.append_right _
  refine ⟨h.of_perm hp hlist (fun k hk => ?_) (fun va hva hk => ?_) hshape, hp, fun q hq => ?_⟩
  · rw [hat k hk]
    exact h.mapped k hk
  · rw [hbelow va hva]
    exact h.rest va hva hk
  · exact hframe q fun hm => hq (mem_append_left _ hm)

/-- A page at the trapframe or above is mapped. -/
theorem Space.mapTop (h : Space s root free ks) (pa : Addr) (perm : BitVec 32) (ha : a < maxva) (hal : a.toNat % 4096 = 0)
    (htop : trapframe.toNat ≤ a.toNat) (hnone : translate s (base root) a = none) (hperm : perm.toNat < 1024) :
    ∃ r s' free', (mappages (base root) a 4096 pa perm).run s = .ok r s' ∧ Rearranged root ks s free s' free' ∧
      ((r = 0 ∧ (∃ e, translate s' (base root) a = some e ∧ pteFlags e = perm.setWidth 64 ||| pteV) ∧
          ∀ va, va < maxva → ¬ SamePage a va → translate s' (base root) va = translate s (base root) va) ∨
        (r = -1 ∧ ∀ va, va < maxva → translate s' (base root) va = translate s (base root) va)) := by
  obtain ⟨r, s', free', hrun, hext, hres⟩ := mappages_one pa perm h.table ha hal hnone
  have hother : ∀ va, va < maxva → ¬ SamePage a va → translate s' (base root) va = translate s (base root) va :=
    fun va hva hne => by
    rcases hres with ⟨-, heq⟩ | ⟨-, heq⟩
    · rw [heq va hva, if_neg hne]
    · exact heq va hva
  refine ⟨r, s', free', hrun, h.of_below hext.table.list ?_ (fun va hva => ?_) (hext.shape h.shape) hext.frame, ?_⟩
  · obtain ⟨new, hnew, htree⟩ := hext.taken
    refine perm_iff_count.2 fun q => ?_
    have h1 := hnew.count_eq q
    have h2 := htree.count_eq q
    simp only [count_append] at h1 h2 ⊢
    omega
  · exact hother va (lt_maxva_of_lt hva) (not_samePage_of_top hva htop)
  · rcases hres with ⟨rfl, heq⟩ | ⟨rfl, heq⟩
    · refine .inl ⟨rfl, ⟨_, by rw [heq a ha, if_pos rfl], ?_⟩, hother⟩
      obtain ⟨hsign, hflags⟩ := perm_setWidth hperm
      rw [BitVec.or_assoc, hsign, pteFlags_or _ hflags]
    · exact .inr ⟨rfl, heq⟩

/-- A page at the trapframe or above is unmapped. -/
theorem Space.unmapTop (h : Space s root free ks) {e : Pte} (ha : a < maxva) (hal : a.toNat % 4096 = 0)
    (htop : trapframe.toNat ≤ a.toNat) (he : translate s (base root) a = some e) (hleaf : pteFlags e ≠ pteV) :
    ∃ s', (uvmunmap (base root) a 1 false).run s = .ok () s' ∧ Rearranged root ks s free s' free ∧
      ∀ va, va < maxva → translate s' (base root) va = if SamePage a va then none else translate s (base root) va := by
  have hlt := lt_maxva.1 ha
  have hbound : (a + 1 * 4096).toNat = a.toNat + 4096 := by
    rw [toNat_add, show (1 * 4096 : Addr).toNat = 4096 from rfl]
    omega
  have hturns : (a + 1 * 4096 - a).toNat / 4096 + 1 = 1 + 1 := by
    rw [toNat_sub, hbound]
    omega
  have haligned : a % 4096 = 0 := by
    refine eq_of_toNat_eq ?_
    rw [toNat_umod, pgsize_toNat]
    exact hal
  obtain ⟨s', hrun, hrem⟩ := uvmunmapFrom_turn 1 h.table.distinct
    (show a < a + 1 * 4096 from lt_def.2 (by omega)) ha he hleaf fun hf : false = true => by cases hf
  refine ⟨s', ?_, h.of_below ?_ (hrem.tree.append_left _) (fun va hva => ?_) (hrem.shape h.shape) fun q hq => ?_,
    hrem.translate⟩
  · rw [uvmunmap, if_neg (not_not.2 haligned)]
    dsimp only
    rw [hturns, hrun, uvmunmapFrom, if_neg]
    · rfl
    · exact BitVec.lt_irrefl _
  · rw [hrem.list, h.list]
    rfl
  · rw [hrem.translate va (lt_maxva_of_lt hva), if_neg (not_samePage_of_top hva htop)]
  · exact hrem.frame q (fun hm => hq (mem_append_right _ hm)) fun hf => by cases hf

/-! ## Taking an address space down -/

/-- The pages of the free list. -/
structure Pool (s : State) (free : List Page) : Prop where
  list : s.freelist = free.map base
  nodup : free.Nodup
  ram : ∀ p ∈ free, Ram p

theorem Space.pool (h : Space s root free ks) : Pool s free :=
  ⟨h.list, (nodup_append.1 (nodup_append.1 h.nodup).1).1, fun p hp => h.ram p (mem_owned.2 (.inl hp))⟩

/-- The free pages are now the pages `l`, and no other page has changed. -/
structure Returned (l : List Page) (s s' : State) : Prop where
  pool : ∃ free, Pool s' free ∧ free.Perm l
  frame : ∀ q, q ∉ l → heap s' q = heap s q

theorem Returned.trans {l l' : List Page} (h : Returned l' s1 s') (hp : l'.Perm l) (hf : ∀ q, q ∉ l → heap s1 q = heap s q) :
    Returned l s s' := by
  obtain ⟨free, hpool, hfree⟩ := h.pool
  exact ⟨⟨free, hpool, hfree.trans hp⟩, fun q hq => by rw [h.frame q (mt hp.mem_iff.1 hq), hf q hq]⟩

theorem Pool.kfree {c : Page} (h : Pool s free) (hc : c ∉ free) (hr : Ram c) :
    ∃ s', (Vm.kfree (base c)).run s = .ok () s' ∧ Returned (c :: free) s s' := by
  obtain ⟨s', hrun, hlist, hsame⟩ := kfree_same (s := s) hr
  refine ⟨s', hrun, ⟨c :: free, ⟨?_, nodup_cons.2 ⟨hc, h.nodup⟩, fun p hp => ?_⟩, .refl _⟩, fun q hq => hsame q fun e => ?_⟩
  · rw [hlist, map_cons, ← h.list]
  · rcases mem_cons.1 hp with rfl | hp
    · exact hr
    · exact h.ram p hp
  · exact hq (e ▸ mem_cons_self)

theorem freewalk_returned (h : Space s root free []) (hnone : ∀ va, va < maxva → translate s (base root) va = none) :
    ∃ s', (freewalk 3 (base root)).run s = .ok () s' ∧ Returned (owned s root free []) s s' := by
  obtain ⟨⟨⟩, s', hrun, l, hf⟩ := (freewalk_spec h.table.distinct (fun q hq => h.ram q (mem_owned.2 (.inr (.inl hq))))
    (h.shape.leafless hnone) (show 2 < 3 by decide)).result
  have hp : (l ++ free).Perm (owned s root free []) := by
    rw [owned, frames, map_nil, append_nil]
    exact (hf.perm.append_right free).trans perm_append_comm
  refine ⟨s', hrun, ⟨l ++ free, ⟨?_, hp.nodup_iff.2 h.nodup, fun p hm => h.ram p (hp.mem_iff.1 hm)⟩, hp⟩, fun q hq => ?_⟩
  · rw [hf.list, h.list, map_append]
  · exact hf.frame q fun hm => hq (mem_owned.2 (.inr (.inl hm)))

/-- `uvmfree` frees the user pages and the nodes of the page table. -/
theorem uvmfree_spec (sz : Addr) (h : Space s root free (range (pages sz.toNat)))
    (htop : ∀ va, va < maxva → trapframe.toNat ≤ va.toNat → translate s (base root) va = none) :
    ∃ s', (uvmfree (base root) sz).run s = .ok () s' ∧ Returned (owned s root free (range (pages sz.toNat))) s s' := by
  have hnone : ∀ {s free}, Space s root free [] →
      (∀ va, va < maxva → trapframe.toNat ≤ va.toNat → translate s (base root) va = none) →
      ∀ va, va < maxva → translate s (base root) va = none := fun hs ht va hva => by
    rcases lt_or_ge va.toNat trapframe.toNat with hlt | hge
    · exact hs.rest va hlt not_mem_nil
    · exact ht va hva hge
  rw [uvmfree]
  by_cases hsz : sz > 0
  · have hn := h.length_le
    rw [length_range] at hn
    have hlt : sz.toNat < 2 ^ 63 := by
      unfold pages at hn
      omega
    have hnp : (pgroundup sz / 4096).toNat = pages sz.toNat := by
      rw [pgroundup_eq hlt, toNat_udiv, pageAddr_toNat_of_le hn, pgsize_toNat]
      omega
    have hperm : (List.range' 0 (pgroundup sz / 4096).toNat ++ []).Perm (range (pages sz.toNat)) := by
      rw [hnp, append_nil, range_eq_range']
    obtain ⟨s1, free1, hrun, hu⟩ := (h.perm hperm).unmap (by rw [hnp, trapframe_toNat]; omega)
    obtain ⟨s', hrun', hret⟩ := freewalk_returned hu.space (hnone hu.space fun va hva hge => by
      rw [hu.moves.entries va hva (.inr hge)]
      exact htop va hva hge)
    have hm := hu.moves.reorder hperm.symm (.refl [])
    refine ⟨s', ?_, hret.trans hm.perm hm.frame⟩
    rw [decide_eq_true hsz, Cmd.when, if_pos rfl,
      Cmd.run_bind (show (uvmunmap (base root) 0 (pgroundup sz / 4096) true).run s = .ok () s1 from hrun)]
    exact hrun'
  · have h0 : sz.toNat = 0 := by
      have := mt lt_def.2 hsz
      rw [show (0 : Addr).toNat = 0 from rfl] at this
      omega
    rw [h0] at h ⊢
    obtain ⟨s', hrun', hret⟩ := freewalk_returned h (hnone h htop)
    exact ⟨s', by rw [decide_eq_false hsz]; exact hrun', hret⟩

omit [Image] in
theorem Top.congr (h : Top s root) (htr : ∀ va, va < maxva → Vm.trapframe.toNat ≤ va.toNat →
    translate s' (base root) va = translate s (base root) va) :
    Top s' root where
  trampoline := by
    rw [htr _ (by decide) (by decide)]
    exact h.trampoline
  trapframe := by
    rw [htr _ (by decide) (by decide)]
    exact h.trapframe

omit [Image] in
theorem top_cases (hva : va < maxva) (h : trapframe.toNat ≤ va.toNat) : SamePage trapframe va ∨ SamePage trampoline va := by
  have hlt := lt_maxva.1 hva
  unfold SamePage
  rw [trapframe_toNat] at h ⊢
  rw [show trampoline.toNat = 2 ^ 38 - 4096 by decide]
  omega

/-- `proc_freepagetable` frees all pages of an address space. -/
theorem procFreepagetable_spec (sz : Addr) (h : Space s root free (range (pages sz.toNat))) (ht : Top s root) :
    ∃ s', (procFreepagetable (base root) sz).run s = .ok () s' ∧
      Returned (owned s root free (range (pages sz.toNat))) s s' := by
  obtain ⟨e, he, hf⟩ := ht.trampoline
  obtain ⟨e', he', hf'⟩ := ht.trapframe
  obtain ⟨s1, hrun1, hr1, htr1⟩ := h.unmapTop (by decide) (by decide) (by decide) he (by rw [hf]; decide)
  have he1 : translate s1 (base root) trapframe = some e' := by rw [htr1 _ (by decide), if_neg (by decide), he']
  obtain ⟨s2, hrun2, hr2, htr2⟩ := hr1.space.unmapTop (by decide) (by decide) (by decide) he1 (by rw [hf']; decide)
  obtain ⟨s', hrun, hret⟩ := uvmfree_spec sz hr2.space fun va hva hge => by
    rw [htr2 va hva, htr1 va hva]
    rcases top_cases hva hge with hp | hp
    · rw [if_pos hp]
    · rw [if_pos hp, ite_self]
  have hr := hr1.trans hr2
  exact ⟨s', by rw [procFreepagetable, Cmd.run_bind hrun1, Cmd.run_bind hrun2, hrun], hret.trans hr.perm hr.frame⟩

/-! ## Making an address space -/

theorem uvmcreate_spec {rest : List Page} (h : Pool s (root :: rest)) : ∃ s', uvmcreate.run s = .ok
    (base root) s' ∧ Space s' root rest [] ∧
    (owned s' root rest []).Perm (root :: rest) ∧ (∀ va, translate s' (base root) va = none) ∧ ∀ q, q ∉ root :: rest →
      heap s' q = heap s q := by
  have hne : base root ≠ 0 := (h.ram root mem_cons_self).ne_zero
  obtain ⟨hsame, hzero⟩ := heap_kalloc_zero (c := root) s (rest.map base)
  have hp : (rest ++ [root]).Perm (root :: rest) := perm_append_comm
  refine ⟨_, ?_, .of_zero hzero rfl (hp.nodup_iff.2 h.nodup) fun p hm => h.ram p (hp.mem_iff.1 hm), ?_, translate_zero hzero,
    fun q hq => hsame q fun e => hq (e ▸ mem_cons_self)⟩
  · rw [uvmcreate, Cmd.run_bind (kalloc_cons h.list), if_neg hne]
    rfl
  · rw [owned, tree, nodes_empty fun i => by rw [hzero, child_zero], frames, map_nil, append_nil]
    exact hp

section

variable [Text]

/-- `proc_pagetable` makes an address space without user memory, or leaves the
free pages as they were. -/
theorem procPagetable_spec (h : Pool s free) (pa : Addr) : ∃ r s', (procPagetable pa).run s = .ok r s' ∧
    ((r = 0 ∧ Returned free s s') ∨ ∃ root free', r = base root ∧ Space s' root free' [] ∧ Top s' root ∧
      (owned s' root free' []).Perm free ∧ ∀ q, q ∉ free → heap s' q = heap s q) := by
  rw [procPagetable]
  cases free with
  | nil =>
    have hnil : uvmcreate.run s = .ok 0 s := by
      rw [uvmcreate, Cmd.run_bind (kalloc_nil h.list)]
      rfl
    exact ⟨0, s, by rw [Cmd.run_bind hnil]; rfl, .inl ⟨rfl, ⟨[], h, .refl _⟩, fun _ _ => rfl⟩⟩
  | cons root rest =>
    obtain ⟨s0, hrun0, hs0, hp0, hnone0, hsame0⟩ := uvmcreate_spec h
    rw [Cmd.run_bind hrun0, if_neg (h.ram root mem_cons_self).ne_zero]
    obtain ⟨r1, s1, free1, hrun1, hr1, hres1⟩ := hs0.mapTop Text.trampoline ((pteR ||| pteX).setWidth 32)
      (show trampoline < maxva by decide) (by decide) (by decide) (hnone0 _) (by decide)
    rw [Cmd.run_bind hrun1]
    rcases hres1 with ⟨rfl, htramp, hold1⟩ | ⟨rfl, hold1⟩
    · rw [if_neg (by decide)]
      obtain ⟨r2, s2, free2, hrun2, hr2, hres2⟩ :=
        hr1.space.mapTop pa ((pteR ||| pteW).setWidth 32) (show trapframe < maxva by decide)
        (by decide) (by decide) (by rw [hold1 _ (by decide) (by decide), hnone0]) (by decide)
      rw [Cmd.run_bind hrun2]
      have hr := hr1.trans hr2
      rcases hres2 with ⟨rfl, hframe, hold2⟩ | ⟨rfl, hold2⟩
      · rw [if_neg (by decide)]
        refine ⟨_, s2, rfl, .inr ⟨root, free2, rfl, hr2.space, ⟨?_, hframe⟩, hr.perm.trans hp0, fun q hq => ?_⟩⟩
        · rw [hold2 _ (by decide) (by decide)]
          exact htramp
        · rw [hr.frame q (mt hp0.mem_iff.1 hq), hsame0 q hq]
      · -- the trampoline is unmapped again
        obtain ⟨e, he, hf⟩ := htramp
        rw [← hold2 _ (by decide)] at he
        obtain ⟨s3, hrun3, hr3, htr3⟩ := hr2.space.unmapTop (by decide) (by decide) (by decide) he (by rw [hf]; decide)
        obtain ⟨s', hrun, hret⟩ := uvmfree_spec 0 hr3.space fun va hva _ => by
          rw [htr3 va hva]
          split
          · rfl
          · rename_i hne
            rw [hold2 va hva, hold1 va hva hne, hnone0]
        rw [if_pos (by decide), Cmd.run_bind hrun3, Cmd.run_bind hrun]
        have hr := hr.trans hr3
        exact ⟨0, s', rfl, .inl ⟨rfl, hret.trans (hr.perm.trans hp0) fun q hq => by
          rw [hr.frame q (mt hp0.mem_iff.1 hq), hsame0 q hq]⟩⟩
    · obtain ⟨s', hrun, hret⟩ := uvmfree_spec 0 hr1.space fun va hva _ => by rw [hold1 va hva, hnone0]
      rw [if_pos (by decide), Cmd.run_bind hrun]
      exact ⟨0, s', rfl, .inl ⟨rfl, hret.trans (hr1.perm.trans hp0) fun q hq => by
        rw [hr1.frame q (mt hp0.mem_iff.1 hq), hsame0 q hq]⟩⟩

end

/-! ## The free pages at boot -/

omit [Image] in
theorem pages_le_iff {n k : Nat} : pages n ≤ k ↔ n ≤ k * 4096 := by
  rw [pages]
  omega

theorem ram_iff {p : Page} : Ram p ↔ pages Image.end_.toNat ≤ p.toNat ∧ p.toNat < 0x88000 := by
  have hbase : Ram p ↔ Image.end_ ≤ base p ∧ base p < phystop := ⟨fun h => ⟨h.lo, h.hi⟩, fun h => ⟨h.1, h.2⟩⟩
  rw [hbase, le_def, lt_def, base_toNat, pages_le_iff, show phystop.toNat = 0x88000 * 4096 by decide]
  omega

/-- The loop frees the pages from `k` up to `top`. -/
theorem freerangeFrom_spec {paEnd : Addr} {top : Nat} (turns k : Nat) (h : Pool s free)
    (hram : ∀ p : Page, k ≤ p.toNat → p.toNat < top → Ram p) (hend : paEnd.toNat = top * 4096) (hlt : top < 2 ^ 51)
    (hturns : top < turns + k) (hk : k ≤ top) (hfree : ∀ p ∈ free, p.toNat < k) :
    ∃ s' free', (freerangeFrom paEnd turns (pageAddr k)).run s = .ok () s' ∧ Pool s' free' ∧
      ∀ p, p ∈ free' ↔ p ∈ free ∨ k ≤ p.toNat ∧ p.toNat < top := by
  induction turns generalizing k s free with
  | zero => omega
  | succ turns ih =>
    have haddr : ∀ j ≤ top + 1, (pageAddr j).toNat = j * 4096 := fun j hj => by
      rw [pageAddr, toNat_ofNat]
      omega
    have hle : pageAddr (k + 1) ≤ paEnd ↔ k < top := by
      rw [le_def, haddr (k + 1) (by omega)]
      omega
    rw [freerangeFrom, pageAddr_succ]
    by_cases hc : k < top
    · have hp : (BitVec.ofNat 52 k).toNat = k ∧ base (.ofNat 52 k) = pageAddr k := by
        have hk : (BitVec.ofNat 52 k).toNat = k := by
          rw [toNat_ofNat]
          omega
        refine ⟨hk, eq_of_toNat_eq ?_⟩
        rw [base_toNat, hk, haddr k (by omega)]
      have hne : ∀ p : Page, p = .ofNat 52 k ↔ p.toNat = k := fun p => by rw [← toNat_inj, hp.1]
      obtain ⟨s1, hrun, ⟨free1, hpool, hperm⟩, -⟩ := h.kfree (fun hm => by grind) (hram (.ofNat 52 k) (by grind) (by grind))
      obtain ⟨s', free', hrun', hpool', hmem⟩ := ih (k + 1) hpool (fun p hp => hram p (by omega)) (by omega) hc fun p hp => by
        have := hfree p
        have := hperm.mem_iff.1 hp
        grind
      rw [if_pos (hle.2 hc), ← hp.2]
      refine ⟨s', free', (Cmd.run_bind hrun).trans hrun', hpool', fun p => ?_⟩
      rw [hmem, hperm.mem_iff, mem_cons, hne]
      grind
    · rw [if_neg (mt hle.1 hc)]
      exact ⟨s, free, rfl, h, fun p => ⟨.inl, fun h => h.resolve_right (by omega)⟩⟩

/-- `kinit` puts every page of RAM behind the kernel on the free list, once. -/
theorem kinit_frees_ram (mem : Bytes) (hend : Image.end_ ≤ phystop) :
    ∃ s' free, kinit.run ⟨mem, []⟩ = .ok () s' ∧ Pool s' free ∧ ∀ p, p ∈ free ↔ Ram p := by
  have htop : phystop.toNat = 0x88000 * 4096 := by decide
  have he := le_def.1 hend
  rw [htop, ← pages_le_iff] at he
  have hstart : Pool ⟨mem, []⟩ [] := ⟨rfl, nodup_nil, forall_mem_nil _⟩
  obtain ⟨s', free, hrun, hpool, hmem⟩ := freerangeFrom_spec (phystop.toNat / 4096 + 1) (pages Image.end_.toNat) hstart
    (fun p h1 h2 => ram_iff.2 ⟨h1, h2⟩) htop (by decide) (by rw [htop]; omega) he (forall_mem_nil _)
  refine ⟨s', free, by rw [kinit, freerange, pgroundup_eq (by rw [pages] at he; omega)]; exact hrun, hpool, fun p => ?_⟩
  rw [hmem, ram_iff]
  exact or_iff_right not_mem_nil

end

local instance bootImage : Image := instImage

theorem kinit_frees_ram_small : Image.end_ ≤ phystop ∧
    ∃ s' free, kinit.run ⟨fun _ => 0, []⟩ = .ok () s' ∧ Pool s' free ∧ ∀ p, p ∈ free ↔ Ram p :=
  ⟨by decide, kinit_frees_ram _ (by decide)⟩

end Xv6.Vm
