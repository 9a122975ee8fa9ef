import Xv6.Vm.Map

/-!
# Address spaces

The memory of a process below its trapframe: the virtual pages `ks` are mapped,
each to a frame of its own, and no others are (`Space`). The free pages, the
nodes of the page table and the frames are distinct pages of the allocator; an
operation moves pages between the three, and changes no other page and none of
the user pages that stay mapped (`Moves`). What the loops of `vm.c` do to an
address space is composed of two steps: a page is taken off the free list and
mapped (`Space.mapPage`), and a page is unmapped and freed (`Space.unmapPage`).
-/

namespace Xv6.Vm

open List
open BitVec (toNat_ofNat eq_of_toNat_eq toNat_umod toNat_sub toNat_add lt_def)

open Radix

variable {s s' s1 : State} {root : Page} {free free' : List Page} {ks ks' keep : List Nat} {k : Nat} {va : Addr}
  {ks1 : List Nat} {a bound : Addr} {c : Page} {m : Nat}

def pageAddr (k : Nat) : Addr := .ofNat 64 (4096 * k)

/-- The frame that a virtual page is mapped to. -/
def frameAt (s : State) (root : Page) (k : Nat) : Page := ((translate s (base root) (pageAddr k)).map ppn).getD 0

def frames (s : State) (root : Page) (ks : List Nat) : List Page := ks.map (frameAt s root)

/-- The free pages, and the pages of an address space. -/
def owned (s : State) (root : Page) (free : List Page) (ks : List Nat) : List Page := free ++ tree s root ++ frames s root ks

/-- The byte at a virtual address. -/
def memAt (s : State) (root : Page) (va : Addr) : Option UInt8 :=
  (translate s (base root) va).map fun e => s.mem ((pte2pa e).toNat + va.toNat % 4096)

section

variable [Image]

/-- The pages `ks` below the trapframe are mapped, and no others. -/
structure Space (s : State) (root : Page) (free : List Page) (ks : List Nat) : Prop where
  list : s.freelist = free.map base
  nodup : (owned s root free ks).Nodup
  ram : ∀ p ∈ owned s root free ks, Ram p
  mapped : ∀ k ∈ ks, 4096 * k < trapframe.toNat ∧ ∃ e, translate s (base root) (pageAddr k) = some e ∧ pteFlags e ≠ pteV
  rest : ∀ va : Addr, va.toNat < trapframe.toNat → va.toNat / 4096 ∉ ks → translate s (base root) va = none
  shape : Shape s root

end

/-- Pages have moved between the free list, the nodes and the frames; the user
pages `keep` are as they were, and so is everything from the trapframe on. -/
structure Moves (root : Page) (keep : List Nat) (s : State) (free : List Page) (ks : List Nat) (s' : State) (free' : List Page)
    (ks' : List Nat) : Prop where
  perm : (owned s' root free' ks').Perm (owned s root free ks)
  frame : ∀ q, q ∉ owned s root free ks → heap s' q = heap s q
  entries : ∀ va, va < maxva → (va.toNat / 4096 ∈ keep ∨ trapframe.toNat ≤ va.toNat) →
    translate s' (base root) va = translate s (base root) va
  contents : ∀ k ∈ keep, heap s' (frameAt s root k) = heap s (frameAt s root k)

/-! ## Pages -/

theorem trapframe_toNat : trapframe.toNat = 2 ^ 38 - 8192 := by decide

theorem pageAddr_toNat (h : 4096 * k < trapframe.toNat) : (pageAddr k).toNat = 4096 * k := by
  rw [trapframe_toNat] at h
  rw [pageAddr, toNat_ofNat]
  omega

theorem pageAddr_div (h : 4096 * k < trapframe.toNat) : (pageAddr k).toNat / 4096 = k := by
  rw [pageAddr_toNat h, Nat.mul_div_cancel_left k (by decide)]

theorem pageAddr_lt (h : 4096 * k < trapframe.toNat) : pageAddr k < maxva := by
  refine lt_maxva.2 ?_
  rw [pageAddr_toNat h]
  rw [trapframe_toNat] at h
  omega

/-- The translation of an address is that of its page. -/
theorem translate_pageAddr (h : va.toNat < trapframe.toNat) :
    translate s (base root) va = translate s (base root) (pageAddr (va.toNat / 4096)) := by
  have hlt : 4096 * (va.toNat / 4096) < trapframe.toNat := by omega
  have hva : va < maxva := lt_maxva.2 (by rw [trapframe_toNat] at h; omega)
  exact translate_page (pageAddr_lt hlt) hva (by rw [pageAddr_toNat hlt]; omega)

theorem samePage_pageAddr (h : 4096 * k < trapframe.toNat) : SamePage (pageAddr k) va ↔ va.toNat / 4096 = k := by
  unfold SamePage
  rw [pageAddr_toNat h]
  omega

theorem frameAt_of {e : Pte} (h : translate s (base root) (pageAddr k) = some e) : frameAt s root k = ppn e := by
  rw [frameAt, h]
  rfl

theorem frameAt_congr (h : translate s' (base root) (pageAddr k) = translate s (base root) (pageAddr k)) :
    frameAt s' root k = frameAt s root k := by
  rw [frameAt, frameAt, h]

theorem frames_congr (h : ∀ k ∈ ks, translate s' (base root) (pageAddr k) = translate s (base root) (pageAddr k)) :
    frames s' root ks = frames s root ks :=
  map_congr_left fun k hk => frameAt_congr (h k hk)

theorem count_owned (q : Page) : (owned s root free ks).count q =
    free.count q + (tree s root).count q + (frames s root ks).count q := by
  rw [owned, count_append, count_append]

theorem mem_owned {q : Page} : q ∈ owned s root free ks ↔ q ∈ free ∨ q ∈ tree s root ∨ q ∈ frames s root ks := by
  rw [owned, mem_append, mem_append, or_assoc]

namespace Moves

theorem refl (s : State) (root : Page) (free : List Page) (ks keep : List Nat) : Moves root keep s free ks s free ks :=
  ⟨.refl _, fun _ _ => rfl, fun _ _ _ => rfl, fun _ _ => rfl⟩

theorem trans {s2 : State} {free1 free2 : List Page} {ks2 : List Nat} (h1 : Moves root keep s free ks s1 free1 ks1)
    (h2 : Moves root keep s1 free1 ks1 s2 free2 ks2) (hkeep : ∀ k ∈ keep, 4096 * k < trapframe.toNat) :
    Moves root keep s free ks s2 free2 ks2 where
  perm := h2.perm.trans h1.perm
  frame q hq := by rw [h2.frame q (mt h1.perm.mem_iff.1 hq), h1.frame q hq]
  entries va hva hk := by rw [h2.entries va hva hk, h1.entries va hva hk]
  contents k hk := by
    have hlt := hkeep k hk
    have he := h1.entries (pageAddr k) (pageAddr_lt hlt) (.inl (by rw [pageAddr_div hlt]; exact hk))
    rw [← h1.contents k hk, ← frameAt_congr he]
    exact h2.contents k hk

theorem mono {keep' : List Nat} (h : Moves root keep s free ks s' free' ks') (hsub : ∀ k ∈ keep', k ∈ keep) :
    Moves root keep' s free ks s' free' ks' :=
  ⟨h.perm, h.frame, fun va hva hk => h.entries va hva (hk.imp (hsub _) id), fun k hk => h.contents k (hsub k hk)⟩

theorem reorder {ks1' : List Nat} (h : Moves root keep s free ks s' free' ks') (hp : ks1.Perm ks) (hp' : ks1'.Perm ks') :
    Moves root keep s free ks1 s' free' ks1' where
  perm := (((hp'.map _).append_left _).trans h.perm).trans ((hp.map _).append_left _).symm
  frame q hq := h.frame q (mt ((hp.map _).append_left _).mem_iff.2 hq)
  entries := h.entries
  contents := h.contents

end Moves

section

variable [Image]

omit [Image] in
theorem translate_zero (hz : ∀ i, heap s root i = 0) (va : Addr) : translate s (base root) va = none := by
  by_cases h : maxva ≤ va
  · exact translate_of_le h
  · rw [translate_eq (BitVec.not_le.1 h)]
    exact lookup_empty (fun i => by rw [hz, child_zero]) fun i => by
      rw [hz]
      decide

namespace Space

variable (h : Space s root free ks)

include h

theorem table : Table s root free where
  list := h.list
  nodup := (nodup_append.1 h.nodup).1
  ram p hp := h.ram p (mem_append_left _ hp)

theorem lt_trapframe (hk : k ∈ ks) : 4096 * k < trapframe.toNat := (h.mapped k hk).1

theorem perm (hp : ks'.Perm ks) : Space s root free ks' where
  list := h.list
  nodup := ((hp.map _).append_left _).nodup_iff.2 h.nodup
  ram p hm := h.ram p (((hp.map _).append_left _).mem_iff.1 hm)
  mapped k hk := h.mapped k (hp.mem_iff.1 hk)
  rest va hva hk := h.rest va hva (mt hp.mem_iff.2 hk)
  shape := h.shape

theorem none_of_not_mem (hlt : 4096 * k < trapframe.toNat) (hk : k ∉ ks) :
    translate s (base root) (pageAddr k) = none := by
  refine h.rest _ (by rw [pageAddr_toNat hlt]; exact hlt) ?_
  rwa [pageAddr_div hlt]

theorem frame_not_mem (hk : k ∈ ks) : frameAt s root k ∉ free ∧ frameAt s root k ∉ tree s root := by
  have hm : frameAt s root k ∈ frames s root ks := mem_map_of_mem hk
  have hd := (nodup_append.1 h.nodup).2.2
  exact ⟨fun hf => hd _ (mem_append_left _ hf) _ hm rfl, fun ht => hd _ (mem_append_right _ ht) _ hm rfl⟩

/-- The pages of an address space after they have moved. -/
theorem of_perm (hp : (owned s' root free' ks').Perm (owned s root free ks))
    (hlist : s'.freelist = free'.map base)
    (hmapped : ∀ k ∈ ks', 4096 * k < trapframe.toNat ∧ ∃ e, translate s' (base root) (pageAddr k) = some e ∧ pteFlags e ≠ pteV)
    (hrest : ∀ va : Addr, va.toNat < trapframe.toNat → va.toNat / 4096 ∉ ks' → translate s' (base root) va = none)
    (hshape : Shape s' root) : Space s' root free' ks' :=
  ⟨hlist, hp.nodup_iff.2 h.nodup, fun p hm => h.ram p (hp.mem_iff.1 hm), hmapped, hrest, hshape⟩

omit h

/-- A page table that has just been created. -/
theorem of_zero (hz : ∀ i, heap s root i = 0) (hlist : s.freelist = free.map base) (hd : (free ++ [root]).Nodup)
    (hr : ∀ p ∈ free ++ [root], Ram p) : Space s root free [] := by
  have hc : ∀ i, child (heap s root i) = none := fun i => by rw [hz, child_zero]
  have hv : ∀ i, heap s root i &&& pteV = 0 := fun i => by
    rw [hz]
    decide
  have hown : owned s root free [] = free ++ [root] := by
    rw [owned, show tree s root = [root] from nodes_empty hc]
    exact append_nil _
  exact ⟨hlist, hown ▸ hd, hown ▸ hr, fun k hk => absurd hk not_mem_nil, fun va _ _ => translate_zero hz va,
    fun i hi => absurd (hv i) hi, fun i _ => hv i⟩

end Space

omit [Image] in
theorem base_aligned (p : Page) : base p % 4096 = 0 := by
  refine eq_of_toNat_eq ?_
  rw [toNat_umod, base_toNat, pgsize_toNat, Nat.mul_mod_left]
  rfl

omit [Image] in
theorem pgrounddown_of_aligned (ha : a.toNat % 4096 = 0) : pgrounddown a = a :=
  eq_of_toNat_eq (by rw [pgrounddown_toNat]; omega)

/-- `mappages` of a single page. -/
theorem mappages_one (pa : Addr) (perm : BitVec 32) (h : Table s root free) (ha : a < maxva) (hal : a.toNat % 4096 = 0)
    (hnone : translate s (base root) a = none) :
    ∃ r s' free', (mappages (base root) a 4096 pa perm).run s = .ok r s' ∧ Extended root s free s' free' ∧
      ((r = 0 ∧ ∀ va, va < maxva → translate s' (base root) va =
          if SamePage a va then some (pa2pte pa ||| perm.signExtend 64 ||| pteV) else translate s (base root) va) ∨
        (r = -1 ∧ ∀ va, va < maxva → translate s' (base root) va = translate s (base root) va)) := by
  have hlt := lt_maxva.1 ha
  have hlast : pgrounddown (a + 4096 - 1) = a := by
    refine eq_of_toNat_eq ?_
    rw [pgrounddown_toNat, toNat_sub, toNat_add, pgsize_toNat,
      show (1 : Addr).toNat = 1 from rfl]
    omega
  have hone : mappages (base root) a 4096 pa perm = mappagesFrom (base root) a perm (0 + 1) a pa := by
    simp only [mappages, pgrounddown_of_aligned hal, hlast, BitVec.sub_self]
    rfl
  rw [hone]
  rcases mappagesFrom_turn a pa perm 0 h ha hnone with ⟨s1, free1, hrun, hext, heq⟩ | ⟨s2, free2, hrun, hext, heq⟩
  · exact ⟨-1, s1, free1, hrun, hext, .inr ⟨rfl, heq⟩⟩
  · rw [if_pos rfl] at hrun
    exact ⟨0, s2, free2, hrun, hext, .inl ⟨rfl, heq⟩⟩

omit [Image] in
theorem owned_congr (h : ∀ q ∈ tree s root, heap s' q = heap s q) : owned s' root free ks = owned s root free ks := by
  rw [owned, owned, frames_congr fun k _ => translate_congr h, show tree s' root = tree s root from nodes_congr h]

/-- An address space, after other pages have changed. -/
theorem Space.congr (h : Space s root free ks) (hlist : s'.freelist = s.freelist)
    (hsame : ∀ q ∈ tree s root, heap s' q = heap s q) :
    Space s' root free ks := by
  have htr := translate_same hsame
  have hown : owned s' root free ks = owned s root free ks := owned_congr hsame
  refine ⟨hlist.trans h.list, by rw [hown]; exact h.nodup, by rw [hown]; exact h.ram,
    fun k hk => ?_, fun va hva hk => ?_, h.shape.congr hsame⟩
  · rw [htr]
    exact h.mapped k hk
  · rw [htr]
    exact h.rest va hva hk

/-- A page that is not one of the others is freed. -/
theorem Space.kfree (h : Space s root free ks) (hc : c ∉ owned s root free ks) (hr : Ram c) :
    ∃ s', (kfree (base c)).run s = .ok () s' ∧ Space s' root (c :: free) ks ∧
      (∀ va, translate s' (base root) va = translate s (base root) va) ∧
      (owned s' root (c :: free) ks).Perm (c :: owned s root free ks) ∧ ∀ q, q ≠ c → heap s' q = heap s q := by
  obtain ⟨s', hrun, hlist, hsame⟩ := kfree_same (s := s) hr
  have htree : ∀ q ∈ tree s root, heap s' q = heap s q := fun q hq => hsame q fun e => hc (mem_owned.2 (.inr (.inl (e ▸ hq))))
  have htr := translate_same htree
  have hown : owned s' root (c :: free) ks = c :: owned s root free ks := congrArg (c :: ·) (owned_congr htree)
  refine ⟨s', hrun, ⟨?_, ?_, fun p hp => ?_, fun k hk => ?_, fun va hva hk => ?_, h.shape.congr htree⟩, htr,
    hown ▸ .refl _, hsame⟩
  · rw [hlist, map_cons, ← h.list]
  · rw [hown]
    exact nodup_cons.2 ⟨hc, h.nodup⟩
  · rw [hown] at hp
    rcases mem_cons.1 hp with rfl | hp
    · exact hr
    · exact h.ram p hp
  · rw [htr]
    exact h.mapped k hk
  · rw [htr]
    exact h.rest va hva hk

/-- The page `c` is taken off the free list, filled, and mapped at the page `k`;
if that fails it is freed again. -/
theorem Space.mapPage {rest : List Page} (perm : BitVec 32) (h : Space s root (c :: rest) ks)
    (hlt : 4096 * k < trapframe.toNat) (hk : k ∉ ks) (hlist : s1.freelist = rest.map base)
      (hsame : ∀ q, q ≠ c → heap s1 q = heap s q)
    (hperm : perm.toNat < 1024) (hleaf : perm.setWidth 64 ||| pteV ≠ pteV) :
    ∃ r s2 free2, (mappages (base root) (pageAddr k) 4096 (base c) perm).run s1 = .ok r s2 ∧
      ((r = 0 ∧ Space s2 root free2 (k :: ks) ∧ Moves root ks s (c :: rest) ks s2 free2 (k :: ks) ∧ heap s2 c = heap s1 c ∧
          frameAt s2 root k = c ∧ ∃ e, translate s2 (base root) (pageAddr k) = some e ∧
            pteFlags e = perm.setWidth 64 ||| pteV) ∨
        (r = -1 ∧ ∃ s3, (Vm.kfree (base c)).run s2 = .ok () s3 ∧ Space s3 root (c :: free2) ks ∧
          Moves root ks s (c :: rest) ks s3 (c :: free2) ks)) := by
  -- the page `c` is none of the others
  have hdup := h.nodup
  rw [owned, cons_append, cons_append, nodup_cons] at hdup
  obtain ⟨hc, hdup⟩ := hdup
  simp only [mem_append, not_or] at hc
  have htree : ∀ q ∈ tree s root, heap s1 q = heap s q := fun q hq => hsame q fun e => hc.1.2 (e ▸ hq)
  have ht1 : tree s1 root = tree s root := nodes_congr htree
  have htab : Table s1 root rest := by
    refine ⟨hlist, ?_, fun p hp => ?_⟩
    · rw [ht1]
      exact (nodup_append.1 hdup).1
    · rw [ht1] at hp
      exact h.table.ram p (mem_cons_of_mem _ hp)
  have htr := translate_same htree
  have hal : (pageAddr k).toNat % 4096 = 0 := by
    rw [pageAddr_toNat hlt]
    omega
  obtain ⟨r, s2, free2, hrun, hext, hres⟩ := mappages_one (base c) perm htab (pageAddr_lt hlt) hal
    ((htr _).trans (h.none_of_not_mem hlt hk))
  obtain ⟨new, hnew, htree2⟩ := hext.taken
  rw [ht1] at htree2
  have hframe : ∀ q, q ∉ rest → q ∉ tree s root → heap s2 q = heap s1 q := fun q h1 h2 =>
    hext.frame q (by rw [mem_append, not_or, ht1]; exact ⟨h1, h2⟩)
  obtain ⟨hsign, hflags⟩ := perm_setWidth hperm
  refine ⟨r, s2, free2, hrun, ?_⟩
  have hcontents : ∀ j ∈ ks, frameAt s root j ≠ c ∧ heap s2 (frameAt s root j) = heap s (frameAt s root j) := fun j hj => by
    have hj' := h.frame_not_mem hj
    have hne : frameAt s root j ≠ c := fun e => hj'.1 (e ▸ mem_cons_self)
    exact ⟨hne, by rw [hframe _ (fun hm => hj'.1 (mem_cons_of_mem _ hm)) hj'.2, hsame _ hne]⟩
  have hothers : ∀ q, q ∉ owned s root (c :: rest) ks → q ≠ c ∧ heap s2 q = heap s q := fun q hq => by
    rw [mem_owned, mem_cons, not_or, not_or, not_or] at hq
    exact ⟨hq.1.1, by rw [hframe q hq.1.2 hq.2.1, hsame q hq.1.1]⟩
  -- the pages are those from before, where the old mappings are still there
  have hp : (∀ j ∈ ks, translate s2 (base root) (pageAddr j) = translate s (base root) (pageAddr j)) →
      (c :: owned s2 root free2 ks).Perm (owned s root (c :: rest) ks) := fun hold => by
    refine perm_iff_count.2 fun q => ?_
    have h1 := hnew.count_eq q
    have h2 := htree2.count_eq q
    rw [count_cons, count_owned, count_owned, frames_congr hold]
    simp only [count_append, count_cons] at h1 h2 ⊢
    omega
  have hshape := hext.shape (h.shape.congr htree)
  rcases hres with ⟨rfl, heq⟩ | ⟨rfl, heq⟩
  · refine .inl ⟨rfl, ?_⟩
    have heq : ∀ va, va < maxva → translate s2 (base root) va =
        if va.toNat / 4096 = k then some (pa2pte (base c) ||| (perm.setWidth 64 ||| pteV)) else translate s (base root) va :=
      fun va hva => by
        rw [heq va hva, htr va, BitVec.or_assoc, hsign]
        exact if_congr (samePage_pageAddr hlt) rfl rfl
    have hself : translate s2 (base root) (pageAddr k) = some (pa2pte (base c) ||| (perm.setWidth 64 ||| pteV)) := by
      rw [heq _ (pageAddr_lt hlt), if_pos (by rw [pageAddr_div hlt])]
    have hfc : frameAt s2 root k = c := by
      rw [frameAt_of hself]
      refine base_injective ?_
      rw [← pte2pa_eq, pte2pa_or (base_aligned c) hflags]
    have hold : ∀ j ∈ ks, translate s2 (base root) (pageAddr j) = translate s (base root) (pageAddr j) := fun j hj => by
      have hjlt := h.lt_trapframe hj
      rw [heq _ (pageAddr_lt hjlt), if_neg]
      rw [pageAddr_div hjlt]
      exact fun e => hk (e ▸ hj)
    have hp : (owned s2 root free2 (k :: ks)).Perm (owned s root (c :: rest) ks) := by
      rw [owned, frames, map_cons, hfc]
      exact perm_middle.trans (hp hold)
    refine ⟨h.of_perm hp hext.table.list (fun j hj => ?_) (fun va hva hout => ?_) hshape,
      ⟨hp, fun q hq => (hothers q hq).2, fun va hva hkeep => ?_, fun j hj => (hcontents j hj).2⟩, hframe c hc.1.1 hc.1.2,
        hfc, _, hself,
      pteFlags_or _ hflags⟩
    · rcases mem_cons.1 hj with rfl | hj
      · exact ⟨hlt, _, hself, by rw [pteFlags_or _ hflags]; exact hleaf⟩
      · rw [hold j hj]
        exact h.mapped j hj
    · rw [mem_cons, not_or] at hout
      rw [heq va (lt_maxva.2 (by rw [trapframe_toNat] at hva; omega)), if_neg hout.1]
      exact h.rest va hva hout.2
    · rw [heq va hva, if_neg]
      rintro rfl
      rcases hkeep with hkeep | hkeep
      · exact hk hkeep
      · rw [trapframe_toNat] at hkeep hlt
        omega
  · replace heq : ∀ va, va < maxva → translate s2 (base root) va = translate s (base root) va :=
      fun va hva => by rw [heq va hva, htr va]
    have hp := hp fun j hj => heq _ (pageAddr_lt (h.lt_trapframe hj))
    obtain ⟨hc2, hd2⟩ := nodup_cons.1 (hp.nodup_iff.2 h.nodup)
    have hram : ∀ p ∈ c :: owned s2 root free2 ks, Ram p := fun p hm => h.ram p (hp.mem_iff.1 hm)
    have hs2 : Space s2 root free2 ks := by
      refine ⟨hext.table.list, hd2, fun p hm => hram p (mem_cons_of_mem _ hm), fun j hj => ?_, fun va hva hout => ?_, hshape⟩
      · rw [heq _ (pageAddr_lt (h.lt_trapframe hj))]
        exact h.mapped j hj
      · rw [heq va (lt_maxva.2 (by rw [trapframe_toNat] at hva; omega))]
        exact h.rest va hva hout
    obtain ⟨s3, hrun3, hs3, htr3, hp3, hsame3⟩ := hs2.kfree hc2 (hram c mem_cons_self)
    refine .inr ⟨rfl, s3, hrun3, hs3, hp3.trans hp, fun q hq => ?_, fun va hva _ => (htr3 va).trans (heq va hva),
      fun j hj => ?_⟩
    · rw [hsame3 q (hothers q hq).1, (hothers q hq).2]
    · rw [hsame3 _ (hcontents j hj).1, (hcontents j hj).2]

/-! ## Unmapping -/

/-- A turn of the loop of `uvmunmap` unmaps the page `k`, and frees its frame. -/
theorem Space.unmapPage (h : Space s root free (k :: ks)) (hb : pageAddr k < bound) (j : Nat) :
    ∃ s', (uvmunmapFrom (base root) bound true (j + 1) (pageAddr k)).run s =
        (uvmunmapFrom (base root) bound true j (pageAddr k + 4096)).run s' ∧
      Space s' root (frameAt s root k :: free) ks ∧ Moves root ks s free (k :: ks) s' (frameAt s root k :: free) ks := by
  obtain ⟨hlt, e, he, hleaf⟩ := h.mapped k mem_cons_self
  have hfk := frameAt_of he
  obtain ⟨hfree, htree⟩ := h.frame_not_mem (mem_cons_self (l := ks))
  have hdup := h.nodup
  have hk : k ∉ ks := fun hk => by
    rw [owned, nodup_append, frames, map_cons, nodup_cons] at hdup
    exact hdup.2.1.1 (mem_map_of_mem hk)
  obtain ⟨s', hrun, hrem⟩ := uvmunmapFrom_turn j h.table.distinct hb (pageAddr_lt hlt) he hleaf fun _ : true = true =>
    ⟨hfk ▸ h.ram _ (mem_owned.2 (.inr (.inr (mem_map_of_mem mem_cons_self)))), hfk ▸ htree⟩
  have heq : ∀ va, va < maxva → translate s' (base root) va =
      if va.toNat / 4096 = k then none else translate s (base root) va := fun va hva => by
    rw [hrem.translate va hva]
    exact if_congr (samePage_pageAddr hlt) rfl rfl
  have hold : ∀ j ∈ ks, translate s' (base root) (pageAddr j) = translate s (base root) (pageAddr j) := fun j hj => by
    have hjlt := h.lt_trapframe (mem_cons_of_mem k hj)
    rw [heq _ (pageAddr_lt hjlt), if_neg]
    rw [pageAddr_div hjlt]
    exact fun e => hk (e ▸ hj)
  have hp : (owned s' root (frameAt s root k :: free) ks).Perm (owned s root free (k :: ks)) := by
    refine perm_iff_count.2 fun q => ?_
    have ht := hrem.tree.count_eq q
    rw [count_owned, count_owned, frames_congr hold, frames, frames, map_cons, count_cons, count_cons, ht]
    omega
  refine ⟨s', hrun, h.of_perm hp ?_ (fun j hj => ?_) (fun va hva hout => ?_) (hrem.shape h.shape), hp, fun q hq => ?_,
    fun va hva hkeep => ?_, fun j hj => ?_⟩
  · rw [hrem.list, if_pos rfl, h.list, ← hfk]
    rfl
  · rw [hold j hj]
    exact h.mapped j (mem_cons_of_mem _ hj)
  · rw [heq va (lt_maxva.2 (by rw [trapframe_toNat] at hva; omega))]
    split
    · rfl
    · rename_i hne
      exact h.rest va hva fun hm => (mem_cons.1 hm).elim hne hout
  · rw [mem_owned, not_or, not_or] at hq
    refine hrem.frame q hq.2.1 fun _ e => hq.2.2 ?_
    rw [e, ← hfk]
    exact mem_map_of_mem mem_cons_self
  · rw [heq va hva, if_neg]
    rintro rfl
    rcases hkeep with hkeep | hkeep
    · exact hk hkeep
    · rw [trapframe_toNat] at hkeep hlt
      omega
  · refine hrem.frame _ (h.frame_not_mem (mem_cons_of_mem k hj)).2 fun _ e => ?_
    rw [owned, nodup_append, frames, map_cons, nodup_cons] at hdup
    refine hdup.2.1.1 ?_
    rw [hfk, ← e]
    exact mem_map_of_mem hj

omit [Image] in
theorem pageAddr_succ (k : Nat) : pageAddr k + 4096 = pageAddr (k + 1) := by
  rw [pageAddr, pageAddr, Nat.mul_succ, BitVec.ofNat_add]
  rfl

/-- The pages `ks0` have been unmapped, and their frames freed. -/
structure Unmapped (root : Page) (ks0 ks : List Nat) (s : State) (free : List Page) (s' : State)
    (free' : List Page) : Prop where
  space : Space s' root free' ks
  moves : Moves root ks s free (ks0 ++ ks) s' free' ks
  freed : ∀ q, q ∈ free ∨ q ∈ frames s root ks0 → q ∈ free'

/-- The loop of `uvmunmap` over the `j` pages from `m` on. -/
theorem Space.unmapFrom {j : Nat} (h : Space s root free (List.range' m j ++ ks)) (hb : bound.toNat = 4096 * (m + j)) :
    ∃ s' free', (uvmunmapFrom (base root) bound true (j + 1) (pageAddr m)).run s = .ok () s' ∧
      Unmapped root (List.range' m j) ks s free s' free' := by
  induction j generalizing s free m with
  | zero =>
    have hge : ¬ pageAddr m < bound := by
      have := bound.isLt
      rw [lt_def, pageAddr, toNat_ofNat]
      omega
    rw [uvmunmapFrom, if_neg hge]
    exact ⟨s, free, rfl, h, .refl _ _ _ _ _, fun q hq => hq.resolve_right not_mem_nil⟩
  | succ j ih =>
    rw [range'_succ, cons_append] at h
    rw [range'_succ]
    have hlt := h.lt_trapframe mem_cons_self
    have hm : pageAddr m < bound := by
      rw [lt_def, pageAddr_toNat hlt]
      omega
    obtain ⟨s1, hrun, hs, hmv⟩ := h.unmapPage hm (j + 1)
    rw [pageAddr_succ] at hrun
    obtain ⟨s', free', hrun', hu⟩ := ih hs (by omega)
    refine ⟨s', free', hrun.trans hrun', hu.space, ?_, fun q hq => hu.freed q ?_⟩
    · exact (hmv.mono fun k hk => mem_append_right _ hk).trans hu.moves fun k hk => hu.space.lt_trapframe hk
    · rcases hq with hq | hq
      · exact .inl (mem_cons_of_mem _ hq)
      · rcases mem_cons.1 hq with rfl | hq
        · exact .inl mem_cons_self
        · refine .inr ?_
          rwa [frames_congr fun k hk => hmv.entries _ (pageAddr_lt ?_) (.inl ?_)]
          · exact hs.lt_trapframe (mem_append_left _ hk)
          · rw [pageAddr_div (hs.lt_trapframe (mem_append_left _ hk))]
            exact mem_append_left _ hk

/-- `uvmunmap` of the `n` pages from `m` on. -/
theorem Space.unmap {n : Addr} (h : Space s root free (List.range' m n.toNat ++ ks))
    (hm : 4096 * (m + n.toNat) ≤ trapframe.toNat) :
    ∃ s' free', (uvmunmap (base root) (pageAddr m) n true).run s = .ok () s' ∧
      Unmapped root (List.range' m n.toNat) ks s free s' free' := by
  rw [trapframe_toNat] at hm
  have hva : (pageAddr m).toNat = 4096 * m := by
    rw [pageAddr, toNat_ofNat]
    omega
  have hal : pageAddr m % 4096 = 0 := by
    refine eq_of_toNat_eq ?_
    rw [toNat_umod, hva, pgsize_toNat, show (0 : Addr).toNat = 0 from rfl]
    omega
  have hb : (pageAddr m + n * 4096).toNat = 4096 * (m + n.toNat) := by
    rw [toNat_add, BitVec.toNat_mul, hva, pgsize_toNat]
    omega
  have hturns : (pageAddr m + n * 4096 - pageAddr m).toNat / 4096 = n.toNat := by
    rw [toNat_sub, hb, hva]
    omega
  rw [uvmunmap, if_neg (not_not.2 hal)]
  dsimp only
  rw [hturns]
  exact h.unmapFrom hb

/-! ## The size of an address space -/

/-- There are fewer pages than `PHYSTOP` allows. -/
theorem length_le_of_ram {l : List Page} (hd : l.Nodup) (hr : ∀ p ∈ l, Ram p) : l.length ≤ 32768 := by
  have hsub : l.map BitVec.toNat ⊆ List.range' 524288 32768 := by
    intro x hx
    obtain ⟨p, hp, rfl⟩ := mem_map.1 hx
    have hlo := BitVec.le_def.1 (BitVec.le_trans Image.above (hr p hp).lo)
    have hhi := lt_def.1 (hr p hp).hi
    rw [base_toNat] at hlo hhi
    rw [show kernbase.toNat = 2147483648 from rfl] at hlo
    rw [show phystop.toNat = 2281701376 by decide] at hhi
    exact mem_range'_1.2 ⟨by omega, by omega⟩
  have hnd : (l.map BitVec.toNat).Nodup := hd.map fun p q h => eq_of_toNat_eq h
  have := (subperm_of_subset hnd hsub).length_le
  rwa [length_map, length_range'] at this

theorem Space.length_le (h : Space s root free ks) : ks.length ≤ 32768 := by
  have hd : (frames s root ks).Nodup := (nodup_append.1 h.nodup).2.1
  have := length_le_of_ram hd fun p hp => h.ram p (mem_owned.2 (.inr (.inr hp)))
  rwa [frames, length_map] at this

/-! ## The bytes of user memory -/

theorem Space.memAt_eq (h : Space s root free ks) (hks : va.toNat / 4096 ∈ ks) :
    memAt s root va = some (s.mem ((frameAt s root (va.toNat / 4096)).toNat * 4096 + va.toNat % 4096)) := by
  obtain ⟨hlt, e, he, -⟩ := h.mapped _ hks
  have hva : va.toNat < trapframe.toNat := by
    rw [trapframe_toNat] at hlt ⊢
    omega
  rw [memAt, translate_pageAddr hva, he, Option.map_some, pte2pa_eq, base_toNat, frameAt_of he]

/-- The bytes of a page that is kept. -/
theorem Moves.memAt (h : Space s root free ks) (h' : Space s' root free' ks') (hm : Moves root keep s free ks s' free' ks')
    (hk : va.toNat / 4096 ∈ keep) (hks : va.toNat / 4096 ∈ ks) (hks' : va.toNat / 4096 ∈ ks') : memAt s' root
      va = memAt s root va := by
  have hlt := h.lt_trapframe hks
  have hat := hm.entries (pageAddr (va.toNat / 4096)) (pageAddr_lt hlt)
    (.inl (by rwa [pageAddr_div hlt]))
  rw [h'.memAt_eq hks', h.memAt_eq hks, frameAt_congr hat,
    mem_of_heap (hm.contents _ hk) (le_self_add) (Nat.add_lt_add_left (Nat.mod_lt _ (by decide)) _)]

theorem memAt_zero (h : Space s root free ks) (hks : va.toNat / 4096 ∈ ks)
    (hz : ∀ i, heap s (frameAt s root (va.toNat / 4096)) i = 0) :
    memAt s root va = some 0 := by
  rw [h.memAt_eq hks, mem_of_heap_zero hz (le_self_add) (Nat.add_lt_add_left (Nat.mod_lt _ (by decide)) _)]

end

end Xv6.Vm
