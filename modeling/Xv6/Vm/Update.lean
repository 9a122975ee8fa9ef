import Xv6.Vm.Walk

/-!
# Mapping and unmapping pages

`mappages` adds the pages of its range to what the page table translates, and
`uvmunmap` removes them; neither changes another translation, and the nodes
stay distinct. Both are loops; what a turn does is said once
(`mappagesFrom_turn`, `uvmunmapFrom_turn`).
-/

namespace Xv6.Vm

open Function

open Radix

variable {s s' : State} {root q : Page} {va va' a : Addr} {free : List Page} {v : Pte}

/-- The virtual pages of `va` and `va'` are the same. -/
abbrev SamePage (va va' : Addr) : Prop := va'.toNat / 4096 = va.toNat / 4096

theorem lt_maxva : va < maxva ↔ va.toNat < 2 ^ 38 := BitVec.lt_def

variable {e : Pte} {r : Option Addr} {new free' : List Page} {h h' : Heap Page Pte 512} {L k : Nat} {p : Page}
  {pa last bound : Addr} {doFree : Bool}

theorem lt_of_translate {pagetable : Addr} (h : translate s pagetable va = some e) : va.toNat < 2 ^ 38 := by
  refine lt_maxva.1 (BitVec.not_le.1 fun hle => ?_)
  rw [translate_of_le hle] at h
  cases h

/-! ## Stores and walks -/

section Leaf

variable (hd : (tree s root).Nodup) (hq : leaf child (heap s) (path va) 2 root = some q)

include hd hq

theorem tree_setPte (v : Pte) :
    (tree (s.setPte (slot q (path va 0)) v) root).Perm (tree s root) := by
  refine store_nodes hd hq fun r hr => ?_
  rw [heap_setPte, update_of_ne hr]

theorem translate_setPte (hva : va < maxva)
    (hva' : va' < maxva) : translate (s.setPte (slot q (path va 0)) v) (base root) va' =
      if SamePage va va' then (some v).filter valid else translate s (base root) va' := by
  rw [translate_eq hva', translate_eq hva', store_lookup hd hq]
  · simp only [samePath_iff hva hva', heap_setPte, update_self]
  · intro r hr
    rw [heap_setPte, update_of_ne hr]
  · intro j hj
    rw [heap_setPte, update_self, update_of_ne hj]

end Leaf

theorem translate_leaf (hva : va < maxva) (hq : leaf child (heap s) (path va) 2 root = some q) :
    translate s (base root) va = (some (heap s q (path va 0))).filter valid := by
  rw [translate_eq hva, lookup, hq, Option.map_some]

theorem Walked.perm (hw : Walked va 2 root free s r s' new free') :
    (free' ++ tree s' root).Perm (free ++ tree s root) :=
  calc free' ++ tree s' root
    _ |>.Perm (free' ++ (new ++ tree s root)) := hw.ext.nodes.append_left free'
    _ |>.Perm (free' ++ new ++ tree s root) := by rw [List.append_assoc]
    _ |>.Perm (new ++ free' ++ tree s root) := List.perm_append_comm.append_right _
    _ |>.Perm (free ++ tree s root) := hw.taken.symm.append_right _

theorem Walked.translate (hw : Walked va 2 root free s r s' new free')
    (hva' : va' < maxva) : translate s' (base root) va' = translate s (base root) va' := by
  rw [translate_eq hva', translate_eq hva', hw.ext.lookup]

/-! ## The upper levels -/

/-- The valid entries of the upper levels point to page-table pages: they have
no permissions. -/
def Linked (h : Heap Page Pte 512) : Nat → Page → Prop
  | 0, _ => True
  | L + 1, p => ∀ i, h p i &&& pteV ≠ 0 → h p i &&& (pteR ||| pteW ||| pteX) = 0 ∧ Linked h L (ppn (h p i))

/-- The entries of the upper levels, and those of the root that no address below
`MAXVA` uses. -/
structure Shape (s : State) (root : Page) : Prop where
  linked : Linked (heap s) 2 root
  half : ∀ i : Fin 512, 256 ≤ i.val → heap s root i &&& pteV = 0

theorem Linked.congr (hl : Linked h L p) (hh : ∀ q ∈ nodes child h L p, h' q = h q) :
    Linked h' L p := by
  induction L generalizing p with
  | zero => trivial
  | succ L ih =>
    intro i hv
    rw [hh p self_mem_nodes] at hv ⊢
    obtain ⟨hx, hl⟩ := hl i hv
    refine ⟨hx, ih hl fun q hq => hh q (mem_nodes_of_below (i := i) ?_)⟩
    rwa [below_some (child_of_valid hv)]

/-- The permissions of an entry, which are given as an `int`. -/
theorem perm_setWidth {perm : BitVec 32} (hperm : perm.toNat < 1024) :
    perm.signExtend 64 = perm.setWidth 64 ∧ (perm.setWidth 64 ||| pteV).toNat < 1024 := by
  refine ⟨BitVec.signExtend_eq_setWidth_of_msb_false ?_, ?_⟩
  · rw [BitVec.msb_eq_false_iff_two_mul_lt]
    omega
  · rw [BitVec.toNat_or, BitVec.toNat_setWidth, Nat.mod_eq_of_lt (by omega)]
    exact Nat.or_lt_two_pow hperm (n := 10) (by decide)

theorem and_eq_flags (e : Pte) {mask : Pte} (h : 0x3FF &&& mask = mask) : e &&& mask = pteFlags e &&& mask := by
  rw [pteFlags, BitVec.and_assoc, h]

theorem and_link (c : Page) : link c &&& (pteR ||| pteW ||| pteX) = 0 := by
  rw [and_eq_flags _ (by decide), link, pteFlags_or _ (by decide)]
  decide

/-- A store into an entry of the lowest level. -/
theorem Linked.store {q : Page} {path : Nat → Fin 512} (hl : Linked h L p)
    (hd : (nodes child h L p).Nodup) (hq : leaf child h path L p = some q)
      (hne : ∀ r, r ≠ q → h' r = h r) : Linked h' L p := by
  induction L generalizing p with
  | zero => trivial
  | succ L ih =>
    obtain ⟨c, hc, hq, hqp, hrest⟩ := leaf_below hd hq
    intro i hv
    rw [hne p (Ne.symm hqp)] at hv ⊢
    refine ⟨(hl i hv).1, ?_⟩
    by_cases hi : i = path (L + 1)
    · -- the store is under this entry
      subst hi
      obtain rfl : ppn (h p (path (L + 1))) = c := by rw [child_of_valid hv] at hc; exact Option.some.inj hc
      exact ih (hl _ hv).2 (nodup_of_child hd hc) hq
    · refine (hl i hv).2.congr fun r hr => hne r fun e => hrest i hi ?_
      rw [below_some (child_of_valid hv), ← e]
      exact hr

/-- New nodes are linked in. -/
theorem Linked.extend (hfresh : ∀ q ∈ new, ∀ i, h' q i = 0 ∨ ∃ c ∈ new, h' q i = link c)
    (hkept : ∀ q, q ∉ new → ∀ i, h' q i = h q i ∨ ∃ c ∈ new, h' q i = link c) (hp : p ∈ new ∨
      Linked h L p) : Linked h' L p := by
  induction L generalizing p with
  | zero => trivial
  | succ L ih =>
    intro i hv
    have hlink : ∀ c ∈ new, h' p i = link c → h' p i &&& (pteR ||| pteW ||| pteX) = 0 ∧ Linked h' L (ppn (h' p i)) := by
      intro c hc e
      rw [e]
      exact ⟨and_link c, ih (.inl (by rw [link, ppn_link]; exact hc))⟩
    by_cases hm : p ∈ new
    · rcases hfresh p hm i with e | ⟨c, hc, e⟩
      · exact absurd (by rw [e]; decide) hv
      · exact hlink c hc e
    · rcases hkept p hm i with e | ⟨c, hc, e⟩
      · rw [e] at hv ⊢
        obtain ⟨hx, hl⟩ := (hp.resolve_left hm) i hv
        exact ⟨hx, ih (.inr hl)⟩
      · exact hlink c hc e

theorem path_lt (hva : va < maxva) : (path va 2).val < 256 := by
  have h := lt_maxva.1 hva
  show va.toNat / 2 ^ 30 % 512 < 256
  omega

theorem Walked.shape (hw : Walked va 2 root free s r s' new free') (hva : va < maxva) (h : Shape s root) : Shape s' root where
  linked := .extend hw.fresh hw.kept (.inr h.linked)
  half i hi := by
    rw [hw.first i fun e => ?_]
    · exact h.half i hi
    · have := path_lt hva
      rw [← e] at this
      omega

theorem Shape.setPte (h : Shape s root) (hd : (tree s root).Nodup) (hq : leaf child (heap s) (path va) 2 root = some q)
    (v : Pte) :
    Shape (s.setPte (slot q (path va 0)) v) root := by
  have hne : ∀ r, r ≠ q → heap (s.setPte (slot q (path va 0)) v) r = heap s r := fun r hr => by
    rw [heap_setPte, update_of_ne hr]
  refine ⟨h.linked.store hd hq hne, fun i hi => ?_⟩
  -- the root is not a node of the lowest level
  have hroot : root ≠ q := by
    rw [leaf] at hq
    obtain ⟨c, hc, hq⟩ := Option.bind_eq_some_iff.1 hq
    exact Ne.symm (not_mem_of_below hd (by rw [below_some hc]; exact leaf_mem_nodes hq)).1
  rw [hne root hroot]
  exact h.half i hi

theorem Shape.congr (h : Shape s root) (hh : ∀ q ∈ tree s root, heap s' q = heap s q) : Shape s' root :=
  ⟨h.linked.congr hh, fun i hi => by rw [hh root self_mem_nodes]; exact h.half i hi⟩

/-! ## Entries made by mappages -/

/-- The entry for a page of the range that starts at `a`, and is mapped to `pa`. -/
def mapped (a pa : Addr) (perm : BitVec 32) (va : Addr) : Pte :=
  pa2pte (pa + (pgrounddown va - a)) ||| perm.signExtend 64 ||| pteV

theorem mapped_succ (a pa : Addr) (perm : BitVec 32) (va : Addr) :
    mapped (a + 4096) (pa + 4096) perm va = mapped a pa perm va := by
  have h : pa + 4096 + (pgrounddown va - (a + 4096)) = pa + (pgrounddown va - a) := by
    generalize pgrounddown va = b
    bv_omega
  rw [mapped, mapped, h]

theorem mapped_first (pa : Addr) (perm : BitVec 32) (ha : a.toNat % 4096 = 0) (hva : SamePage a va) :
    mapped a pa perm va = pa2pte pa ||| perm.signExtend 64 ||| pteV := by
  have h : pgrounddown va = a := BitVec.eq_of_toNat_eq (by rw [pgrounddown_toNat]; omega)
  rw [mapped, h, BitVec.sub_self, BitVec.add_zero]

theorem filter_valid {perm : BitVec 32} :
    (some (pa2pte pa ||| perm.signExtend 64 ||| pteV)).filter valid = some (pa2pte pa ||| perm.signExtend 64 ||| pteV) := by
  have hv : valid (pa2pte pa ||| perm.signExtend 64 ||| pteV) = true := decide_eq_true (or_pteV _)
  rw [Option.filter_some, if_pos hv]

/-! ## mappages -/

variable [Image]

/-- A page table whose nodes are distinct pages, none of which is free. -/
structure Table (s : State) (root : Page) (free : List Page) : Prop where
  list : s.freelist = free.map base
  nodup : (free ++ tree s root).Nodup
  ram : ∀ p ∈ free ++ tree s root, Ram p

theorem Table.distinct (h : Table s root free) : (tree s root).Nodup := (List.nodup_append.1 h.nodup).2.1

theorem Table.setPte (h : Table s root free) (hq : leaf child (heap s) (path va) 2 root = some q) (v : Pte) :
    Table (s.setPte (slot q (path va 0)) v) root free := by
  have hp := (tree_setPte h.distinct hq v).append_left free
  exact ⟨h.list, hp.nodup_iff.2 h.nodup, fun p hm => h.ram p (hp.mem_iff.1 hm)⟩

theorem Walked.table (hw : Walked va 2 root free s r s' new free') (h : Table s root free) : Table s' root free' :=
  ⟨hw.list, hw.perm.nodup_iff.2 h.nodup, fun p hp => h.ram p (hw.perm.mem_iff.1 hp)⟩

theorem walk_true (h : Table s root free) (hva : va < maxva) :
    ∃ r s' new free', (walk (base root) va true).run s = .ok r s' ∧ Walked va 2 root free s r s' new free' := by
  rw [walk, if_neg (BitVec.not_le.2 hva)]
  exact walkFrom_true h.list h.nodup fun q hq => h.ram q (List.mem_append_left _ hq)

/-- Nodes have been added to a page table, from the pages on the free list. -/
structure Extended (root : Page) (s : State) (free : List Page) (s' : State) (free' : List Page) : Prop where
  table : Table s' root free'
  taken : ∃ new, free.Perm (new ++ free') ∧ (tree s' root).Perm (new ++ tree s root)
  frame : ∀ q, q ∉ free ++ tree s root → heap s' q = heap s q
  shape : Shape s root → Shape s' root

theorem Walked.extended (hw : Walked va 2 root free s r s' new free')
    (h : Table s root free) (hva : va < maxva) : Extended root s free s' free' where
  table := hw.table h
  taken := ⟨new, hw.taken, hw.ext.nodes⟩
  frame q hq := by
    rw [List.mem_append, not_or] at hq
    exact hw.ext.frame q (fun hm => hq.1 (hw.taken.mem_iff.2 (List.mem_append_left _ hm))) hq.2
  shape := hw.shape hva

theorem Extended.setPte (h : Extended root s free s' free') (hq : leaf child (heap s') (path va) 2 root = some q) (v : Pte) :
    Extended root s free (s'.setPte (slot q (path va 0)) v) free' where
  table := h.table.setPte hq v
  taken := by
    obtain ⟨new, hf, ht⟩ := h.taken
    exact ⟨new, hf, (tree_setPte h.table.distinct hq v).trans ht⟩
  frame r hr := by
    obtain ⟨new, hf, ht⟩ := h.taken
    have hne : r ≠ q := by
      rintro rfl
      have hm := ht.mem_iff.1 (leaf_mem_nodes hq)
      rw [List.mem_append] at hm
      exact hr (List.mem_append.2 (hm.imp (fun hm => hf.mem_iff.2 (List.mem_append_left _ hm)) id))
    rw [heap_setPte, update_of_ne hne, h.frame r hr]
  shape hs := (h.shape hs).setPte h.table.distinct hq v

/-- One turn of the loop of `mappages`: it runs out of pages, or maps a page. -/
theorem mappagesFrom_turn (last pa : Addr) (perm : BitVec 32) (k : Nat) (h : Table s root free) (ha : a < maxva)
    (hnone : translate s (base root) a = none) :
    (∃ s1 free1, (mappagesFrom (base root) last perm (k + 1) a pa).run s = .ok (-1) s1 ∧ Extended root s free s1 free1 ∧
      ∀ va, va < maxva → translate s1 (base root) va = translate s (base root) va) ∨
    ∃ s2 free2, (mappagesFrom (base root) last perm (k + 1) a pa).run s =
        (if a = last then pure 0 else mappagesFrom (base root) last perm k (a + 4096) (pa + 4096)).run s2 ∧
      Extended root s free s2 free2 ∧ ∀ va, va < maxva → translate s2 (base root) va =
        if SamePage a va then some (pa2pte pa ||| perm.signExtend 64 ||| pteV) else translate s (base root) va := by
  obtain ⟨r, s1, new, free1, hrun, hw⟩ := walk_true h ha
  have ht := hw.extended h ha
  rw [mappagesFrom, Cmd.run_bind hrun]
  have hr := hw.result
  cases hq : leaf child (heap s1) (path a) 2 root with
  | none =>
    rw [hq, Option.map_none] at hr
    subst hr
    exact .inl ⟨s1, free1, rfl, ht, fun va hva => hw.translate hva⟩
  | some q =>
    rw [hq, Option.map_some] at hr
    subst hr
    have hv : ¬ heap s1 q (path a 0) &&& pteV ≠ 0 := fun hv => by
      have hn := (hw.translate ha).trans hnone
      rw [translate_leaf ha hq, Option.filter_some, valid, if_pos (decide_eq_true hv)] at hn
      cases hn
    refine .inr ⟨_, free1, ?_, ht.setPte hq (pa2pte pa ||| perm.signExtend 64 ||| pteV), fun va hva => ?_⟩
    · dsimp only
      rw [run_load, if_neg hv]
      rfl
    · rw [translate_setPte ht.table.distinct hq ha hva, hw.translate hva, filter_valid]

/-- What `mappages` of the pages from `a` to `last` does. -/
structure Mapped (root : Page) (a last pa : Addr) (perm : BitVec 32) (s : State) (r : Int) (s' : State) : Prop where
  table : ∃ free, Table s' root free
  result : r = 0 ∨ r = -1
  others : ∀ va, va < maxva → (va.toNat < a.toNat ∨ last.toNat + 4096 ≤ va.toNat) →
    translate s' (base root) va = translate s (base root) va
  range : r = 0 → ∀ va : Addr, a.toNat ≤ va.toNat → va.toNat < last.toNat + 4096 →
    translate s' (base root) va = some (mapped a pa perm va)
  failed : r = -1 → a = last → ∀ va, va < maxva → translate s' (base root) va = translate s (base root) va

theorem Mapped.outOfPages {perm : BitVec 32} (h : Table s' root free)
    (heq : ∀ va, va < maxva → translate s' (base root) va = translate s (base root) va) :
    Mapped root a last pa perm s (-1) s' :=
  ⟨⟨free, h⟩, .inr rfl, fun va hva _ => heq va hva, fun e => absurd e (by decide), fun _ _ => heq⟩

theorem mappagesFrom_spec (pa : Addr) {perm : BitVec 32} (h : Table s root free) (ha : a.toNat % 4096 = 0)
    (hlast : last.toNat = a.toNat + 4096 * k) (hmax : last.toNat + 4096 ≤ 2 ^ 38)
    (hnone : ∀ va : Addr, a.toNat ≤ va.toNat → va.toNat < last.toNat + 4096 → translate s (base root) va = none) :
    ∃ r s', (mappagesFrom (base root) last perm (k + 1) a pa).run s = .ok r s' ∧ Mapped root a last pa perm s r s' := by
  induction k generalizing s free a pa with
  | zero =>
    have hal : a = last := BitVec.eq_of_toNat_eq (by omega)
    rcases mappagesFrom_turn last pa perm 0 h (lt_maxva.2 (by omega))
      (hnone a (by omega) (by omega)) with ⟨s1, free1, hrun, ht, heq⟩ | ⟨s2, free2, hrun, ht, heq⟩
    · exact ⟨-1, s1, hrun, .outOfPages ht.table heq⟩
    · rw [if_pos hal] at hrun
      refine ⟨0, s2, hrun, ⟨_, ht.table⟩, .inl rfl, fun va hva hout => ?_, fun _ va h1 h2 => ?_, fun e => nomatch e⟩
      · rw [heq va hva, if_neg (by omega)]
      · have hp : SamePage a va := by omega
        rw [heq va (lt_maxva.2 (by omega)), if_pos hp, mapped_first pa perm ha hp]
  | succ k ih =>
    have hal : a ≠ last := fun e => by rw [e] at hlast; omega
    rcases mappagesFrom_turn last pa perm (k + 1) h (lt_maxva.2 (by omega))
      (hnone a (by omega) (by omega)) with ⟨s1, free1, hrun, ht, heq⟩ | ⟨s2, free2, hrun, ht, heq⟩
    · exact ⟨-1, s1, hrun, .outOfPages ht.table heq⟩
    · rw [if_neg hal] at hrun
      have hnext : (a + 4096).toNat = a.toNat + 4096 := by
        rw [BitVec.toNat_add, pgsize_toNat]
        omega
      -- the pages after `a` are as they were
      have hrest : ∀ va : Addr, va < maxva → va.toNat < a.toNat ∨ a.toNat + 4096 ≤ va.toNat →
          translate s2 (base root) va = translate s (base root) va := fun va hva hout => by
        rw [heq va hva, if_neg (by omega)]
      obtain ⟨r, s', hrun', hm⟩ := ih (pa + 4096) ht.table (a := a + 4096) (by omega) (by omega) fun va h1 h2 => by
        rw [hrest va (lt_maxva.2 (by omega)) (by omega), hnone va (by omega) h2]
      refine ⟨r, s', hrun.trans hrun', hm.table, hm.result,
        fun va hva hout => ?_, fun hr va h1 h2 => ?_, fun _ e => absurd e hal⟩
      · rw [hm.others va hva (by omega), hrest va hva (by omega)]
      · by_cases hp : SamePage a va
        · rw [hm.others va (lt_maxva.2 (by omega)) (by omega), heq va (lt_maxva.2 (by omega)),
            if_pos hp, mapped_first pa perm ha hp]
        · rw [hm.range hr va (by omega) h2, mapped_succ]

theorem mappages_spec {size : Addr} (pa : Addr) (perm : BitVec 32) (h : Table s root free) (hsize : 0 < size.toNat)
    (hmax : va.toNat + size.toNat ≤ 2 ^ 38)
    (hnone : ∀ va' : Addr, va.toNat / 4096 ≤ va'.toNat / 4096 → va'.toNat / 4096 ≤ (va.toNat + size.toNat - 1) / 4096 →
      translate s (base root) va' = none) :
    ∃ r s', (mappages (base root) va size pa perm).run s = .ok r s' ∧
      Mapped root (pgrounddown va) (pgrounddown (va + size - 1)) pa perm s r s' := by
  have ha := pgrounddown_toNat va
  have hl := last_toNat hsize hmax
  rw [mappages]
  have hk : (pgrounddown (va + size - 1)).toNat = (pgrounddown va).toNat +
      4096 * ((pgrounddown (va + size - 1) - pgrounddown va).toNat / 4096) := by
    rw [BitVec.toNat_sub]
    omega
  exact mappagesFrom_spec pa h (by omega) hk (by omega) fun va' h1 h2 => hnone va' (by omega) (by omega)

/-! ## uvmunmap -/

theorem kfree_ok {f : Page} (hf : Ram f) : (kfree (base f)).run s =
    .ok () { s.memset (base f) 1 with freelist := base f :: s.freelist } := by
  have hc : ¬ (base f % 4096 ≠ 0 ∨ base f < Image.end_ ∨ base f ≥ phystop) := by
    rintro (h | h | h)
    · refine h (BitVec.eq_of_toNat_eq ?_)
      rw [BitVec.toNat_umod, base_toNat, pgsize_toNat, Nat.mul_mod_left]
      rfl
    · exact BitVec.not_lt.2 hf.lo h
    · exact BitVec.not_le.2 hf.hi h
  rw [kfree, if_neg hc]
  rfl

/-- What `kfree` changes: the free list and the page. -/
theorem kfree_same {f : Page} (hf : Ram f) : ∃ s', (kfree (base f)).run s = .ok () s' ∧ s'.freelist = base f :: s.freelist ∧
    ∀ q, q ≠ f → heap s' q = heap s q :=
  ⟨_, kfree_ok hf, rfl, fun q hq => by rw [heap_freelist, heap_memset_ne hq]⟩

/-- Freeing the frame of an entry changes the page of the frame only. -/
theorem freeFrame_ok (s : State) (h : doFree = true → Ram (ppn e)) :
    ∃ s', (Cmd.when doFree (kfree (pte2pa e))).run s = .ok () s' ∧
      s'.freelist = (if doFree then [base (ppn e)] else []) ++ s.freelist ∧
      ∀ q, (doFree = true → q ≠ ppn e) → heap s' q = heap s q := by
  cases doFree with
  | false => exact ⟨s, rfl, rfl, fun _ _ => rfl⟩
  | true =>
    refine ⟨_, by rw [Cmd.when, if_pos rfl, pte2pa_eq, kfree_ok (h rfl)], rfl, fun q hq => ?_⟩
    rw [heap_freelist, heap_memset_ne (hq rfl)]

/-- A page has been removed: its entry was `e`. -/
structure Removed (root : Page) (doFree : Bool) (a : Addr) (e : Pte) (s s' : State) : Prop where
  tree : (tree s' root).Perm (tree s root)
  translate : ∀ va, va < maxva → translate s' (base root) va = if SamePage a va then none else translate s (base root) va
  list : s'.freelist = (if doFree then [base (ppn e)] else []) ++ s.freelist
  frame : ∀ q, q ∉ Vm.tree s root → (doFree = true → q ≠ ppn e) → heap s' q = heap s q
  shape : Shape s root → Shape s' root

/-- One turn of the loop of `uvmunmap` removes a page. -/
theorem uvmunmapFrom_turn (k : Nat) (hd : (tree s root).Nodup) (hlt : a < bound)
    (ha : a < maxva) (he : translate s (base root) a = some e) (hflags : pteFlags e ≠ pteV)
    (hfree : doFree = true → Ram (ppn e) ∧ ppn e ∉ tree s root) :
    ∃ s', (uvmunmapFrom (base root) bound doFree (k + 1) a).run
      s = (uvmunmapFrom (base root) bound doFree k (a + 4096)).run s' ∧
      Removed root doFree a e s s' := by
  rw [uvmunmapFrom, if_pos hlt, Cmd.run_bind (walk_false ha)]
  cases hq : leaf child (heap s) (path a) 2 root with
  | none =>
    rw [translate_eq ha, lookup, hq] at he
    cases he
  | some q =>
    rw [translate_leaf ha hq, Option.filter_eq_some_iff] at he
    obtain ⟨hh, hv⟩ := he
    have hh := Option.some.inj hh
    obtain ⟨s1, hrun, hlist, hframe⟩ := freeFrame_ok s fun h => (hfree h).1
    have hsame : ∀ r ∈ tree s root, heap s1 r = heap s r := fun r hr => hframe r fun hd e => (hfree hd).2 (e ▸ hr)
    have htree : tree s1 root = tree s root := nodes_congr hsame
    have hd1 : (tree s1 root).Nodup := by rw [htree]; exact hd
    have hq1 : leaf child (heap s1) (path a) 2 root = some q := by rw [leaf_congr hsame, hq]
    refine ⟨s1.setPte (slot q (path a 0)) 0, ?_, ?_, fun va hva => ?_, hlist, fun r hr hne => ?_, fun hs => ?_⟩
    · dsimp only [Option.map_some]
      rw [run_load, hh, if_neg (of_decide_eq_true hv), if_neg hflags, Cmd.run_bind hrun]
      rfl
    · rw [← htree]
      exact tree_setPte hd1 hq1 0
    · rw [translate_setPte hd1 hq1 ha hva, translate_eq hva, lookup_congr hsame, ← translate_eq hva]
      rfl
    · have hrq : r ≠ q := by
        rintro rfl
        exact hr (leaf_mem_nodes hq)
      rw [heap_setPte, update_of_ne hrq, hframe r hne]
    · exact (hs.congr hsame).setPte hd1 hq1 0

theorem uvmunmapFrom_spec (hd : (tree s root).Nodup) (ha : a.toNat % 4096 = 0)
    (hb : bound.toNat = a.toNat + 4096 * k) (hmax : bound.toNat ≤ 2 ^ 38)
    (hmap : ∀ va : Addr, a.toNat ≤ va.toNat → va.toNat < bound.toNat → ∃ e, translate s (base root) va = some e ∧
      pteFlags e ≠ pteV ∧ (doFree = true → Ram (ppn e) ∧ ppn e ∉ tree s root)) :
    ∃ s', (uvmunmapFrom (base root) bound doFree (k + 1) a).run s = .ok () s' ∧ (tree s' root).Perm (tree s root) ∧
      ∀ va, va < maxva → translate s' (base root) va =
        if a.toNat ≤ va.toNat ∧ va.toNat < bound.toNat then none else translate s (base root) va := by
  induction k generalizing s a with
  | zero =>
    rw [uvmunmapFrom, if_neg (by rw [BitVec.lt_def]; omega)]
    refine ⟨s, rfl, .refl _, fun va _ => ?_⟩
    rw [if_neg (by omega)]
  | succ k ih =>
    obtain ⟨e, he, hflags, hfree⟩ := hmap a (by omega) (by omega)
    have hlt : a < maxva := lt_maxva.2 (by omega)
    obtain ⟨s1, hrun, hrem⟩ :=
      uvmunmapFrom_turn (k + 1) hd (show a < bound from BitVec.lt_def.2 (by omega)) hlt he hflags hfree
    have htree := hrem.tree
    have heq := hrem.translate
    have hnext : (a + 4096).toNat = a.toNat + 4096 := by
      rw [BitVec.toNat_add, pgsize_toNat]
      omega
    obtain ⟨s', hrun', htree', heq'⟩ := ih (a := a + 4096) (htree.nodup_iff.2 hd) (by omega) (by omega) fun va h1 h2 => by
      rw [heq va (lt_maxva.2 (by omega)), if_neg (by omega)]
      simpa only [htree.mem_iff] using hmap va (by omega) h2
    refine ⟨s', hrun.trans hrun', htree'.trans htree, fun va hva => ?_⟩
    rw [heq' va hva, heq va hva]
    by_cases hp : SamePage a va
    · rw [if_pos hp, ite_self, if_pos (by omega)]
    · rw [if_neg hp]
      exact if_congr (by omega) rfl rfl

end Xv6.Vm
