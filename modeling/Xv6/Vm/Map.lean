import Xv6.Vm.Update

/-!
# A page table is a finite map

The page table under a root maps the virtual pages below `MAXVA` to entries
(`translate`). If its nodes are distinct pages, `mappages` adds the pages of its
range to the map, `uvmunmap` removes them, and neither changes anything else;
`freewalk` gives back the nodes, each once (`page_table_is_map`).

`uvmunmap` takes an entry with no flag besides `PTE_V` for one that points to a
lower level, and panics; so a page mapped with no permission at all cannot be
unmapped (`unmap_without_permission`).
-/

namespace Xv6.Vm

open Function List
open BitVec (toNat_umod eq_of_toNat_eq toNat_add toNat_sub add_zero toNat_ofNat)

open Radix

variable {s s' : State} {root p q : Page} {L depth : Nat} {i : Fin 512} {Q : Unit → State → Prop}
  {done : List (Fin 512)} {l : List Page}

/-! ## freewalk -/

/-- A tree without leaves: the valid entries are those that point to a lower
level. -/
def Leafless (h : Heap Page Pte 512) : Nat → Page → Prop
  | 0, p => ∀ i, h p i &&& pteV = 0
  | L + 1, p => ∀ i, h p i &&& pteV ≠ 0 → h p i &&& (pteR ||| pteW ||| pteX) = 0 ∧ Leafless h L (ppn (h p i))

theorem Leafless.congr {h h' : Heap Page Pte 512} (hl : Leafless h L p) (hh : ∀ q ∈ nodes child h L p, h' q = h q) :
    Leafless h' L p := by
  induction L generalizing p with
  | zero =>
    intro i
    rw [hh p self_mem_nodes]
    exact hl i
  | succ L ih =>
    intro i hv
    rw [hh p self_mem_nodes] at hv ⊢
    obtain ⟨hx, hl⟩ := hl i hv
    refine ⟨hx, ih hl fun q hq => hh q (mem_nodes_of_below (i := i) ?_)⟩
    rwa [below_some (child_of_valid hv)]

theorem nodup_indices : indices.Nodup := by
  unfold indices
  exact nodup_finRange 512

theorem nodes_indices (h : Heap Page Pte 512) (L : Nat) (p : Page) :
    nodes child h (L + 1) p = p :: indices.flatMap fun i => below child h L (h p i) := by
  unfold indices
  rfl

theorem freeEntry_none {walk : Addr → KCmd Unit} (hv : heap s p i &&& pteV = 0) (h : Q () s) :
    Cmd.Spec (fun _ => False) s (freeEntry walk (base p) i) Q := by
  rw [Cmd.Spec, freeEntry, ← slot, run_load, if_neg fun h => h.1 hv, if_neg fun h => h hv]
  exact h

/-- An entry that points to a lower level is freed, and cleared. -/
theorem freeEntry_some {walk : Addr → KCmd Unit} (hv : heap s p i &&& pteV ≠ 0)
    (hx : heap s p i &&& (pteR ||| pteW ||| pteX) = 0)
    (h : Cmd.Spec (fun _ => False) s (walk (base (ppn (heap s p i)))) fun _ s' => Q () (s'.setPte (slot p i) 0)) :
    Cmd.Spec (fun _ => False) s (freeEntry walk (base p) i) Q := by
  rw [Cmd.Spec, freeEntry, ← slot, run_load, if_pos ⟨hv, hx⟩, pte2pa_eq]
  exact Cmd.Spec.bind h fun _ _ hQ => hQ

/-- What `freewalk` of the node `p` at level `L` does: it frees the pages `l`. -/
structure Freed (L : Nat) (p : Page) (s s' : State) (l : List Page) : Prop where
  perm : l.Perm (nodes child (heap s) L p)
  list : s'.freelist = l.map base ++ s.freelist
  frame : ∀ q, q ∉ nodes child (heap s) L p → heap s' q = heap s q

/-- The nodes under the entries `done` of a node at level `L + 1`. -/
def kids (s : State) (L : Nat) (p : Page) (done : List (Fin 512)) : List Page :=
  done.flatMap fun i => below child (heap s) L (heap s p i)

/-- The loop of `freewalk` after the entries `done`. -/
structure Freeing (L : Nat) (p : Page) (s : State) (done : List (Fin 512)) (s' : State) (l : List Page) : Prop where
  perm : l.Perm (kids s L p done)
  list : s'.freelist = l.map base ++ s.freelist
  rest : ∀ i, i ∉ done → heap s' p i = heap s p i
  frame : ∀ q, q ≠ p → q ∉ kids s L p done → heap s' q = heap s q

theorem kids_concat (done : List (Fin 512)) (i : Fin 512) :
    kids s L p (done ++ [i]) = kids s L p done ++ below child (heap s) L (heap s p i) := by
  simp only [kids, flatMap_append, flatMap_cons, flatMap_nil, append_nil]

/-- An entry that is not valid has nothing under it. -/
theorem Freeing.skip (h : Freeing L p s done s' l) (hv : heap s p i &&& pteV = 0) :
    Freeing L p s (done ++ [i]) s' l := by
  have hk : kids s L p (done ++ [i]) = kids s L p done := by
    rw [kids_concat, below_none (child_of_not (not_not.2 hv)), append_nil]
  exact ⟨hk ▸ h.perm, h.list, fun j hj => h.rest j fun hm => hj (mem_append_left _ hm),
    fun q hqp hq => h.frame q hqp (hk ▸ hq)⟩

/-- The nodes under an entry are freed. -/
theorem Freeing.free {s1 s2 : State} {l2 : List Page} (h : Freeing L p s done s1 l)
    (hd : (nodes child (heap s) (L + 1) p).Nodup) (hc : child (heap s p i) = some q)
    (hsame : nodes child (heap s1) L q = nodes child (heap s) L q) (hf : Freed L q s1 s2 l2) :
    Freeing L p s (done ++ [i]) (s2.setPte (slot p i) 0) (l2 ++ l) := by
  have hbelow : below child (heap s) L (heap s p i) = nodes child (heap s1) L q := by rw [below_some hc, hsame]
  have hp : p ∉ nodes child (heap s1) L q := fun hm => (not_mem_of_below hd (hbelow ▸ hm)).1 rfl
  refine ⟨?_, ?_, fun j hj => ?_, fun r hr hrk => ?_⟩
  · rw [kids_concat, hbelow]
    exact (hf.perm.append h.perm).trans perm_append_comm
  · rw [map_append, append_assoc, ← h.list]
    exact hf.list
  · rw [mem_append, mem_singleton, not_or] at hj
    rw [heap_setPte, update_self, update_of_ne hj.2, hf.frame p hp, h.rest j hj.1]
  · rw [kids_concat, hbelow, mem_append, not_or] at hrk
    rw [heap_setPte, update_of_ne hr, hf.frame r hrk.2, h.frame r hr hrk.1]

section

variable [Image]

theorem freewalk_spec (hd : (nodes child (heap s) L p).Nodup) (hram : ∀ q ∈ nodes child (heap s) L p, Ram q)
    (hl : Leafless (heap s) L p) (hdepth : L < depth) :
    Cmd.Spec (fun _ => False) s (freewalk depth (base p)) fun _ s' => ∃ l, Freed L p s s' l := by
  induction L generalizing s p depth with
  | zero =>
    obtain ⟨depth, rfl⟩ : ∃ d, depth = d + 1 := ⟨depth - 1, by omega⟩
    rw [freewalk]
    refine .bind (.forEach (fun _ s' => s' = s) rfl ?_) ?_
    · rintro _ i _ s1 - rfl
      exact freeEntry_none (hl i) rfl
    · rintro _ s1 rfl
      refine .of_run (kfree_ok (hram p self_mem_nodes)) ⟨[p], .refl _, rfl, fun q hq => ?_⟩
      have hne : q ≠ p := fun e => hq (by rw [e]; exact self_mem_nodes)
      rw [heap_freelist, heap_memset_ne hne]
  | succ L ih =>
    obtain ⟨depth, rfl⟩ : ∃ d, depth = d + 1 := ⟨depth - 1, by omega⟩
    rw [freewalk]
    refine .bind (.forEach (fun done s' => ∃ l, Freeing L p s done s' l) ?_ ?_) ?_
    · exact ⟨[], .refl _, rfl, fun _ _ => rfl, fun _ _ _ => rfl⟩
    · rintro done i rest s1 hall ⟨l, h⟩
      have hn := nodup_indices
      rw [hall] at hn
      have hi : i ∉ done := fun hm => (nodup_append.1 hn).2.2 i hm i mem_cons_self rfl
      have hpi := h.rest i hi
      by_cases hv : heap s p i &&& pteV ≠ 0
      · have hc := child_of_valid hv
        obtain ⟨hx, hleaf⟩ := hl i hv
        -- the nodes under the entry are none of those freed so far
        have hsame : ∀ q ∈ nodes child (heap s) L (ppn (heap s p i)), heap s1 q = heap s q := fun q hq => by
          obtain ⟨hqp, hqj⟩ := not_mem_of_below hd (i := i) (by rwa [below_some hc])
          refine h.frame q hqp fun hm => ?_
          obtain ⟨j, hj, hqm⟩ := mem_flatMap.1 hm
          exact hqj j (fun e => hi (e ▸ hj)) hqm
        have hnodes := nodes_congr hsame
        have hd1 : (nodes child (heap s1) L (ppn (heap s p i))).Nodup := by rw [hnodes]; exact nodup_of_child hd hc
        have hf := ih hd1 (fun q hq => hram q (mem_nodes_of_below (i := i) (by rw [below_some hc, ← hnodes]; exact hq)))
          (hleaf.congr hsame) (show L < depth by omega)
        refine freeEntry_some (by rw [hpi]; exact hv) (by rw [hpi]; exact hx) ?_
        rw [hpi]
        refine hf.mono ?_
        rintro _ s2 ⟨l2, hf⟩
        exact ⟨l2 ++ l, h.free hd hc hnodes hf⟩
      · rw [not_not] at hv
        exact freeEntry_none (by rw [hpi]; exact hv) ⟨l, h.skip hv⟩
    · rintro _ s1 ⟨l, h⟩
      refine .of_run (kfree_ok (hram p self_mem_nodes)) ⟨p :: l, ?_, ?_, fun q hq => ?_⟩
      · rw [nodes_indices]
        exact h.perm.cons p
      · rw [map_cons, cons_append, ← h.list]
      · rw [nodes_indices, mem_cons, not_or] at hq
        rw [heap_freelist, heap_memset_ne hq.1, h.frame q hq.1 hq.2]

/-! ## The map -/

/-- `va'` is in a page of the range of `size` bytes from `va`. -/
def InRange (va size va' : Addr) : Prop :=
  va.toNat / 4096 ≤ va'.toNat / 4096 ∧ va'.toNat / 4096 ≤ (va.toNat + size.toNat - 1) / 4096

omit [Image] in
theorem aligned_add {pa : Addr} (hpa : pa % 4096 = 0) (va va' : Addr) :
    (pa + (pgrounddown va - pgrounddown va')) % 4096 = 0 := by
  have hp := congrArg BitVec.toNat hpa
  have h1 := pgrounddown_toNat va
  have h2 := pgrounddown_toNat va'
  rw [toNat_umod, pgsize_toNat, show (0 : Addr).toNat = 0 from rfl] at hp
  refine eq_of_toNat_eq ?_
  rw [toNat_umod, toNat_add, toNat_sub, pgsize_toNat,
    show (0 : Addr).toNat = 0 from rfl]
  omega

/-- What `mappages` does to the map. -/
theorem mappages_map {free : List Page} (h : Table s root free) (va size pa : Addr) (perm : BitVec 32) (hsize : 0 < size.toNat)
    (hmax : va.toNat + size.toNat ≤ 2 ^ 38) (hpa : pa % 4096 = 0) (hperm : perm.toNat < 1024)
    (hnone : ∀ va', InRange va size va' → translate s (base root) va' = none) :
    ∃ r s', (mappages (base root) va size pa perm).run s = .ok r s' ∧ (∃ free', Table s' root free') ∧ (r = 0 ∨ r = -1) ∧
      (r = 0 → ∀ va', va' < maxva →
        (InRange va size va' → ∃ e, translate s' (base root) va' = some e ∧
          pte2pa e = pa + (pgrounddown va' - pgrounddown va) ∧ pteFlags e = perm.setWidth 64 ||| pteV) ∧
        (¬ InRange va size va' → translate s' (base root) va' = translate s (base root) va')) ∧
      (r = -1 → va.toNat / 4096 = (va.toNat + size.toNat - 1) / 4096 →
        ∀ va', va' < maxva → translate s' (base root) va' = translate s (base root) va') := by
  obtain ⟨r, s', hrun, hm⟩ := mappages_spec pa perm h hsize hmax fun va' h1 h2 => hnone va' ⟨h1, h2⟩
  have ha := pgrounddown_toNat va
  have hl := last_toNat hsize hmax
  refine ⟨r, s', hrun, hm.table, hm.result, fun hr va' hva' => ⟨fun hin => ?_, fun hout => ?_⟩, fun hr hone => ?_⟩
  · refine ⟨_, hm.range hr va' (by unfold InRange at hin; omega) (by unfold InRange at hin; omega), ?_⟩
    obtain ⟨hsign, hflags⟩ := perm_setWidth hperm
    rw [mapped, BitVec.or_assoc, hsign]
    exact ⟨pte2pa_or (aligned_add hpa va' va) hflags, pteFlags_or _ hflags⟩
  · refine hm.others va' hva' ?_
    unfold InRange at hout
    omega
  · exact hm.failed hr (eq_of_toNat_eq (by omega))

/-- What `uvmunmap` of mapped pages does to the map. -/
theorem uvmunmap_map {va n : Addr} {doFree : Bool} (hd : (tree s root).Nodup) (hva : va % 4096 = 0)
    (hmap : ∀ k, k < n.toNat → ∃ e, translate s (base root) (va + .ofNat 64 (4096 * k)) = some e ∧ pteFlags e ≠ pteV ∧
      (doFree = true → Ram (ppn e) ∧ ppn e ∉ tree s root)) :
    ∃ s', (uvmunmap (base root) va n doFree).run s = .ok () s' ∧ (tree s' root).Perm (tree s root) ∧
      ∀ va', va' < maxva → translate s' (base root) va' =
        if va.toNat ≤ va'.toNat ∧ va'.toNat < va.toNat + 4096 * n.toNat then none else translate s (base root) va' := by
  have hva' := congrArg BitVec.toNat hva
  rw [toNat_umod, pgsize_toNat, show (0 : Addr).toNat = 0 from rfl] at hva'
  -- the pages are mapped, so they are below `MAXVA`
  have hlt : ∀ k, k < n.toNat → va.toNat + 4096 * k < 2 ^ 38 := by
    intro k
    induction k with
    | zero =>
      intro hk
      obtain ⟨e, he, -⟩ := hmap 0 hk
      have := lt_of_translate he
      rwa [mul_zero, add_zero] at this
    | succ k ih =>
      intro hk
      have hprev := ih (by omega)
      obtain ⟨e, he, -⟩ := hmap (k + 1) hk
      have := lt_of_translate he
      rw [toNat_add, toNat_ofNat] at this
      omega
  rw [uvmunmap, if_neg (not_not.2 hva)]
  rcases Nat.eq_zero_or_pos n.toNat with hn | hn
  · have hb : va + n * 4096 = va := by
      rw [show n = 0#64 from eq_of_toNat_eq hn, BitVec.zero_mul, add_zero]
    refine ⟨s, ?_, .refl _, fun va' _ => by rw [if_neg (by omega)]⟩
    dsimp only
    rw [hb, uvmunmapFrom, if_neg (BitVec.lt_irrefl va)]
    rfl
  · have hlast := hlt (n.toNat - 1) (by omega)
    have hb : (va + n * 4096).toNat = va.toNat + 4096 * n.toNat := by
      rw [toNat_add, BitVec.toNat_mul, pgsize_toNat]
      omega
    have hturns : (va + n * 4096 - va).toNat / 4096 = n.toNat := by
      rw [toNat_sub, hb]
      omega
    dsimp only
    rw [hturns, ← hb]
    refine uvmunmapFrom_spec hd hva' hb (by omega) fun va' h1 h2 => ?_
    have hk := hlt ((va'.toNat - va.toNat) / 4096) (by omega)
    obtain ⟨e, he, hrest⟩ := hmap ((va'.toNat - va.toNat) / 4096) (by omega)
    refine ⟨e, ?_, hrest⟩
    rw [← he]
    refine translate_page (lt_maxva.2 ?_) (lt_maxva.2 (by omega)) ?_ <;> rw [toNat_add, toNat_ofNat] <;> omega

/-- On a page table whose nodes are distinct pages: `mappages` of a range with
no page mapped adds the translations of the range if it returns 0, and none if
it returns -1 for a single page; the nodes that `walk` adds are taken off the
free list and empty but for the links between them; `uvmunmap` removes the
translations of pages mapped with some flag besides `PTE_V` (if it frees their
frames, these are pages of the allocator, and no nodes); the nodes stay
distinct; and `freewalk` of a tree without leaves frees each node once. -/
theorem page_table_is_map {free : List Page} (h : Table s root free) :
    (∀ (va size pa : Addr) (perm : BitVec 32), 0 < size.toNat → va.toNat + size.toNat ≤ maxva.toNat → pa % 4096 = 0 →
      perm.toNat < 1024 → (∀ va', InRange va size va' → translate s (base root) va' = none) →
      ∃ r s', (mappages (base root) va size pa perm).run s = .ok r s' ∧ (∃ free', Table s' root free') ∧ (r = 0 ∨ r = -1) ∧
        (r = 0 → ∀ va', va' < maxva →
          (InRange va size va' → ∃ e, translate s' (base root) va' = some e ∧
            pte2pa e = pa + (pgrounddown va' - pgrounddown va) ∧ pteFlags e = perm.setWidth 64 ||| pteV) ∧
          (¬ InRange va size va' → translate s' (base root) va' = translate s (base root) va')) ∧
        (r = -1 → va.toNat / 4096 = (va.toNat + size.toNat - 1) / 4096 →
          ∀ va', va' < maxva → translate s' (base root) va' = translate s (base root) va')) ∧
    (∀ va, va < maxva → ∃ r s' new, (walk (base root) va true).run s = .ok r s' ∧ (tree s' root).Perm (new ++ tree s root) ∧
      ∀ q ∈ new, q ∈ free ∧ ∀ i, heap s' q i = 0 ∨ ∃ c ∈ new, heap s' q i = link c) ∧
    (∀ (va n : Addr) (doFree : Bool), va % 4096 = 0 →
      (∀ k, k < n.toNat → ∃ e, translate s (base root) (va + .ofNat 64 (4096 * k)) = some e ∧ pteFlags e ≠ pteV ∧
        (doFree = true → Ram (ppn e) ∧ ppn e ∉ tree s root)) →
      ∃ s', (uvmunmap (base root) va n doFree).run s = .ok () s' ∧ (tree s' root).Nodup ∧
        ∀ va', va' < maxva → translate s' (base root) va' =
          if va.toNat ≤ va'.toNat ∧ va'.toNat < va.toNat + 4096 * n.toNat then none else translate s (base root) va') ∧
    (Leafless (heap s) 2 root → ∀ depth, 3 ≤ depth → ∃ (s' : State) (l : List Page),
      (freewalk depth (base root)).run s = .ok () s' ∧
      l.Perm (tree s root) ∧ l.Nodup ∧ s'.freelist = l.map base ++ s.freelist) := by
  refine ⟨mappages_map h, fun va hva => ?_, fun va n doFree hva hmap => ?_, fun hl depth hdepth => ?_⟩
  · obtain ⟨r, s', new, free', hrun, hw⟩ := walk_true h hva
    exact ⟨r, s', new, hrun, hw.ext.nodes, fun q hq => ⟨hw.taken.mem_iff.2 (mem_append_left _ hq), hw.fresh q hq⟩⟩
  · obtain ⟨s', hrun, hperm, heq⟩ := uvmunmap_map h.distinct hva hmap
    exact ⟨s', hrun, hperm.nodup_iff.2 h.distinct, heq⟩
  · obtain ⟨_, s', hrun, l, hf⟩ := (freewalk_spec h.distinct (fun q hq => h.ram q (mem_append_right _ hq)) hl
      (by omega : 2 < depth)).result
    exact ⟨s', l, hrun, hf.perm, hf.perm.nodup_iff.2 h.distinct, hf.list⟩

end

/-! ## One page -/

/-- A kernel of 16 pages. -/
local instance : Image := ⟨kernbase + 16 * 4096, by decide⟩

/-- The page of an empty page table. -/
def emptyRoot : Page := 0x80010

/-- Memory that is all zero, with two free pages. -/
def blank : State := ⟨fun _ => 0, [base 0x80011, base 0x80012]⟩

theorem heap_blank (p : Page) (i : Fin 512) : heap blank p i = 0 := by
  have hz : getLE (fun _ => 0) (slot p i).toNat 8 = 0 := getLE_const fun _ _ _ => rfl
  rw [heap, State.pte, blank, hz]
  rfl

theorem table_blank : Table blank emptyRoot [0x80011, 0x80012] := by
  have ht : tree blank emptyRoot = [emptyRoot] := nodes_empty fun j => by rw [heap_blank, child_zero]
  refine ⟨rfl, by rw [ht]; decide, fun p hp => ?_⟩
  rw [ht] at hp
  simp only [mem_append, mem_cons, not_mem_nil, or_false] at hp
  rcases hp with (rfl | rfl) | rfl
  · exact ⟨by decide, by decide⟩
  · exact ⟨by decide, by decide⟩
  · exact ⟨by decide, by decide⟩

theorem translate_blank (va : Addr) : translate blank (base emptyRoot) va = none := by
  by_cases h : maxva ≤ va
  · exact translate_of_le h
  · rw [translate_eq (BitVec.not_le.1 h)]
    exact lookup_empty (fun j => by rw [heap_blank, child_zero]) fun j => by rw [heap_blank]; decide

/-- The first `size` virtual addresses are mapped, and if that succeeds `k` is run. -/
def mapFirst (size : Addr) (perm : BitVec 32) (k : KCmd Unit) : KCmd Unit := do
  let r ← mappages (base emptyRoot) 0 size kernbase perm
  Cmd.when (r = 0) k

theorem mapFirst_panic {size : Addr} {perm : BitVec 32} {k : KCmd Unit} {m : String} {r : Int} {s' : State}
    (h : (mapFirst size perm k).run blank = .panic m)
    (hr : (mappages (base emptyRoot) 0 size kernbase perm).run blank = .ok r s') : r = 0 ∧ k.run s' = .panic m := by
  rw [mapFirst, Cmd.run_bind hr] at h
  by_cases h0 : r = 0
  · rw [decide_eq_true h0, Cmd.when, if_pos rfl] at h
    exact ⟨h0, h⟩
  · rw [decide_eq_false h0] at h
    cases h

set_option maxRecDepth 100000 in
theorem mapFirst_readable : (mapFirst 4096 2 (.panic "mapped")).run blank = .panic "mapped" := Res.panics_iff.1
    (by decide +kernel)

/-- A readable page is mapped in an empty page table, and unmapped again. -/
theorem page_table_is_map_first : Table blank emptyRoot [0x80011, 0x80012] ∧
    ∃ s1 s2, (mappages (base emptyRoot) 0 4096 kernbase 2).run blank = .ok 0 s1 ∧
      (∃ e, translate s1 (base emptyRoot) 0 = some e ∧ pte2pa e = kernbase ∧ pteFlags e = pteR ||| pteV) ∧
      (uvmunmap (base emptyRoot) 0 1 false).run s1 = .ok () s2 ∧ translate s2 (base emptyRoot) 0 = none := by
  refine ⟨table_blank, ?_⟩
  obtain ⟨r, s1, hrun, ⟨free, ht⟩, -, hmap, -⟩ := (page_table_is_map table_blank).1 0 4096 kernbase 2 (by decide) (by decide)
    (by decide) (by decide) fun va' _ => translate_blank va'
  obtain ⟨rfl, -⟩ := mapFirst_panic mapFirst_readable hrun
  obtain ⟨e, he, hpa, hflags⟩ := (hmap rfl 0 (by decide)).1 ⟨by decide, by decide⟩
  obtain ⟨s2, hrun2, -, hnone⟩ := (page_table_is_map ht).2.2.1 0 1 false (by decide) fun k hk => by
    obtain rfl : k = 0 := Nat.lt_one_iff.1 hk
    exact ⟨e, he, by rw [hflags]; decide, fun h => nomatch h⟩
  refine ⟨s1, s2, hrun, ⟨e, he, hpa, hflags⟩, hrun2, ?_⟩
  rw [hnone 0 (by decide), if_pos (by decide)]

set_option maxRecDepth 100000 in
theorem mapFirst_unmap : (mapFirst 4096 0 (uvmunmap (base emptyRoot) 0 1 false)).run blank = .panic "uvmunmap: not a leaf" :=
  Res.panics_iff.1 (by decide +kernel)

/-- A page mapped with no permission has a translation, and `uvmunmap` panics. -/
theorem unmap_without_permission : Table blank emptyRoot [0x80011, 0x80012] ∧
    ∃ s1, (mappages (base emptyRoot) 0 4096 kernbase 0).run blank = .ok 0 s1 ∧
      (∃ free, Table s1 emptyRoot free) ∧ (∃ e, translate s1 (base emptyRoot) 0 = some e) ∧
      (uvmunmap (base emptyRoot) 0 1 false).run s1 = .panic "uvmunmap: not a leaf" := by
  refine ⟨table_blank, ?_⟩
  obtain ⟨r, s1, hrun, ht, -, hmap, -⟩ := mappages_map table_blank 0 4096 kernbase 0
    (by decide) (by decide) (by decide) (by decide) fun va' _ => translate_blank va'
  obtain ⟨rfl, hpanic⟩ := mapFirst_panic mapFirst_unmap hrun
  obtain ⟨e, he, -⟩ := (hmap rfl 0 (by decide)).1 ⟨by decide, by decide⟩
  exact ⟨s1, hrun, ht, ⟨e, he⟩, hpanic⟩

end Xv6.Vm
