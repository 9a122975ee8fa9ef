import Xv6.Vm.Pages

/-!
# Walking a page table

`walk` goes down a radix tree of height 2. Without `alloc` it finds the entry
that the address's path leads to and changes nothing (`walkFrom_false`). With
`alloc` it takes pages off the free list for the nodes that are missing, and
these are empty but for the links from one to the next (`walkFrom_true`). If it
runs out of pages the nodes that it has added stay; no translation is changed.
-/

namespace Xv6.Vm

open Function List

open Radix

/-- The nodes of a page table. -/
def tree (s : State) (root : Page) : List Page := nodes child (heap s) 2 root

/-- What a virtual address is translated to, as found by `walk`. -/
def translate (s : State) (pagetable va : Addr) : Option Pte :=
  match (walk pagetable va false).run s with
  | .ok (some pte) s' => if s'.pte pte &&& pteV ≠ 0 then some (s'.pte pte) else none
  | _ => none

/-- The entry that links a page-table page to the level above. -/
def link (c : Page) : Pte := pa2pte (base c) ||| pteV

section

variable [Image]

/-- A page that the allocator manages. -/
structure Ram (p : Page) : Prop where
  lo : Image.end_ ≤ base p
  hi : base p < phystop

theorem Ram.ne_zero {p : Page} (h : Ram p) : base p ≠ 0 := by
  have h1 := BitVec.le_trans Image.above h.lo
  intro e
  rw [e] at h1
  exact nomatch h1

end

variable {s s' : State} {p root : Page} {va : Addr} {L : Nat} {free : List Page}

theorem child_link (c : Page) : child (link c) = some c := by
  rw [link, child_of_valid (or_pteV _), ppn_link]

theorem child_zero : child 0 = none := child_of_not (by decide)

theorem kalloc_nil (h : s.freelist = []) : kalloc.run s = .ok 0 s := by
  rw [kalloc, Cmd.run_get, h]
  rfl

theorem kalloc_cons {r : Addr} {rest : List Addr} (h : s.freelist = r :: rest) :
    kalloc.run s = .ok r (({ s with freelist := rest } : State).memset r 5) := by
  rw [kalloc, Cmd.run_get, h]
  rfl

theorem run_load {α : Type} (p : Page) (i : Fin 512) (k : Pte → KCmd α) :
    (load (slot p i) >>= k).run s = (k (heap s p i)).run s := rfl

/-! ## One level -/

section Level

variable {i : Fin 512} {alloc : Bool} (hi : i = path va (L + 1))

include hi

theorem walkFrom_valid (hv : heap s p i &&& pteV ≠ 0) :
    (walkFrom va alloc (L + 1) (base p)).run s = (walkFrom va alloc L (base (ppn (heap s p i)))).run s := by
  rw [walkFrom, entry_px, ← hi, run_load, if_pos hv, pte2pa_eq]

theorem walkFrom_none (hv : ¬ heap s p i &&& pteV ≠ 0) : (walkFrom va false (L + 1) (base p)).run s = .ok none s := by
  rw [walkFrom, entry_px, ← hi, run_load, if_neg hv]
  rfl

/-- The next level is allocated, if there is a page. -/
theorem walkFrom_alloc (hv : ¬ heap s p i &&& pteV ≠ 0) : (walkFrom va true (L + 1) (base p)).run s = (do
    let page ← kalloc
    if page = 0 then return none
    else
      memset page 0
      store (slot p i) (pa2pte page ||| pteV)
      walkFrom va true L page : KCmd _).run s := by
  rw [walkFrom, entry_px, ← hi, run_load, if_neg hv]
  rfl

end Level

theorem walkFrom_false (va : Addr) (L : Nat) (p : Page) (s : State) :
    (walkFrom va false L (base p)).run s = .ok ((leaf child (heap s) (path va) L p).map (slot · (path va 0))) s := by
  induction L generalizing p with
  | zero =>
    rw [leaf, Option.map_some, ← entry_px]
    rfl
  | succ L ih =>
    rw [leaf]
    by_cases hv : heap s p (path va (L + 1)) &&& pteV ≠ 0
    · rw [walkFrom_valid rfl hv, ih, child_of_valid hv, Option.bind_some]
    · rw [walkFrom_none rfl hv, child_of_not hv, Option.bind_none, Option.map_none]

theorem walk_false (h : va < maxva) :
    (walk (base root) va false).run s = .ok ((leaf child (heap s) (path va) 2 root).map (slot · (path va 0))) s := by
  rw [walk, if_neg (BitVec.not_le.2 h), walkFrom_false]

/-- `walk` finds what the path of the address leads to. -/
theorem translate_eq (h : va < maxva) : translate s (base root) va = lookup child (heap s) valid (path va) 2 root := by
  rw [translate, walk_false h, Radix.lookup]
  cases leaf child (heap s) (path va) 2 root with
  | none => rfl
  | some q =>
    rw [Option.map_some, Option.map_some, Option.filter_some]
    show (if heap s q (path va 0) &&& pteV ≠ 0 then some (heap s q (path va 0)) else none) = _
    simp [valid]

theorem translate_of_le {pagetable : Addr} (h : maxva ≤ va) : translate s pagetable va = none := by
  rw [translate, walk, if_pos h]
  rfl

theorem translate_congr (h : ∀ q ∈ tree s root, heap s' q = heap s q) : translate s' (base root) va = translate s
    (base root) va := by
  by_cases hva : va < maxva
  · rw [translate_eq hva, translate_eq hva, lookup_congr h]
  · rw [translate_of_le (BitVec.not_lt.1 hva), translate_of_le (BitVec.not_lt.1 hva)]

theorem translate_same (h : ∀ q ∈ tree s root, heap s' q = heap s q) (va : Addr) :
    translate s' (base root) va = translate s (base root) va := translate_congr h

theorem translate_page {va va' : Addr} (h : va < maxva) (h' : va' < maxva) (hp : va'.toNat / 4096 = va.toNat / 4096) :
    translate s (base root) va' = translate s (base root) va := by
  have hpath : ∀ k, k ≤ 2 → path va' k = path va k := (samePath_iff h h').2 hp
  have hleaf : leaf child (heap s) (path va') 2 root = leaf child (heap s) (path va) 2 root := by
    simp only [leaf, Nat.reduceAdd, hpath 1 (by omega), hpath 2 (by omega)]
  rw [translate_eq h, translate_eq h', Radix.lookup, Radix.lookup, hleaf, hpath 0 (by omega)]

/-- What a walk with `alloc` does from the node `p` at level `L`, with `free`
on the free list: it takes the pages `new`. -/
structure Walked (va : Addr) (L : Nat) (p : Page) (free : List Page) (s : State) (r : Option Addr) (s' : State)
    (new free' : List Page) : Prop where
  list : s'.freelist = free'.map base
  taken : free.Perm (new ++ free')
  ext : Extends child valid (heap s) (heap s') L p new
  result : r = (leaf child (heap s') (path va) L p).map (slot · (path va 0))
  fresh : ∀ q ∈ new, ∀ i, heap s' q i = 0 ∨ ∃ c ∈ new, heap s' q i = link c
  kept : ∀ q, q ∉ new → ∀ i, heap s' q i = heap s q i ∨ ∃ c ∈ new, heap s' q i = link c
  first : ∀ i, i ≠ path va L → heap s' p i = heap s p i

/-- The state in which a fresh node `c` has been linked. -/
def linked (s : State) (p : Page) (i : Fin 512) (c : Page) (free : List Page) : State :=
  ((({ s with freelist := free.map base } : State).memset (base c) 5).memset (base c) 0).setPte (slot p i) (link c)

theorem heap_linked (s : State) (p : Page) (i : Fin 512) {c : Page} (free : List Page) (hc : p ≠ c) :
    heap (linked s p i c free) p i = link c ∧ (∀ j, j ≠ i → heap (linked s p i c free) p j = heap s p j) ∧
    (∀ q, q ≠ p → q ≠ c → heap (linked s p i c free) q = heap s q) ∧ ∀ j, heap (linked s p i c free) c j = 0 := by
  rw [linked, heap_setPte]
  refine ⟨?_, fun j hj => ?_, fun q hq hqc => ?_, fun j => ?_⟩
  · rw [update_self, update_self]
  · rw [update_self, update_of_ne hj, heap_memset_ne hc, heap_memset_ne hc]
    rfl
  · rw [update_of_ne hq, heap_memset_ne hqc, heap_memset_ne hqc]
    rfl
  · rw [update_of_ne (Ne.symm hc), heap_memset_zero]

theorem walkFrom_true [Image] (hl : s.freelist = free.map base) (hd : (free ++ nodes child (heap s) L p).Nodup)
    (hram : ∀ q ∈ free, Ram q) :
    ∃ r s' new free', (walkFrom va true L (base p)).run s = .ok r s' ∧ Walked va L p free s r s' new free' := by
  induction L generalizing s p free with
  | zero =>
    refine ⟨_, s, [], free, rfl, hl, .refl _, .refl, ?_, by simp, fun _ _ _ => .inl rfl, fun _ _ => rfl⟩
    rw [leaf, Option.map_some, entry_px]
  | succ L ih =>
    obtain ⟨hfree, hnodes, hdisj⟩ := nodup_append.1 hd
    have hout : ∀ q ∈ free, q ∉ nodes child (heap s) (L + 1) p := fun q hq hm => hdisj q hq q hm rfl
    by_cases hv : heap s p (path va (L + 1)) &&& pteV ≠ 0
    · -- the next level is there
      have hc := child_of_valid hv
      have hsub : (free ++ nodes child (heap s) L (ppn (heap s p (path va (L + 1))))).Nodup :=
        nodup_append.2 ⟨hfree, nodup_of_child hnodes hc, fun q hq r hr e =>
          hout q hq (mem_nodes_of_below (i := path va (L + 1)) (by rw [below_some hc, e]; exact hr))⟩
      obtain ⟨r, s', new, free', hrun, hw⟩ := ih hl hsub hram
      have hnew : ∀ q ∈ new, q ∉ nodes child (heap s) (L + 1) p := fun q hq =>
        hout q (hw.taken.mem_iff.2 (mem_append_left _ hq))
      have hhp : heap s' p = heap s p := hw.ext.frame p (fun hm => hnew p hm self_mem_nodes) fun hm =>
        (not_mem_of_below hnodes (i := path va (L + 1)) (by rwa [below_some hc])).1 rfl
      refine ⟨r, s', new, free', by rw [walkFrom_valid rfl hv, hrun], hw.list, hw.taken, hw.ext.below hnodes hnew hc, ?_,
        hw.fresh, hw.kept, fun i _ => by rw [hhp]⟩
      rw [leaf, hhp, hc]
      exact hw.result
    · have hc := child_of_not hv
      cases free with
      | nil =>
        -- there is no page
        refine ⟨none, s, [], [], ?_, hl, .refl _, .refl, ?_, by simp, fun _ _ _ => .inl rfl, fun _ _ => rfl⟩
        · rw [walkFrom_alloc rfl hv, Cmd.run_bind (kalloc_nil hl), if_pos rfl]
          rfl
        · rw [leaf, hc]
          rfl
      | cons c free =>
        -- the page `c` becomes the next level
        have hcp : c ∉ nodes child (heap s) (L + 1) p := hout c mem_cons_self
        have hpc : p ≠ c := fun e => hcp (e ▸ self_mem_nodes)
        obtain ⟨hpi, hpj, hq', hcj⟩ := heap_linked s p (path va (L + 1)) free hpc
        have hempty : ∀ j, child (heap (linked s p (path va (L + 1)) c free) c j) = none := fun j => by rw [hcj, child_zero]
        have hrun : (walkFrom va true (L + 1) (base p)).run s =
            (walkFrom va true L (base c)).run (linked s p (path va (L + 1)) c free) := by
          rw [walkFrom_alloc rfl hv, Cmd.run_bind (kalloc_cons hl), if_neg (hram c mem_cons_self).ne_zero]
          rfl
        have hone : nodes child (heap (linked s p (path va (L + 1)) c free)) L c = [c] := nodes_empty hempty
        have hsub : (free ++ nodes child (heap (linked s p (path va (L + 1)) c free)) L c).Nodup := by
          rw [hone]
          exact (perm_append_singleton c free).nodup_iff.2 hfree
        obtain ⟨r, s', new, free', hrun', hw⟩ := ih rfl hsub fun q hq => hram q (mem_cons_of_mem _ hq)
        have hmem : ∀ q ∈ new, q ∈ free := fun q hq => hw.taken.mem_iff.2 (mem_append_left _ hq)
        have hnew : ∀ q ∈ new, q ∉ nodes child (heap s) (L + 1) p := fun q hq =>
          hout q (mem_cons_of_mem _ (hmem q hq))
        have hcnew : c ∉ new := fun hm => (nodup_cons.1 hfree).1 (hmem c hm)
        have hhp : heap s' p = heap (linked s p (path va (L + 1)) c free) p :=
          hw.ext.frame p (fun hm => hnew p hm self_mem_nodes) (by rw [hone]; simpa using hpc)
        refine ⟨r, s', new ++ [c], free', by rw [hrun, hrun'], hw.list, ?_, ?_, ?_, fun q hq j => ?_, fun q hq j => ?_,
          fun j hj => by rw [hhp, hpj j hj]⟩
        · rw [append_assoc]
          exact (hw.taken.cons c).trans perm_middle.symm
        · exact .link hnodes hcp hnew hc (by rw [hpi, child_link]) hpj hq'
            (fun j => ⟨hempty j, by rw [hcj]; decide⟩) hw.ext
        · rw [leaf, hhp, hpi, child_link]
          exact hw.result
        · rcases mem_append.1 hq with hq | hq
          · rcases hw.fresh q hq j with e | ⟨d, hd, e⟩
            · exact .inl e
            · exact .inr ⟨d, mem_append_left _ hd, e⟩
          · obtain rfl := mem_singleton.1 hq
            rcases hw.kept q hcnew j with e | ⟨d, hd, e⟩
            · exact .inl (by rw [e, hcj])
            · exact .inr ⟨d, mem_append_left _ hd, e⟩
        · rw [mem_append, mem_singleton, not_or] at hq
          rcases hw.kept q hq.1 j with e | ⟨d, hd, e⟩
          · by_cases hqp : q = p
            · subst hqp
              by_cases hj : j = path va (L + 1)
              · exact .inr ⟨c, by simp, by rw [e, hj, hpi]⟩
              · exact .inl (by rw [e, hpj j hj])
            · exact .inl (by rw [e, hq' q hqp hq.2])
          · exact .inr ⟨d, mem_append_left _ hd, e⟩

end Xv6.Vm
