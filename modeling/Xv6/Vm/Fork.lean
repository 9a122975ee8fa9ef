import Mathlib.Tactic.Simps.Basic
import Xv6.Vm.Sbrk
import Xv6.Vm.Top

/-!
# fork

`uvmcopy` gives the child a copy of each page of its parent, with the same flags,
or takes all of them back (`uvmcopy_spec`). A `fork` that fails gives back
whatever it had allocated, and leaves no other trace (`fork_exact`).
-/

namespace Xv6.Vm

open List

open Radix

variable {s s' s0 s1 : State} {old new : Page} {free free' free0 : List Page} {ks ks' : List Nat} {k n t : Nat} {va sz : Addr}

/-- The pages of user memory and of its page table. -/
def pagesOf (s : State) (root : Page) (n : Nat) : List Page := tree s root ++ frames s root (range n)

/-- The pages of the parent are as in `s0`, and not among the pages `l`. -/
structure Apart (s0 : State) (old : Page) (n : Nat) (s : State) (l : List Page) : Prop where
  same : ∀ q ∈ pagesOf s0 old n, heap s q = heap s0 q
  apart : ∀ q ∈ pagesOf s0 old n, q ∉ l

/-- The first `k` pages have been copied. -/
def Copied (s0 : State) (old : Page) (s : State) (new : Page) (k : Nat) : Prop :=
  ∀ j, j < k → (∃ e e', translate s0 (base old) (pageAddr j) = some e ∧ translate s (base new) (pageAddr j) = some e' ∧
    pteFlags e' = pteFlags e) ∧ ∀ va : Addr, va.toNat / 4096 = j → memAt s new va = memAt s0 old va

theorem Apart.translate {l : List Page} (h : Apart s0 old n s l) (va : Addr) : translate s (base old) va = translate s0
    (base old) va :=
  translate_congr fun q hq => h.same q (mem_append_left _ hq)

theorem Apart.moves {keep : List Nat} (h : Apart s0 old n s (owned s new free ks))
    (hm : Moves new keep s free ks s' free' ks') :
    Apart s0 old n s' (owned s' new free' ks') where
  same q hq := by rw [hm.frame q (h.apart q hq), h.same q hq]
  apart q hq hmem := h.apart q hq (hm.perm.mem_iff.1 hmem)

variable {e : Pte}

/-- `walk` finds the entry of an address that is mapped. -/
theorem walk_of_translate (h : translate s (base old) va = some e) : ∃ q i, (walk (base old) va false).run s = .ok
    (some (slot q i)) s ∧
    heap s q i = e ∧ e &&& pteV ≠ 0 := by
  have hva := lt_maxva.2 (lt_of_translate h)
  cases hq : leaf child (heap s) (path va) 2 old with
  | none =>
    rw [translate_eq hva, Radix.lookup, hq] at h
    cases h
  | some q =>
    rw [translate_leaf hva hq, Option.filter_eq_some_iff] at h
    refine ⟨q, path va 0, by rw [walk_false hva, hq]; rfl, Option.some.inj h.1, ?_⟩
    simpa [valid] using h.2

/-- The copy of a page. -/
theorem copyPage_spec (s : State) (c f : Page) : (∀ q, q ≠ c → heap (s.copyPage (base c) (base f)) q = heap s q) ∧
    ∀ x, x < 4096 → (s.copyPage (base c) (base f)).mem (c.toNat * 4096 + x) = s.mem (f.toNat * 4096 + x) := by
  refine ⟨fun q hq => heap_congr fun x h1 h2 => if_neg ?_, fun x hx => ?_⟩
  · have hne : q.toNat ≠ c.toNat := fun h => hq (BitVec.eq_of_toNat_eq h)
    rw [base_toNat, pgsize]
    omega
  · show (if _ then _ else _) = _
    rw [base_toNat, base_toNat, pgsize, if_pos ⟨le_self_add, Nat.add_lt_add_left hx _⟩, Nat.add_sub_cancel_left]

/-- The flags of a valid entry, as they are passed to `mappages`. -/
theorem perm_flags (hv : e &&& pteV ≠ 0) :
    ((pteFlags e).setWidth 32).toNat < 1024 ∧ ((pteFlags e).setWidth 32).setWidth 64 ||| pteV = pteFlags e := by
  have hlt : (pteFlags e).toNat < 1024 := by
    rw [pteFlags, BitVec.toNat_and]
    exact lt_of_le_of_lt Nat.and_le_right (by decide)
  have hw : ((pteFlags e).setWidth 32).toNat = (pteFlags e).toNat := by
    rw [BitVec.toNat_setWidth]
    omega
  have hback : ((pteFlags e).setWidth 32).setWidth 64 = pteFlags e := by
    refine BitVec.eq_of_toNat_eq ?_
    rw [BitVec.toNat_setWidth, hw]
    omega
  refine ⟨by rw [hw]; exact hlt, ?_⟩
  rw [hback]
  have hbit : e.getLsbD 0 = true := by
    by_contra h0
    refine hv (BitVec.eq_of_getLsbD_eq fun i hi => ?_)
    cases i with
    | zero => simpa using h0
    | succ i => simp [pteV]
  refine BitVec.eq_of_getLsbD_eq fun i hi => ?_
  cases i with
  | zero => simp [pteFlags, hbit]
  | succ i => simp [pteV]

section

variable [Image]

/-- The child's pages are all freed. -/
theorem uvmunmap_all (h : Space s new free (range k)) :
    ∃ s' free', (uvmunmap (base new) 0 (pageAddr k / 4096) true).run s = .ok () s' ∧ Undone new 0 k s free s' free' := by
  have hn := h.length_le
  rw [length_range] at hn
  have hnp : (pageAddr k / 4096).toNat = k := by
    rw [BitVec.toNat_udiv, pageAddr_toNat_of_le hn, pgsize_toNat]
    omega
  have hperm : (List.range' 0 (pageAddr k / 4096).toNat ++ []).Perm (range k) := by
    rw [hnp, append_nil, range_eq_range']
  obtain ⟨s', free', hrun, hu⟩ := (h.perm hperm).unmap (by rw [hnp, trapframe_toNat]; omega)
  exact ⟨s', free', hrun, hu.space, hu.moves.reorder hperm.symm (.refl [])⟩

/-- A turn of the loop of `uvmcopy`: the page `k` is copied, or all are freed. -/
theorem uvmcopyFrom_turn (h₀ : Space s0 old free0 (range n)) (hs : Space s new free (range k))
    (hap : Apart s0 old n s (owned s new free (range k))) (hc : Copied s0 old s new k) (hk : k < n)
    (hlt : pageAddr k < sz) (t : Nat) :
    (∃ s' free', (uvmcopyFrom (base old) (base new) sz (t + 1) (pageAddr k)).run s = .ok (-1) s' ∧
      Undone new 0 k s free s' free') ∨
    ∃ s' free', (uvmcopyFrom (base old) (base new) sz (t + 1) (pageAddr k)).run s =
        (uvmcopyFrom (base old) (base new) sz t (pageAddr (k + 1))).run s' ∧ Space s' new free' (range (k + 1)) ∧
      Moves new (range k) s free (range k) s' free' (range (k + 1)) ∧ Copied s0 old s' new (k + 1) := by
  obtain ⟨htop, e, he, hleaf⟩ := h₀.mapped k (mem_range.2 hk)
  obtain ⟨q, i, hw, hq, hv⟩ := walk_of_translate ((hap.translate _).trans he)
  obtain ⟨hperm, hflags⟩ := perm_flags hv
  rw [uvmcopyFrom, if_pos hlt, Cmd.run_bind hw]
  rw [run_load, hq, if_neg hv]
  cases free with
  | nil =>
    obtain ⟨s', free', hrun, hu⟩ := uvmunmap_all hs
    refine .inl ⟨s', free', ?_, hu⟩
    rw [Cmd.run_bind (kalloc_nil hs.list), if_pos rfl, Cmd.run_bind hrun]
    rfl
  | cons c rest =>
    have hram := hs.ram c (mem_owned.2 (.inl mem_cons_self))
    have hcopy := copyPage_spec (({ s with freelist := rest.map base } : State).memset (base c) 5) c (ppn e)
    have hsame : ∀ q, q ≠ c →
      heap ((({ s with freelist := rest.map base } : State).memset (base c) 5).copyPage (base c) (base (ppn e))) q =
        heap s q := fun q hne => by rw [hcopy.1 q hne, heap_memset_ne hne, heap_freelist]
    rw [Cmd.run_bind (kalloc_cons hs.list), if_neg hram.ne_zero, Cmd.run_modify, pte2pa_eq]
    obtain ⟨r, s2, free2, hrun, hcase⟩ :=
      hs.mapPage ((pteFlags e).setWidth 32) htop (by simp) rfl hsame hperm (by rw [hflags]; exact hleaf)
    rw [Cmd.run_bind hrun]
    rcases hcase with ⟨rfl, hs2, hm, hheap, hfc, e', he', hf'⟩ | ⟨rfl, s3, hfree, hs3, hm⟩
    · have hp : (range (k + 1)).Perm (k :: range k) := by
        rw [range_succ]
        exact perm_append_singleton k _
      have hs' := hs2.perm hp
      have hm' := hm.reorder (.refl _) hp
      refine .inr ⟨s2, free2, ?_, hs', hm', fun j hj => ?_⟩
      · rw [if_neg (not_not.2 rfl), pageAddr_succ]
      · rcases lt_or_eq_of_le (Nat.le_of_lt_succ hj) with hlt | rfl
        · -- a page copied before
          obtain ⟨⟨e1, e2, h1, h2, hf⟩, hmem⟩ := hc j hlt
          have hjtop := hs.lt_trapframe (mem_range.2 hlt)
          have hin : ∀ va : Addr, va.toNat / 4096 = j → va.toNat / 4096 ∈ range k := fun va hva => hva ▸ mem_range.2 hlt
          refine ⟨⟨e1, e2, h1, ?_, hf⟩, fun va hva => ?_⟩
          · rw [hm.entries _ (pageAddr_lt hjtop) (.inl ?_), h2]
            exact hin _ (by rw [pageAddr_div hjtop])
          · rw [← hmem va hva]
            exact hm.memAt hs hs2 (hin va hva) (hin va hva) (mem_cons_of_mem _ (hin va hva))
        · refine ⟨⟨e, e', he, he', by rw [hf', hflags]⟩, fun va hva => ?_⟩
          have hfr : frameAt s0 old j = ppn e := frameAt_of he
          have hmem : ppn e ∈ pagesOf s0 old n :=
            mem_append_right _ (hfr ▸ mem_map_of_mem (mem_range.2 hk))
          have hne : ppn e ≠ c := fun h => hap.apart _ hmem (mem_owned.2 (.inl (h ▸ mem_cons_self)))
          have hold : heap (({ s with freelist := rest.map base } : State).memset (base c) 5) (ppn e) = heap s0 (ppn e) := by
            rw [heap_memset_ne hne, heap_freelist, hap.same _ hmem]
          have hx := Nat.mod_lt va.toNat (show 0 < 4096 by decide)
          rw [hs2.memAt_eq (by rw [hva]; exact mem_cons_self), h₀.memAt_eq (by rw [hva]; exact mem_range.2 hk), hva, hfc, hfr,
            mem_of_heap hheap (le_self_add) (Nat.add_lt_add_left hx _), hcopy.2 _ hx,
            mem_of_heap hold (le_self_add) (Nat.add_lt_add_left hx _)]
    · -- the page and those copied before are freed
      obtain ⟨s', free', hrun', hu⟩ := uvmunmap_all hs3
      refine .inl ⟨s', free', ?_, hu.space, (hm.mono fun j hj => absurd hj not_mem_nil).trans hu.moves fun j hj =>
        absurd hj not_mem_nil⟩
      rw [if_pos (by decide), Cmd.run_bind hfree, Cmd.run_bind hrun']
      rfl

theorem uvmcopyFrom_spec (h₀ : Space s0 old free0 (range (pages sz.toNat))) (hs : Space s new free (range k))
    (hap : Apart s0 old (pages sz.toNat) s (owned s new free (range k))) (hc : Copied s0 old s new k) (hk : k ≤ pages sz.toNat)
    (ht : pages sz.toNat - k < t) :
    ∃ r s' free', (uvmcopyFrom (base old) (base new) sz t (pageAddr k)).run s = .ok r s' ∧
      ((r = 0 ∧ Space s' new free' (range (pages sz.toNat)) ∧
        Moves new (range k) s free (range k) s' free' (range (pages sz.toNat)) ∧
          Copied s0 old s' new (pages sz.toNat)) ∨
        (r = -1 ∧ Undone new 0 k s free s' free')) := by
  have hn := h₀.length_le
  rw [length_range] at hn
  have hva := pageAddr_toNat_of_le (le_trans hk hn)
  induction t generalizing s free k with
  | zero => omega
  | succ t ih =>
    rcases lt_or_eq_of_le hk with hlt | rfl
    · have hless : pageAddr k < sz := by
        rw [BitVec.lt_def, hva]
        unfold pages at hlt
        omega
      rcases uvmcopyFrom_turn h₀ hs hap hc hlt hless t with ⟨s', free', hrun, hu⟩ | ⟨s1, free1, hrun, hs1, hm1, hc1⟩
      · exact ⟨-1, s', free', hrun, .inr ⟨rfl, hu⟩⟩
      · obtain ⟨r, s', free', hrun', hres⟩ :=
          ih hs1 (hap.moves hm1) hc1 hlt (by omega) (pageAddr_toNat_of_le (le_trans hlt hn))
        refine ⟨r, s', free', hrun.trans hrun', ?_⟩
        rcases hres with ⟨rfl, hs', hm', hc'⟩ | ⟨rfl, hu⟩
        · refine .inl ⟨rfl, hs', hm1.trans (hm'.mono fun j hj => ?_) fun j hj => hs.lt_trapframe hj, hc'⟩
          rw [mem_range] at hj ⊢
          omega
        · exact .inr ⟨rfl, hu.trans (Nat.zero_le _) hm1⟩
    · refine ⟨0, s, free, ?_, .inl ⟨rfl, hs, .refl _ _ _ _ _, hc⟩⟩
      rw [uvmcopyFrom, if_neg]
      · rfl
      · rw [BitVec.lt_def, hva, pages]
        omega

/-- `uvmcopy` copies all pages, or none. -/
theorem uvmcopy_spec (h₀ : Space s0 old free0 (range (pages sz.toNat))) (hs : Space s new free [])
    (hap : Apart s0 old (pages sz.toNat) s (owned s new free [])) :
    ∃ r s' free', (uvmcopy (base old) (base new) sz).run s = .ok r s' ∧
      ((r = 0 ∧ Space s' new free' (range (pages sz.toNat)) ∧ Moves new [] s free [] s' free' (range (pages sz.toNat)) ∧
          Copied s0 old s' new (pages sz.toNat)) ∨
        (r = -1 ∧ Space s' new free' [] ∧ Moves new [] s free [] s' free' [])) := by
  obtain ⟨r, s', free', hrun, hres⟩ := uvmcopyFrom_spec (k := 0) (t := sz.toNat / 4096 + 2) h₀ hs hap (fun j hj => nomatch hj)
    (Nat.zero_le _) (by unfold pages; omega)
  exact ⟨r, s', free', hrun, hres.imp id fun ⟨hr, hu⟩ => ⟨hr, hu.space, hu.moves⟩⟩

/-! ## The process table -/

variable {κ κ' : Kernel} {i j : Fin nproc} {root tf : Page}

/-- The kernel with another process in the slot `j`. -/
@[simps -fullyApplied vm fileref iref]
def Kernel.set (κ : Kernel) (j : Fin nproc) (f : Proc → Proc) : Kernel :=
  { κ with proc := fun m => if m = j then f (κ.proc j) else κ.proc m }

@[simps -fullyApplied]
def Kernel.withVm (κ : Kernel) (s : State) : Kernel := { κ with vm := s }

section

variable (f : Proc → Proc) (s : State)

omit [Image]

variable {β : Type}

theorem run_onVm {α : Type} {c : KCmd α} {k : α → PCmd β} {a : α} {s s0 : State} (hvm : κ.vm = s0) (h : c.run s0 = .ok a s) :
    (onVm c >>= k).run κ = (k a).run (κ.withVm s) := by
  subst hvm
  exact Cmd.run_bind (Cmd.run_zoom h)

theorem run_setProc {k : Unit → PCmd β} : (setProc j f >>= k).run κ = (k ()).run (κ.set j f) := rfl

theorem setProc_spec {P : String → Prop} {Q : Unit → Kernel → Prop} (h : Q () (κ.set j f)) : Cmd.Spec P κ (setProc j f) Q := h

@[simp] theorem set_self : (κ.set j f).proc j = f (κ.proc j) := if_pos rfl

theorem set_of_ne {m : Fin nproc} (h : m ≠ j) : (κ.set j f).proc m = κ.proc m := if_neg h

end

/-- Everything but the slot `j` and memory. -/
structure Same (j : Fin nproc) (κ κ' : Kernel) : Prop where
  procs : ∀ m, m ≠ j → κ'.proc m = κ.proc m
  fileref : κ'.fileref = κ.fileref
  iref : κ'.iref = κ.iref

variable {κ1 : Kernel} {c tf' : Page} {p : Proc} {free1 : List Page} {s2 : State}

omit [Image] in
theorem Same.trans (h1 : Same j κ κ1) (h2 : Same j κ1 κ') : Same j κ κ' :=
  ⟨fun m hm => (h2.procs m hm).trans (h1.procs m hm), h2.fileref.trans h1.fileref, h2.iref.trans h1.iref⟩

/-- The trapframe and an address space without user memory are freed. -/
theorem Space.freeAll {sz : Addr} (h : Space s root free []) (ht : Top s root) (hc : tf ∉ owned s root free [])
    (hr : Ram tf) (hsz : sz = 0) :
    ∃ s1 s', (Vm.kfree (base tf)).run s = .ok () s1 ∧ (procFreepagetable (base root) sz).run s1 = .ok () s' ∧
      Returned (tf :: owned s root free []) s s' := by
  subst hsz
  obtain ⟨s1, hrun1, hs1, htr, hp, hsame⟩ := h.kfree hc hr
  obtain ⟨s', hrun, hret⟩ := procFreepagetable_spec 0 hs1 (ht.congr fun va _ _ => htr va)
  exact ⟨s1, s', hrun1, hrun, hret.trans hp fun q hq => hsame q fun e => hq (e ▸ mem_cons_self)⟩

/-- `freeproc`, once its memory has been freed. -/
theorem freeproc_run {s1 : State} (htf : (κ.proc j).trapframe = base tf) (hr : Ram tf)
    (h1 : (Vm.kfree (base tf)).run κ.vm = .ok () s1)
    (h2 : (Cmd.when ((κ.proc j).pagetable ≠ 0) (procFreepagetable (κ.proc j).pagetable (κ.proc j).sz)).run s1 = .ok () s') :
    ∃ κ', (freeproc j).run κ = .ok () κ' ∧ κ'.vm = s' ∧ Same j κ κ' ∧ (κ'.proc j).state = .unused := by
  have hfirst : (Cmd.when ((κ.proc j).trapframe ≠ 0) (onVm (Vm.kfree (κ.proc j).trapframe))).run κ = .ok () (κ.withVm s1) := by
    rw [htf, decide_eq_true hr.ne_zero, Cmd.when, if_pos rfl]
    exact Cmd.run_zoom h1
  have hsecond : (Cmd.when ((κ.proc j).pagetable ≠ 0) (onVm (procFreepagetable (κ.proc j).pagetable (κ.proc j).sz))).run
    (κ.withVm s1) =
      .ok () (κ.withVm s') := by
    by_cases hp : (κ.proc j).pagetable ≠ 0
    · rw [decide_eq_true hp, Cmd.when, if_pos rfl] at h2 ⊢
      exact Cmd.run_zoom h2
    · rw [decide_eq_false hp] at h2 ⊢
      cases h2
      rfl
  have hrun : (freeproc j).run κ = .ok () ((κ.withVm s').set j fun p => { p with
      trapframe := 0, pagetable := 0, sz := 0, pid := 0, parent := none, name := [], state := .unused }) := by
    rw [freeproc, getProc, Cmd.run_get, Cmd.run_bind hfirst, Cmd.run_bind hsecond]
    rfl
  exact ⟨_, hrun, rfl, ⟨fun m hm => set_of_ne _ hm, rfl, rfl⟩, by rw [set_self]⟩

/-- The slots that are not used have nothing left of the process they were used for. -/
def Clean (κ : Kernel) : Prop := ∀ m, (κ.proc m).state = .unused → (κ.proc m).sz = 0 ∧ ∀ fd, (κ.proc m).ofile fd = none

/-- What `allocproc` returns in the slot `j`: a trapframe and an address space
without user memory. -/
structure Allocated (κ : Kernel) (free : List Page) (j : Fin nproc) (κ' : Kernel) (tf new : Page)
    (free' : List Page) : Prop where
  unused : (κ.proc j).state = .unused
  proc : κ'.proc j = { κ.proc j with pid := κ.nextpid, trapframe := base tf, pagetable := base new }
  same : Same j κ κ'
  space : Space κ'.vm new free' []
  top : Top κ'.vm new
  perm : (tf :: owned κ'.vm new free' []).Perm free
  frame : ∀ q, q ∉ free → heap κ'.vm q = heap κ.vm q

/-- A call that has failed. -/
structure Failed (κ : Kernel) (free : List Page) (κ' : Kernel) : Prop where
  state : ∀ m, (κ'.proc m).state = (κ.proc m).state
  used : ∀ m, (κ.proc m).state ≠ .unused → κ'.proc m = κ.proc m
  fileref : κ'.fileref = κ.fileref
  iref : κ'.iref = κ.iref
  returned : Returned free κ.vm κ'.vm

theorem Same.failed (h : Same j κ κ') (hj : (κ.proc j).state = .unused) (hj' : (κ'.proc j).state = .unused)
    (hr : Returned free κ.vm κ'.vm) :
    Failed κ free κ' where
  state m := by
    by_cases hm : m = j
    · rw [hm, hj, hj']
    · rw [h.procs m hm]
  used m hm := h.procs m fun e => hm (e ▸ hj)
  fileref := h.fileref
  iref := h.iref
  returned := hr

/-- `freeproc` of a slot that was not used before the call ends it without a trace. -/
theorem freeproc_failed {s1 : State} (hj : (κ.proc j).state = .unused) (hsame : Same j κ κ1)
    (htf : (κ1.proc j).trapframe = base tf)
    (hr : Ram tf) (h1 : (Vm.kfree (base tf)).run κ1.vm = .ok () s1)
    (h2 : (Cmd.when ((κ1.proc j).pagetable ≠ 0) (procFreepagetable (κ1.proc j).pagetable (κ1.proc j).sz)).run s1 = .ok () s')
    (hret : Returned free κ.vm s') : ∃ κ', (freeproc j).run κ1 = .ok () κ' ∧ Failed κ free κ' := by
  obtain ⟨κ', hrun, rfl, hsame', hst⟩ := freeproc_run htf hr h1 h2
  exact ⟨κ', hrun, (hsame.trans hsame').failed hj hst hret⟩

theorem Pool.kalloc {rest : List Page} (h : Pool s (c :: rest)) : ∃ s', Vm.kalloc.run s = .ok (base c) s' ∧ Pool s' rest ∧
    ∀ q, q ≠ c → heap s' q = heap s q :=
  ⟨_, kalloc_cons h.list, ⟨rfl, (nodup_cons.1 h.nodup).2, fun p hp => h.ram p (mem_cons_of_mem _ hp)⟩,
    fun q hq => by rw [heap_memset_ne hq, heap_freelist]⟩

variable [Text]

theorem allocproc_spec (h : Pool κ.vm free) : ∃ r κ', allocproc.run κ = .ok r κ' ∧
    ((r = none ∧ Failed κ free κ') ∨ ∃ j tf new free', r = some j ∧ Allocated κ free j κ' tf new free') := by
  rw [allocproc, Cmd.run_get]
  cases hfind : (finRange nproc).find? fun i => (κ.proc i).state = .unused with
  | none => exact ⟨none, κ, rfl, .inl ⟨rfl, fun _ => rfl, fun _ _ => rfl, rfl, rfl, ⟨free, h, .refl _⟩, fun _ _ => rfl⟩⟩
  | some j =>
    have hj : (κ.proc j).state = .unused := by simpa using find?_some hfind
    have hpid : allocpid.run κ = .ok κ.nextpid { κ with nextpid := κ.nextpid + 1 } := rfl
    rw [Cmd.run_bind hpid, run_setProc]
    cases free with
    | nil =>
      rw [run_onVm _ (kalloc_nil h.list), run_setProc, if_pos rfl]
      · refine ⟨none, _, rfl,
          .inl ⟨rfl, Same.failed (j := j) ⟨fun m hm => ?_, rfl, rfl⟩ hj (by simp [hj]) ⟨⟨[], h, .refl _⟩, fun _ _ => rfl⟩⟩⟩
        simp [set_of_ne _ hm]
      · rfl
    | cons tf rest =>
      have hr := h.ram tf mem_cons_self
      obtain ⟨s1, hrun1, hpool1, hsame1⟩ := h.kalloc
      rw [run_onVm _ hrun1, run_setProc, if_neg hr.ne_zero]
      obtain ⟨r, s2, hrun2, hres⟩ := procPagetable_spec hpool1 (base tf)
      rw [run_onVm _ hrun2, run_setProc]
      · rcases hres with ⟨rfl, hret⟩ | ⟨new, free', rfl, hs, htop, hp, hsame2⟩
        · -- the trapframe is freed again
          obtain ⟨free2, hpool2, hp2⟩ := hret.pool
          have hnot : tf ∉ free2 := fun hm => (nodup_cons.1 h.nodup).1 (hp2.mem_iff.1 hm)
          obtain ⟨s', hrun, hret'⟩ := hpool2.kfree hnot hr
          have hback : ∀ κ1 : Kernel, κ1.vm = s2 → Same j κ κ1 → (κ1.proc j).trapframe = base tf → (κ1.proc j).pagetable = 0 →
              ∃ r κ', (do freeproc j; pure none : PCmd (Option (Fin nproc))).run κ1 = .ok r κ' ∧
                ((r = none ∧ Failed κ (tf :: rest) κ') ∨
                ∃ j tf' new free', r = some j ∧ Allocated κ (tf :: rest) j κ' tf' new free') := fun κ1 hvm hsame htf hpt => by
            obtain ⟨κ', hrun', hfailed⟩ := freeproc_failed hj hsame htf hr (by rw [hvm]; exact hrun) (by rw [hpt]; rfl)
              (hret'.trans (hp2.cons tf) fun q hq => by
                rw [mem_cons, not_or] at hq
                rw [hret.frame q hq.2, hsame1 q hq.1])
            exact ⟨none, κ', by rw [Cmd.run_bind hrun']; rfl, .inl ⟨rfl, hfailed⟩⟩
          rw [if_pos rfl]
          exact hback _ rfl ⟨fun m hm => by simp [set_of_ne _ hm], rfl, rfl⟩ (by simp) (by simp)
        · rw [if_neg (hs.ram new (mem_owned.2 (.inr (.inl self_mem_nodes)))).ne_zero]
          refine ⟨some j, _, rfl,
            .inr ⟨j, tf, new, free', rfl, hj, by simp, ⟨fun m hm => by simp [set_of_ne _ hm], rfl, rfl⟩, hs, htop,
            hp.cons tf, fun q hq => ?_⟩⟩
          rw [mem_cons, not_or] at hq
          exact (hsame2 q hq.2).trans (hsame1 q hq.1)
      · rfl
      · rfl

/-! ## fork -/

def Proc.withFiles (p : Proc) (ofile : Fin nofile → Option Nat) : Proc := { p with ofile }

/-- The child's descriptors after those in `done` have been duplicated. -/
structure Dup (p : Proc) (j : Fin nproc) (κ : Kernel) (done : List (Fin nofile)) (κ' : Kernel) : Prop where
  vm : κ'.vm = κ.vm
  iref : κ'.iref = κ.iref
  procs : ∀ m, m ≠ j → κ'.proc m = κ.proc m
  proc : κ'.proc j = (κ.proc j).withFiles fun fd => if fd ∈ done then p.ofile fd else none
  fileref : ∀ f, κ'.fileref f = κ.fileref f + done.countP fun fd => p.ofile fd = some f

omit [Image] [Text] in
theorem Dup.step {done : List (Fin nofile)} {fd : Fin nofile} (h : Dup p j κ done κ')
    (hrefs : ∀ fd f, p.ofile fd = some f → 1 ≤ κ.fileref f) :
    Cmd.Spec (fun _ => False) κ' (dupFile p j fd) fun _ κ1 => Dup p j κ (done ++ [fd]) κ1 := by
  rw [dupFile]
  cases hf : p.ofile fd with
  | none =>
    refine .ret ⟨h.vm, h.iref, h.procs, h.proc.trans (congrArg _ (funext fun fd' => ?_)), fun f => ?_⟩
    · by_cases hfd : fd' = fd
      · subst hfd
        simp [hf]
      · simp [hfd]
    · rw [h.fileref, countP_append, countP_singleton, hf]
      simp
  | some f =>
    have hge := hrefs fd f hf
    have hr := h.fileref f
    have hdup : (filedup f).run κ' = .ok f
      { κ' with fileref := fun g => if g = f then κ'.fileref f + 1 else κ'.fileref g } := by
      rw [filedup, Cmd.run_get, if_neg (by omega)]
      rfl
    refine .bind (Q := fun a κ1 => f = a ∧
      κ1 = { κ' with fileref := fun g => if g = f then κ'.fileref f + 1 else κ'.fileref g })
      (.of_run hdup ⟨rfl, rfl⟩) ?_
    rintro _ _ ⟨rfl, rfl⟩
    refine setProc_spec _ ⟨h.vm, h.iref, fun m hm => ?_, ?_, fun g => ?_⟩
    · rw [set_of_ne _ hm]
      exact h.procs m hm
    · rw [set_self]
      rw [h.proc]
      refine congrArg (Proc.withFiles _) (funext fun fd' => ?_)
      by_cases hfd : fd' = fd
      · subst hfd
        simp [hf]
      · simp [hfd, Proc.withFiles]
    · show (if g = f then _ else _) = _
      rw [countP_append, countP_singleton, hf]
      by_cases hg : g = f
      · subst hg
        rw [if_pos rfl, hr]
        simp
        omega
      · rw [if_neg hg, h.fileref]
        simp [Ne.symm hg]

omit [Image] [Text] in
theorem dupFiles_spec (hrefs : ∀ fd f, p.ofile fd = some f → 1 ≤ κ.fileref f) (hnone : ∀ fd, (κ.proc j).ofile fd = none) :
    ∃ κ', (Cmd.forEach (finRange nofile) (dupFile p j)).run κ = .ok () κ' ∧ Dup p j κ (finRange nofile) κ' := by
  have hn : (κ.proc j).ofile = fun _ => none := funext hnone
  have hstart : Dup p j κ [] κ := by
    refine ⟨rfl, rfl, fun _ _ => rfl, ?_, fun _ => rfl⟩
    simp only [not_mem_nil, if_false, ← hn]
    rfl
  obtain ⟨⟨⟩, κ', hrun, hd⟩ :=
    (Cmd.Spec.forEach (fun done κ' => Dup p j κ done κ') hstart fun _ _ _ _ _ hd => hd.step hrefs).result
  exact ⟨κ', hrun, hd⟩

/-- The memory after the registers have been copied. -/
def savedRegs (s : State) (tf' tf : Page) : State :=
  (s.copyTo (base tf') (fun i => s.mem ((base tf).toNat + i)) trapframeSize).setPte (base tf' + .ofNat 64 trapframeA0) 0

omit [Image] [Text] in
theorem savedRegs_freelist (s : State) (tf' tf : Page) : (savedRegs s tf' tf).freelist = s.freelist := by
  rw [savedRegs, State.setPte, State.copyTo]

omit [Image] [Text] in
theorem run_savedRegs (s : State) (tf' tf : Page) : ∃ s1, (copyTrapframe (base tf') (base tf)).run s = .ok () s1 ∧
    (store (base tf' + .ofNat 64 trapframeA0) 0).run s1 = .ok () (savedRegs s tf' tf) := ⟨_, rfl, rfl⟩

omit [Image] [Text] in
theorem savedRegs_mem (s : State) (tf' tf : Page) (x : Nat) : (savedRegs s tf' tf).mem x =
    if tf'.toNat * 4096 + trapframeA0 ≤ x ∧ x < tf'.toNat * 4096 + trapframeA0 + 8 then 0
    else if tf'.toNat * 4096 ≤ x ∧
      x < tf'.toNat * 4096 + trapframeSize then s.mem (tf.toNat * 4096 + (x - tf'.toNat * 4096)) else s.mem x := by
  have ha0 : (base tf' + .ofNat 64 trapframeA0).toNat = tf'.toNat * 4096 + trapframeA0 := by
    have := tf'.isLt
    rw [BitVec.toNat_add, base_toNat, BitVec.toNat_ofNat, show trapframeA0 = 112 from rfl]
    omega
  rw [savedRegs, State.setPte]
  dsimp only
  rw [ha0, putLE]
  refine if_congr Iff.rfl ?_ ?_
  · rw [show (0 : Pte).toNat = 0 from rfl, Nat.zero_div]
    rfl
  · show (if _ ∧ _ then _ else _) = _
    rw [base_toNat, base_toNat]

omit [Image] [Text] in
/-- The saved registers of the child. -/
theorem savedRegs_spec (s : State) (tf' tf : Page) : (∀ q, q ≠ tf' → heap (savedRegs s tf' tf) q = heap s q) ∧
    ∀ x, x < trapframeSize → (savedRegs s tf' tf).mem (tf'.toNat * 4096 + x) =
      if trapframeA0 ≤ x ∧ x < trapframeA0 + 8 then 0 else s.mem (tf.toNat * 4096 + x) := by
  refine ⟨fun q hq => heap_congr fun x h1 h2 => ?_, fun x hx => ?_⟩
  · have hne : q.toNat ≠ tf'.toNat := fun h => hq (BitVec.eq_of_toNat_eq h)
    rw [savedRegs_mem, show trapframeA0 = 112 from rfl, show trapframeSize = 288 from rfl, if_neg (by omega),
      if_neg (by omega)]
  · have hif : ∀ o o' : Nat, (if o + trapframeA0 ≤ o + x ∧ o + x < o + trapframeA0 + 8 then 0
        else if o ≤ o + x ∧ o + x < o + trapframeSize then s.mem (o' + (o + x - o)) else s.mem (o + x)) =
        if trapframeA0 ≤ x ∧ x < trapframeA0 + 8 then 0 else s.mem (o' + x) := fun o o' => by
      rw [if_pos (show o ≤ o + x ∧ o + x < o + trapframeSize by omega), Nat.add_sub_cancel_left]
      refine if_congr ?_ rfl rfl
      omega
    rw [savedRegs_mem, hif]

attribute [irreducible] savedRegs

/-- What holds of the process that calls `fork`: its address space, its trapframe
and its files; and the unused slots are clean. -/
structure Ready (κ : Kernel) (i : Fin nproc) (root tf : Page) (free : List Page) : Prop where
  used : (κ.proc i).state ≠ .unused
  pagetable : (κ.proc i).pagetable = base root
  space : Space κ.vm root free (range (pages (κ.proc i).sz.toNat))
  trapframe : (κ.proc i).trapframe = base tf
  inUse : tf ∉ free
  files : ∀ fd f, (κ.proc i).ofile fd = some f → 1 ≤ κ.fileref f
  clean : Clean κ

/-- The child in the slot `j` is a copy of the process `i`. -/
structure Forked (κ : Kernel) (i : Fin nproc) (root tf : Page) (κ' : Kernel) (r : Int) (j : Fin nproc) (new tf' : Page)
    (free' : List Page) :
    Prop where
  unused : (κ.proc j).state = .unused
  others : ∀ m, m ≠ j → κ'.proc m = κ.proc m
  pid : r = (κ'.proc j).pid
  state : (κ'.proc j).state = .runnable
  parent : (κ'.proc j).parent = some i
  name : (κ'.proc j).name = (κ.proc i).name
  sz : (κ'.proc j).sz = (κ.proc i).sz
  pagetable : (κ'.proc j).pagetable = base new
  space : Space κ'.vm new free' (range (pages (κ.proc i).sz.toNat))
  copied : Copied κ.vm root κ'.vm new (pages (κ.proc i).sz.toNat)
  distinct : ∀ q ∈ pagesOf κ'.vm new (pages (κ.proc i).sz.toNat), q ∉ pagesOf κ.vm root (pages (κ.proc i).sz.toNat)
  trapframe : (κ'.proc j).trapframe = base tf'
  registers : ∀ x, x < trapframeSize → κ'.vm.mem (tf'.toNat * 4096 + x) =
    if trapframeA0 ≤ x ∧ x < trapframeA0 + 8 then 0 else κ.vm.mem (tf.toNat * 4096 + x)
  ofile : (κ'.proc j).ofile = (κ.proc i).ofile
  fileref : ∀ f, κ'.fileref f = κ.fileref f + (finRange nofile).countP fun fd => (κ.proc i).ofile fd = some f
  cwd : (κ'.proc j).cwd = (κ.proc i).cwd
  iref : ∀ ip, κ'.iref ip = κ.iref ip + if ip = (κ.proc i).cwd then 1 else 0

omit [Text] in
theorem Ready.apart (h : Ready κ i root tf free) (ha : Allocated κ free j κ' tf' new free') :
    Apart κ.vm root (pages (κ.proc i).sz.toNat) κ'.vm (owned κ'.vm new free' []) := by
  have hfree : ∀ q ∈ pagesOf κ.vm root (pages (κ.proc i).sz.toNat), q ∉ free := fun q hq hf => by
    have hd := h.space.nodup
    rw [owned, append_assoc] at hd
    exact (nodup_append.1 hd).2.2 q hf q hq rfl
  exact ⟨fun q hq => ha.frame q (hfree q hq), fun q hq hm => hfree q hq (ha.perm.mem_iff.1 (mem_cons_of_mem _ hm))⟩

omit [Text] in
/-- The child's memory could not be copied. -/
theorem fork_undone (h : Ready κ i root tf free)
    (ha : Allocated κ free j κ1 tf' new free1) (hs : Space s2 new free' []) (hm : Moves new [] κ1.vm free1 [] s2 free' []) :
    ∃ κ', (freeproc j).run (κ1.withVm s2) = .ok () κ' ∧ Failed κ free κ' := by
  have hp := hm.perm.cons tf'
  have hr : Ram tf' := h.space.pool.ram _ (ha.perm.mem_iff.1 mem_cons_self)
  have hnot : tf' ∉ owned s2 new free' [] := fun hmem =>
    (nodup_cons.1 (ha.perm.nodup_iff.2 h.space.pool.nodup)).1 (hm.perm.mem_iff.1 hmem)
  have hsz : (κ1.proc j).sz = 0 := by
    rw [ha.proc]
    exact (h.clean j ha.unused).1
  have htop : Top s2 new := ha.top.congr fun va hva hge => hm.entries va hva (.inr hge)
  obtain ⟨s3, s', hrun1, hrun2, hret⟩ := hs.freeAll htop hnot hr hsz
  have hpt : (κ1.proc j).pagetable = base new := by rw [ha.proc]
  refine freeproc_failed ha.unused ⟨ha.same.procs, ha.same.fileref, ha.same.iref⟩ (by rw [Kernel.withVm_proc, ha.proc])
    hr hrun1 ?_
    (hret.trans (hp.trans ha.perm) fun q hq => ?_)
  · have hne : base new ≠ 0 := (hs.ram new (mem_owned.2 (.inr (.inl self_mem_nodes)))).ne_zero
    rw [Kernel.withVm_proc, hpt, decide_eq_true hne, Cmd.when, if_pos rfl, hrun2]
  · rw [hm.frame q fun hmem => hq (ha.perm.mem_iff.1 (mem_cons_of_mem _ hmem)), ha.frame q hq]

omit [Text] [Image] in
/-- The end of `fork`: the files, the directory and the name. -/
theorem fork_files (p : Proc) (pid : Nat) (hrefs : ∀ fd f, p.ofile fd = some f → 1 ≤ κ.fileref f)
    (hnone : ∀ fd, (κ.proc j).ofile fd = none) :
    ∃ κ', (do
        Cmd.forEach (finRange nofile) (dupFile p j)
        let cwd ← idup p.cwd
        setProc j fun np => { np with cwd }
        setProc j fun np => { np with name := p.name, state := .runnable }
        return pid : PCmd Int).run κ = .ok pid κ' ∧
      κ'.vm = κ.vm ∧ (∀ m, m ≠ j → κ'.proc m = κ.proc m) ∧
      κ'.proc j = { κ.proc j with ofile := p.ofile, cwd := p.cwd, name := p.name, state := .runnable } ∧
      (∀ f, κ'.fileref f = κ.fileref f + (finRange nofile).countP fun fd => p.ofile fd = some f) ∧
      ∀ ip, κ'.iref ip = κ.iref ip + if ip = p.cwd then 1 else 0 := by
  obtain ⟨κ1, hrun1, hd⟩ := dupFiles_spec hrefs hnone
  have hidup : (idup p.cwd).run κ1 = .ok p.cwd
    { κ1 with iref := fun i => if i = p.cwd then κ1.iref p.cwd + 1 else κ1.iref i } := rfl
  rw [Cmd.run_bind hrun1, Cmd.run_bind hidup, run_setProc, run_setProc]
  refine ⟨_, rfl, hd.vm, fun m hm => ?_, ?_, hd.fileref, fun ip => ?_⟩
  · rw [set_of_ne _ hm, set_of_ne _ hm]
    exact hd.procs m hm
  · rw [set_self, set_self]
    rw [hd.proc]
    simp [Proc.withFiles]
  · show (if ip = p.cwd then _ else _) = _
    rw [hd.iref]
    by_cases hip : ip = p.cwd
    · rw [if_pos hip, if_pos hip, hip]
    · rw [if_neg hip, if_neg hip, add_zero]

omit [Text] in
/-- Copies stay copies when another page changes. -/
theorem Copied.congr (h : Copied s0 old s new n) (hs : Space s new free (range n)) (hs' : Space s' new free (range n))
    (hc : c ∉ owned s new free (range n)) (hsame : ∀ q, q ≠ c → heap s' q = heap s q) : Copied s0 old s' new n := by
  have htr := translate_same (fun q hq => hsame q fun e => hc (mem_owned.2 (.inr (.inl (e ▸ hq)))))
  intro j hj
  obtain ⟨⟨e, e', he, he', hf⟩, hmem⟩ := h j hj
  refine ⟨⟨e, e', he, (htr _).trans he', hf⟩, fun va hva => ?_⟩
  have hin : va.toNat / 4096 ∈ range n := mem_range.2 (hva ▸ hj)
  have hne : frameAt s new (va.toNat / 4096) ≠ c := fun e => hc (mem_owned.2 (.inr (.inr (e ▸ mem_map_of_mem hin))))
  rw [← hmem va hva, hs'.memAt_eq hin, hs.memAt_eq hin, frameAt_congr (htr _),
    mem_of_heap (hsame _ hne) (le_self_add) (Nat.add_lt_add_left (Nat.mod_lt _ (by decide)) _)]

omit [Text] in
/-- The child, once its memory has been copied. -/
theorem fork_child {κ2 : Kernel} (h : Ready κ i root tf free)
    (ha : Allocated κ free j κ1 tf' new free1) (hs : Space s2 new free' (range (pages (κ.proc i).sz.toNat)))
    (hm : Moves new [] κ1.vm free1 [] s2 free' (range (pages (κ.proc i).sz.toNat)))
    (hc : Copied κ.vm root s2 new (pages (κ.proc i).sz.toNat)) (hvm : κ2.vm = savedRegs s2 tf' tf)
    (hfile : κ2.fileref = κ.fileref)
    (hiref : κ2.iref = κ.iref) (hothers : ∀ m, m ≠ j → κ2.proc m = κ.proc m) (hproc : κ2.proc j = { κ.proc j with
      pid := κ.nextpid, trapframe := base tf', pagetable := base new, sz := (κ.proc i).sz, parent := some i }) :
    ∃ r κ', (do
        Cmd.forEach (finRange nofile) (dupFile (κ.proc i) j)
        let cwd ← idup (κ.proc i).cwd
        setProc j fun np => { np with cwd }
        setProc j fun np => { np with name := (κ.proc i).name, state := .runnable }
        return κ.nextpid : PCmd Int).run κ2 = .ok r κ' ∧ (∀ q, q ∉ free → heap κ'.vm q = heap κ.vm q) ∧
      ((r = -1 ∧ Failed κ free κ') ∨ ∃ j new tf' free', Forked κ i root tf κ' r j new tf' free') := by
  have hd := ha.perm.nodup_iff.2 h.space.pool.nodup
  have hnot : tf' ∉ owned s2 new free' (range (pages (κ.proc i).sz.toNat)) := fun hmem =>
    (nodup_cons.1 hd).1 (hm.perm.mem_iff.1 hmem)
  obtain ⟨hsame, hregs⟩ := savedRegs_spec s2 tf' tf
  have hframe : ∀ q, q ∉ free → heap (savedRegs s2 tf' tf) q = heap κ.vm q := fun q hq => by
    rw [hsame q fun e => hq (e ▸ ha.perm.mem_iff.1 mem_cons_self),
      hm.frame q fun hmem => hq (ha.perm.mem_iff.1 (mem_cons_of_mem _ hmem)),
      ha.frame q hq]
  have htree : ∀ q ∈ tree s2 new, heap (savedRegs s2 tf' tf) q = heap s2 q := fun q hq =>
    hsame q fun e => hnot (mem_owned.2 (.inr (.inl (e ▸ hq))))
  have hs' : Space (savedRegs s2 tf' tf) new free' _ := hs.congr (savedRegs_freelist _ _ _) htree
  obtain ⟨κ', hrun, hvm', hothers', hproc', hfile', hiref'⟩ := fork_files (κ := κ2) (j := j) (κ.proc i) κ.nextpid
    (by rw [hfile]; exact h.files) (by rw [hproc]; exact (h.clean j ha.unused).2)
  rw [hvm] at hvm'
  rw [hproc] at hproc'
  have hpages : pagesOf (savedRegs s2 tf' tf) new (pages (κ.proc i).sz.toNat) = pagesOf s2 new
    (pages (κ.proc i).sz.toNat) := by
    rw [pagesOf, pagesOf, frames_congr fun k _ => translate_congr htree,
      show tree (savedRegs s2 tf' tf) new = tree s2 new from nodes_congr htree]
  refine ⟨_, κ', hrun, by rw [hvm']; exact hframe, .inr ⟨j, new, tf', free', ?_⟩⟩
  constructor
  case unused => exact ha.unused
  case others => exact fun m hm => (hothers' m hm).trans (hothers m hm)
  case space => rw [hvm']; exact hs'
  case copied => rw [hvm']; exact hc.congr hs hs' hnot hsame
  case distinct =>
    intro q hq hold
    rw [hvm', hpages] at hq
    refine (h.apart ha).apart q hold (hm.perm.mem_iff.1 (mem_owned.2 (.inr ?_)))
    exact mem_append.1 hq
  case registers =>
    intro x hx
    have hx' : x < 4096 := lt_trans hx (by decide)
    have hold : heap s2 tf = heap κ.vm tf := by
      rw [hm.frame tf fun hmem => h.inUse (ha.perm.mem_iff.1 (mem_cons_of_mem _ hmem)), ha.frame tf h.inUse]
    rw [hvm', hregs x hx, mem_of_heap hold (le_self_add) (Nat.add_lt_add_left hx' _)]
  case fileref => rw [← hfile]; exact hfile'
  case iref => rw [← hiref]; exact hiref'
  all_goals rw [hproc']

/-- `fork` gives a copy of the process, or fails. -/
theorem fork_spec (h : Ready κ i root tf free) : ∃ r κ', (fork i).run κ = .ok r κ' ∧
    (∀ q, q ∉ free → heap κ'.vm q = heap κ.vm q) ∧
    ((r = -1 ∧ Failed κ free κ') ∨ ∃ j new tf' free', Forked κ i root tf κ' r j new tf' free') := by
  obtain ⟨r1, κ1, hrun1, hres1⟩ := allocproc_spec h.space.pool
  rw [fork, Cmd.run_bind hrun1]
  rcases hres1 with ⟨rfl, hf⟩ | ⟨j, tf', new, free1, rfl, ha⟩
  · exact ⟨-1, κ1, rfl, hf.returned.frame, .inl ⟨rfl, hf⟩⟩
  · have hij : i ≠ j := fun e => h.used (e ▸ ha.unused)
    have hi : κ1.proc i = κ.proc i := ha.same.procs i hij
    have hap := h.apart ha
    obtain ⟨r2, s2, free2, hrun2, hres2⟩ := uvmcopy_spec h.space ha.space hap
    have hj : κ1.proc j = { κ.proc j with pid := κ.nextpid, trapframe := base tf', pagetable := base new } := ha.proc
    rw [getProc, Cmd.run_get, getProc, Cmd.run_get, hi, hj, h.pagetable]
    rw [run_onVm rfl hrun2]
    rcases hres2 with ⟨rfl, hs2, hm2, hc2⟩ | ⟨rfl, hs2, hm2⟩
    · obtain ⟨s3, hcopy, hstore⟩ := run_savedRegs s2 tf' tf
      rw [if_neg (by decide), run_setProc, h.trapframe, run_onVm _ hcopy, run_onVm _ hstore]
      · exact fork_child h ha hs2 hm2 hc2 rfl ha.same.fileref ha.same.iref (fun m hm => by
          simp [set_of_ne _ hm, ha.same.procs m hm])
          (by simp [hj])
      · rfl
      · rfl
    · obtain ⟨κ', hrun, hfailed⟩ := fork_undone h ha hs2 hm2
      rw [if_pos (by decide), Cmd.run_bind hrun]
      exact ⟨-1, κ', rfl, hfailed.returned.frame, .inl ⟨rfl, hfailed⟩⟩

/-- No page but the free ones has changed, nor has the page table. -/
def KeptMemory (root : Page) (free : List Page) (s s' : State) : Prop :=
  (∀ va, translate s' (base root) va = translate s (base root) va) ∧
    ∀ q, q ∉ free → ∀ x, x < 4096 → s'.mem (q.toNat * 4096 + x) = s.mem (q.toNat * 4096 + x)

omit [Text] in
theorem Space.kept {ks : List Nat} (h : Space s root free ks)
    (hframe : ∀ q, q ∉ free → heap s' q = heap s q) : KeptMemory root free s s' := by
  refine ⟨fun va => translate_congr fun q hq => hframe q fun hf => ?_, fun q hq x hx =>
    mem_of_heap (hframe q hq) (le_self_add) (Nat.add_lt_add_left hx _)⟩
  exact (nodup_append.1 h.table.nodup).2.2 q hf q hq rfl

/-- `fork` returns the pid of a child that is a copy of its parent; or it returns
-1 and the free pages, the reference counts and the processes are as before.
Neither changes the parent. -/
theorem fork_exact (h : Ready κ i root tf free) : ∃ r κ', (fork i).run κ = .ok r κ' ∧ KeptMemory root free κ.vm κ'.vm ∧
    κ'.proc i = κ.proc i ∧
    ((∃ j new tf' free', Forked κ i root tf κ' r j new tf' free') ∨
      (r = -1 ∧ κ'.vm.freelist.Perm κ.vm.freelist ∧ κ'.fileref = κ.fileref ∧ κ'.iref = κ.iref ∧
        ∀ m, (κ'.proc m).state = .unused ↔ (κ.proc m).state = .unused)) := by
  obtain ⟨r, κ', hrun, hframe, hres⟩ := fork_spec h
  refine ⟨r, κ', hrun, h.space.kept hframe, ?_⟩
  rcases hres with ⟨rfl, hf⟩ | ⟨j, new, tf', free', hf⟩
  · obtain ⟨free1, hpool, hp⟩ := hf.returned.pool
    refine ⟨hf.used i h.used, .inr ⟨rfl, ?_, hf.fileref, hf.iref, fun m => by rw [hf.state]⟩⟩
    rw [hpool.list, h.space.list]
    exact hp.map base
  · exact ⟨hf.others i fun e => h.used (e ▸ hf.unused), .inl ⟨j, new, tf', free', hf⟩⟩

end

/-! ## The first process -/

local instance forkImage : Image := instImage

local instance forkText : Text := ⟨kernbase⟩

/-- A process of one page with one open file. -/
def firstProc : Proc :=
  ⟨.running, 1, none, 4096, base emptyRoot, base 0x80000, fun fd => if fd.val = 0 then some 0 else none, 0, []⟩

def unusedProc : Proc := ⟨.unused, 0, none, 0, 0, 0, fun _ => none, 0, []⟩

def firstKernel (s : State) : Kernel :=
  ⟨s, fun i => if i.val = 0 then firstProc else unusedProc, 2, fun _ => 1, fun _ => 1, [], 0⟩

def first : Fin nproc := ⟨0, by decide⟩

theorem ready_first {s : State} {free : List Page} (h : Space s emptyRoot free (range (pages 4096))) :
    Ready (firstKernel s) first emptyRoot 0x80000 free where
  used := show firstProc.state ≠ .unused by decide
  pagetable := rfl
  space := h
  trapframe := rfl
  inUse hf := absurd (h.pool.ram _ hf).lo (by decide)
  files _ _ _ := Nat.le_refl 1
  clean m hm := by
    by_cases h0 : m.val = 0
    · rw [show (firstKernel s).proc m = firstProc from if_pos h0] at hm
      exact nomatch hm
    · rw [show (firstKernel s).proc m = unusedProc from if_neg h0]
      exact ⟨rfl, fun _ => rfl⟩

set_option maxRecDepth 100000 in
theorem first_forks : (do
    let r ← onVm (uvmalloc (base emptyRoot) 0 4096)
    if r = 4096 then
      let pid ← fork first
      if pid = 2 then Cmd.panic "forked" else pure ()
    else pure () : PCmd Unit).run (firstKernel smallState) = .panic "forked" := Res.panics_iff.1 (by decide +kernel)

theorem fork_exact_first : ∃ s free, Ready (firstKernel s) first emptyRoot 0x80000 free ∧
    ∃ κ' j new tf' free', (fork first).run (firstKernel s) = .ok 2 κ' ∧
      Forked (firstKernel s) first emptyRoot 0x80000 κ' 2 j new tf' free' := by
  obtain ⟨s, free, hgrow, h⟩ := exists_onePage
  obtain ⟨r, κ', hrun, -, -, hres⟩ := fork_exact (ready_first h)
  have hg := first_forks
  rw [run_onVm rfl hgrow, if_pos rfl, Kernel.withVm, show { firstKernel smallState with vm := s } = firstKernel s from rfl,
    Cmd.run_bind hrun] at hg
  by_cases hr : r = 2
  · subst hr
    rcases hres with ⟨j, new, tf', free', hf⟩ | ⟨hr, -⟩
    · exact ⟨s, free, ready_first h, κ', j, new, tf', free', hrun, hf⟩
    · exact nomatch hr
  · rw [if_neg hr] at hg
    cases hg

end Xv6.Vm
