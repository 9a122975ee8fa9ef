import Xv6.Vm.Stack

/-!
# exec

Whatever the file holds, `exec` returns. If it returns -1, everything is as
before, but for the order and the contents of the free pages (`exec_all_or_nothing`).
Otherwise the process runs the program of the file: its segments are in memory,
and the arguments are on its stack (`exec_image`).
-/

namespace Xv6.Vm

open Function List

open Radix

variable {s s' : State} {root new tf : Page} {free free' : List Page} {ks : List Nat} {n : Nat} {va sz : Addr}

/-! ## The saved registers -/

/-- The register at an offset of a trapframe. -/
def reg (s : State) (tf : Page) (off : Nat) : Addr := s.pte (base tf + .ofNat 64 off)

theorem slot_eq (tf : Page) (i : Fin 512) : base tf + .ofNat 64 (8 * i) = slot tf i := by
  have htf := tf.isLt
  have hi := i.isLt
  refine BitVec.eq_of_toNat_eq ?_
  rw [slot_toNat, BitVec.toNat_add, base_toNat, BitVec.toNat_ofNat]
  omega

theorem reg_congr (h : heap s' tf = heap s tf) {off : Nat} (hoff : off < 4096)
    (h8 : off % 8 = 0) : reg s' tf off = reg s tf off := by
  have hslot := slot_eq tf ⟨off / 8, by omega⟩
  rw [show 8 * (off / 8) = off by omega] at hslot
  rw [reg, reg, hslot]
  exact congrFun h _

/-- The memory when a program is about to start. -/
def startRegs (s : State) (tf : Page) (sp entry : Addr) : State :=
  ((s.setPte (base tf + .ofNat 64 trapframeA1) sp).setPte (base tf + .ofNat 64 trapframeEpc) entry).setPte
    (base tf + .ofNat 64 trapframeSp) sp

theorem startRegs_spec (s : State) (tf : Page) (sp entry : Addr) :
    (startRegs s tf sp entry).freelist = s.freelist ∧ (∀ q, q ≠ tf → heap (startRegs s tf sp entry) q = heap s q) ∧
      reg (startRegs s tf sp entry) tf trapframeA1 = sp ∧ reg (startRegs s tf sp entry) tf trapframeEpc = entry ∧
      reg (startRegs s tf sp entry) tf trapframeSp = sp := by
  have ha1 : base tf + .ofNat 64 trapframeA1 = slot tf ⟨15, by decide⟩ := slot_eq tf ⟨15, by decide⟩
  have hepc : base tf + .ofNat 64 trapframeEpc = slot tf ⟨3, by decide⟩ := slot_eq tf ⟨3, by decide⟩
  have hsp : base tf + .ofNat 64 trapframeSp = slot tf ⟨6, by decide⟩ := slot_eq tf ⟨6, by decide⟩
  have hheap : heap (startRegs s tf sp entry) = update (heap s) tf
      (update (update (update (heap s tf) ⟨15, by decide⟩ sp) ⟨3, by decide⟩ entry) ⟨6, by decide⟩ sp) := by
    rw [startRegs, ha1, hepc, hsp, heap_setPte, heap_setPte, heap_setPte, update_idem, update_idem, update_self,
      update_self]
  have hreg : ∀ i, (startRegs s tf sp entry).pte (slot tf i) = heap (startRegs s tf sp entry) tf i := fun _ => rfl
  rw [hheap] at hreg
  refine ⟨by rw [startRegs, State.setPte, State.setPte, State.setPte], fun q hq => ?_, ?_, ?_, ?_⟩
  · rw [hheap, update_of_ne hq]
  · rw [reg, ha1, hreg, update_self, update_of_ne (by decide), update_of_ne (by decide), update_self]
  · rw [reg, hepc, hreg, update_self, update_of_ne (by decide), update_self]
  · rw [reg, hsp, hreg, update_self, update_self]

section

variable [Image]

/-! ## Address spaces side by side -/

/-- An address space, after pages have moved that are not part of it. -/
theorem Space.transport (h : Space s root free ks) (hsame : ∀ q ∈ tree s root, heap s' q = heap s q) (hpool : Pool s' free')
    (hapart : ∀ q ∈ free', q ∉ tree s root ∧ q ∉ frames s root ks) : Space s' root free' ks := by
  have htr := translate_same hsame
  have hown : owned s' root free' ks = owned s root free' ks := owned_congr hsame
  have hnd := h.nodup
  rw [owned, append_assoc] at hnd
  refine ⟨hpool.list, ?_, fun p hp => ?_, fun k hk => ?_, fun va hva hk => ?_, h.shape.congr hsame⟩
  · rw [hown, owned, append_assoc]
    refine nodup_append.2 ⟨hpool.nodup, (nodup_append.1 hnd).2.1, fun q hq q' hq' e => ?_⟩
    obtain ⟨h1, h2⟩ := hapart q hq
    rcases mem_append.1 (e ▸ hq') with hm | hm
    · exact h1 hm
    · exact h2 hm
  · rw [hown] at hp
    rcases mem_owned.1 hp with hm | hm
    · exact hpool.ram p hm
    · exact h.ram p (mem_owned.2 (.inr hm))
  · rw [htr]
    exact h.mapped k hk
  · rw [htr]
    exact h.rest va hva hk

/-- The bytes of an address space, after other pages have changed. -/
theorem Space.memAt_congr (h : Space s root free (range n))
    (hsame : ∀ q, q ∈ tree s root ∨ q ∈ frames s root (range n) → heap s' q = heap s q) (hva : va.toNat / 4096 < n) :
    memAt s' root va = memAt s root va := by
  have hvm := mem_range.2 hva
  have htr := translate_same (fun q hq => hsame q (.inl hq))
  have hframe : frameAt s root (va.toNat / 4096) ∈ frames s root (range n) := mem_map_of_mem hvm
  rw [h.memAt_eq hvm, memAt, htr]
  obtain ⟨hlt, e, he, -⟩ := h.mapped _ hvm
  have hlt' : va.toNat < trapframe.toNat := by
    rw [trapframe_toNat] at hlt ⊢
    omega
  rw [translate_pageAddr hlt', he, Option.map_some, pte2pa_eq, base_toNat, ← frameAt_of he,
    mem_of_heap (hsame _ (.inr hframe)) (le_self_add) (Nat.add_lt_add_left (Nat.mod_lt _ (by decide)) _)]

variable {κ κ' : Kernel} {i : Fin nproc}

/-- What holds of the process that calls `exec`: its address space, and its
trapframe. -/
structure Caller (κ : Kernel) (i : Fin nproc) (root tf : Page) (free : List Page) : Prop where
  pagetable : (κ.proc i).pagetable = base root
  space : Space κ.vm root free (range (pages (κ.proc i).sz.toNat))
  top : Top κ.vm root
  trapframe : (κ.proc i).trapframe = base tf
  apart : tf ∉ owned κ.vm root free (range (pages (κ.proc i).sz.toNat))

variable {q : Page} {s0 : State} {l free1 : List Page}

theorem Caller.not_free (h : Caller κ i root tf free)
    (hq : q ∈ tree κ.vm root ∨ q ∈ frames κ.vm root (range (pages (κ.proc i).sz.toNat))) : q ∉ free := fun hf => by
  have hd := h.space.nodup
  rw [owned, append_assoc] at hd
  exact (nodup_append.1 hd).2.2 q hf q (mem_append.2 hq) rfl

/-- The pages of a new address space were free. -/
theorem Build.mem_free (h : Build s0 l s new free n)
    (hq : q ∈ tree s new ∨ q ∈ frames s new (range n)) : q ∈ l ∧ q ∉ free := by
  refine ⟨h.perm.mem_iff.1 (mem_owned.2 (.inr hq)), fun hf => ?_⟩
  have hd := h.space.nodup
  rw [owned, append_assoc] at hd
  exact (nodup_append.1 hd).2.2 q hf q (mem_append.2 hq) rfl

omit [Image] in
theorem run_commit {a₁ a2 a3 v1 v2 v3 : Addr} {f g : Proc → Proc} {c : KCmd Unit} {r : Int}
    (h : c.run (((s.setPte a₁ v1).setPte a2 v2).setPte a3 v3) = .ok () s') :
    (do
        onVm (store a₁ v1)
        setProc i f
        setProc i g
        onVm (store a2 v2)
        onVm (store a3 v3)
        onVm c
        return r : PCmd Int).run (κ.withVm s) = .ok r (((κ.set i f).set i g).withVm s') := by
  have hstore : ∀ (a v : Addr) (s : State), (store a v).run s = .ok () (s.setPte a v) := fun _ _ _ => rfl
  rw [run_onVm rfl (hstore _ _ _), run_setProc, run_setProc,
    run_onVm rfl (hstore _ _ _), run_onVm rfl (hstore _ _ _), run_onVm rfl h]
  rfl

/-- The end of `exec`: the process gets the new address space, and the old one is
freed. -/
theorem exec_commit {sz1 : Addr} (h : Caller κ i root tf free) (hb : Build κ.vm free s new free1 (pages sz1.toNat))
    (sp entry : Addr) (name : List UInt8) (argc : Int) :
    ∃ κ', (do
        onVm (store ((κ.proc i).trapframe + .ofNat 64 trapframeA1) sp)
        setProc i fun p => { p with name }
        setProc i fun p => { p with pagetable := base new, sz := sz1 }
        onVm (store ((κ.proc i).trapframe + .ofNat 64 trapframeEpc) entry)
        onVm (store ((κ.proc i).trapframe + .ofNat 64 trapframeSp) sp)
        onVm (procFreepagetable (κ.proc i).pagetable (κ.proc i).sz)
        return argc : PCmd Int).run (κ.withVm s) = .ok argc κ' ∧
      (∃ free', Caller κ' i new tf free') ∧ (κ'.proc i).sz = sz1 ∧
      reg κ'.vm tf trapframeA1 = sp ∧ reg κ'.vm tf trapframeEpc = entry ∧ reg κ'.vm tf trapframeSp = sp ∧
      (∀ va, translate κ'.vm (base new) va = translate s (base new) va) ∧
      ∀ va : Addr, va.toNat / 4096 < pages sz1.toNat → memAt κ'.vm new va = memAt s new va := by
  obtain ⟨hlist, hother, ha1, hepc, hsp⟩ := startRegs_spec s tf sp entry
  generalize hs4 : startRegs s tf sp entry = s4 at hlist hother ha1 hepc hsp
  have htf : tf ∉ free := fun hf => h.apart (mem_owned.2 (.inl hf))
  -- the old address space is still there
  have hold : ∀ q ∈ tree κ.vm root, heap s4 q = heap κ.vm q := fun q hq => by
    rw [hother q fun e => h.apart (mem_owned.2 (.inr (.inl (e ▸ hq)))), hb.frame q (h.not_free (.inl hq))]
  have hpool : Pool s4 free1 := ⟨hlist.trans hb.space.pool.list, hb.space.pool.nodup, hb.space.pool.ram⟩
  have hsub : ∀ q ∈ free1, q ∈ free := fun q hq => hb.perm.mem_iff.1 (mem_owned.2 (.inl hq))
  have hspace := h.space.transport hold hpool fun q hq => ⟨fun hc => h.not_free (.inl hc) (hsub q hq),
    fun hc => h.not_free (.inr hc) (hsub q hq)⟩
  obtain ⟨s', hrun, hret⟩ := procFreepagetable_spec (κ.proc i).sz hspace (h.top.congr fun va _ _ => translate_congr hold)
  rw [owned_congr hold] at hret
  obtain ⟨⟨free', hpool', hperm⟩, hframe⟩ := hret
  -- the pages of the new one stay as they are
  have hnew : ∀ q, q ∈ tree s new ∨ q ∈ frames s new (range (pages sz1.toNat)) →
      q ∉ owned κ.vm root free1 (range (pages (κ.proc i).sz.toNat)) := fun q hq hc => by
    obtain ⟨h1, h2⟩ := hb.mem_free hq
    rcases mem_owned.1 hc with hm | hm
    · exact h2 hm
    · exact h.not_free hm h1
  have hkeep : ∀ q, q ∈ tree s new ∨ q ∈ frames s new (range (pages sz1.toNat)) → heap s' q = heap s q := fun q hq => by
    rw [hframe q (hnew q hq), hother q fun e => htf (e ▸ (hb.mem_free hq).1)]
  have hspace' : Space s' new free' (range (pages sz1.toNat)) := by
    refine hb.space.transport (fun q hq => hkeep q (.inl hq)) hpool' fun q hq => ⟨fun hc => ?_, fun hc => ?_⟩
    · exact hnew q (.inl hc) (hperm.mem_iff.1 hq)
    · exact hnew q (.inr hc) (hperm.mem_iff.1 hq)
  have htfo : tf ∉ owned κ.vm root free1 (range (pages (κ.proc i).sz.toNat)) := fun hc => by
    rcases mem_owned.1 hc with hm | hm
    · exact htf (hsub tf hm)
    · exact h.apart (mem_owned.2 (.inr hm))
  have htr := translate_same (fun q hq => hkeep q (.inl hq))
  have hreg := hframe tf htfo
  rw [startRegs] at hs4
  rw [← hs4] at hrun
  rw [h.trapframe, h.pagetable]
  have hproc : ∀ f g : Proc → Proc, (((κ.set i f).set i g).withVm s').proc i = g (f (κ.proc i)) := fun f g => by
    rw [Kernel.withVm_proc, set_self, set_self]
  refine ⟨_, run_commit hrun, ⟨free', ?_⟩, by rw [hproc], ?_, ?_, ?_, htr, fun va hva => hb.space.memAt_congr hkeep hva⟩
  · refine ⟨by rw [hproc], by rw [hproc]; exact hspace', hb.top.congr fun va _ _ => htr va, by
      rw [hproc]; exact h.trapframe, ?_⟩
    rw [hproc, Kernel.withVm_vm, owned_congr fun q hq => hkeep q (.inl hq)]
    intro hc
    rcases mem_owned.1 hc with hm | hm
    · exact htfo (hperm.mem_iff.1 hm)
    · exact htf (hb.mem_free hm).1
  · rw [Kernel.withVm_vm, reg_congr hreg (by decide) (by decide), ha1]
  · rw [Kernel.withVm_vm, reg_congr hreg (by decide) (by decide), hepc]
  · rw [Kernel.withVm_vm, reg_congr hreg (by decide) (by decide), hsp]

/-! ## From the stack on -/

/-- The arguments are too many, or do not fit into the stack page. -/
def TooBig (argv : List (List UInt8)) : Prop := maxarg < argv.length ∨ 4096 < stringsSize argv + size16 (8 * (argv.length + 1))

/-- The process runs a new program: `n` pages for its segments, the page that the
user cannot access, and the stack page. -/
structure Executed (i : Fin nproc) (tf : Page) (argv : List (List UInt8)) (entry : Addr) (κ' : Kernel) (new : Page)
    (n : Nat) (sp : Addr) :
    Prop where
  caller : ∃ free', Caller κ' i new tf free'
  size : (κ'.proc i).sz.toNat = 4096 * (n + 2)
  accessible : ∀ k, k < n + 2 → k ≠ n → ∃ e, translate κ'.vm (base new) (pageAddr k) = some e ∧ user e
  guard : ∃ e, translate κ'.vm (base new) (pageAddr n) = some e ∧ user e = false
  a1 : reg κ'.vm tf trapframeA1 = sp
  epc : reg κ'.vm tf trapframeEpc = entry
  stackPointer : reg κ'.vm tf trapframeSp = sp
  stack : (∀ str ∈ argv, str.length < 4096) → ∃ addrs, Layout κ'.vm new (n + 1) sp argv addrs

omit [Image] in
theorem user_of_flags {e : Pte} (h : pteFlags e = userPerm.setWidth 64 ||| pteV) : user e = true := by
  rw [user, and_eq_flags e (by decide), h]
  decide

theorem bad_run (h : Build s0 l s new free (pages sz.toNat)) :
    ∃ s', (bad (base new) sz).run (κ.withVm s) = .ok (-1) (κ.withVm s') ∧ Returned l s0 s' := by
  obtain ⟨s', hrun, hret⟩ := h.freeAll
  exact ⟨s', by rw [bad, run_onVm (Kernel.withVm_vm ..) hrun]; rfl, hret⟩

/-- The stack starts at a page boundary. -/
theorem Build.pgroundup (h : Build s0 l s new free (pages sz.toNat)) :
    (Vm.pgroundup sz).toNat = 4096 * pages sz.toNat ∧ pages (Vm.pgroundup sz).toNat = pages sz.toNat := by
  have hn := h.space.length_le
  rw [length_range] at hn
  have hsz : sz.toNat < 2 ^ 63 := by
    unfold pages at hn
    omega
  have hup : (Vm.pgroundup sz).toNat = 4096 * pages sz.toNat := by rw [pgroundup_eq hsz, pageAddr_toNat_of_le hn]
  refine ⟨hup, ?_⟩
  rw [hup]
  unfold pages
  omega

theorem execStack_spec (path : List UInt8) (argv : List (List UInt8)) (entry : Addr) (h : Caller κ i root tf free)
    (hb : Build κ.vm free s new free1 (pages sz.toNat)) (hu : AllUser s new (pages sz.toNat)) :
    ∃ r κ', (execStack i path argv entry (base new) sz).run (κ.withVm s) = .ok r κ' ∧
      ((r = -1 ∧ (∃ s', κ' = κ.withVm s' ∧ Returned free κ.vm s') ∧
          ((∃ s1, (uvmalloc (base new) (pgroundup sz) (pgroundup sz + 2 * 4096)).run s = .ok 0 s1) ∨
            ((∀ str ∈ argv, str.length < 4096) → TooBig argv))) ∨
        (r = argv.length ∧ ((∀ str ∈ argv, str.length < 4096) → ¬ TooBig argv) ∧
          (∃ sp, Executed i tf argv entry κ' new (pages sz.toNat) sp) ∧
          ((∀ str ∈ argv, str.length < 4096) → ∀ va : Addr, va.toNat / 4096 < pages sz.toNat →
            memAt κ'.vm new va = memAt s new va))) := by
  have hn := hb.space.length_le
  rw [length_range] at hn
  obtain ⟨hup, hup'⟩ := hb.pgroundup
  generalize pages sz.toNat = n at hb hu hn hup hup'
  rw [← hup'] at hb hu
  rw [execStack, getProc, Cmd.run_get]
  dsimp only
  obtain ⟨r, s1, free1, hrun1, hcase⟩ := hb.alloc hu (pgroundup sz + 2 * 4096)
  rw [run_onVm (Kernel.withVm_vm ..) hrun1]
  generalize pgroundup sz = sz0 at hup hup' hb hu hrun1 hcase
  rcases hcase with ⟨rfl, hb1⟩ | ⟨hr, hsize, hb1, hu1, hmem1⟩
  · rw [if_pos rfl]
    obtain ⟨s', hrun, hret⟩ := bad_run (κ := κ) hb1
    exact ⟨-1, _, hrun, .inl ⟨rfl, ⟨s', rfl, hret⟩, .inl ⟨s1, hrun1⟩⟩⟩
  rw [if_neg hr]
  have hsum : (sz0 + 2 * 4096).toNat = 4096 * (n + 2) := by
    rw [BitVec.toNat_add, hup, show (2 * 4096 : Addr).toNat = 8192 from rfl]
    omega
  have hr' : r.toNat = 4096 * (n + 2) := by omega
  have hpages : pages r.toNat = n + 2 := by
    rw [hr']
    unfold pages
    omega
  have htwo : r - 2 * 4096 = pageAddr n := BitVec.eq_of_toNat_eq (by
    rw [BitVec.toNat_sub, hr', show (2 * 4096 : Addr).toNat = 8192 from rfl, pageAddr_toNat_of_le hn]
    omega)
  have hone : (r - 4096).toNat = 4096 * (n + 1) := by
    rw [BitVec.toNat_sub, hr', pgsize_toNat]
    omega
  obtain ⟨s2, hrun2, hb2, ⟨e, he, hflags⟩, htr2, hmem2⟩ := hb1.clear hu1 (show n < pages r.toNat by omega)
  rw [htwo, run_onVm (Kernel.withVm_vm ..) hrun2]
  -- the pages of the user
  have hacc : ∀ k, k < n + 2 → k ≠ n → ∃ e, translate s2 (base new) (pageAddr k) = some e ∧ user e := fun k hk hne => by
    obtain ⟨e, he, hf⟩ := hu1 k (by omega)
    have hkt := hb1.space.lt_trapframe (mem_range.2 (show k < pages r.toNat by omega))
    refine ⟨e, ?_, user_of_flags hf⟩
    rw [htr2 _ (pageAddr_lt hkt) (by rw [pageAddr_div hkt]; exact hne), he]
  have hst : Stack s2 new (pages r.toNat) (n + 1) (r - 4096) r :=
    ⟨Nat.succ_pos n, by omega, hacc (n + 1) (by omega) (by omega), hone, by omega, by omega, by omega⟩
  obtain ⟨o, s3, hrun3, hb3, htr3, hres⟩ := pushStack_spec (k := n + 1) (r - 4096) r argv hb2
  rw [run_onVm (Kernel.withVm_vm ..) hrun3]
  cases o with
  | none =>
    obtain ⟨s', hrun, hret⟩ := bad_run (κ := κ) hb3
    refine ⟨-1, _, hrun, .inl ⟨rfl, ⟨s', rfl, hret⟩, .inr fun hlen => ?_⟩⟩
    rcases hres hst (by omega) hlen with ⟨-, hfail⟩ | ⟨-, sp, addrs, hc, -⟩
    · exact hfail
    · cases hc
  | some sp =>
    obtain ⟨κ', hrun, hcaller, hsz', ha1, hepc, hsp, htr, hmem⟩ := exec_commit h hb3 sp entry (lastElem path) argv.length
    have hpage : ∀ va : Addr, va.toNat / 4096 < n → memAt s2 new va = memAt s new va := fun va hva => by
      rw [hmem2 va (by omega), hmem1 va (by omega), if_pos (by omega)]
    refine ⟨argv.length, κ', hrun,
      .inr ⟨rfl, fun hlen => ?_, ⟨sp, hcaller, by rw [hsz', hr'], fun k hk hne => ?_, ⟨e, ?_, ?_⟩, ha1, hepc, hsp,
      fun hlen => ?_⟩, fun hlen va hva => ?_⟩⟩
    · rcases hres hst (by omega) hlen with ⟨hc, -⟩ | ⟨hfit, -⟩
      · cases hc
      · exact hfit
    · rw [htr, htr3]
      exact hacc k hk hne
    · rw [htr, htr3, he]
    · rw [user, and_eq_flags e (by decide), hflags]
      decide
    · rcases hres hst (by omega) hlen with ⟨hc, -⟩ | ⟨-, sp', addrs, hc, hl, -⟩
      · cases hc
      · obtain rfl := Option.some.inj hc
        exact ⟨addrs, hl.congr (by omega) fun va hva => hmem va (by omega)⟩
    · rcases hres hst (by omega) hlen with ⟨hc, -⟩ | ⟨-, sp', addrs, -, -, hbelow⟩
      · cases hc
      · rw [hmem va (by omega), hbelow va (by omega), hpage va hva]

/-! ## exec -/

section

omit [Image]

/-- The kernel while `exec` reads the file. -/
def Kernel.opened (κ : Kernel) (ip : Nat) : Kernel :=
  { κ with ops := κ.ops + 1, iref := fun j => if j = ip then κ.iref ip + 1 else κ.iref j, ilocks := ip :: κ.ilocks }

/-- The lock, the reference and the transaction are given back. -/
theorem run_close {β : Type} {c : PCmd β} (ip : Nat) :
    (do
      iunlockput ip
      endOp
      c : PCmd β).run ((κ.opened ip).withVm s) = c.run (κ.withVm s) := by
  have hiref : (fun j => if j = ip then (κ.opened ip).iref ip - 1 else (κ.opened ip).iref j) = κ.iref := by
    funext j
    by_cases hj : j = ip
    · rw [if_pos hj, hj]
      show (if ip = ip then κ.iref ip + 1 else κ.iref ip) - 1 = κ.iref ip
      rw [if_pos rfl, Nat.add_sub_cancel]
    · rw [if_neg hj]
      exact if_neg hj
  have hlocks : (κ.opened ip).ilocks.erase ip = κ.ilocks := erase_cons_head _ _
  have hops : (κ.opened ip).ops - 1 = κ.ops := Nat.add_sub_cancel _ _
  have hclose : ({ (κ.opened ip).withVm s with
      ilocks := (κ.opened ip).ilocks.erase ip, iref :=
        fun j => if j = ip then (κ.opened ip).iref ip - 1 else (κ.opened ip).iref j,
      ops := (κ.opened ip).ops - 1 } : Kernel) = κ.withVm s := by
    rw [hiref, hlocks, hops]
    rfl
  rw [iunlockput, Cmd.run_modify, endOp, Cmd.run_modify]
  exact congrArg c.run hclose

end

/-- The label `bad`, while the inode is locked. -/
theorem badLocked_run (ip : Nat) (h : Build s0 l s new free (pages sz.toNat)) :
    ∃ s', (badLocked ip (base new) sz).run ((κ.opened ip).withVm s) = .ok (-1) (κ.withVm s') ∧ Returned l s0 s' := by
  obtain ⟨s', hrun, hret⟩ := h.freeAll
  have hne : base new ≠ 0 := (h.space.ram new (mem_owned.2 (.inr (.inl self_mem_nodes)))).ne_zero
  refine ⟨s', ?_, hret⟩
  rw [badLocked, decide_eq_true hne, Cmd.when, if_pos rfl, run_onVm (Kernel.withVm_vm ..) hrun]
  exact run_close (κ := κ) (s := s') (c := pure (-1)) ip

theorem badLocked_null (ip : Nat) : (badLocked ip 0 0).run ((κ.opened ip).withVm s) = .ok (-1) (κ.withVm s) := by
  rw [badLocked, decide_eq_false (not_not.2 rfl), Cmd.when, if_neg Bool.false_ne_true]
  exact run_close (c := pure (-1)) ip

omit [Image] in
theorem readi_header (data : List UInt8) : readi data 0 (.ofNat 32 elfhdrSize) = data.take elfhdrSize := by
  rw [readi, if_neg]
  · rfl
  · rw [show (0 : BitVec 32).toNat = 0 from rfl]
    exact not_or.2 ⟨Nat.not_lt_zero _, by decide⟩

/-- The ELF header of a file. -/
def elfOf (data : List UInt8) : Elfhdr := .ofBytes (data.take elfhdrSize)

/-- The segments that a file asks for. -/
def segments (data : List UInt8) : List Proghdr :=
  (headersFrom data (elfOf data).phoff.toNat (elfOf data).phnum).filter fun ph => ph.type = elfProgLoad

variable [Text] [Files]

/-- The segments of the file and the two pages for the stack are allocated. -/
def Reserved (κ : Kernel) (i : Fin nproc) (path : List UInt8) : Prop :=
  ∃ ip pagetable s1 sz s2 sz1 s3, Files.namei path = some ip ∧ elfhdrSize ≤ (Files.data ip).length ∧
    (elfOf (Files.data ip)).magic = elfMagic ∧
    (procPagetable (κ.proc i).trapframe).run κ.vm = .ok pagetable s1 ∧ pagetable ≠ 0 ∧
    (loadHeaders pagetable (Files.data ip) (elfOf (Files.data ip)).phnum ((elfOf (Files.data ip)).phoff.setWidth 32)
      0).run s1 = .ok (true, sz) s2 ∧
    (uvmalloc pagetable (pgroundup sz) (pgroundup sz + 2 * 4096)).run s2 = .ok sz1 s3 ∧ sz1 ≠ 0

/-- The segments of a file are in the `n` pages below the stack. -/
def InPlace (s : State) (new : Page) (n : Nat) (data : List UInt8) : Prop :=
  (elfOf data).phoff.toNat < 2 ^ 31 → (∀ ph ∈ segments data, ph.off.toNat < 2 ^ 32) → (segments data).Pairwise Below →
    ∀ ph ∈ segments data, Placed s new data ph ∧ ph.vaddr.toNat + ph.memsz.toNat ≤ 4096 * n

theorem exec_spec (h : Caller κ i root tf free) (path : List UInt8) (argv : List (List UInt8)) :
    ∃ r κ', (exec i path argv).run κ = .ok r κ' ∧
      ((r = -1 ∧ (∃ s', κ' = κ.withVm s' ∧ Returned free κ.vm s') ∧
          (¬ Reserved κ i path ∨ ((∀ str ∈ argv, str.length < 4096) → TooBig argv))) ∨
        (r = argv.length ∧ ((∀ str ∈ argv, str.length < 4096) → ¬ TooBig argv) ∧
          ∃ ip new n sp, Files.namei path = some ip ∧ Executed i tf argv (elfOf (Files.data ip)).entry κ' new n sp ∧
            ((∀ str ∈ argv, str.length < 4096) → InPlace κ'.vm new n (Files.data ip)))) := by
  have hself : Returned free κ.vm κ.vm := ⟨⟨free, h.space.pool, .refl _⟩, fun _ _ => rfl⟩
  rw [exec, beginOp, Cmd.run_modify]
  cases hname : Files.namei path with
  | none =>
    refine ⟨-1, κ, rfl, .inl ⟨rfl, ⟨κ.vm, rfl, hself⟩, .inl ?_⟩⟩
    rintro ⟨ip, pagetable, s1, sz, s2, sz1, s3, hname', -⟩
    rw [hname] at hname'
    cases hname'
  | some ip =>
    have hbound := Files.bounded ip
    generalize hdata : Files.data ip = data at hbound
    dsimp only
    rw [iget, Cmd.run_modify, ilock, Cmd.run_modify, hdata, readi_header, ← elfOf]
    show ∃ r κ', Cmd.run _ ((κ.opened ip).withVm κ.vm) = .ok r κ' ∧ _
    -- what `Reserved` says about this file
    have hres : Reserved κ i path → elfhdrSize ≤ data.length ∧ (elfOf data).magic = elfMagic ∧ ∃ pagetable s1 sz s2 sz1 s3,
        (procPagetable (κ.proc i).trapframe).run κ.vm = .ok pagetable s1 ∧ pagetable ≠ 0 ∧
        (loadHeaders pagetable data (elfOf data).phnum ((elfOf data).phoff.setWidth 32) 0).run s1 = .ok (true, sz) s2 ∧
        (uvmalloc pagetable (pgroundup sz) (pgroundup sz + 2 * 4096)).run s2 = .ok sz1 s3 ∧ sz1 ≠ 0 := by
      rintro ⟨ip', pagetable, s1, sz, s2, sz1, s3, hname', hrest⟩
      rw [hname, Option.some_inj] at hname'
      rw [← hname', hdata] at hrest
      exact ⟨hrest.1, hrest.2.1, pagetable, s1, sz, s2, sz1, s3, hrest.2.2⟩
    by_cases hlen : (data.take elfhdrSize).length = elfhdrSize
    swap
    · rw [if_pos hlen]
      refine ⟨-1, _, badLocked_null ip, .inl ⟨rfl, ⟨κ.vm, rfl, hself⟩, .inl fun hc => hlen ?_⟩⟩
      rw [length_take, min_eq_left (hres hc).1]
    rw [if_neg (not_not.2 hlen)]
    by_cases hmagic : (elfOf data).magic = elfMagic
    swap
    · rw [if_pos hmagic]
      exact ⟨-1, _, badLocked_null ip, .inl ⟨rfl, ⟨κ.vm, rfl, hself⟩, .inl fun hc => hmagic (hres hc).2.1⟩⟩
    rw [if_neg (not_not.2 hmagic), getProc, Cmd.run_get]
    obtain ⟨r, s1, hrun1, hcase⟩ := procPagetable_spec h.space.pool (κ.proc i).trapframe
    rw [show ((κ.opened ip).withVm κ.vm).proc i = κ.proc i from rfl, run_onVm (Kernel.withVm_vm ..) hrun1]
    rcases hcase with ⟨rfl, hret⟩ | ⟨new, free1, rfl, hs1, htop, hperm, hframe⟩
    · rw [if_pos rfl]
      refine ⟨-1, _, badLocked_null ip, .inl ⟨rfl, ⟨s1, rfl, hret⟩, .inl fun hc => ?_⟩⟩
      obtain ⟨-, -, pagetable, s1', sz, s2, sz1, s3, hrun1', hne, -⟩ := hres hc
      rw [hrun1, Res.ok.injEq] at hrun1'
      exact hne hrun1'.1.symm
    have hb1 : Build κ.vm free s1 new free1 (pages (0 : Addr).toNat) := ⟨hs1, htop, hperm, hframe⟩
    have hne : base new ≠ 0 := (hs1.ram new (mem_owned.2 (.inr (.inl self_mem_nodes)))).ne_zero
    obtain ⟨ok, sz, s2, free2, hrun2, hb2, hok⟩ :=
      loadHeaders_spec data (elfOf data).phnum ((elfOf data).phoff.setWidth 32) hb1
      fun _ hk => by cases hk
    rw [if_neg hne, run_onVm (Kernel.withVm_vm ..) hrun2]
    -- the run that `Reserved` talks about is this one
    have hres' : Reserved κ i path → ok = true ∧
      ∃ sz1 s3, (uvmalloc (base new) (pgroundup sz) (pgroundup sz + 2 * 4096)).run s2 = .ok sz1 s3 ∧ sz1 ≠ 0 := by
      intro hc
      obtain ⟨-, -, pagetable, s1', sz', s2', sz1, s3, hrun1', -, hrun2', hrun3, hne1⟩ := hres hc
      rw [hrun1, Res.ok.injEq] at hrun1'
      obtain ⟨rfl, rfl⟩ := hrun1'
      rw [hrun2, Res.ok.injEq, Prod.mk.injEq] at hrun2'
      obtain ⟨⟨rfl, rfl⟩, rfl⟩ := hrun2'
      exact ⟨rfl, sz1, s3, hrun3, hne1⟩
    cases ok with
    | false =>
      obtain ⟨s', hrun, hret⟩ := badLocked_run (κ := κ) ip hb2
      exact ⟨-1, _, hrun, .inl ⟨rfl, ⟨s', rfl, hret⟩, .inl fun hc => absurd (hres' hc).1 Bool.false_ne_true⟩⟩
    | true =>
      obtain ⟨hu, -, hfull, hplaced⟩ := hok rfl
      obtain ⟨r, κ', hrun, hcase⟩ := execStack_spec path argv (elfOf data).entry h hb2 hu
      refine ⟨r, κ', (run_close (κ := κ) (s := s2) ip).trans hrun, ?_⟩
      rcases hcase with ⟨rfl, hret, hwhy⟩ | ⟨rfl, hfit, ⟨sp, hexec⟩, hmem⟩
      · refine .inl ⟨rfl, hret, hwhy.imp_left ?_⟩
        rintro ⟨s3, hrun3⟩ hc
        obtain ⟨-, sz1, s3', hrun3', hne1⟩ := hres' hc
        rw [hrun3, Res.ok.injEq] at hrun3'
        exact hne1 hrun3'.1.symm
      · refine .inr ⟨rfl, hfit, ip, new, pages sz.toNat, sp, rfl, by rw [hdata]; exact hexec, fun hlens => ?_⟩
        rw [hdata]
        intro hphoff hoffs hpw
        have hd : data.length < 2 ^ 31 := lt_of_le_of_lt hbound (by decide)
        have hseg := segmentsFrom_eq data (elfOf data).phnum ((elfOf data).phoff.setWidth 32) hd hfull
        rw [show ((elfOf data).phoff.setWidth 32).toNat = (elfOf data).phoff.toNat by
          rw [BitVec.toNat_setWidth]; omega] at hseg
        rw [← segments] at hseg
        rw [hseg] at hplaced
        obtain ⟨hall, -⟩ := hplaced hd (fun ph hph => ⟨hoffs ph hph, Nat.zero_le _⟩) hpw
        intro ph hph
        obtain ⟨hp, hfile, hend⟩ := hall ph hph
        have hle : ph.vaddr.toNat + ph.memsz.toNat ≤ 4096 * pages sz.toNat := by
          unfold pages
          omega
        refine ⟨hp.congr hfile fun va hva => hmem hlens va ?_, hle⟩
        unfold pages at hva ⊢
        omega

/-- `exec` never panics; and if it returns -1, the process, its memory, the free
pages, the reference counts and the locks are as before. -/
theorem exec_all_or_nothing (h : Caller κ i root tf free) (path : List UInt8) (argv : List (List UInt8)) :
    ∃ r κ', (exec i path argv).run κ = .ok r κ' ∧
      (r = -1 → κ'.proc = κ.proc ∧ KeptMemory root free κ.vm κ'.vm ∧ κ'.vm.freelist.Perm κ.vm.freelist ∧
        κ'.fileref = κ.fileref ∧
        κ'.iref = κ.iref ∧ κ'.ilocks = κ.ilocks ∧ κ'.ops = κ.ops) := by
  obtain ⟨r, κ', hrun, hcase⟩ := exec_spec h path argv
  refine ⟨r, κ', hrun, fun hr => ?_⟩
  rcases hcase with ⟨-, ⟨s', rfl, hret⟩, -⟩ | ⟨rfl, -⟩
  · obtain ⟨free', hpool, hp⟩ := hret.pool
    refine ⟨rfl, h.space.kept hret.frame, ?_, rfl, rfl, rfl, rfl⟩
    rw [Kernel.withVm_vm, hpool.list, h.space.list]
    exact hp.map base
  · omega

/-- If `exec` succeeds, the segments are in memory and the arguments are on the
stack. Once the pages are there, it fails if and only if the arguments are too
many or do not fit. -/
theorem exec_image (h : Caller κ i root tf free) (path : List UInt8) (argv : List (List UInt8))
    (hlen : ∀ str ∈ argv, str.length < 4096) :
    ∃ r κ', (exec i path argv).run κ = .ok r κ' ∧
      (r ≠ -1 → r = argv.length ∧ ∃ ip new n sp, Files.namei path = some ip ∧
        Executed i tf argv (elfOf (Files.data ip)).entry κ' new n sp ∧
        InPlace κ'.vm new n (Files.data ip)) ∧
      (Reserved κ i path → (r = -1 ↔ TooBig argv)) := by
  obtain ⟨r, κ', hrun, hcase⟩ := exec_spec h path argv
  refine ⟨r, κ', hrun, ?_⟩
  rcases hcase with ⟨rfl, -, hwhy⟩ | ⟨rfl, hfit, ip, new, n, sp, hname, hexec, hplace⟩
  · refine ⟨fun hr => absurd rfl hr, fun hc => ⟨fun _ => ?_, fun _ => rfl⟩⟩
    rcases hwhy with hno | hbig
    · exact absurd hc hno
    · exact hbig hlen
  · refine ⟨fun _ => ⟨rfl, ip, new, n, sp, hname, hexec, hplace hlen⟩,
      fun _ => ⟨fun hr => ?_, fun hbig => absurd hbig (hfit hlen)⟩⟩
    omega

end

/-! ## A program of one segment -/

local instance execImage : Image := instImage

local instance execText : Text := ⟨kernbase⟩

/-- A file with two bytes of data, to be loaded at the address 0. -/
def program : List UInt8 :=
  [0x7F, 0x45, 0x4C, 0x46] ++ replicate 28 0 ++ [64] ++ replicate 23 0 ++ [1] ++ replicate 7 0 ++
    [1] ++ replicate 7 0 ++ [120] ++ replicate 7 0 ++ replicate 16 0 ++ [2] ++ replicate 7 0 ++ [8] ++ replicate 15 0 ++
    [0x13, 0x37]

local instance execFiles : Files := ⟨fun _ => some 0, fun _ => program, fun _ => by decide⟩

theorem program_header : program.length = 122 ∧ (elfOf program).magic = elfMagic ∧ (segments program).length = 1 := by decide

set_option maxRecDepth 100000 in
/-- The free pages are enough for a process and for the program. -/
theorem smallState_ready : (do
    let pt ← procPagetable (base 0x80000)
    if pt = 0 then pure ()
    else
      let pt ← procPagetable (base 0x80000)
      if pt = 0 then pure ()
      else
        let (ok, sz) ← loadHeaders pt program (elfOf program).phnum ((elfOf program).phoff.setWidth 32) 0
        if ok then
          let sz1 ← uvmalloc pt (pgroundup sz) (pgroundup sz + 2 * 4096)
          if sz1 = 0 then pure () else Cmd.panic "ready"
        else pure () : KCmd Unit).run smallState = .panic "ready" :=
  Res.panics_iff.1 (by decide +kernel)

def execProc (root : Page) : Proc := ⟨.running, 1, none, 0, base root, base 0x80000, fun _ => none, 0, []⟩

def execKernel (s : State) (root : Page) : Kernel := ⟨s, fun _ => execProc root, 2, fun _ => 0, fun _ => 1, [], 0⟩

/-- A process that can run the program. -/
theorem exists_caller : ∃ s root free, Caller (execKernel s root) first root 0x80000 free ∧ Reserved
    (execKernel s root) first [] := by
  have hg := smallState_ready
  obtain ⟨r, s, hrun, hcase⟩ := procPagetable_spec space_smallState.pool (base 0x80000)
  rw [Cmd.run_bind hrun] at hg
  rcases hcase with ⟨rfl, -⟩ | ⟨root, free, rfl, hs, htop, hperm, -⟩
  · rw [if_pos rfl] at hg
    cases hg
  have hram : ∀ {p : Page}, p ∈ owned s root free [] → Ram p := fun hp => hs.ram _ hp
  rw [if_neg (hram (mem_owned.2 (.inr (.inl self_mem_nodes)))).ne_zero] at hg
  have hrange : range (pages ((execKernel s root).proc first).sz.toNat) = [] := by
    rw [show ((execKernel s root).proc first).sz = 0 from rfl]
    decide
  refine ⟨s, root, free, ⟨rfl, by rw [hrange]; exact hs, htop, rfl, fun hc => ?_⟩, ?_⟩
  · rw [hrange] at hc
    exact absurd (hram hc).lo (by decide)
  obtain ⟨r, s1, hrun1, hcase⟩ := procPagetable_spec hs.pool (base 0x80000)
  rw [Cmd.run_bind hrun1] at hg
  by_cases hr : r = 0
  · rw [if_pos hr] at hg
    cases hg
  rw [if_neg hr] at hg
  rcases hcase with ⟨h0, -⟩ | ⟨new, free1, rfl, hs1, htop1, hperm1, hframe1⟩
  · exact absurd h0 hr
  have hb1 : Build s free s1 new free1 (pages (0 : Addr).toNat) := ⟨hs1, htop1, hperm1, hframe1⟩
  obtain ⟨ok, sz, s2, free2, hrun2, hb2, hok⟩ :=
    loadHeaders_spec program (elfOf program).phnum ((elfOf program).phoff.setWidth 32) hb1
    nofun
  rw [Cmd.run_bind hrun2] at hg
  dsimp only at hg
  cases ok with
  | false =>
    rw [if_neg Bool.false_ne_true] at hg
    cases hg
  | true =>
    rw [if_pos rfl] at hg
    have hup := hb2.pgroundup.2
    have hu := (hok rfl).1
    rw [← hup] at hb2 hu
    obtain ⟨sz1, s3, free3, hrun3, -⟩ := hb2.alloc hu (pgroundup sz + 2 * 4096)
    rw [Cmd.run_bind hrun3] at hg
    have hdata : Files.data 0 = program := rfl
    obtain ⟨hlen, hmagic, -⟩ := program_header
    rw [Reserved]
    refine ⟨0, base new, s1, sz, s2, sz1, s3, rfl, ?_⟩
    rw [hdata]
    refine ⟨by rw [hlen]; decide, hmagic, hrun1, hr, hrun2, hrun3, fun h0 => ?_⟩
    rw [if_pos h0] at hg
    cases hg

/-- The call fails if there are too many arguments, and the process is as before. -/
theorem exec_all_or_nothing_program : ∃ s root free, Caller (execKernel s root) first root 0x80000 free ∧
    ∃ κ', (exec first [] (replicate 33 [])).run (execKernel s root) = .ok (-1) κ' ∧ κ'.proc = (execKernel s root).proc ∧
      κ'.vm.freelist.Perm s.freelist := by
  obtain ⟨s, root, free, h, -⟩ := exists_caller
  obtain ⟨r, κ', hrun, hkept⟩ := exec_all_or_nothing h [] (replicate 33 [])
  obtain ⟨_, _, hrun', hcase⟩ := exec_spec h [] (replicate 33 [])
  rw [hrun] at hrun'
  cases hrun'
  rcases hcase with ⟨rfl, -⟩ | ⟨-, hfit, -⟩
  · exact ⟨s, root, free, h, κ', hrun, (hkept rfl).1, (hkept rfl).2.2.1⟩
  · refine absurd ?_ (hfit ?_)
    · unfold TooBig
      decide
    · simp

/-- With the argument `a`, it starts with the segment and the argument in memory. -/
theorem exec_image_program : ∃ s root free, Caller (execKernel s root) first root 0x80000 free ∧
    ∃ κ' new n sp, (exec first [] [[97]]).run (execKernel s root) = .ok 1 κ' ∧
      Executed first 0x80000 [[97]] (elfOf program).entry κ' new n sp ∧
      ∀ ph ∈ segments program, Placed κ'.vm new program ph := by
  obtain ⟨s, root, free, h, hreserved⟩ := exists_caller
  obtain ⟨r, κ', hrun, hok, hiff⟩ := exec_image h [] [[97]] (by decide)
  have hfit : ¬ TooBig [[97]] := by
    unfold TooBig
    decide
  obtain ⟨rfl, ip, new, n, sp, hname, hexec, hplace⟩ := hok fun hr => hfit ((hiff hreserved).1 hr)
  have hplace : InPlace κ'.vm new n program := hplace
  obtain ⟨a, ha⟩ := length_eq_one_iff.1 program_header.2.2
  have hpw : (segments program).Pairwise Below := by
    rw [ha]
    exact pairwise_singleton _ _
  exact ⟨s, root, free, h, κ', new, n, sp, hrun, hexec, fun ph hph => (hplace (by decide) (by decide) hpw ph hph).1⟩

end Xv6.Vm
