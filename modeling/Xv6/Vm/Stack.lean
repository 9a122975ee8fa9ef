import Xv6.Vm.Fork
import Xv6.Vm.Load

/-!
# The stack of a new program

Below the stack page is a page that the user cannot access (`Build.clear`). The
strings of the arguments are pushed from the top of the stack page down, each at
a multiple of 16, and then the array of pointers to them; they fit if and only if
their aligned sizes do (`pushStack_spec`).
-/

namespace Xv6.Vm

open List

open Radix

variable {s s' s0 : State} {root : Page} {free free' l : List Page} {n m k : Nat} {va sz : Addr}
  {sp stackbase : Addr} {len : Nat}

/-! ## The guard page -/

theorem ppn_clear (e : Pte) : ppn (e &&& ~~~pteU) = ppn e := by
  refine BitVec.eq_of_getLsbD_eq fun i hi => ?_
  have hu : pteU.getLsbD (10 + i) = false :=
    Nat.testBit_lt_two_pow
      (lt_of_lt_of_le (show pteU.toNat < 2 ^ 10 by decide) (Nat.pow_le_pow_right (by decide) (Nat.le_add_right 10 i)))
  rw [ppn, ppn, BitVec.getLsbD_setWidth, BitVec.getLsbD_setWidth, BitVec.getLsbD_ushiftRight, BitVec.getLsbD_ushiftRight,
    BitVec.getLsbD_and,
    BitVec.getLsbD_not, hu]
  by_cases h : 10 + i < 64
  · simp [h]
  · rw [BitVec.getLsbD_of_ge e _ (Nat.le_of_not_lt h), Bool.false_and]

theorem pteFlags_clear (e : Pte) : pteFlags (e &&& ~~~pteU) = pteFlags e &&& ~~~pteU := by
  rw [pteFlags, pteFlags, BitVec.and_assoc, BitVec.and_assoc, BitVec.and_comm (~~~pteU)]

/-- The flags of a page that the user cannot access. -/
abbrev guardFlags : Pte := pteW ||| pteX ||| pteR ||| pteV

/-- The size of `len` bytes on the stack. -/
def size16 (len : Nat) : Nat := (len + 15) / 16 * 16

/-- The size of the strings on the stack, each with its NUL. -/
def stringsSize (argv : List (List UInt8)) : Nat := (argv.map fun str => size16 (str.length + 1)).sum

/-- The string and its NUL are at the address `a`. -/
def StringAt (s : State) (root : Page) (a : Addr) (str : List UInt8) : Prop :=
  ∀ j, j ≤ str.length → memAt s root (a + .ofNat 64 j) = some (str.getD j 0)

/-- The strings are at these addresses between `lo` and `hi`, the first one
highest, and they do not overlap. -/
structure Strings (s : State) (root : Page) (lo hi : Nat) (argv : List (List UInt8)) (addrs : List Addr) : Prop where
  length : addrs.length = argv.length
  strings : ∀ p ∈ argv.zip addrs, StringAt s root p.2 p.1
  inside : ∀ p ∈ argv.zip addrs, lo ≤ p.2.toNat ∧ p.2.toNat + p.1.length + 1 ≤ hi
  disjoint : (argv.zip addrs).Pairwise fun p q => q.2.toNat + q.1.length + 1 ≤ p.2.toNat

/-- A pointer is stored at the address `a`. -/
def PointerAt (s : State) (root : Page) (a p : Addr) : Prop :=
  ∀ j, j < 8 → memAt s root (a + .ofNat 64 j) = some (UInt8.ofNat (p.toNat / 256 ^ j))

/-- The stack page `k` of a program that starts with the stack pointer `sp`: the
pointers to the strings and a null pointer are at `sp`, and the strings are above
them. -/
structure Layout (s : State) (root : Page) (k : Nat) (sp : Addr) (argv : List (List UInt8)) (addrs : List Addr) : Prop where
  aligned : sp.toNat % 16 = 0
  low : 4096 * k ≤ sp.toNat
  high : sp.toNat + 8 * (argv.length + 1) ≤ 4096 * (k + 1)
  pointers : ∀ i a, (addrs ++ [0])[i]? = some a → PointerAt s root (sp + .ofNat 64 (8 * i)) a
  strings : Strings s root (sp.toNat + 8 * (argv.length + 1)) (4096 * (k + 1)) argv addrs

section

variable [Image]

/-- `uvmclear` takes a page away from the user, and changes nothing else. -/
theorem Build.clear (h : Build s0 l s root free n) (hu : AllUser s root n) (hk : k < n) :
    ∃ s', (uvmclear (base root) (pageAddr k)).run s = .ok () s' ∧ Build s0 l s' root free n ∧
      (∃ e, translate s' (base root) (pageAddr k) = some e ∧ pteFlags e = guardFlags) ∧
      (∀ va, va < maxva → va.toNat / 4096 ≠ k → translate s' (base root) va = translate s (base root) va) ∧
      ∀ va : Addr, va.toNat / 4096 < n → memAt s' root va = memAt s root va := by
  have hkm : k ∈ range n := mem_range.2 hk
  have htop := h.space.lt_trapframe hkm
  have hlt := pageAddr_lt htop
  have hd := h.space.table.distinct
  obtain ⟨e, he, hf⟩ := hu k hk
  have hf' : pteFlags (e &&& ~~~pteU) = guardFlags := by
    rw [pteFlags_clear, hf]
    decide
  cases hq : leaf child (heap s) (path (pageAddr k)) 2 root with
  | none =>
    rw [translate_eq hlt, Radix.lookup, hq] at he
    cases he
  | some q =>
    have hrun : (uvmclear (base root) (pageAddr k)).run s = .ok ()
      (s.setPte (slot q (path (pageAddr k) 0)) (e &&& ~~~pteU)) := by
      rw [translate_leaf hlt hq, Option.filter_eq_some_iff] at he
      have hval := Option.some.inj he.1
      rw [uvmclear, Cmd.run_bind (walk_false hlt), hq, Option.map_some]
      rw [run_load, hval]
      rfl
    have htr : ∀ va, va < maxva → translate (s.setPte (slot q (path (pageAddr k) 0)) (e &&& ~~~pteU)) (base root) va =
        if va.toNat / 4096 = k then some (e &&& ~~~pteU) else translate s (base root) va := fun va hva => by
      have hv : valid (e &&& ~~~pteU) = true := by
        rw [valid, and_eq_flags _ (by decide), hf']
        decide
      rw [translate_setPte hd hq hlt hva, Option.filter_some, if_pos hv]
      exact if_congr (samePage_pageAddr htop) rfl rfl
    have htree := tree_setPte hd hq (e &&& ~~~pteU)
    have hshape := h.space.shape.setPte hd hq (e &&& ~~~pteU)
    have hlist : (s.setPte (slot q (path (pageAddr k) 0)) (e &&& ~~~pteU)).freelist = s.freelist := by rw [State.setPte]
    have hheap : ∀ r, r ≠ q → heap (s.setPte (slot q (path (pageAddr k) 0)) (e &&& ~~~pteU)) r = heap s r := fun r hr => by
      rw [heap_setPte, Function.update_of_ne hr]
    generalize s.setPte (slot q (path (pageAddr k) 0)) (e &&& ~~~pteU) = s' at hrun htr htree hshape hlist hheap
    have hqt : q ∈ tree s root := leaf_mem_nodes hq
    have hself : translate s' (base root) (pageAddr k) = some (e &&& ~~~pteU) := by
      rw [htr _ hlt, if_pos (by rw [pageAddr_div htop])]
    have hother : ∀ j, j ∈ range n → j ≠ k →
      translate s' (base root) (pageAddr j) = translate s (base root) (pageAddr j) := fun j hj hne => by
      have hjt := h.space.lt_trapframe hj
      rw [htr _ (pageAddr_lt hjt), if_neg (by rw [pageAddr_div hjt]; exact hne)]
    have hframe : ∀ j, j ∈ range n → frameAt s' root j = frameAt s root j := fun j hj => by
      by_cases hjk : j = k
      · rw [hjk, frameAt_of hself, frameAt_of he, ppn_clear]
      · exact frameAt_congr (hother j hj hjk)
    have hframes : frames s' root (range n) = frames s root (range n) := map_congr_left hframe
    have hp : (owned s' root free (range n)).Perm (owned s root free (range n)) := by
      rw [owned, owned, hframes]
      exact (htree.append_left _).append_right _
    have hs' : Space s' root free (range n) := by
      refine h.space.of_perm hp (hlist.trans h.space.list) (fun j hj => ?_) (fun va hva hout => ?_) hshape
      · by_cases hjk : j = k
        · subst hjk
          exact ⟨htop, _, hself, by rw [hf']; decide⟩
        · rw [hother j hj hjk]
          exact h.space.mapped j hj
      · rw [htr va (lt_maxva_of_lt hva), if_neg fun hc : va.toNat / 4096 = k => hout (by rw [hc]; exact hkm)]
        exact h.space.rest va hva hout
    refine ⟨s', hrun, ⟨hs', h.top.congr fun va hva hge => ?_, hp.trans h.perm, fun r hr => ?_⟩, ⟨_, hself, hf'⟩,
      fun va hva hne => by rw [htr va hva, if_neg hne], fun va hva => ?_⟩
    · rw [htr va hva, if_neg]
      rw [trapframe_toNat] at hge htop
      omega
    · rw [hheap r fun e => hr (h.perm.mem_iff.1 (mem_owned.2 (.inr (.inl (e ▸ hqt))))), h.frame r hr]
    · have hvm := mem_range.2 hva
      have hne : frameAt s root (va.toNat / 4096) ≠ q := fun e => (h.space.frame_not_mem hvm).2 (e ▸ hqt)
      rw [hs'.memAt_eq hvm, h.space.memAt_eq hvm, hframe _ hvm,
        mem_of_heap (hheap _ hne) (le_self_add) (Nat.add_lt_add_left (Nat.mod_lt _ (by decide)) _)]

/-! ## Copies to the new program -/

/-- The frames of the pages that the user can access. -/
theorem Build.userFrames (h : Build s0 l s root free n) : UserFrames s root ∧
    ∀ {va e}, translate s (base root) va = some e → user e → va.toNat / 4096 < n ∧
      ppn e = frameAt s root (va.toNat / 4096) := by
  have hin : ∀ {va e}, translate s (base root) va = some e → user e → va.toNat / 4096 < n ∧
    ppn e = frameAt s root (va.toNat / 4096) := by
    intro va e he hue
    have hva := lt_maxva.2 (lt_of_translate he)
    rcases lt_or_ge va.toNat trapframe.toNat with hlt | hge
    · by_cases hk : va.toNat / 4096 ∈ range n
      · exact ⟨mem_range.1 hk, (frameAt_of ((translate_pageAddr hlt).symm.trans he)).symm⟩
      · rw [h.space.rest va hlt hk] at he
        cases he
    · -- the user cannot access the two pages at the top
      have htop : ∃ e', translate s (base root) va = some e' ∧ user e' = false := by
        rcases top_cases hva hge with hp | hp
        · obtain ⟨e', he', hf⟩ := h.top.trapframe
          refine ⟨e', by rw [← he', translate_page (by decide) hva hp], ?_⟩
          rw [user, and_eq_flags e' (by decide), hf]
          decide
        · obtain ⟨e', he', hf⟩ := h.top.trampoline
          refine ⟨e', by rw [← he', translate_page (by decide) hva hp], ?_⟩
          rw [user, and_eq_flags e' (by decide), hf]
          decide
      obtain ⟨e', he', hu'⟩ := htop
      rw [he, Option.some_inj] at he'
      rw [he', hu'] at hue
      cases hue
  have hmem : ∀ {va e}, translate s (base root) va = some e → user e → ppn e ∈ frames s root (range n) := fun he hue => by
    obtain ⟨hk, hp⟩ := hin he hue
    exact hp ▸ mem_map_of_mem (mem_range.2 hk)
  refine ⟨⟨fun he hue h0 => ?_, fun he he' hue hue' heq => ?_, fun he hue hm => ?_⟩, hin⟩
  · have hr := (h.space.ram _ (mem_owned.2 (.inr (.inr (hmem he hue))))).ne_zero
    rw [h0] at hr
    exact hr (by decide)
  · obtain ⟨hk, hp⟩ := hin he hue
    obtain ⟨hk', hp'⟩ := hin he' hue'
    have := h.space.frame_inj (mem_range.2 hk) (mem_range.2 hk') (by rw [← hp, ← hp', heq])
    exact this.symm
  · exact (nodup_append.1 h.space.nodup).2.2 _ (mem_append_right _ hm) _ (hmem he hue) rfl

/-- `copyout` changes the contents of user pages only. If the range lies in one
page of the user, it succeeds. -/
theorem Build.copyout (h : Build s0 l s root free n) (va : Addr) (src : Bytes) (len : Addr) :
    ∃ r s', (Vm.copyout (base root) va src len).run s = .ok r s' ∧ Build s0 l s' root free n ∧
      (∀ va', translate s' (base root) va' = translate s (base root) va') ∧ (r = 0 ∨ r = -1) ∧
      (∀ k e, k < n → translate s (base root) (pageAddr k) = some e → user e → 4096 * k ≤ va.toNat →
        va.toNat + len.toNat ≤ 4096 * (k + 1) →
        r = 0 ∧ ∀ va' : Addr, va'.toNat / 4096 < n → memAt s' root va' =
          if va.toNat ≤ va'.toNat ∧
            va'.toNat < va.toNat + len.toNat then some (src (va'.toNat - va.toNat)) else memAt s root va') := by
  obtain ⟨hf, hin⟩ := h.userFrames
  obtain ⟨r, s', j, hrun, hc⟩ := copyout_spec hf va src len
  have hsame : ∀ q, q ∉ frames s root (range n) → heap s' q = heap s q := fun q hq => heap_congr fun x h1 h2 => by
    refine hc.others x fun i _ hx => hq ?_
    obtain ⟨e, he, hue, hx⟩ := of_userAt hx
    obtain ⟨hk, hp⟩ := hin he hue
    have hqe : q = ppn e := BitVec.eq_of_toNat_eq (by omega)
    exact hqe ▸ hp ▸ mem_map_of_mem (mem_range.2 hk)
  obtain ⟨hb, htr⟩ := h.congr hc.freelist hsame
  refine ⟨r, s', hrun, hb, htr, hc.result.imp And.left And.left, fun k e hk he hue hlo hhi => ?_⟩
  have hkm := mem_range.2 hk
  have hn := h.space.length_le
  rw [length_range] at hn
  -- where the bytes of the range are
  have hat : ∀ i, i < len.toNat →
    userAt s (base root) (va + .ofNat 64 i) = some ((frameAt s root k).toNat * 4096 + (va.toNat + i) % 4096) := by
    intro i hi
    have hadd : (va + .ofNat 64 i : Addr).toNat = va.toNat + i := by
      rw [BitVec.toNat_add, BitVec.toNat_ofNat]
      omega
    have hlt : (va + .ofNat 64 i : Addr).toNat < trapframe.toNat := by
      rw [hadd, trapframe_toNat]
      omega
    rw [userAt, translate_pageAddr hlt, hadd, show (va.toNat + i) / 4096 = k by omega, he, Option.filter_some,
      if_pos hue, Option.map_some, pte2pa_eq,
      base_toNat, frameAt_of he]
  have hall : r = 0 ∧ j = len.toNat := by
    rcases hc.result with hr | ⟨-, hj, hnone⟩
    · exact hr
    · rw [hat j hj] at hnone
      cases hnone
  refine ⟨hall.1, fun va' hva' => ?_⟩
  have hvm := mem_range.2 hva'
  rw [hb.space.memAt_eq hvm, h.space.memAt_eq hvm, frameAt_congr (htr _)]
  by_cases hr : va.toNat ≤ va'.toNat ∧ va'.toNat < va.toNat + len.toNat
  · obtain ⟨x, hx, hval⟩ := hc.bytes (va'.toNat - va.toNat) (by omega)
    rw [hat _ (by omega), Option.some_inj] at hx
    rw [if_pos hr, show va'.toNat / 4096 = k by omega, ← hval, ← hx, show va.toNat + (va'.toNat - va.toNat) = va'.toNat by
      omega]
  · rw [if_neg hr, hc.others]
    intro i hi hx
    rw [hat i (by omega), Option.some_inj] at hx
    by_cases hk' : va'.toNat / 4096 = k
    · rw [hk'] at hx
      omega
    · have hne : (frameAt s root (va'.toNat / 4096)).toNat ≠ (frameAt s root k).toNat := fun e =>
        hk' (h.space.frame_inj hvm hkm (BitVec.eq_of_toNat_eq e))
      omega

/-! ## The strings -/

omit [Image] in
/-- A push of `len` bytes, aligned to 16. -/
theorem push_toNat (h16 : sp.toNat % 16 = 0) (hle : size16 len ≤ sp.toNat) :
    (sp - .ofNat 64 len - (sp - .ofNat 64 len) % 16).toNat = sp.toNat - size16 len := by
  have hsp := sp.isLt
  unfold size16 at hle ⊢
  have hsub : (sp - .ofNat 64 len).toNat = sp.toNat - len := by
    rw [BitVec.toNat_sub, BitVec.toNat_ofNat]
    omega
  rw [BitVec.toNat_sub, BitVec.toNat_umod, hsub, show (16 : Addr).toNat = 16 from rfl]
  omega

omit [Image] in
theorem StringAt.congr {a : Addr} {str : List UInt8} (h : StringAt s root a str)
    (hsame : ∀ va : Addr, a.toNat ≤ va.toNat → va.toNat < a.toNat + str.length + 1 → memAt s' root va = memAt s root va)
    (hlt : a.toNat + str.length + 1 ≤ 2 ^ 38) : StringAt s' root a str := fun j hj => by
  have hadd : (a + .ofNat 64 j : Addr).toNat = a.toNat + j := by
    rw [BitVec.toNat_add, BitVec.toNat_ofNat]
    omega
  rw [hsame _ (by omega) (by omega), h j hj]

/-- The stack pointer is in the stack page `k`. -/
structure Stack (s : State) (root : Page) (n k : Nat) (stackbase sp : Addr) : Prop where
  pos : 0 < k
  lt : k < n
  page : ∃ e, translate s (base root) (pageAddr k) = some e ∧ user e
  bottom : stackbase.toNat = 4096 * k
  aligned : sp.toNat % 16 = 0
  low : 4096 * k ≤ sp.toNat
  high : sp.toNat ≤ 4096 * (k + 1)

/-- What a push of `len` bytes onto the stack does. -/
structure Push (s : State) (root : Page) (n k : Nat) (stackbase sp : Addr) (src : Bytes) (len : Nat) (sp' : Addr)
    (s' : State) : Prop where
  stack : Stack s' root n k stackbase sp'
  size : sp'.toNat + size16 len = sp.toNat
  bytes : ∀ va : Addr, sp'.toNat ≤ va.toNat → va.toNat < sp'.toNat + len → memAt s' root va = some (src (va.toNat - sp'.toNat))
  others : ∀ va : Addr, va.toNat / 4096 < n → ¬ (sp'.toNat ≤ va.toNat ∧ va.toNat < sp'.toNat + len) →
    memAt s' root va = memAt s root va

omit [Image] in
theorem size16_ge (len : Nat) : len ≤ size16 len := by
  unfold size16
  omega

omit [Image] in
/-- A push that reaches below the stack page is noticed. -/
theorem Stack.push_lt (hst : Stack s root n k stackbase sp) (hlen : len ≤ 4096) :
    sp - .ofNat 64 len - (sp - .ofNat 64 len) % 16 < stackbase ↔ sp.toNat < 4096 * k + size16 len := by
  have hle : size16 len ≤ 4096 := by
    unfold size16
    omega
  have hpos := hst.pos
  have hlow := hst.low
  rw [BitVec.lt_def, push_toNat hst.aligned (by omega), hst.bottom]
  omega

/-- A push that stays in the stack page. -/
theorem Stack.push (hst : Stack s root n k stackbase sp) (h : Build s0 l s root free n) (src : Bytes)
    (hfit : 4096 * k + size16 len ≤ sp.toNat) :
    ∃ s', (copyout (base root) (sp - .ofNat 64 len - (sp - .ofNat 64 len) % 16) src (.ofNat 64 len)).run s = .ok 0 s' ∧
      Build s0 l s' root free n ∧ (∀ va, translate s' (base root) va = translate s (base root) va) ∧
      Push s root n k stackbase sp src len (sp - .ofNat 64 len - (sp - .ofNat 64 len) % 16) s' := by
  have hle := size16_ge len
  have hsp := sp.isLt
  have hhigh := hst.high
  have hsp' := push_toNat hst.aligned (show size16 len ≤ sp.toNat by omega)
  generalize sp - .ofNat 64 len - (sp - .ofNat 64 len) % 16 = sp' at hsp' ⊢
  obtain ⟨r, s', hrun, hb, htr, -, hfull⟩ := h.copyout sp' src (.ofNat 64 len)
  obtain ⟨e, he, hue⟩ := hst.page
  have hlen : (BitVec.ofNat 64 len).toNat = len := by
    rw [BitVec.toNat_ofNat]
    omega
  rw [hlen] at hfull
  obtain ⟨rfl, hmem⟩ := hfull k e hst.lt he hue (by omega) (by omega)
  have hlt := hst.lt
  refine ⟨s', hrun, hb, htr, ⟨hst.pos, hst.lt, ⟨e, by rw [htr, he], hue⟩, hst.bottom, ?_, by omega, by omega⟩, by
    omega, fun va h1 h2 => ?_,
    fun va hva hout => ?_⟩
  · have := hst.aligned
    unfold size16 at hsp' hfit
    omega
  · rw [hmem va (by omega), if_pos ⟨h1, h2⟩]
  · rw [hmem va hva, if_neg hout]

/-- What pushing the strings has done. -/
structure Pushed (s : State) (root : Page) (n k : Nat) (stackbase sp : Addr) (argv : List (List UInt8)) (sp' : Addr)
    (addrs : List Addr)
    (s' : State) : Prop where
  stack : Stack s' root n k stackbase sp'
  size : sp'.toNat + stringsSize argv = sp.toNat
  strings : Strings s' root sp'.toNat sp.toNat argv addrs
  others : ∀ va : Addr, va.toNat / 4096 < n → ¬ (sp'.toNat ≤ va.toNat ∧ va.toNat < sp.toNat) →
    memAt s' root va = memAt s root va

omit [Image] in
theorem Pushed.nil (hst : Stack s root n k stackbase sp) : Pushed s root n k stackbase sp [] sp [] s :=
  ⟨hst, rfl, ⟨rfl, fun _ hp => absurd hp not_mem_nil, fun _ hp => absurd hp not_mem_nil, .nil⟩, fun _ _ _ => rfl⟩

variable {argv : List (List UInt8)} {addrs : List Addr}

omit [Image] in
theorem Pushed.cons {s1 : State} {sp1 sp' : Addr} {arg : List UInt8}
    (hst : Stack s root n k stackbase sp) (h1 : Push s root n k stackbase sp (fun j => arg.getD j 0) (arg.length + 1) sp1 s1)
    (h : Pushed s1 root n k stackbase sp1 argv sp' addrs s') :
    Pushed s root n k stackbase sp (arg :: argv) sp' (sp1 :: addrs) s' := by
  have hsize := h.size
  have hsize1 := h1.size
  have hge := size16_ge (arg.length + 1)
  have hhigh := h1.stack.high
  have hlt := h1.stack.lt
  have hlow := h.stack.low
  have hsp := hst.high
  refine ⟨h.stack, ?_, ⟨?_, ?_, ?_, ?_⟩, fun va hva hout => ?_⟩
  · rw [stringsSize, map_cons, sum_cons, ← stringsSize]
    omega
  · rw [length_cons, length_cons, h.strings.length]
  · rw [zip_cons_cons]
    refine forall_mem_cons.2 ⟨fun j hj => ?_, h.strings.strings⟩
    dsimp only at hj ⊢
    have hadd : (sp1 + .ofNat 64 j : Addr).toNat = sp1.toNat + j := by
      have := sp.isLt
      rw [BitVec.toNat_add, BitVec.toNat_ofNat]
      omega
    rw [h.others _ (by omega) (by omega), h1.bytes _ (by omega) (by omega), hadd, Nat.add_sub_cancel_left]
  · rw [zip_cons_cons]
    refine forall_mem_cons.2 ⟨by dsimp only; omega, fun p hp => ?_⟩
    have := h.strings.inside p hp
    omega
  · rw [zip_cons_cons]
    refine pairwise_cons.2 ⟨fun p hp => ?_, h.strings.disjoint⟩
    exact (h.strings.inside p hp).2
  · rw [h.others va hva (by omega), h1.others va hva (by omega)]

/-- The loop over the arguments fails if and only if there are too many or they
do not fit. -/
theorem pushArgs_spec (stackbase sp : Addr) (ustack : List Addr) (argv : List (List UInt8)) (h : Build s0 l s root free n) :
    ∃ r s', (pushArgs (base root) stackbase argv sp ustack).run s = .ok r s' ∧ Build s0 l s' root free n ∧
      (∀ va, translate s' (base root) va = translate s (base root) va) ∧
      (Stack s root n k stackbase sp → (∀ str ∈ argv, str.length < 4096) → ustack.length ≤ maxarg →
        (r = none ∧ (maxarg < ustack.length + argv.length ∨ sp.toNat < 4096 * k + stringsSize argv)) ∨
          (ustack.length + argv.length ≤ maxarg ∧ ∃ sp' addrs, r = some (sp', ustack ++ addrs) ∧
            Pushed s root n k stackbase sp argv sp' addrs s')) := by
  induction argv generalizing s sp ustack with
  | nil =>
    refine ⟨_, s, rfl, h, fun _ => rfl, fun hst _ hle => .inr ⟨hle, sp, [], ?_, .nil hst⟩⟩
    rw [append_nil]
  | cons arg argv ih =>
    rw [pushArgs]
    by_cases hmax : ustack.length ≥ maxarg
    · rw [if_pos hmax]
      refine ⟨none, s, rfl, h, fun _ => rfl, fun _ _ _ => .inl ⟨rfl, .inl ?_⟩⟩
      rw [length_cons]
      omega
    rw [if_neg hmax]
    by_cases hlow : sp - .ofNat 64 (arg.length + 1) - (sp - .ofNat 64 (arg.length + 1)) % 16 < stackbase
    · rw [if_pos hlow]
      refine ⟨none, s, rfl, h, fun _ => rfl, fun hst hlen _ => .inl ⟨rfl, .inr ?_⟩⟩
      rw [hst.push_lt (show arg.length + 1 ≤ 4096 from hlen arg mem_cons_self)] at hlow
      rw [stringsSize, map_cons, sum_cons]
      omega
    rw [if_neg hlow]
    obtain ⟨r, s1, hrun, hb, htr, -, -⟩ := h.copyout (sp - .ofNat 64 (arg.length + 1) - (sp - .ofNat 64 (arg.length + 1)) % 16)
      (fun j => arg.getD j 0) (.ofNat 64 (arg.length + 1))
    rw [Cmd.run_bind hrun]
    -- on the stack page the copy succeeds
    have hpush : Stack s root n k stackbase sp → arg.length < 4096 → r = 0 ∧
        Push s root n k stackbase sp (fun j => arg.getD j 0) (arg.length + 1)
          (sp - .ofNat 64 (arg.length + 1) - (sp - .ofNat 64 (arg.length + 1)) % 16) s1 := fun hst hlen => by
      rw [hst.push_lt (show arg.length + 1 ≤ 4096 from hlen)] at hlow
      obtain ⟨s2, hrun2, -, -, hp⟩ := hst.push h (fun j => arg.getD j 0) (Nat.le_of_not_lt hlow)
      rw [hrun, Res.ok.injEq] at hrun2
      exact ⟨hrun2.1, hrun2.2 ▸ hp⟩
    generalize sp - .ofNat 64 (arg.length + 1) - (sp - .ofNat 64 (arg.length + 1)) % 16 = sp1 at hpush hlow hrun ⊢
    by_cases hr : r < 0
    · rw [if_pos hr]
      refine ⟨none, s1, rfl, hb, htr, fun hst hlen _ => ?_⟩
      obtain ⟨rfl, -⟩ := hpush hst (hlen arg mem_cons_self)
      exact nomatch hr
    rw [if_neg hr]
    obtain ⟨r', s', hrun', hb', htr', hres⟩ := ih sp1 (ustack ++ [sp1]) hb
    refine ⟨r', s', hrun', hb', fun va => by rw [htr', htr], fun hst hlen hle => ?_⟩
    obtain ⟨-, hp⟩ := hpush hst (hlen arg mem_cons_self)
    have hsize := hp.size
    rw [length_append, length_singleton] at hres
    rw [length_cons]
    rcases hres hp.stack (fun str hs => hlen str (mem_cons_of_mem _ hs)) (by omega) with ⟨rfl, hfail⟩ | ⟨hle',
      sp', addrs, rfl, hps⟩
    · refine .inl ⟨rfl, hfail.imp (fun hc => by omega) fun hc => ?_⟩
      rw [stringsSize, map_cons, sum_cons, ← stringsSize]
      omega
    · exact .inr ⟨by omega, sp', sp1 :: addrs, by rw [append_assoc]; rfl, .cons hst hp hps⟩

omit [Image] in
/-- The strings are still there if nothing above `lo` has changed. -/
theorem Strings.congr {lo lo' hi : Nat} (h : Strings s root lo hi argv addrs) (hle : lo' ≤ lo)
    (hhi : hi ≤ 2 ^ 38) (hsame : ∀ va : Addr, lo ≤ va.toNat → va.toNat < hi → memAt s' root va = memAt s root va) :
      Strings s' root lo' hi argv addrs where
  length := h.length
  strings p hp := by
    obtain ⟨h1, h2⟩ := h.inside p hp
    exact (h.strings p hp).congr (fun va _ _ => hsame va (by omega) (by omega)) (by omega)
  inside p hp := ⟨le_trans hle (h.inside p hp).1, (h.inside p hp).2⟩
  disjoint := h.disjoint

/-- The stack can be set up if and only if there are not too many arguments and
they fit into its page. -/
theorem pushStack_spec (stackbase sp : Addr) (argv : List (List UInt8)) (h : Build s0 l s root free n) :
    ∃ r s', (pushStack (base root) stackbase sp argv).run s = .ok r s' ∧ Build s0 l s' root free n ∧
      (∀ va, translate s' (base root) va = translate s (base root) va) ∧
      (Stack s root n k stackbase sp → sp.toNat = 4096 * (k + 1) → (∀ str ∈ argv, str.length < 4096) →
        (r = none ∧ (maxarg < argv.length ∨ 4096 < stringsSize argv + size16 (8 * (argv.length + 1)))) ∨
          (¬ (maxarg < argv.length ∨ 4096 < stringsSize argv + size16 (8 * (argv.length + 1))) ∧ ∃ sp' addrs, r = some sp' ∧
            Layout s' root k sp' argv addrs ∧ ∀ va : Addr, va.toNat / 4096 < k → memAt s' root va = memAt s root va)) := by
  obtain ⟨r, s1, hrun, hb, htr, hargs⟩ := pushArgs_spec (k := k) stackbase sp [] argv h
  have hmax : maxarg = 32 := rfl
  rw [pushStack, Cmd.run_bind hrun]
  rw [length_nil, zero_add] at hargs
  cases r with
  | none =>
    refine ⟨none, s1, rfl, hb, htr, fun hst htop hlen => ?_⟩
    rcases hargs hst hlen (Nat.zero_le _) with ⟨-, hfail⟩ | ⟨-, sp', addrs, hc, -⟩
    · exact .inl ⟨rfl, hfail.imp_right fun hc => by omega⟩
    · cases hc
  | some p =>
    obtain ⟨sp1, ustack⟩ := p
    dsimp only
    -- what is known of the strings, on the stack page
    have hps : Stack s root n k stackbase sp → (∀ str ∈ argv, str.length < 4096) →
        argv.length ≤ maxarg ∧ Pushed s root n k stackbase sp argv sp1 ustack s1 := fun hst hlen => by
      rcases hargs hst hlen (Nat.zero_le _) with ⟨hc, -⟩ | ⟨hle, sp', addrs, hc, hp⟩
      · cases hc
      · rw [nil_append, Option.some_inj, Prod.mk.injEq] at hc
        rw [hc.1, hc.2]
        exact ⟨hle, hp⟩
    by_cases hlow : sp1 - .ofNat 64 ((ustack.length + 1) * 8) - (sp1 - .ofNat 64 ((ustack.length + 1) * 8)) % 16 < stackbase
    · rw [if_pos hlow]
      refine ⟨none, s1, rfl, hb, htr, fun hst htop hlen => .inl ⟨rfl, .inr ?_⟩⟩
      obtain ⟨hle, hp⟩ := hps hst hlen
      have hsize := hp.size
      rw [hp.strings.length, mul_comm _ 8] at hlow
      rw [hp.stack.push_lt (by omega)] at hlow
      omega
    rw [if_neg hlow]
    obtain ⟨r, s', hrun', hb', htr', -, -⟩ := hb.copyout
      (sp1 - .ofNat 64 ((ustack.length + 1) * 8) - (sp1 - .ofNat 64 ((ustack.length + 1) * 8)) % 16) (pointers (ustack ++ [0]))
      (.ofNat 64 ((ustack.length + 1) * 8))
    rw [Cmd.run_bind hrun']
    have hpush : Stack s1 root n k stackbase sp1 → ustack.length ≤ maxarg → r = 0 ∧
        Push s1 root n k stackbase sp1 (pointers (ustack ++ [0])) ((ustack.length + 1) * 8)
          (sp1 - .ofNat 64 ((ustack.length + 1) * 8) - (sp1 - .ofNat 64 ((ustack.length + 1) * 8)) % 16) s' :=
            fun hst hle => by
      rw [hst.push_lt (by omega)] at hlow
      obtain ⟨s2, hrun2, -, -, hp⟩ := hst.push hb (pointers (ustack ++ [0])) (Nat.le_of_not_lt hlow)
      rw [hrun', Res.ok.injEq] at hrun2
      exact ⟨hrun2.1, hrun2.2 ▸ hp⟩
    generalize sp1 - .ofNat 64 ((ustack.length + 1) * 8) - (sp1 - .ofNat 64 ((ustack.length + 1) * 8)) % 16
      = sp' at hpush hlow hrun' ⊢
    by_cases hr : r < 0
    · rw [if_pos hr]
      refine ⟨none, s', rfl, hb', fun va => by rw [htr', htr], fun hst _ hlen => ?_⟩
      obtain ⟨hle, hp⟩ := hps hst hlen
      obtain ⟨rfl, -⟩ := hpush hp.stack (by rw [hp.strings.length]; exact hle)
      exact nomatch hr
    rw [if_neg hr]
    refine ⟨some sp', s', rfl, hb', fun va => by rw [htr', htr], fun hst htop hlen => .inr ?_⟩
    obtain ⟨hle, hp⟩ := hps hst hlen
    have hlen' := hp.strings.length
    obtain ⟨-, hq⟩ := hpush hp.stack (by rw [hlen']; exact hle)
    rw [hlen', mul_comm _ 8] at hq
    have hn := h.space.length_le
    rw [length_range] at hn
    have hlt := hst.lt
    have hsize := hp.size
    have hsize' := hq.size
    have hlow' := hq.stack.low
    have hge := size16_ge (8 * (argv.length + 1))
    refine ⟨by omega, sp', ustack, rfl, ⟨hq.stack.aligned, hlow', by omega, fun i a hi j hj => ?_, ?_⟩, fun va hva => ?_⟩
    · have hi' : i < argv.length + 1 := by
        have := (List.getElem?_eq_some_iff.1 hi).1
        rw [length_append, length_singleton, hlen'] at this
        exact this
      have hadd : (sp' + .ofNat 64 (8 * i) + .ofNat 64 j : Addr).toNat = sp'.toNat + (8 * i + j) := by
        rw [BitVec.toNat_add, BitVec.toNat_add, BitVec.toNat_ofNat, BitVec.toNat_ofNat]
        omega
      rw [hq.bytes _ (by omega) (by omega), hadd, Nat.add_sub_cancel_left, pointers, show (8 * i + j) / 8 = i by omega,
        show (8 * i + j) % 8 = j by omega, getD_eq_getElem?_getD, hi, Option.getD_some]
    · rw [← htop]
      exact hp.strings.congr (by omega) (by omega) fun va h1 h2 => hq.others va (by omega) (by omega)
    · rw [hq.others va (by omega) (by omega), hp.others va (by omega) (by omega)]

omit [Image] in
theorem Layout.congr (h : Layout s root k sp argv addrs) (hk : 4096 * (k + 1) ≤ 2 ^ 38)
    (hsame : ∀ va : Addr, va.toNat < 4096 * (k + 1) → memAt s' root va = memAt s root va) : Layout s' root k sp
      argv addrs where
  aligned := h.aligned
  low := h.low
  high := h.high
  pointers i a hi j hj := by
    have hhigh := h.high
    have hi' : i < argv.length + 1 := by
      have := (List.getElem?_eq_some_iff.1 hi).1
      rwa [length_append, length_singleton, h.strings.length] at this
    rw [hsame _ ?_, h.pointers i a hi j hj]
    rw [BitVec.toNat_add, BitVec.toNat_add, BitVec.toNat_ofNat, BitVec.toNat_ofNat]
    omega
  strings := h.strings.congr (le_rfl) hk fun va _ hva => hsame va hva

end

end Xv6.Vm
