import Xv6.Vm.Copy
import Xv6.Vm.Elf
import Xv6.Vm.Top

/-!
# Loading a program

The address space that `exec` builds takes its pages from the free list
(`Build`): whatever happens, they can all be given back (`Build.freeAll`). A
segment is loaded into pages that have just been allocated, so the rest of them
stays zero (`loadHeader_spec`).
-/

namespace Xv6.Vm

open List BitVec

open Radix

variable {s s' s0 : State} {root : Page} {free free' l : List Page} {n m k : Nat} {va sz : Addr}
  {j b : Nat} {data : List UInt8}

/-- All pages can be accessed by the user. -/
def AllUser (s : State) (root : Page) (n : Nat) : Prop :=
  ∀ k, k < n → ∃ e, translate s (base root) (pageAddr k) = some e ∧ pteFlags e = userPerm.setWidth 64 ||| pteV

theorem copyTo_mem (s : State) (a : Addr) (src : Bytes) (n x : Nat) :
    (s.copyTo a src n).mem x = if a.toNat ≤ x ∧ x < a.toNat + n then src (x - a.toNat) else s.mem x := rfl

theorem copyTo_freelist (s : State) (a : Addr) (src : Bytes) (n : Nat) : (s.copyTo a src n).freelist = s.freelist := by
  rw [State.copyTo]

section

variable [Image]

theorem Space.frame_inj {ks : List Nat} (h : Space s root free ks) (hk : k ∈ ks) (hj : j ∈ ks)
    (he : frameAt s root k = frameAt s root j) : k = j :=
  inj_on_of_nodup_map (nodup_append.1 h.nodup).2.1 hk hj he

/-- An address space of `n` pages, built out of the pages `l` that were free in
`s0`. -/
structure Build (s0 : State) (l : List Page) (s : State) (root : Page) (free : List Page) (n : Nat) : Prop where
  space : Space s root free (range n)
  top : Top s root
  perm : (owned s root free (range n)).Perm l
  frame : ∀ q, q ∉ l → heap s q = heap s0 q

namespace Build

theorem moves {keep : List Nat} {n' : Nat} (h : Build s0 l s root free n) (hs : Space s' root free' (range n'))
    (hm : Moves root keep s free (range n) s' free' (range n')) : Build s0 l s' root free' n' where
  space := hs
  top := h.top.congr fun va hva hge => hm.entries va hva (.inr hge)
  perm := hm.perm.trans h.perm
  frame q hq := by rw [hm.frame q (mt h.perm.mem_iff.1 hq), h.frame q hq]

/-- A change to the contents of user pages. -/
theorem congr (h : Build s0 l s root free n) (hlist : s'.freelist = s.freelist)
    (hsame : ∀ q, q ∉ frames s root (range n) → heap s' q = heap s q) :
    Build s0 l s' root free n ∧ ∀ va, translate s' (base root) va = translate s (base root) va := by
  have htree : ∀ q ∈ tree s root, heap s' q = heap s q := fun q hq => hsame q fun hf =>
    (nodup_append.1 h.space.nodup).2.2 q (mem_append_right _ hq) q hf rfl
  have htr := translate_same htree
  refine ⟨⟨h.space.congr hlist htree, h.top.congr fun va _ _ => htr va, ?_, fun q hq => ?_⟩, htr⟩
  · rw [owned_congr htree]
    exact h.perm
  · rw [hsame q fun hf => hq (h.perm.mem_iff.1 (mem_owned.2 (.inr (.inr hf)))), h.frame q hq]

theorem freeAll (h : Build s0 l s root free (pages sz.toNat)) :
    ∃ s', (procFreepagetable (base root) sz).run s = .ok () s' ∧ Returned l s0 s' := by
  obtain ⟨s', hrun, hret⟩ := procFreepagetable_spec sz h.space h.top
  exact ⟨s', hrun, hret.trans h.perm h.frame⟩

/-- Bytes are stored into the page `k`. -/
theorem copyTo {a : Addr} (h : Build s0 l s root free n) (hk : k < n) (ha : a.toNat = (frameAt s root k).toNat * 4096)
    (src : Bytes) (hm : m ≤ 4096) :
    Build s0 l (s.copyTo a src m) root free n ∧
      (∀ va, translate (s.copyTo a src m) (base root) va = translate s (base root) va) ∧
      ∀ va : Addr, va.toNat / 4096 < n → memAt (s.copyTo a src m) root va =
        if va.toNat / 4096 = k ∧ va.toNat % 4096 < m then some (src (va.toNat % 4096)) else memAt s root va := by
  have hkm : k ∈ range n := mem_range.2 hk
  have hsame : ∀ q, q ∉ frames s root (range n) → heap (s.copyTo a src m) q = heap s q := fun q hq =>
    heap_congr fun x h1 h2 => if_neg fun hx => by
      have hne : q.toNat ≠ (frameAt s root k).toNat := fun e => hq (eq_of_toNat_eq e ▸ mem_map_of_mem hkm)
      omega
  obtain ⟨hb, htr⟩ := h.congr (copyTo_freelist s a src m) hsame
  refine ⟨hb, htr, fun va hva => ?_⟩
  have hvm : va.toNat / 4096 ∈ range n := mem_range.2 hva
  rw [hb.space.memAt_eq hvm, h.space.memAt_eq hvm, frameAt_congr (htr _), copyTo_mem, ha]
  by_cases hva : va.toNat / 4096 = k
  · rw [hva]
    by_cases hm : va.toNat % 4096 < m
    · rw [if_pos ⟨le_self_add, Nat.add_lt_add_left hm _⟩, if_pos ⟨rfl, hm⟩, Nat.add_sub_cancel_left]
    · rw [if_neg fun hx => hm (Nat.lt_of_add_lt_add_left hx.2), if_neg fun hx => hm hx.2]
  · have hne : (frameAt s root (va.toNat / 4096)).toNat ≠ (frameAt s root k).toNat := fun e =>
      hva (h.space.frame_inj hvm hkm (eq_of_toNat_eq e))
    rw [if_neg (by omega), if_neg fun hx => hva hx.1]

/-- `uvmalloc` adds zero pages up to the new size, or leaves things as they are. -/
theorem alloc (h : Build s0 l s root free (pages sz.toNat)) (hu : AllUser s root (pages sz.toNat)) (newsz : Addr) :
    ∃ r s' free', (uvmalloc (base root) sz newsz).run s = .ok r s' ∧
      ((r = 0 ∧ Build s0 l s' root free' (pages sz.toNat)) ∨
        (r ≠ 0 ∧ r.toNat = max sz.toNat newsz.toNat ∧ Build s0 l s' root free' (pages r.toNat) ∧
          AllUser s' root (pages r.toNat) ∧
          ∀ va : Addr, va.toNat / 4096 < pages r.toNat →
            memAt s' root va = if va.toNat / 4096 < pages sz.toNat then memAt s root va else some 0)) := by
  rcases lt_or_ge newsz.toNat sz.toNat with hlt | hle
  · refine ⟨sz, s, free, ?_, .inr ⟨?_, (max_eq_left (le_of_lt hlt)).symm, h, hu, fun va hva => (if_pos hva).symm⟩⟩
    · rw [uvmalloc, if_pos (lt_def.2 hlt)]
      rfl
    · rintro rfl
      cases hlt
  · obtain ⟨r, s', free', hrun, hcase⟩ := uvmalloc_spec newsz h.space rfl hle
    refine ⟨r, s', free', hrun, ?_⟩
    rcases hcase with ⟨hr, hg⟩ | ⟨rfl, hund⟩
    · obtain rfl := hr.symm
      have hb := h.moves hg.space hg.moves
      have hpages : pages sz.toNat ≤ pages newsz.toNat := by
        unfold pages
        omega
      by_cases h0 : newsz = 0
      · subst h0
        have hsz : sz.toNat = 0 := Nat.le_zero.1 hle
        rw [hsz]
        exact .inl ⟨rfl, hb⟩
      · refine .inr ⟨h0, (max_eq_right hle).symm, hb, fun k hk => ?_, fun va hva => ?_⟩
        · rcases lt_or_ge k (pages sz.toNat) with hk' | hk'
          · obtain ⟨e, he, hf⟩ := hu k hk'
            have htop := h.space.lt_trapframe (mem_range.2 hk')
            refine ⟨e, ?_, hf⟩
            rw [hg.moves.entries _ (pageAddr_lt htop) (.inl ?_), he]
            rw [pageAddr_div htop]
            exact mem_range.2 hk'
          · exact (hg.fresh k hk' hk).2
        · split
          · rename_i hva'
            exact hg.moves.memAt h.space hg.space (mem_range.2 hva') (mem_range.2 hva') (mem_range.2 hva)
          · rename_i hva'
            exact memAt_zero hg.space (mem_range.2 hva) (hg.fresh _ (Nat.le_of_not_lt hva') hva).1
    · exact .inl ⟨rfl, h.moves hund.space hund.moves⟩

end Build

/-! ## loadseg -/

/-- `walkaddr` of a page of user memory is its frame. -/
theorem walkaddr_page (h : Space s root free (range n)) (hu : AllUser s root n) (hk : k < n) (hva : va.toNat = 4096 * k) :
    ∃ pa, (walkaddr (base root) va).run s = .ok pa s ∧ pa ≠ 0 ∧ pa.toNat = (frameAt s root k).toNat * 4096 := by
  obtain ⟨e, he, hf⟩ := hu k hk
  have hpa : pageAddr k = va := eq_of_toNat_eq (by rw [pageAddr_toNat (h.lt_trapframe (mem_range.2 hk)), hva])
  have huser : user e = true := by
    rw [user, and_eq_flags e (by decide), hf]
    decide
  refine ⟨base (frameAt s root k), ?_, ?_, base_toNat _⟩
  · rw [walkaddr_run, ← hpa, he, Option.filter_some, if_pos huser, Option.elim_some, pte2pa_eq, frameAt_of he]
  · exact (h.ram _ (mem_owned.2 (.inr (.inr (mem_map_of_mem (mem_range.2 hk)))))).ne_zero

omit [Image] in
theorem length_readi_le (data : List UInt8) (off len : BitVec 32) : (readi data off len).length ≤ len.toNat := by
  rw [readi]
  split
  · exact Nat.zero_le _
  · exact length_take_le _ _

omit [Image] in
/-- A read that is not short. -/
theorem readi_full (data : List UInt8) (off len : BitVec 32) (h : (readi data off len).length = len.toNat)
    (hlen : 0 < len.toNat) :
    off.toNat + len.toNat ≤ data.length ∧ ∀ x, x < len.toNat →
      some ((readi data off len).getD x 0) = data[off.toNat + x]? := by
  have hr : readi data off len = (data.drop off.toNat).take len.toNat := by
    rw [readi] at h ⊢
    split
    · rename_i hc
      rw [if_pos hc, length_nil] at h
      omega
    · rfl
  rw [hr, length_take, length_drop] at h
  refine ⟨by omega, fun x hx => ?_⟩
  rw [hr, getD_eq_getElem?_getD, List.getElem?_take_of_lt hx, List.getElem?_drop,
    List.getElem?_eq_getElem (show off.toNat + x < data.length by omega), Option.getD_some]

/-- What `loadseg` has done from the offset `i` on. -/
structure Loaded (s : State) (root : Page) (n : Nat) (va : Addr) (data : List UInt8) (off len : BitVec 32) (i : Nat)
    (r : Int) (s' : State) :
    Prop where
  result : r = 0 ∨ r = -1
  others : ∀ va' : Addr, va'.toNat / 4096 < n → ¬ (va.toNat + i ≤ va'.toNat ∧ va'.toNat < va.toNat + len.toNat) →
    memAt s' root va' = memAt s root va'
  bytes : r = 0 → data.length < 2 ^ 31 → (i ≠ 0 → off.toNat + i ≤ data.length) → ∀ va' : Addr, va.toNat + i ≤ va'.toNat →
    va'.toNat < va.toNat + len.toNat → memAt s' root va' = data[off.toNat + (va'.toNat - va.toNat)]?

theorem loadsegFrom_spec {off len : BitVec 32} {t : Nat} (h : Build s0 l s root free n) (hu : AllUser s root n)
    (hva : va.toNat = 4096 * b) (hin : 4096 * b + len.toNat ≤ 4096 * n) (ht : len.toNat + 4096 ≤ 4096 * (j + t))
    (hj : 4096 * j < len.toNat + 4096) :
    ∃ r s', (loadsegFrom (base root) va data off len t (.ofNat 32 (4096 * j))).run s = .ok r s' ∧
      Build s0 l s' root free n ∧ AllUser s' root n ∧
      Loaded s root n va data off len (4096 * j) r s' := by
  have hn := h.space.length_le
  rw [length_range] at hn
  induction t generalizing s j with
  | zero => omega
  | succ t ih =>
    have hi : (BitVec.ofNat 32 (4096 * j)).toNat = 4096 * j := by
      rw [toNat_ofNat]
      omega
    rw [loadsegFrom]
    by_cases hlt : 4096 * j < len.toNat
    · rw [if_pos (lt_def.2 (by rw [hi]; exact hlt))]
      have hadd : (va + (BitVec.ofNat 32 (4096 * j)).setWidth 64).toNat = 4096 * (b + j) := by
        rw [toNat_add, toNat_setWidth, hi, hva]
        omega
      have hk : b + j < n := by omega
      obtain ⟨pa, hw, hne, hpa⟩ := walkaddr_page h.space hu hk hadd
      have hsub : (len - .ofNat 32 (4096 * j)).toNat = len.toNat - 4096 * j := by
        rw [toNat_sub, hi]
        omega
      have hc : (if len - .ofNat 32 (4096 * j) < 4096 then len - .ofNat 32 (4096 * j) else 4096 : BitVec 32).toNat =
          min (len.toNat - 4096 * j) 4096 := by
        split
        · rename_i hlt
          rw [lt_def, hsub, show (4096 : BitVec 32).toNat = 4096 from rfl] at hlt
          omega
        · rename_i hge
          rw [lt_def, hsub, show (4096 : BitVec 32).toNat = 4096 from rfl] at hge
          rw [show (4096 : BitVec 32).toNat = 4096 from rfl]
          omega
      rw [Cmd.run_bind hw, if_neg hne]
      rw [Cmd.run_modify]
      generalize (if len - .ofNat 32 (4096 * j) < 4096 then len - .ofNat 32 (4096 * j) else 4096 : BitVec 32) = c at hc ⊢
      have hlen := length_readi_le data (off + .ofNat 32 (4096 * j)) c
      have hfull := readi_full data (off + .ofNat 32 (4096 * j)) c
      generalize readi data (off + .ofNat 32 (4096 * j)) c = d at hlen hfull ⊢
      obtain ⟨hb, htr, hmem⟩ := h.copyTo hk hpa (fun x => d.getD x 0) (show d.length ≤ 4096 by omega)
      have hu' : AllUser (s.copyTo pa (fun x => d.getD x 0) d.length) root n := fun k hk => by
        rw [htr]
        exact hu k hk
      -- the bytes that the turn stores
      have hmem' : ∀ va' : Addr, va'.toNat / 4096 < n →
        ¬ (va.toNat + 4096 * j ≤ va'.toNat ∧ va'.toNat < va.toNat + 4096 * j + d.length) →
          memAt (s.copyTo pa (fun x => d.getD x 0) d.length) root va' = memAt s root va' := fun va' h1 h2 => by
        rw [hmem va' h1, if_neg]
        omega
      by_cases hfl : d.length = c.toNat
      · rw [if_neg (not_not.2 hfl)]
        obtain ⟨hend, hbytes⟩ := hfull hfl (by omega)
        rw [show BitVec.ofNat 32 (4096 * j) + 4096 = BitVec.ofNat 32 (4096 * (j + 1)) by rw [Nat.mul_succ, ofNat_add]; rfl]
        obtain ⟨r, s', hrun, hb', hu'', hl⟩ := ih (j := j + 1) hb hu' (by omega) (by omega)
        have hoff : data.length < 2 ^ 31 → (4096 * j ≠ 0 → off.toNat + 4096 * j ≤ data.length) →
            (off + .ofNat 32 (4096 * j)).toNat = off.toNat + 4096 * j := fun hd hno => by
          have := off.isLt
          rw [toNat_add, hi]
          by_cases h0 : 4096 * j = 0
          · omega
          · have := hno h0
            omega
        refine ⟨r, s', hrun, hb', hu'', hl.result, fun va' h1 h2 => ?_, fun hr hd hno va' h1 h2 => ?_⟩
        · rw [hl.others va' h1 (by omega), hmem' va' h1 (by omega)]
        · have hv : va'.toNat / 4096 < n := by omega
          rw [hoff hd hno] at hend hbytes
          rcases lt_or_ge va'.toNat (va.toNat + 4096 * (j + 1)) with hlow | hhigh
          · rw [hl.others va' hv (by omega), hmem va' hv, if_pos (by omega), hbytes _ (by omega),
              show off.toNat + 4096 * j + va'.toNat % 4096 = off.toNat + (va'.toNat - va.toNat) by omega]
          · have hc' : c.toNat = 4096 := by
              rw [hc]
              omega
            have hnext : off.toNat + 4096 * (j + 1) ≤ data.length := by
              rw [hc'] at hend
              rw [Nat.mul_succ, ← add_assoc]
              exact hend
            exact hl.bytes hr hd (fun _ => hnext) va' hhigh h2
      · rw [if_pos hfl]
        refine ⟨-1, _, rfl, hb, hu', .inr rfl, fun va' h1 h2 => hmem' va' h1 (by omega), fun hr => nomatch hr⟩
    · rw [if_neg fun hc => hlt (by rw [← hi]; exact lt_def.1 hc)]
      exact ⟨0, s, rfl, h, hu, .inl rfl, fun _ _ _ => rfl, fun _ _ _ va' h1 h2 => by omega⟩

/-- `loadseg` of `len` bytes of a file at a page-aligned address. -/
theorem loadseg_spec (data : List UInt8) (off len : BitVec 32) (h : Build s0 l s root free n) (hu : AllUser s root n)
    (hva : va.toNat = 4096 * b) (hin : 4096 * b + len.toNat ≤ 4096 * n) :
    ∃ r s', (loadseg (base root) va data off len).run s = .ok r s' ∧ Build s0 l s' root free n ∧ AllUser s' root n ∧
      Loaded s root n va data off len 0 r s' := by
  have hal : va % 4096 = 0 := by
    refine eq_of_toNat_eq ?_
    rw [toNat_umod, hva, pgsize_toNat, Nat.mul_mod_right]
    rfl
  rw [loadseg, if_neg (not_not.2 hal)]
  exact loadsegFrom_spec (j := 0) h hu hva hin (by omega) (by omega)

/-! ## Program headers -/

/-- The bytes of a segment: those of the file, then zeros to the end of its last
page. -/
structure Placed (s : State) (root : Page) (data : List UInt8) (ph : Proghdr) : Prop where
  file : ∀ va : Addr, ph.vaddr.toNat ≤ va.toNat → va.toNat < ph.vaddr.toNat + ph.filesz.toNat →
    memAt s root va = data[ph.off.toNat + (va.toNat - ph.vaddr.toNat)]?
  zero : ∀ va : Addr, ph.vaddr.toNat + ph.filesz.toNat ≤ va.toNat → va.toNat < 4096 * pages (ph.vaddr.toNat + ph.memsz.toNat) →
    memAt s root va = some 0

/-- What a turn of the loop over the program headers has done. -/
structure Segment (s : State) (root : Page) (data : List UInt8) (ph : Proghdr) (sz : Addr) (s' : State)
    (sz' : Addr) : Prop where
  size : sz'.toNat = max sz.toNat (ph.vaddr.toNat + ph.memsz.toNat)
  aligned : ph.vaddr.toNat % 4096 = 0
  filesz : ph.filesz.toNat ≤ ph.memsz.toNat
  others : ∀ va : Addr, va.toNat / 4096 < pages sz.toNat →
    ¬ (ph.vaddr.toNat ≤ va.toNat ∧ va.toNat < ph.vaddr.toNat + ph.filesz.toNat) → memAt s' root va = memAt s root va
  placed : data.length < 2 ^ 31 → ph.off.toNat < 2 ^ 32 → 4096 * pages sz.toNat ≤ ph.vaddr.toNat → Placed s' root data ph

def headerAt (data : List UInt8) (off : BitVec 32) : Proghdr := .ofBytes (readi data off (.ofNat 32 proghdrSize))

theorem loadHeader_spec (data : List UInt8) (off : BitVec 32) (h : Build s0 l s root free (pages sz.toNat))
    (hu : AllUser s root (pages sz.toNat)) :
    ∃ ok sz' s' free', (loadHeader (base root) data off sz).run s = .ok (ok, sz') s' ∧
      Build s0 l s' root free' (pages sz'.toNat) ∧
      (ok = true → AllUser s' root (pages sz'.toNat) ∧ (readi data off (.ofNat 32 proghdrSize)).length = proghdrSize ∧
        (((headerAt data off).type ≠ elfProgLoad ∧ sz' = sz ∧ s' = s) ∨
          ((headerAt data off).type = elfProgLoad ∧ Segment s root data (headerAt data off) sz s' sz'))) := by
  rw [loadHeader]
  rw [← headerAt]
  by_cases hlen : (readi data off (.ofNat 32 proghdrSize)).length = proghdrSize
  swap
  · rw [if_pos hlen]
    exact ⟨false, sz, s, free, rfl, h, nofun⟩
  rw [if_neg (not_not.2 hlen)]
  by_cases htype : (headerAt data off).type = elfProgLoad
  swap
  · rw [if_pos htype]
    exact ⟨true, sz, s, free, rfl, h, fun _ => ⟨hu, hlen, .inl ⟨htype, rfl, rfl⟩⟩⟩
  rw [if_neg (not_not.2 htype)]
  generalize headerAt data off = ph at htype ⊢
  by_cases hfile : ph.memsz < ph.filesz
  · rw [if_pos hfile]
    exact ⟨false, sz, s, free, rfl, h, nofun⟩
  rw [if_neg hfile]
  by_cases hwrap : ph.vaddr + ph.memsz < ph.vaddr
  · rw [if_pos hwrap]
    exact ⟨false, sz, s, free, rfl, h, nofun⟩
  rw [if_neg hwrap]
  have hsum : (ph.vaddr + ph.memsz).toNat = ph.vaddr.toNat + ph.memsz.toNat := by
    rw [lt_def, toNat_add] at hwrap
    rw [toNat_add]
    omega
  obtain ⟨r, s1, free1, hrun, hcase⟩ := h.alloc hu (ph.vaddr + ph.memsz)
  rw [Cmd.run_bind hrun]
  rcases hcase with ⟨rfl, hb⟩ | ⟨hr, hsize, hb, hu1, hmem⟩
  · rw [if_pos rfl]
    exact ⟨false, sz, s1, free1, rfl, hb, nofun⟩
  rw [if_neg hr]
  by_cases hal : ph.vaddr % 4096 = 0
  swap
  · rw [if_pos hal]
    exact ⟨false, r, s1, free1, rfl, hb, nofun⟩
  rw [if_neg (not_not.2 hal)]
  have hal' : ph.vaddr.toNat % 4096 = 0 := by
    have := congrArg BitVec.toNat hal
    rwa [BitVec.toNat_umod] at this
  have hfile' : ph.filesz.toNat ≤ ph.memsz.toNat := BitVec.le_def.1 (BitVec.not_lt.1 hfile)
  have hn := hb.space.length_le
  rw [length_range] at hn
  rw [hsum] at hsize
  have hle : ph.vaddr.toNat + ph.filesz.toNat ≤ 4096 * pages r.toNat := by
    unfold pages
    omega
  have hw : (ph.filesz.setWidth 32).toNat = ph.filesz.toNat := by
    rw [toNat_setWidth]
    omega
  obtain ⟨r2, s2, hrun2, hb2, hu2, hl⟩ := loadseg_spec data (ph.off.setWidth 32) (ph.filesz.setWidth 32) hb hu1
    (show ph.vaddr.toNat = 4096 * (ph.vaddr.toNat / 4096) by omega) (by omega)
  rw [Cmd.run_bind hrun2]
  obtain ⟨hres, hothers, hbytes⟩ := hl
  rw [hw, add_zero] at hothers hbytes
  rcases hres with rfl | rfl
  swap
  · rw [if_pos (by decide)]
    exact ⟨false, r, s2, free1, rfl, hb2, nofun⟩
  rw [if_neg (by decide)]
  refine ⟨true, r, s2, free1, rfl, hb2,
    fun _ => ⟨hu2, hlen, .inr ⟨htype, hsize, hal', hfile', fun va hva hout => ?_, fun hd hoff hlow => ⟨?_, ?_⟩⟩⟩⟩
  · have hva' : va.toNat / 4096 < pages r.toNat := by
      unfold pages at hva ⊢
      omega
    rw [hothers va hva' hout, hmem va hva', if_pos hva]
  · intro va h1 h2
    have hw' : (ph.off.setWidth 32).toNat = ph.off.toNat := by
      rw [toNat_setWidth]
      omega
    have := hbytes rfl hd (fun h0 => absurd rfl h0) va h1 h2
    rwa [hw'] at this
  · intro va h1 h2
    have hr' : r.toNat = ph.vaddr.toNat + ph.memsz.toNat := by
      unfold pages at hlow
      omega
    rw [← hr'] at h2
    have hva' : va.toNat / 4096 < pages r.toNat := by omega
    rw [hothers va hva' (by omega), hmem va hva', if_neg (by omega)]

/-- The segments among `m` program headers. -/
def segmentsFrom (data : List UInt8) : Nat → BitVec 32 → List Proghdr
  | 0, _ => []
  | m + 1, off =>
    (if (headerAt data off).type = elfProgLoad then [headerAt data off] else []) ++
      segmentsFrom data m (off + .ofNat 32 proghdrSize)

/-- All pages of the one segment are below those of the other. -/
def Below (a b : Proghdr) : Prop := 4096 * pages (a.vaddr.toNat + a.memsz.toNat) ≤ b.vaddr.toNat

omit [Image] in
/-- A segment stays where it is. -/
theorem Placed.congr {ph : Proghdr} (h : Placed s root data ph) (hle : ph.filesz.toNat ≤ ph.memsz.toNat)
    (hsame : ∀ va : Addr, va.toNat < 4096 * pages (ph.vaddr.toNat + ph.memsz.toNat) → memAt s' root va = memAt s root va) :
    Placed s' root data ph where
  file va h1 h2 := by
    rw [hsame va, h.file va h1 h2]
    unfold pages
    omega
  zero va h1 h2 := by rw [hsame va h2, h.zero va h1 h2]

/-- The loop over the program headers places all segments, if their pages are in
order. -/
theorem loadHeaders_spec (data : List UInt8) (m : Nat) (off : BitVec 32) (h : Build s0 l s root free (pages sz.toNat))
    (hu : AllUser s root (pages sz.toNat)) :
    ∃ ok sz' s' free', (loadHeaders (base root) data m off sz).run s = .ok (ok, sz') s' ∧
      Build s0 l s' root free' (pages sz'.toNat) ∧
      (ok = true → AllUser s' root (pages sz'.toNat) ∧ sz.toNat ≤ sz'.toNat ∧
        (∀ i, i < m → (readi data (off + .ofNat 32 (proghdrSize * i)) (.ofNat 32 proghdrSize)).length = proghdrSize) ∧
        (data.length < 2 ^ 31 →
          (∀ ph ∈ segmentsFrom data m off, ph.off.toNat < 2 ^ 32 ∧ 4096 * pages sz.toNat ≤ ph.vaddr.toNat) →
          (segmentsFrom data m off).Pairwise Below → (∀ ph ∈ segmentsFrom data m off, Placed s' root data ph ∧
            ph.filesz.toNat ≤ ph.memsz.toNat ∧ ph.vaddr.toNat + ph.memsz.toNat ≤ sz'.toNat) ∧
          ∀ va : Addr, va.toNat / 4096 < pages sz.toNat → memAt s' root va = memAt s root va)) := by
  induction m generalizing s free sz off with
  | zero =>
    exact ⟨true, sz, s, free, rfl,
      h, fun _ => ⟨hu, le_rfl, nofun, fun _ _ _ => ⟨fun ph hph => absurd hph not_mem_nil, fun _ _ => rfl⟩⟩⟩
  | succ m ih =>
    obtain ⟨ok, sz1, s1, free1, hrun, hb, hok⟩ := loadHeader_spec data off h hu
    rw [loadHeaders, Cmd.run_bind hrun]
    dsimp only
    cases ok with
    | false =>
      rw [if_neg Bool.false_ne_true]
      exact ⟨false, sz1, s1, free1, rfl, hb, nofun⟩
    | true =>
      obtain ⟨hu1, hlen, hcase⟩ := hok rfl
      obtain ⟨ok, sz', s', free', hrun', hb', hok'⟩ := ih (off + .ofNat 32 proghdrSize) hb hu1
      rw [if_pos rfl]
      refine ⟨ok, sz', s', free', hrun', hb', fun hc => ?_⟩
      obtain ⟨hu', hle, hfull, hplaced⟩ := hok' hc
      have hfull' : ∀ i, i < m + 1 →
        (readi data (off + .ofNat 32 (proghdrSize * i)) (.ofNat 32 proghdrSize)).length = proghdrSize := by
        intro i hi
        cases i with
        | zero =>
          rw [Nat.mul_zero, BitVec.add_zero]
          exact hlen
        | succ i =>
          rw [Nat.mul_succ, Nat.add_comm, BitVec.ofNat_add, ← BitVec.add_assoc]
          exact hfull i (Nat.lt_of_succ_lt_succ hi)
      rcases hcase with ⟨htype, rfl, rfl⟩ | ⟨htype, hseg⟩
      · rw [segmentsFrom, if_neg htype, nil_append]
        exact ⟨hu', hle, hfull', hplaced⟩
      · have hsize := hseg.size
        rw [segmentsFrom, if_pos htype, singleton_append]
        generalize headerAt data off = ph at hseg hsize
        refine ⟨hu', by omega, hfull', fun hd hall hpw => ?_⟩
        obtain ⟨hfirst, hrest⟩ := forall_mem_cons.1 hall
        obtain ⟨hbelow, hpw⟩ := pairwise_cons.1 hpw
        have hlow : sz.toNat ≤ 4096 * pages sz.toNat := by
          unfold pages
          omega
        have hsz1 : sz1.toNat = ph.vaddr.toNat + ph.memsz.toNat := by omega
        obtain ⟨hall', hmem⟩ := hplaced hd (fun b hb => ⟨(hrest b hb).1, by rw [hsz1]; exact hbelow b hb⟩) hpw
        refine ⟨forall_mem_cons.2 ⟨⟨?_, hseg.filesz, by omega⟩, hall'⟩, fun va hva => ?_⟩
        · refine (hseg.placed hd hfirst.1 hfirst.2).congr hseg.filesz fun va hva => hmem va ?_
          rw [hsz1]
          omega
        · have hva' : va.toNat / 4096 < pages sz1.toNat := by
            unfold pages at hva ⊢
            omega
          rw [hmem va hva', hseg.others va hva (by omega)]

end

/-! ## The segments of a file -/

/-- The program headers of a file, from the offset `off` on. -/
def headersFrom (data : List UInt8) (off m : Nat) : List Proghdr :=
  (range m).map fun i => .ofBytes ((data.drop (off + proghdrSize * i)).take proghdrSize)

/-- The headers that the loop reads are those of the file, if the offset fits
into an `int` and no read is short. -/
theorem segmentsFrom_eq (data : List UInt8) (m : Nat) (off : BitVec 32) (hd : data.length < 2 ^ 31)
    (h : ∀ i, i < m → (readi data (off + .ofNat 32 (proghdrSize * i)) (.ofNat 32 proghdrSize)).length = proghdrSize) :
    segmentsFrom data m off = (headersFrom data off.toNat m).filter fun ph => ph.type = elfProgLoad := by
  induction m generalizing off with
  | zero => rfl
  | succ m ih =>
    have hfirst : (readi data off (.ofNat 32 proghdrSize)).length = proghdrSize := by
      have := h 0 (Nat.succ_pos m)
      rwa [Nat.mul_zero, BitVec.add_zero] at this
    have hin := (readi_full data off (.ofNat 32 proghdrSize) hfirst (by decide)).1
    rw [show (BitVec.ofNat 32 proghdrSize).toNat = 56 from rfl] at hin
    have hnext : (off + .ofNat 32 proghdrSize).toNat = off.toNat + proghdrSize := by
      rw [toNat_add, show (BitVec.ofNat 32 proghdrSize).toNat = 56 from rfl, show proghdrSize = 56 from rfl]
      omega
    have hread : readi data off (.ofNat 32 proghdrSize) = (data.drop (off.toNat + proghdrSize * 0)).take proghdrSize := by
      rw [readi, if_neg]
      · rfl
      · rw [lt_def, hnext]
        omega
    rw [segmentsFrom, ih _ fun i hi => ?_, headersFrom, headersFrom, range_succ_eq_map, map_cons, map_map,
      filter_cons, headerAt,
      hread, hnext]
    · have hmap : ((fun i => Proghdr.ofBytes ((data.drop (off.toNat + proghdrSize * i)).take proghdrSize)) ∘ Nat.succ) =
          fun i => Proghdr.ofBytes ((data.drop (off.toNat + proghdrSize + proghdrSize * i)).take proghdrSize) := by
        funext i
        rw [Function.comp_apply, Nat.mul_succ, add_assoc, add_comm proghdrSize]
      rw [hmap]
      split
      · rename_i ht
        rw [if_pos (decide_eq_true ht), singleton_append]
      · rename_i ht
        rw [if_neg (by rw [decide_eq_false ht]; exact Bool.false_ne_true), nil_append]
    · have := h (i + 1) (Nat.succ_lt_succ hi)
      rwa [Nat.mul_succ, Nat.add_comm, BitVec.ofNat_add, ← BitVec.add_assoc] at this

end Xv6.Vm
