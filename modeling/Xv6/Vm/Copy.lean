import Xv6.Vm.Map

/-!
# Copies between the kernel and user memory

`userAt` is the translation of a single user address: where its byte is in
physical memory, if the address is below `MAXVA` in a page that is valid with
`PTE_U`. The copies go page by page; each of them agrees with going byte by
byte. They stop at the first byte that cannot be accessed (`copyin_spec`,
`copyout_spec`, `copyinstr_spec`).
-/

namespace Xv6.Vm

open List
open BitVec (toNat_sub lt_def toNat_add toNat_ofNat not_lt eq_of_toNat_eq add_assoc ofNat_add add_zero)

open Radix

variable {s s' : State} {root : Page} {va va' len : Addr}

/-- The user may access the page of the entry. -/
def user (e : Pte) : Bool := e &&& pteU ≠ 0

/-- Where the byte at a user address is in physical memory. -/
def userAt (s : State) (pagetable va : Addr) : Option Nat :=
  ((translate s pagetable va).filter user).map fun e => (pte2pa e).toNat + va.toNat % 4096

/-! ## Pages and chunks -/

theorem sub_pgrounddown (va : Addr) : (va - pgrounddown va).toNat = va.toNat % 4096 := by
  have h := pgrounddown_toNat va
  rw [toNat_sub]
  omega

theorem chunk_toNat (va len : Addr) : (chunk va len).toNat = min (4096 - va.toNat % 4096) len.toNat := by
  have hn : (4096 - (va - pgrounddown va) : Addr).toNat = 4096 - va.toNat % 4096 := by
    rw [toNat_sub, sub_pgrounddown, pgsize_toNat]
    omega
  rw [chunk]
  split
  · rename_i h
    have := lt_def.1 h
    omega
  · rename_i h
    have := mt lt_def.2 h
    omega

variable {i x n k : Nat} {a max : Addr} {l : List UInt8} {r : Int}

theorem toNat_add_of_page (hi : va.toNat % 4096 + i < 4096) : (va + .ofNat 64 i).toNat = va.toNat + i := by
  have := va.isLt
  rw [toNat_add, toNat_ofNat]
  omega

theorem translate_eq_of_page (hi : va.toNat % 4096 + i < 4096) :
    translate s (base root) (va + .ofNat 64 i) = translate s (base root) va := by
  have hadd := toNat_add_of_page hi
  by_cases h : va < maxva
  · have hlt := lt_maxva.1 h
    exact translate_page h (lt_maxva.2 (by omega)) (by omega)
  · have hle : maxva.toNat ≤ va.toNat := Nat.not_lt.1 (mt lt_def.2 h)
    rw [translate_of_le (not_lt.1 h), translate_of_le (BitVec.le_def.2 (by omega))]

/-- The bytes of a page are one after the other. -/
theorem userAt_add (hi : va.toNat % 4096 + i < 4096) :
    userAt s (base root) (va + .ofNat 64 i) = (userAt s (base root) va).map (· + i) := by
  rw [userAt, userAt, translate_eq_of_page hi, toNat_add_of_page hi, Option.map_map]
  congr 1
  funext e
  show _ = _ + _ + i
  omega

theorem walkaddr_run (s : State) (root : Page) (va : Addr) :
    (walkaddr (base root) va).run s = .ok (((translate s (base root) va).filter user).elim 0 pte2pa) s := by
  by_cases h : va < maxva
  · rw [walkaddr, if_neg (BitVec.not_le.2 h), Cmd.run_bind (walk_false h)]
    cases hq : leaf child (heap s) (path va) 2 root with
    | none =>
      rw [translate_eq h, Radix.lookup, hq]
      rfl
    | some q =>
      rw [translate_leaf h hq, Option.map_some]
      rw [run_load]
      by_cases hv : heap s q (path va 0) &&& pteV = 0
      · have hf : valid (heap s q (path va 0)) = false := decide_eq_false (not_not.2 hv)
        rw [if_pos hv, Option.filter_some, hf]
        rfl
      · have hf : valid (heap s q (path va 0)) = true := decide_eq_true hv
        rw [if_neg hv, Option.filter_some, hf, if_pos rfl, Option.filter_some]
        by_cases hu : heap s q (path va 0) &&& pteU = 0
        · have hf : user (heap s q (path va 0)) = false := decide_eq_false (not_not.2 hu)
          rw [if_pos hu, hf]
          rfl
        · have hf : user (heap s q (path va 0)) = true := decide_eq_true hu
          rw [if_neg hu, hf]
          rfl
  · rw [walkaddr, if_pos (not_lt.1 h), translate_of_le (not_lt.1 h)]
    rfl

/-- The page of an address that cannot be accessed is found to be so. -/
theorem walkaddr_none (h : userAt s (base root) va = none) : (walkaddr (base root) (pgrounddown va)).run s = .ok 0 s := by
  have hpage : va.toNat % 4096 = va.toNat - (pgrounddown va).toNat := by have := pgrounddown_toNat va; omega
  have hva : pgrounddown va + .ofNat 64 (va.toNat % 4096) = va := by
    have hd := pgrounddown_toNat va
    exact eq_of_toNat_eq (by rw [toNat_add_of_page (by omega)]; omega)
  rw [← hva, userAt_add (by have := pgrounddown_toNat va; omega), Option.map_eq_none_iff, userAt, Option.map_eq_none_iff] at h
  rw [walkaddr_run, h]
  rfl

/-! ## The frames of user pages -/

/-- The frames of user pages are not the page at 0, which stands for none; they
are distinct; and they are not nodes of the page table. -/
structure UserFrames (s : State) (root : Page) : Prop where
  nonzero : ∀ {va e}, translate s (base root) va = some e → user e → ppn e ≠ 0
  distinct : ∀ {va va' e e'}, translate s (base root) va = some e → translate s (base root) va' = some e' → user e → user e' →
    ppn e = ppn e' → SamePage va va'
  apart : ∀ {va e}, translate s (base root) va = some e → user e → ppn e ∉ tree s root

theorem of_userAt (h : userAt s (base root) va = some x) :
    ∃ e, translate s (base root) va = some e ∧ user e ∧ x = (ppn e).toNat * 4096 + va.toNat % 4096 := by
  obtain ⟨e, he, rfl⟩ := Option.map_eq_some_iff.1 h
  obtain ⟨he, hu⟩ := Option.filter_eq_some_iff.1 he
  exact ⟨e, he, hu, by rw [pte2pa_eq, base_toNat]⟩

/-- Two user addresses whose bytes are at the same place are the same. -/
theorem UserFrames.inj (hf : UserFrames s root) (h : userAt s (base root) va = some x)
    (h' : userAt s (base root) va' = some x) : va = va' := by
  obtain ⟨e, he, hu, rfl⟩ := of_userAt h
  obtain ⟨e', he', hu', heq⟩ := of_userAt h'
  have hpage := hf.distinct he he' hu hu' (eq_of_toNat_eq (by omega))
  exact eq_of_toNat_eq (by omega)

/-- The page of an address that can be accessed is found. -/
theorem walkaddr_some (hf : UserFrames s root) (h : userAt s (base root) va = some x) :
    ∃ pa0, (walkaddr (base root) (pgrounddown va)).run s = .ok pa0 s ∧ pa0 ≠ 0 ∧ (pa0 + (va - pgrounddown va)).toNat = x := by
  obtain ⟨e, he, hu, rfl⟩ := of_userAt h
  have hd := pgrounddown_toNat va
  have hva : pgrounddown va + .ofNat 64 (va.toNat % 4096) = va :=
    eq_of_toNat_eq (by rw [toNat_add_of_page (by omega)]; omega)
  have he' : translate s (base root) (pgrounddown va) = some e := by
    rw [← he, ← translate_eq_of_page (show (pgrounddown va).toNat % 4096 + va.toNat % 4096 < 4096 by omega), hva]
  refine ⟨base (ppn e), ?_, ?_, ?_⟩
  · rw [walkaddr_run, he', Option.filter_some, if_pos hu, Option.elim_some, pte2pa_eq]
  · intro h0
    refine hf.nonzero he hu (eq_of_toNat_eq ?_)
    have := congrArg BitVec.toNat h0
    rw [base_toNat, show (0 : Addr).toNat = 0 from rfl] at this
    rw [show (0 : Page).toNat = 0 from rfl]
    omega
  · have := (ppn e).isLt
    rw [toNat_add, base_toNat, sub_pgrounddown]
    omega

/-! ## The chunk in a page -/

/-- The number of turns that a copy takes. -/
def turns (va len : Addr) : Nat := (va.toNat % 4096 + len.toNat + 4095) / 4096

/-- The first `n` bytes of a range are in a page, at `x`; the range goes on at
`next`, where `rest` bytes are left. -/
structure Chunk (s : State) (root : Page) (va len : Addr) (x n : Nat) (next rest : Addr) : Prop where
  pos : 0 < n
  bytes : ∀ i, i < n → userAt s (base root) (va + .ofNat 64 i) = some (x + i)
  length : n + rest.toNat = len.toNat
  after : 0 < rest.toNat → ∀ i, next + .ofNat 64 i = va + .ofNat 64 (n + i)
  fewer : turns next rest < turns va len

theorem chunk_spec (hx : userAt s (base root) va = some x) (hlen : len > 0) :
    Chunk s root va len x (chunk va len).toNat (pgrounddown va + 4096) (len - chunk va len) := by
  have hpos : 0 < len.toNat := lt_def.1 hlen
  have hc := chunk_toNat va len
  have hd := pgrounddown_toNat va
  have hva : va.toNat < 2 ^ 38 := lt_of_translate (of_userAt hx).choose_spec.1
  have hnext : (pgrounddown va + 4096).toNat = va.toNat / 4096 * 4096 + 4096 := by
    rw [toNat_add, hd, pgsize_toNat]
    omega
  have hrest : (len - chunk va len).toNat = len.toNat - (chunk va len).toNat := by
    rw [toNat_sub]
    omega
  refine ⟨by omega, fun i hi => ?_, by omega, fun h i => ?_, ?_⟩
  · rw [userAt_add (by omega), hx]
    rfl
  · have hadd : pgrounddown va + 4096 = va + .ofNat 64 (chunk va len).toNat := by
      refine eq_of_toNat_eq ?_
      rw [hnext, toNat_add, toNat_ofNat]
      omega
    rw [hadd, add_assoc, ← ofNat_add]
  · unfold turns
    omega

/-! ## copyin -/

/-- What `copyin` of the range does: the bytes `l` are stored. -/
structure CopiedIn (s : State) (root : Page) (va len : Addr) (r : Int) (l : List UInt8) : Prop where
  bytes : ∀ i, i < l.length → ∃ x, userAt s (base root) (va + .ofNat 64 i) = some x ∧ l[i]? = some (s.mem x)
  result : (r = 0 ∧ l.length = len.toNat) ∨
    (r = -1 ∧ l.length < len.toNat ∧ userAt s (base root) (va + .ofNat 64 l.length) = none)

theorem getElem?_bytesAt (hi : i < n) : (s.bytesAt a n)[i]? = some (s.mem (a.toNat + i)) := by
  unfold State.bytesAt
  rw [getElem?_map, getElem?_range hi]
  rfl

theorem length_bytesAt (a : Addr) (n : Nat) : (s.bytesAt a n).length = n := by
  unfold State.bytesAt
  rw [length_map, length_range]

/-- The bytes of a chunk and those after it. -/
theorem Chunk.append {next rest : Addr} (hc : Chunk s root va len x n next rest) (ha : a.toNat = x)
    (hl : l.length ≤ rest.toNat)
    (h : ∀ i, i < l.length → ∃ y, userAt s (base root) (next + .ofNat 64 i) = some y ∧ l[i]? = some (s.mem y)) :
    ∀ i, i < (s.bytesAt a n ++ l).length → ∃ y, userAt s (base root) (va + .ofNat 64 i) = some y ∧
      (s.bytesAt a n ++ l)[i]? = some (s.mem y) := by
  intro i hi
  rw [length_append, length_bytesAt] at hi
  by_cases hin : i < n
  · refine ⟨x + i, hc.bytes i hin, ?_⟩
    rw [getElem?_append_left (by rw [length_bytesAt]; exact hin), getElem?_bytesAt hin, ha]
  · obtain ⟨y, hy, hget⟩ := h (i - n) (by omega)
    refine ⟨y, ?_, ?_⟩
    · rw [hc.after (by omega), show n + (i - n) = i by omega] at hy
      exact hy
    · rw [getElem?_append_right (by rw [length_bytesAt]; omega), length_bytesAt, hget]

theorem copyinFrom_spec (hf : UserFrames s root) (hk : turns va len < k) :
    ∃ r l, (copyinFrom (base root) k va len).run s = .ok (r, l) s ∧ CopiedIn s root va len r l := by
  induction k generalizing va len with
  | zero => exact nomatch hk
  | succ k ih =>
    rw [copyinFrom]
    by_cases hlen : len > 0
    · rw [if_pos hlen]
      cases hx : userAt s (base root) va with
      | none =>
        refine ⟨-1, [], by rw [Cmd.run_bind (walkaddr_none hx)]; rfl, nofun,
          .inr ⟨rfl, lt_def.1 hlen, ?_⟩⟩
        rw [length_nil, add_zero, hx]
      | some x =>
        obtain ⟨pa0, hw, hne, hpa⟩ := walkaddr_some hf hx
        have hc := chunk_spec hx hlen
        have ht := hc.fewer
        obtain ⟨r, l, hrun, hin⟩ := ih (show turns (pgrounddown va + 4096) (len - chunk va len) < k by omega)
        have hlength := hc.length
        have hle : l.length ≤ (len - chunk va len).toNat := by
          rcases hin.result with ⟨-, h⟩ | ⟨-, h, -⟩ <;> omega
        refine ⟨r, s.bytesAt (pa0 + (va - pgrounddown va)) (chunk va len).toNat ++ l, ?_, hc.append hpa hle hin.bytes, ?_⟩
        · rw [Cmd.run_bind hw, if_neg hne, Cmd.run_get, Cmd.run_bind hrun]
          rfl
        · rw [length_append, length_bytesAt]
          rcases hin.result with ⟨hr, h⟩ | ⟨hr, h, hnone⟩
          · exact .inl ⟨hr, by omega⟩
          · exact .inr ⟨hr, by omega, by rw [← hc.after (by omega)]; exact hnone⟩
    · have h0 : len.toNat = 0 := Nat.eq_zero_of_not_pos fun h => hlen (lt_def.2 h)
      rw [if_neg hlen]
      exact ⟨0, [], rfl, nofun, .inl ⟨rfl, h0.symm⟩⟩

theorem turns_lt (va len : Addr) : turns va len < len.toNat / 4096 + 3 := by
  unfold turns
  omega

/-- `copyin` stores the bytes of the range, up to the first that cannot be
accessed. -/
theorem copyin_spec (hf : UserFrames s root) (va len : Addr) :
    ∃ r l, (copyin (base root) va len).run s = .ok (r, l) s ∧ CopiedIn s root va len r l :=
  copyinFrom_spec hf (turns_lt va len)

/-! ## copyinstr -/

theorem copyString_eq (l : List UInt8) :
    (0 ∉ l ∧ copyString l = (l, false)) ∨ ∃ t rest, l = t ++ 0 :: rest ∧ 0 ∉ t ∧ copyString l = (t ++ [0], true) := by
  induction l with
  | nil => exact .inl ⟨not_mem_nil, rfl⟩
  | cons c l ih =>
    by_cases hc : c = 0
    · exact .inr ⟨[], l, by rw [hc, nil_append], not_mem_nil, by rw [copyString, if_pos hc]; rfl⟩
    · rw [copyString, if_neg hc]
      rcases ih with ⟨h0, heq⟩ | ⟨t, rest, rfl, h0, heq⟩
      · refine .inl ⟨?_, by rw [heq]⟩
        rintro (_ | ⟨_, hmem⟩)
        · exact hc rfl
        · exact h0 hmem
      · refine .inr ⟨c :: t, rest, rfl, ?_, by rw [heq]; rfl⟩
        rintro (_ | ⟨_, hmem⟩)
        · exact hc rfl
        · exact h0 hmem

/-- What `copyinstr` of at most `max` bytes does: the bytes `l` are stored. -/
structure CopiedStr (s : State) (root : Page) (va max : Addr) (r : Int) (l : List UInt8) : Prop where
  bytes : ∀ i, i < l.length → ∃ x, userAt s (base root) (va + .ofNat 64 i) = some x ∧ l[i]? = some (s.mem x)
  length : l.length ≤ max.toNat
  result : (r = 0 ∧ ∃ t, l = t ++ [0] ∧ 0 ∉ t) ∨
    (r = -1 ∧ 0 ∉ l ∧ (l.length = max.toNat ∨ userAt s (base root) (va + .ofNat 64 l.length) = none))

theorem copyinstrFrom_spec (hf : UserFrames s root) (hk : turns va max < k) :
    ∃ r l, (copyinstrFrom (base root) k va max).run s = .ok (r, l) s ∧ CopiedStr s root va max r l := by
  induction k generalizing va max with
  | zero => exact nomatch hk
  | succ k ih =>
    rw [copyinstrFrom]
    by_cases hmax : max > 0
    · rw [if_pos hmax]
      cases hx : userAt s (base root) va with
      | none =>
        refine ⟨-1, [], by rw [Cmd.run_bind (walkaddr_none hx), if_pos rfl]; rfl, nofun, Nat.zero_le _,
          .inr ⟨rfl, not_mem_nil, .inr ?_⟩⟩
        rw [length_nil, add_zero, hx]
      | some x =>
        obtain ⟨pa0, hw, hne, hpa⟩ := walkaddr_some hf hx
        have hc := chunk_spec hx hmax
        have ht := hc.fewer
        have hlength := hc.length
        have hlen := length_bytesAt (s := s) (pa0 + (va - pgrounddown va)) (chunk va max).toNat
        rw [Cmd.run_bind hw, if_neg hne, Cmd.run_get]
        rcases copyString_eq (s.bytesAt (pa0 + (va - pgrounddown va)) (chunk va max).toNat) with ⟨h0, heq⟩ | ⟨t, rest,
          hl, h0, heq⟩
        · -- the string goes on in the next page
          obtain ⟨r, l, hrun, hin⟩ := ih (show turns (pgrounddown va + 4096) (max - chunk va max) < k by omega)
          have hle := hin.length
          refine ⟨r, s.bytesAt (pa0 + (va - pgrounddown va)) (chunk va max).toNat ++ l, ?_, hc.append hpa hle hin.bytes,
            ?_, ?_⟩
          · rw [heq, if_neg Bool.false_ne_true, Cmd.run_bind hrun]
            rfl
          · rw [length_append, hlen]
            omega
          · rcases hin.result with ⟨hr, t, rfl, ht0⟩ | ⟨hr, hl0, hend⟩
            · refine .inl ⟨hr, _ ++ t, by rw [append_assoc], ?_⟩
              rw [mem_append, not_or]
              exact ⟨h0, ht0⟩
            · refine .inr ⟨hr, by rw [mem_append, not_or]; exact ⟨h0, hl0⟩, ?_⟩
              rw [length_append, hlen]
              rcases hend with hend | hend
              · exact .inl (by omega)
              · rcases Nat.eq_zero_or_pos (max - chunk va max).toNat with hz | hpos
                · exact .inl (by omega)
                · exact .inr (by rw [← hc.after hpos]; exact hend)
        · -- the string ends in this page
          have hbytes := hc.append (l := []) hpa (Nat.zero_le _) (nofun)
          rw [append_nil, hl] at hbytes
          have hle : (t ++ [0]).length ≤ (chunk va max).toNat := by
            rw [← hlen, hl, length_append, length_append, length_singleton, length_cons]
            omega
          refine ⟨0, t ++ [0], ?_, fun i hi => ?_, by omega, .inl ⟨rfl, t, rfl, h0⟩⟩
          · rw [heq]
            rfl
          · have hi' : i < (t ++ 0 :: rest).length := by rw [← hl, hlen]; omega
            obtain ⟨y, hy, hget⟩ := hbytes i hi'
            refine ⟨y, hy, ?_⟩
            rw [← hget, show t ++ 0 :: rest = (t ++ [0]) ++ rest by simp, getElem?_append_left hi]
    · have h0 : max.toNat = 0 := Nat.eq_zero_of_not_pos fun h => hmax (lt_def.2 h)
      rw [if_neg hmax]
      exact ⟨-1, [], rfl, nofun, Nat.zero_le _, .inr ⟨rfl, not_mem_nil, .inl h0.symm⟩⟩

/-- `copyinstr` stores the bytes of a string up to its NUL, but at most `max`,
and none after the first that cannot be accessed. -/
theorem copyinstr_spec (hf : UserFrames s root) (va max : Addr) :
    ∃ r l, (copyinstr (base root) va max).run s = .ok (r, l) s ∧ CopiedStr s root va max r l :=
  copyinstrFrom_spec hf (turns_lt va max)

/-! ## copyout -/

/-- A write into the frame of a user page leaves the page table as it is. -/
theorem UserFrames.heap_copyTo (hf : UserFrames s root) (src : Bytes) (hx : userAt s (base root) va = some x)
    (ha : a.toNat = x) (hn : va.toNat % 4096 + n ≤ 4096) : ∀ q ∈ tree s root, heap (s.copyTo a src n) q = heap s q := by
  intro q hq
  obtain ⟨e, he, hu, rfl⟩ := of_userAt hx
  have hne : q.toNat ≠ (ppn e).toNat := fun h => hf.apart he hu (eq_of_toNat_eq h ▸ hq)
  refine heap_congr fun y h1 h2 => ?_
  rw [State.copyTo]
  exact if_neg (by omega)

theorem UserFrames.congr (hf : UserFrames s root) (h : ∀ q ∈ tree s root, heap s' q = heap s q) : UserFrames s' root where
  nonzero he := hf.nonzero (translate_congr h ▸ he)
  distinct he he' := hf.distinct (translate_congr h ▸ he) (translate_congr h ▸ he')
  apart he hu := by
    rw [show tree s' root = tree s root from nodes_congr h]
    exact hf.apart (translate_congr h ▸ he) hu

/-- What `copyout` to the range does: its first `k` bytes are written. -/
structure CopiedOut (s : State) (root : Page) (va : Addr) (src : Bytes) (len : Addr) (r : Int) (s' : State)
    (k : Nat) : Prop where
  freelist : s'.freelist = s.freelist
  bytes : ∀ i, i < k → ∃ x, userAt s (base root) (va + .ofNat 64 i) = some x ∧ s'.mem x = src i
  others : ∀ x, (∀ i, i < k → userAt s (base root) (va + .ofNat 64 i) ≠ some x) → s'.mem x = s.mem x
  result : (r = 0 ∧ k = len.toNat) ∨ (r = -1 ∧ k < len.toNat ∧ userAt s (base root) (va + .ofNat 64 k) = none)

theorem copyoutFrom_spec (src : Bytes) (hf : UserFrames s root) (hk : turns va len < k) :
    ∃ r s' m, (copyoutFrom (base root) k va src len).run s = .ok r s' ∧ CopiedOut s root va src len r s' m := by
  induction k generalizing s va len src with
  | zero => exact nomatch hk
  | succ k ih =>
    rw [copyoutFrom]
    by_cases hlen : len > 0
    · rw [if_pos hlen]
      cases hx : userAt s (base root) va with
      | none =>
        refine ⟨-1, s, 0, by rw [Cmd.run_bind (walkaddr_none hx)]; rfl, rfl, nofun, fun _ _ => rfl,
          .inr ⟨rfl, lt_def.1 hlen, ?_⟩⟩
        rw [add_zero, hx]
      | some x =>
        obtain ⟨pa0, hw, hne, hpa⟩ := walkaddr_some hf hx
        have hc := chunk_spec hx hlen
        have hn := chunk_toNat va len
        have ht := hc.fewer
        have hlength := hc.length
        have htree := hf.heap_copyTo src hx hpa (show va.toNat % 4096 + (chunk va len).toNat ≤ 4096 by omega)
        have hat : ∀ va', userAt (s.copyTo (pa0 + (va - pgrounddown va)) src (chunk va len).toNat) (base root) va' =
            userAt s (base root) va' := fun va' => by rw [userAt, userAt, translate_congr htree]
        obtain ⟨r, s', m, hrun, hout⟩ := ih (fun i => src ((chunk va len).toNat + i)) (hf.congr htree)
          (show turns (pgrounddown va + 4096) (len - chunk va len) < k by omega)
        have hm : m ≤ (len - chunk va len).toNat := by
          rcases hout.result with ⟨-, h⟩ | ⟨-, h, -⟩ <;> omega
        -- the bytes after the chunk are at the addresses after it
        have hafter : ∀ i, i < m → userAt s (base root) (pgrounddown va + 4096 + .ofNat 64 i) =
            userAt s (base root) (va + .ofNat 64 ((chunk va len).toNat + i)) := fun i hi => by rw [hc.after (by omega)]
        refine ⟨r, s', (chunk va len).toNat + m, ?_, hout.freelist, fun i hi => ?_, fun y hy => ?_, ?_⟩
        · rw [Cmd.run_bind hw, if_neg hne, Cmd.run_modify, hrun]
        · by_cases hin : i < (chunk va len).toNat
          · refine ⟨x + i, hc.bytes i hin, ?_⟩
            rw [hout.others (x + i) fun j hj he => ?_]
            · show (if _ then _ else _) = _
              rw [if_pos (by omega), hpa, Nat.add_sub_cancel_left]
            · rw [hat, hafter j hj] at he
              have heq := congrArg BitVec.toNat (hf.inj (hc.bytes i hin) he)
              rw [toNat_add, toNat_add, toNat_ofNat, toNat_ofNat] at heq
              have hlt := len.isLt
              omega
          · obtain ⟨y, hy, hval⟩ := hout.bytes (i - (chunk va len).toNat) (by omega)
            rw [hat, hafter _ (by omega), show (chunk va len).toNat + (i - (chunk va len).toNat) = i by omega] at hy
            refine ⟨y, hy, ?_⟩
            rw [hval, show (chunk va len).toNat + (i - (chunk va len).toNat) = i by omega]
        · rw [hout.others y fun j hj he => hy ((chunk va len).toNat + j) (by omega) (by rw [← hafter j hj, ← hat]; exact he)]
          refine if_neg fun hin => ?_
          refine hy (y - x) (by omega) ?_
          rw [hc.bytes (y - x) (by omega), show x + (y - x) = y by omega]
        · rcases hout.result with ⟨hr, h⟩ | ⟨hr, h, hnone⟩
          · exact .inl ⟨hr, by omega⟩
          · refine .inr ⟨hr, by omega, ?_⟩
            rw [← hc.after (by omega), ← hat]
            exact hnone
    · have h0 : len.toNat = 0 := Nat.eq_zero_of_not_pos fun h => hlen (lt_def.2 h)
      rw [if_neg hlen]
      exact ⟨0, s, 0, rfl, rfl, nofun, fun _ _ => rfl, .inl ⟨rfl, h0.symm⟩⟩

/-- `copyout` writes the bytes of the range, up to the first that cannot be
accessed. -/
theorem copyout_spec (hf : UserFrames s root) (va : Addr) (src : Bytes) (len : Addr) :
    ∃ r s' k, (copyout (base root) va src len).run s = .ok r s' ∧ CopiedOut s root va src len r s' k :=
  copyoutFrom_spec src hf (turns_lt va len)

/-! ## Byte by byte -/

def userByte (s : State) (root : Page) (va : Addr) : Option UInt8 := (userAt s (base root) va).map s.mem

/-- Every byte of the range can be accessed. -/
def Accessible (s : State) (root : Page) (va : Addr) (n : Nat) : Prop := ∀ i, i < n →
    (userAt s (base root) (va + .ofNat 64 i)).isSome

theorem CopiedIn.iff (h : CopiedIn s root va len r l) : r = 0 ↔ Accessible s root va len.toNat := by
  rcases h.result with ⟨hr, hl⟩ | ⟨hr, hl, hnone⟩
  · refine iff_of_true hr fun i hi => ?_
    obtain ⟨x, hx, -⟩ := h.bytes i (by omega)
    rw [hx]
    rfl
  · refine iff_of_false (by rw [hr]; decide) fun hacc => ?_
    have := hacc l.length hl
    rw [hnone] at this
    cases this

theorem CopiedOut.iff {src : Bytes} (h : CopiedOut s root va src len r s' k) :
    r = 0 ↔ Accessible s root va len.toNat := by
  rcases h.result with ⟨hr, hk⟩ | ⟨hr, hk, hnone⟩
  · refine iff_of_true hr fun i hi => ?_
    obtain ⟨x, hx, -⟩ := h.bytes i (by omega)
    rw [hx]
    rfl
  · refine iff_of_false (by rw [hr]; decide) fun hacc => ?_
    have := hacc k hk
    rw [hnone] at this
    cases this

theorem CopiedStr.iff (h : CopiedStr s root va max r l) :
    r = 0 ↔ ∃ j, j < max.toNat ∧ Accessible s root va (j + 1) ∧ userByte s root (va + .ofNat 64 j) = some 0 := by
  have hlen := h.length
  rcases h.result with ⟨hr, t, rfl, ht⟩ | ⟨hr, h0, hend⟩
  · rw [length_append, length_singleton] at hlen
    refine iff_of_true hr ⟨t.length, by omega, fun i hi => ?_, ?_⟩
    · obtain ⟨x, hx, -⟩ := h.bytes i (by rw [length_append, length_singleton]; exact hi)
      rw [hx]
      rfl
    · obtain ⟨x, hx, hget⟩ := h.bytes t.length (by rw [length_append, length_singleton]; omega)
      rw [userByte, hx, Option.map_some, ← hget, getElem?_append_right (le_rfl), Nat.sub_self]
      rfl
  · refine iff_of_false (by rw [hr]; decide) ?_
    rintro ⟨j, hj, hacc, hbyte⟩
    by_cases hjl : j < l.length
    · obtain ⟨x, hx, hget⟩ := h.bytes j hjl
      rw [userByte, hx, Option.map_some, ← hget] at hbyte
      exact h0 (mem_of_getElem? hbyte)
    · rcases hend with hend | hend
      · omega
      · have := hacc l.length (by omega)
        rw [hend] at this
        cases this

/-- The bytes that were read are those of the user. -/
theorem getElem?_userByte (h : ∃ x, userAt s (base root) (va + .ofNat 64 i) = some x ∧ l[i]? = some (s.mem x)) :
    l[i]? = userByte s root (va + .ofNat 64 i) := by
  obtain ⟨x, hx, hget⟩ := h
  rw [hget, userByte, hx]
  rfl

/-- The copies agree with a translation of each byte. `copyin` and `copyout`
return 0 if and only if every byte of the range can be accessed. `copyin` stores
the bytes of the range; `copyout` writes them and nothing else, and when it
fails it has written a range of the same start. `copyinstr` returns 0 if and
only if there is a NUL among the first `max` bytes and every byte up to it can
be accessed; it stores the string with its NUL, and never more than `max`
bytes. -/
theorem copies_bytewise (hf : UserFrames s root) (va len : Addr) :
    (∃ r l, (copyin (base root) va len).run s = .ok (r, l) s ∧ (r = 0 ∨ r = -1) ∧ (r = 0 ↔ Accessible s root va len.toNat) ∧
      (r = 0 → l.length = len.toNat ∧ ∀ i, i < len.toNat → l[i]? = userByte s root (va + .ofNat 64 i))) ∧
    (∀ src : Bytes, ∃ r s' k, (copyout (base root) va src len).run s = .ok r s' ∧ (r = 0 ∨ r = -1) ∧
      (r = 0 ↔ Accessible s root va len.toNat) ∧ k ≤ len.toNat ∧ (r = 0 → k = len.toNat) ∧
      (∀ i, i < k → ∃ x, userAt s (base root) (va + .ofNat 64 i) = some x ∧ s'.mem x = src i) ∧
      ∀ x, (∀ i, i < k → userAt s (base root) (va + .ofNat 64 i) ≠ some x) → s'.mem x = s.mem x) ∧
    ∃ r l, (copyinstr (base root) va len).run s = .ok (r, l) s ∧ (r = 0 ∨ r = -1) ∧ l.length ≤ len.toNat ∧
      (r = 0 ↔ ∃ j, j < len.toNat ∧ Accessible s root va (j + 1) ∧ userByte s root (va + .ofNat 64 j) = some 0) ∧
      (r = 0 → (∃ t, l = t ++ [0] ∧ 0 ∉ t) ∧ ∀ i, i < l.length → l[i]? = userByte s root (va + .ofNat 64 i)) := by
  refine ⟨?_, fun src => ?_, ?_⟩
  · obtain ⟨r, l, hrun, h⟩ := copyin_spec hf va len
    refine ⟨r, l, hrun, h.result.imp And.left And.left, h.iff, fun hr => ?_⟩
    rcases h.result with ⟨-, hl⟩ | ⟨hr', -⟩
    · exact ⟨hl, fun i hi => getElem?_userByte (h.bytes i (by omega))⟩
    · rw [hr'] at hr
      exact nomatch hr
  · obtain ⟨r, s', k, hrun, h⟩ := copyout_spec hf va src len
    refine ⟨r, s', k, hrun, h.result.imp And.left And.left, h.iff, ?_, fun hr => ?_, h.bytes, h.others⟩
    · rcases h.result with ⟨-, hk⟩ | ⟨-, hk, -⟩ <;> omega
    · rcases h.result with ⟨-, hk⟩ | ⟨hr', -⟩
      · exact hk
      · rw [hr'] at hr
        exact nomatch hr
  · obtain ⟨r, l, hrun, h⟩ := copyinstr_spec hf va len
    refine ⟨r, l, hrun, h.result.imp And.left And.left, h.length, h.iff,
      fun hr => ⟨?_, fun i hi => getElem?_userByte (h.bytes i hi)⟩⟩
    rcases h.result with ⟨-, ht⟩ | ⟨hr', -⟩
    · exact ht
    · rw [hr'] at hr
      exact nomatch hr

theorem CopiedOut.userAt_eq (hf : UserFrames s root) (h : CopiedOut s root va src len r s' k) :
    UserFrames s' root ∧ ∀ va, userAt s' (base root) va = userAt s (base root) va := by
  have hheap : ∀ q ∈ tree s root, heap s' q = heap s q := fun q hq => heap_congr fun y h1 h2 => h.others y fun i _ hy => by
    obtain ⟨e, he, hu, rfl⟩ := of_userAt hy
    have hne : q.toNat ≠ (ppn e).toNat := fun h => hf.apart he hu (eq_of_toNat_eq h ▸ hq)
    omega
  exact ⟨hf.congr hheap, fun va => by rw [userAt, userAt, translate_congr hheap]⟩

/-- What the kernel has copied out to the user is what it then copies in. -/
theorem copyin_copyout (hf : UserFrames s root) (hacc : Accessible s root va len.toNat) (src : Bytes) :
    ∃ s' s'', (copyout (base root) va src len).run s = .ok 0 s' ∧
      (copyin (base root) va len).run s' = .ok (0, (range len.toNat).map src) s'' := by
  obtain ⟨r, s', k, hrun, h⟩ := copyout_spec hf va src len
  obtain rfl := h.iff.2 hacc
  obtain ⟨hf', hu⟩ := h.userAt_eq hf
  obtain ⟨r, l, hrun', h'⟩ := copyin_spec hf' va len
  obtain rfl := h'.iff.2 fun i hi => by rw [hu]; exact hacc i hi
  have hk : k = len.toNat := h.result.elim And.right fun hr => absurd hr.1 (by decide)
  have hl : l.length = len.toNat := h'.result.elim And.right fun hr => absurd hr.1 (by decide)
  obtain rfl : l = (range len.toNat).map src := by
    refine ext_getElem? fun i => ?_
    by_cases hi : i < len.toNat
    · obtain ⟨x, hx, hget⟩ := h'.bytes i (hl ▸ hi)
      obtain ⟨y, hy, hsrc⟩ := h.bytes i (hk ▸ hi)
      obtain rfl := Option.some.inj ((hu _ ▸ hx).symm.trans hy)
      rw [hget, hsrc, getElem?_map, getElem?_range hi]
      rfl
    · rw [getElem?_eq_none (by omega), getElem?_eq_none (by simpa using hi)]
  exact ⟨s', s', hrun, hrun'⟩

/-! ## The first page -/

local instance smallImage : Image := instImage

set_option maxRecDepth 100000 in
theorem mapFirst_user : (mapFirst 8192 userPerm (.panic "mapped")).run blank = .panic "mapped" := Res.panics_iff.1
    (by decide +kernel)

theorem userFrames_blank : UserFrames blank emptyRoot := by
  have hnone : ∀ {va e}, translate blank (base emptyRoot) va ≠ some e := fun {va e} he => by
    rw [translate_blank] at he
    cases he
  exact ⟨fun he _ => absurd he hnone, fun he => absurd he hnone, fun he _ => absurd he hnone⟩

theorem userAt_blank (va : Addr) : userAt blank (base emptyRoot) va = none := by
  rw [userAt, translate_blank]
  rfl

/-- A page table with two user pages, the first ones. -/
theorem exists_twoPages : ∃ s, UserFrames s emptyRoot ∧ Accessible s emptyRoot 0 8192 ∧
    ∀ va, 8192 ≤ va.toNat → userAt s (base emptyRoot) va = none := by
  obtain ⟨r, s, hrun, ⟨free, ht⟩, -, hmap, -⟩ := mappages_map table_blank 0 8192 kernbase userPerm
    (by decide) (by decide) (by decide) (by decide) fun va' _ => translate_blank va'
  obtain ⟨rfl, -⟩ := mapFirst_panic mapFirst_user hrun
  have h0 : (0 : Addr).toNat = 0 := rfl
  have hrange : ∀ {va}, InRange 0 8192 va ↔ va.toNat < 8192 := fun {va} => by
    rw [InRange, h0, show (8192 : Addr).toNat = 8192 from rfl]
    omega
  -- no other page is mapped
  have hfirst : ∀ {va e}, translate s (base emptyRoot) va = some e →
      va.toNat < 8192 ∧ (ppn e).toNat = 0x80000 + va.toNat / 4096 := fun {va e} he => by
    have hlt := lt_maxva.2 (lt_of_translate he)
    by_cases hin : InRange 0 8192 va
    · obtain ⟨e', he', hpa, -⟩ := (hmap rfl va hlt).1 hin
      rw [he, Option.some_inj] at he'
      refine ⟨hrange.1 hin, ?_⟩
      have hpa := congrArg BitVec.toNat (he' ▸ hpa)
      have hva := hrange.1 hin
      rw [pte2pa_eq, base_toNat, toNat_add, toNat_sub, pgrounddown_toNat, pgrounddown_toNat, h0,
        show kernbase.toNat = 0x80000 * 4096 from rfl] at hpa
      omega
    · rw [(hmap rfl va hlt).2 hin, translate_blank] at he
      cases he
  refine ⟨s, ⟨fun he _ h => ?_, fun he he' _ _ h => ?_, fun he _ hmem => ?_⟩, fun i hi => ?_, fun va hva => ?_⟩
  · have := (hfirst he).2
    rw [h, show (0 : Page).toNat = 0 from rfl] at this
    omega
  · have h1 := (hfirst he).2
    rw [h, (hfirst he').2] at h1
    omega
  · have hram := BitVec.le_def.1 (ht.ram _ (mem_append_right _ hmem)).lo
    obtain ⟨hva, hppn⟩ := hfirst he
    rw [base_toNat, hppn, show Image.end_.toNat = 0x80010 * 4096 from rfl] at hram
    omega
  · have hva : (0 + .ofNat 64 i : Addr).toNat = i := by
      rw [toNat_add, toNat_ofNat, show (0 : Addr).toNat = 0 from rfl]
      omega
    obtain ⟨e, he, -, hflags⟩ := (hmap rfl (0 + .ofNat 64 i) (lt_maxva.2 (by omega))).1 (hrange.2 (by omega))
    have hu : user e = true := by
      rw [user, and_eq_flags e (by decide), hflags]
      decide
    rw [userAt, he, Option.filter_some, if_pos hu]
    rfl
  · cases hu : userAt s (base emptyRoot) va with
    | none => rfl
    | some x =>
      obtain ⟨e, he, -⟩ := of_userAt hu
      exact absurd (hfirst he).1 (not_lt.2 hva)

/-- Eight bytes can be written, the half of them in the second page. -/
theorem copies_bytewise_first : ∃ s, UserFrames s emptyRoot ∧
    (∃ s', (copyout (base emptyRoot) 4092 (fun i => UInt8.ofNat i) 8).run s = .ok 0 s') := by
  obtain ⟨s, hf, hacc, -⟩ := exists_twoPages
  obtain ⟨r, s', k, hrun, -, hiff, -⟩ := (copies_bytewise hf 4092 8).2.1 fun i => UInt8.ofNat i
  have hr : r = 0 := hiff.2 fun i hi => by
    have h := hacc (4092 + i) (by have : i < 8 := hi; omega)
    rwa [ofNat_add, ← add_assoc] at h
  exact ⟨s, hf, s', hr ▸ hrun⟩

theorem copyin_copyout_first : ∃ s, UserFrames s emptyRoot ∧ ∃ s' s'',
    (copyout (base emptyRoot) 0 (fun i => UInt8.ofNat i) 8192).run s = .ok 0 s' ∧
    (copyin (base emptyRoot) 0 8192).run s' = .ok (0, (range 8192).map UInt8.ofNat) s'' := by
  obtain ⟨s, hf, hacc, -⟩ := exists_twoPages
  exact ⟨s, hf, copyin_copyout hf hacc _⟩

end Xv6.Vm
