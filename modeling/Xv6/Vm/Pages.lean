import Xv6.Framework.Radix
import Xv6.Vm.Model

/-!
# Page numbers

A page-table page is known by its number; the entries of all pages are a heap
of nodes with 512 entries each (`heap`). What the code does to physical memory
is told in terms of that heap: a store into an entry changes that entry only
(`heap_setPte`), and filling a page changes that page only (`heap_memset_ne`).
-/

namespace Xv6.Vm

open Function BitVec

/-- The number of a physical page. -/
abbrev Page := BitVec 52

def base (p : Page) : Addr := p.setWidth 64 <<< 12

/-- The page that an entry points to. -/
def ppn (e : Pte) : Page := (e >>> 10).setWidth 52

def valid (e : Pte) : Bool := e &&& pteV ≠ 0

/-- The page-table page that an entry of an upper level points to. -/
def child (e : Pte) : Option Page := if e &&& pteV ≠ 0 then some (ppn e) else none

/-- The address of the entry `i` of a page-table page. -/
def slot (p : Page) (i : Fin 512) : Addr := entry (base p) (.ofNat 64 i)

/-- The entries of all pages. -/
def heap (s : State) : Radix.Heap Page Pte 512 := fun p i => s.pte (slot p i)

/-- The path of a virtual address: its index at each level. -/
def path (va : Addr) (level : Nat) : Fin 512 := Fin.ofNat 512 (va.toNat / 2 ^ (12 + 9 * level))

/-! ## Addresses and entries -/

theorem pgsize_toNat : (4096 : Addr).toNat = 4096 := rfl

theorem base_toNat (p : Page) : (base p).toNat = p.toNat * 4096 := by
  have := p.isLt
  rw [base, toNat_shiftLeft, toNat_setWidth, Nat.shiftLeft_eq]
  omega

theorem base_injective : Injective base := fun p q h => by
  have hn := congrArg BitVec.toNat h
  rw [base_toNat, base_toNat] at hn
  exact eq_of_toNat_eq (by omega)

theorem pte2pa_eq (e : Pte) : pte2pa e = base (ppn e) := by
  refine eq_of_toNat_eq ?_
  rw [base_toNat, pte2pa, ppn, toNat_shiftLeft, toNat_setWidth, Nat.shiftLeft_eq]
  omega

theorem slot_toNat (p : Page) (i : Fin 512) : (slot p i).toNat = p.toNat * 4096 + 8 * i := by
  have hp := p.isLt
  have hi := i.isLt
  rw [slot, entry, toNat_add, base_toNat, toNat_mul, toNat_ofNat, show (8 : Addr).toNat = 8 from rfl]
  omega

theorem px_eq (level : Nat) (va : Addr) : px level va = .ofNat 64 (path va level) := by
  refine eq_of_toNat_eq ?_
  have hlt := (path va level).isLt
  rw [px, toNat_and, toNat_ushiftRight, Nat.shiftRight_eq_div_pow, show (0x1FF : Addr).toNat = 2 ^ 9 - 1 from rfl,
    Nat.and_two_pow_sub_one_eq_mod, toNat_ofNat]
  exact (Nat.mod_eq_of_lt (show (path va level).val < 2 ^ 64 by omega)).symm

/-- Two addresses have the same path if they are in the same page. -/
theorem samePath_iff {va va' : Addr} (h : va < maxva) (h' : va' < maxva) :
    Radix.SamePath 2 (path va) (path va') ↔ va'.toNat / 4096 = va.toNat / 4096 := by
  have hlt : ∀ a : Addr, a < maxva → a.toNat < 2 ^ 38 := fun a ha => lt_def.1 ha
  have h := hlt va h
  have h' := hlt va' h'
  have hval : ∀ (a : Addr) k, (path a k).val = a.toNat / 2 ^ (12 + 9 * k) % 512 := fun _ _ => rfl
  constructor
  · intro hs
    have h0 := congrArg Fin.val (hs 0 (by omega))
    have h1 := congrArg Fin.val (hs 1 (by omega))
    have h2 := congrArg Fin.val (hs 2 (by omega))
    simp only [hval] at h0 h1 h2
    omega
  · intro hs k hk
    refine Fin.ext ?_
    rw [hval, hval, Nat.pow_add, ← Nat.div_div_eq_div_mul, ← Nat.div_div_eq_div_mul, show 2 ^ 12 = 4096 from rfl, hs]

theorem entry_px (p : Page) (level : Nat) (va : Addr) : entry (base p) (px level va) = slot p (path va level) := by
  rw [px_eq, slot]

theorem pgrounddown_toNat (a : Addr) : (pgrounddown a).toNat = a.toNat / 4096 * 4096 := by
  have h0 : (a &&& 0xFFF) &&& pgrounddown a = 0 := by
    ext i hi
    simp only [pgrounddown, getElem_and, getElem_not]
    cases a[i] <;> simp
  have h1 : (a &&& 0xFFF) + pgrounddown a = a := by
    rw [add_eq_or_of_and_eq_zero _ _ h0]
    ext i hi
    simp only [pgrounddown, getElem_and, getElem_not, getElem_or]
    cases a[i] <;> simp
  have h2 : (a &&& 0xFFF).toNat = a.toNat % 4096 := by
    rw [toNat_and, show (0xFFF : Addr).toNat = 2 ^ 12 - 1 from rfl, Nat.and_two_pow_sub_one_eq_mod]
  have h3 : (pgrounddown a).toNat ≤ a.toNat := by
    rw [pgrounddown, toNat_and]
    exact Nat.and_le_left
  have h4 := congrArg BitVec.toNat h1
  rw [toNat_add, h2] at h4
  omega

theorem last_toNat {va size : Addr} (hsize : 0 < size.toNat) (hmax : va.toNat + size.toNat ≤ 2 ^ 38) :
    (pgrounddown (va + size - 1)).toNat = (va.toNat + size.toNat - 1) / 4096 * 4096 := by
  rw [pgrounddown_toNat, toNat_sub, toNat_add, show (1 : Addr).toNat = 1 from rfl]
  omega

variable {e flags : Pte} {s s' : State} {q : Page} {x : Nat}

theorem child_of_valid (h : e &&& pteV ≠ 0) : child e = some (ppn e) := if_pos h

theorem child_of_not (h : ¬ e &&& pteV ≠ 0) : child e = none := if_neg h

theorem toNat_pa2pte_or (pa : Addr) (hf : flags.toNat < 1024) :
    (pa2pte pa ||| flags).toNat = 1024 * (pa.toNat / 4096) + flags.toNat := by
  have hpa := pa.isLt
  rw [toNat_or, pa2pte, toNat_shiftLeft, toNat_ushiftRight, Nat.shiftRight_eq_div_pow, Nat.shiftLeft_eq,
    Nat.mod_eq_of_lt (by omega), mul_comm, ← Nat.two_pow_add_eq_or_of_lt hf]

/-- An entry made of an address and flags gives them back. -/
theorem pte2pa_or {pa : Addr} (ha : pa % 4096 = 0) (hf : flags.toNat < 1024) :
    pte2pa (pa2pte pa ||| flags) = pa := by
  have ha := congrArg BitVec.toNat ha
  rw [toNat_umod, pgsize_toNat, show (0 : Addr).toNat = 0 from rfl] at ha
  have hpa := pa.isLt
  refine eq_of_toNat_eq ?_
  rw [pte2pa, toNat_shiftLeft, toNat_ushiftRight, toNat_pa2pte_or pa hf, Nat.shiftRight_eq_div_pow,
    Nat.shiftLeft_eq]
  omega

theorem pteFlags_or (pa : Addr) (hf : flags.toNat < 1024) : pteFlags (pa2pte pa ||| flags) = flags := by
  refine eq_of_toNat_eq ?_
  rw [pteFlags, toNat_and, toNat_pa2pte_or pa hf, show (0x3FF : Pte).toNat = 2 ^ 10 - 1 from rfl,
    Nat.and_two_pow_sub_one_eq_mod]
  omega

theorem ppn_link (c : Page) : ppn (pa2pte (base c) ||| pteV) = c := by
  have hc := c.isLt
  refine eq_of_toNat_eq ?_
  rw [ppn, toNat_setWidth, toNat_ushiftRight, toNat_pa2pte_or _ (by decide), base_toNat,
    Nat.shiftRight_eq_div_pow, show pteV.toNat = 1 from rfl]
  omega

theorem or_pteV (e : Pte) : (e ||| pteV) &&& pteV ≠ 0 := by
  have h : (e ||| pteV) &&& pteV = pteV := by
    ext i hi
    simp
    tauto
  rw [h]
  decide

/-! ## The heap -/

theorem heap_setPte (s : State) (p : Page) (i : Fin 512) (v : Pte) :
    heap (s.setPte (slot p i) v) = update (heap s) p (update (heap s p) i v) := by
  funext q j
  have hv := v.isLt
  simp only [heap, State.pte, State.setPte, slot_toNat]
  by_cases hq : q = p
  · subst hq
    rw [update_self]
    by_cases hj : j = i
    · subst hj
      rw [update_self, getLE_putLE_self]
      exact eq_of_toNat_eq (by rw [toNat_ofNat]; omega)
    · have hne : j.val ≠ i.val := fun e => hj (Fin.ext e)
      rw [update_of_ne hj, getLE_putLE_sep (by omega), heap, State.pte, slot_toNat]
  · have hne : q.toNat ≠ p.toNat := fun e => hq (eq_of_toNat_eq e)
    rw [update_of_ne hq, getLE_putLE_sep (by omega), heap, State.pte, slot_toNat]

theorem getLE_const {m : Bytes} {o k : Nat} (h : ∀ x, o ≤ x → x < o + k → m x = 0) : getLE m o k = 0 := by
  induction k generalizing o with
  | zero => rfl
  | succ k ih =>
    rw [getLE, h o (Nat.le_refl o) (by omega), ih fun x h₁ h₂ => h x (by omega) (by omega)]
    rfl

theorem heap_memset_ne {p : Page} {v : UInt8} (h : q ≠ p) : heap (s.memset (base p) v) q = heap s q := by
  funext i
  have hi := i.isLt
  have hne : q.toNat ≠ p.toNat := fun e => h (eq_of_toNat_eq e)
  simp only [heap, State.pte, State.memset, slot_toNat, base_toNat, pgsize]
  rw [getLE_congr fun x h₁ h₂ => if_neg (by omega)]

/-- The entries of a page are its bytes. -/
theorem heap_congr (h : ∀ x, q.toNat * 4096 ≤ x → x < q.toNat * 4096 + 4096 → s'.mem x = s.mem x) : heap s' q = heap s q := by
  funext i
  have hi := i.isLt
  have hb : getLE s'.mem (q.toNat * 4096 + 8 * i) 8 = getLE s.mem (q.toNat * 4096 + 8 * i) 8 := by
    refine getLE_congr fun x h₁ h₂ => ?_
    generalize q.toNat * 4096 = o at h h₁ h₂
    exact h x (by omega) (by omega)
  rw [heap, heap, State.pte, State.pte, slot_toNat, hb]

/-- A page whose entries are the same has the same bytes. -/
theorem mem_of_heap (h : heap s' q = heap s q) (hlo : q.toNat * 4096 ≤ x)
    (hhi : x < q.toNat * 4096 + 4096) : s'.mem x = s.mem x := by
  have hi : (x - q.toNat * 4096) / 8 < 512 := by omega
  have hpte := congrArg BitVec.toNat (congrFun h ⟨(x - q.toNat * 4096) / 8, hi⟩)
  rw [heap, heap, State.pte, State.pte, slot_toNat, toNat_ofNat, toNat_ofNat] at hpte
  generalize q.toNat * 4096 = o at *
  have h₁ := getLE_lt s'.mem (o + 8 * ((x - o) / 8)) 8
  have h₂ := getLE_lt s.mem (o + 8 * ((x - o) / 8)) 8
  rw [show 256 ^ 8 = 2 ^ 64 by decide] at h₁ h₂
  rw [Nat.mod_eq_of_lt h₁, Nat.mod_eq_of_lt h₂] at hpte
  exact getLE_inj hpte (by omega) (by omega)

/-- A page whose entries are all 0 is zero. -/
theorem mem_of_heap_zero (h : ∀ i, heap s q i = 0) (hlo : q.toNat * 4096 ≤ x)
    (hhi : x < q.toNat * 4096 + 4096) : s.mem x = 0 := by
  have hzero : heap s q = heap (⟨fun _ => 0, []⟩ : State) q := by
    funext i
    have hz : getLE (fun _ => 0) (slot q i).toNat 8 = 0 := getLE_const fun _ _ _ => rfl
    rw [h i, heap, State.pte, hz]
    rfl
  exact mem_of_heap hzero hlo hhi

theorem heap_freelist (s : State) (l : List Addr) : heap { s with freelist := l } = heap s := rfl

theorem heap_memset_zero (s : State) (p : Page) (i : Fin 512) : heap (s.memset (base p) 0) p i = 0 := by
  have hi := i.isLt
  simp only [heap, State.pte, State.memset, slot_toNat, base_toNat, pgsize]
  rw [getLE_const fun x h₁ h₂ => if_pos (by omega)]
  rfl

end Xv6.Vm
