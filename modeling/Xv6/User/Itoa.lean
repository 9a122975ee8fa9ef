import Mathlib.Data.List.GetD
import Mathlib.Data.Nat.Digits.Defs
import Xv6.Framework.Bytes

/-!
# Numbers and their decimal strings (`ulib.c`)

`itoa` writes the digits of a number from the last to the first, then the sign,
and then turns the string around. For every `int` but the smallest one this is
the decimal representation of the number (`itoa_correct_iff`), and `atoi` reads it back.
The smallest one is its own negative, so its only digit comes out as `'('`.

A loop of the source is a recursion that has as many turns as it is given; the
result is `none` if these are not enough.
-/

namespace Xv6.User

open Function List

/-- The loop of `itoa` that stores the digits. -/
def itoaDigits : Nat → BitVec 32 → Nat → Bytes → Option (Nat × Bytes)
  | 0, _, _, _ => none
  | turns + 1, n, i, s =>
    let s := update s i (UInt8.ofBitVec ((n.srem 10 + 48).setWidth 8))
    let n := n.sdiv 10
    if (0 : BitVec 32).slt n then itoaDigits turns n (i + 1) s else some (i + 1, s)

def swap (s : Bytes) (a b : Nat) : Bytes := update (update s a (s b)) b (s a)

/-- The loop of `itoa` that turns the string around, from `j` on. -/
def invert (i : Nat) : Nat → Nat → Bytes → Bytes
  | 0, _, s => s
  | turns + 1, j, s => if j < i / 2 then invert i turns (j + 1) (swap s j (i - j - 1)) else s

/-- Convert an integer to a string. An `int` has at most 10 digits. -/
def itoa (n : BitVec 32) (s : Bytes) : Option Bytes := do
  let neg := n.slt 0
  let n := if neg then -n else n
  let (i, s) ← itoaDigits 10 n 0 s
  let (i, s) := if neg then (i + 1, update s i 45) else (i, s)
  let s := update s i 0
  return invert i (i / 2 + 1) 0 s

/-- The loop of `atoi`. -/
def atoiFrom (s : Bytes) : Nat → Nat → BitVec 32 → Option (BitVec 32)
  | 0, _, _ => none
  | turns + 1, p, n =>
    if 48 ≤ s p ∧ s p ≤ 57 then atoiFrom s turns (p + 1) (n * 10 + (s p).toBitVec.setWidth 32 - 48) else some n

def atoi (turns : Nat) (s : Bytes) : Option (BitVec 32) := atoiFrom s turns 0 0

/-! ## Decimal strings -/

def digit (d : Nat) : UInt8 := UInt8.ofNat (48 + d)

def decimal (m : Nat) : List UInt8 := if m = 0 then [digit 0] else (Nat.digits 10 m).reverse.map digit

/-- The canonical decimal representation of an integer. -/
def canonical (n : Int) : List UInt8 := if n < 0 then 45 :: decimal n.natAbs else decimal n.natAbs

/-- The string `l` is in memory at `s`, with its NUL. -/
def IsString (s : Bytes) (l : List UInt8) : Prop := (∀ k, k < l.length → s k = l.getD k 0) ∧ s l.length = 0

example : canonical (-1024) = [45, 49, 48, 50, 52] := by decide

/-- The bytes `l` stored at `i`. -/
def put (s : Bytes) (i : Nat) (l : List UInt8) : Bytes := fun x => if i ≤ x ∧ x < i + l.length then l.getD (x - i) 0 else s x

theorem put_nil (s : Bytes) (i : Nat) : put s i [] = s := by
  funext x
  exact if_neg fun h => absurd h.2 (not_lt.2 h.1)

/-- One byte, and then the others. -/
theorem put_cons (s : Bytes) (i : Nat) (c : UInt8) (l : List UInt8) : put (update s i c) (i + 1) l = put s i (c :: l) := by
  funext x
  simp only [put, length_cons]
  by_cases hx : x = i
  · rw [hx, if_neg (by omega), if_pos (by omega), update_self, Nat.sub_self]
    rfl
  · rw [update_of_ne hx]
    by_cases hin : i + 1 ≤ x ∧ x < i + 1 + l.length
    · rw [if_pos hin, if_pos (by omega), show x - i = (x - (i + 1)) + 1 by omega]
      rfl
    · rw [if_neg hin, if_neg (by omega)]

/-! ## The digits -/

/-- The characters that the first loop stores. -/
def lowFirst (m : Nat) : List UInt8 := if m = 0 then [digit 0] else (Nat.digits 10 m).map digit

theorem lowFirst_eq (m : Nat) : lowFirst m = digit (m % 10) :: if m / 10 = 0 then [] else lowFirst (m / 10) := by
  unfold lowFirst
  by_cases hm : m = 0
  · subst hm
    rfl
  · rw [if_neg hm, Nat.digits_def' (by decide) (Nat.pos_of_ne_zero hm), map_cons]
    congr 1
    by_cases hd : m / 10 = 0
    · rw [if_pos hd, hd, Nat.digits_zero]
      rfl
    · rw [if_neg hd, if_neg hd]

theorem decimal_eq (m : Nat) : decimal m = (lowFirst m).reverse := by
  unfold decimal lowFirst
  split
  · rfl
  · rw [map_reverse]

section NonNeg

variable {n : BitVec 32} (h : n.toNat < 2 ^ 31)

include h

theorem toNat_sdiv_ten : (n.sdiv 10).toNat = n.toNat / 10 := by
  have hm : n.msb = false := BitVec.msb_eq_false_iff_two_mul_lt.2 (by omega)
  have h10 : (10 : BitVec 32).msb = false := rfl
  rw [BitVec.sdiv_eq, hm, h10]
  exact BitVec.toNat_udiv

theorem toNat_srem_ten : (n.srem 10).toNat = n.toNat % 10 := by
  have hm : n.msb = false := BitVec.msb_eq_false_iff_two_mul_lt.2 (by omega)
  have h10 : (10 : BitVec 32).msb = false := rfl
  rw [BitVec.srem_eq, hm, h10]
  exact BitVec.toNat_umod

theorem slt_zero_sdiv_ten : (0 : BitVec 32).slt (n.sdiv 10) = true ↔ n.toNat / 10 ≠ 0 := by
  have hdiv := toNat_sdiv_ten h
  rw [BitVec.slt_iff_toInt_lt, BitVec.toInt_eq_toNat_of_lt (x := n.sdiv 10) (by omega), hdiv]
  show (0 : Int) < _ ↔ _
  omega

theorem digit_srem : UInt8.ofBitVec ((n.srem 10 + 48).setWidth 8) = digit (n.toNat % 10) := by
  have hrem := toNat_srem_ten h
  refine UInt8.toNat_inj.1 ?_
  rw [UInt8.toNat_ofBitVec, BitVec.toNat_setWidth, BitVec.toNat_add, hrem, digit, UInt8.toNat_ofNat']
  show (n.toNat % 10 + 48) % 2 ^ 32 % 2 ^ 8 = (48 + n.toNat % 10) % 2 ^ 8
  omega

/-- The first loop stores the digits. -/
theorem itoaDigits_eq {turns : Nat} (hturns : n.toNat < 10 ^ (turns + 1)) (i : Nat) (s : Bytes) :
    itoaDigits (turns + 1) n i s = some (i + (lowFirst n.toNat).length, put s i (lowFirst n.toNat)) := by
  induction turns generalizing n i s with
  | zero =>
    have hd : n.toNat / 10 = 0 := by omega
    have hstop : ¬(0 : BitVec 32).slt (n.sdiv 10) = true := fun hs => (slt_zero_sdiv_ten h).1 hs hd
    rw [itoaDigits, if_neg hstop, digit_srem h, lowFirst_eq, if_pos hd, ← put_cons, put_nil]
    rfl
  | succ turns ih =>
    have hdiv := toNat_sdiv_ten h
    rw [itoaDigits, digit_srem h, lowFirst_eq]
    by_cases hd : n.toNat / 10 = 0
    · have hstop : ¬(0 : BitVec 32).slt (n.sdiv 10) = true := fun hs => (slt_zero_sdiv_ten h).1 hs hd
      rw [if_neg hstop, if_pos hd, ← put_cons, put_nil]
      rfl
    · have hgo := (slt_zero_sdiv_ten h).2 hd
      have hlt : (n.sdiv 10).toNat < 10 ^ (turns + 1) := by
        rw [hdiv, Nat.div_lt_iff_lt_mul (by decide)]
        rwa [Nat.pow_succ] at hturns
      rw [if_pos hgo, ih (by omega) hlt, if_neg hd, hdiv, put_cons, length_cons, add_comm (List.length _), add_assoc]

end NonNeg

/-! ## The string is turned around -/

theorem swap_apply (s : Bytes) (a b k : Nat) : swap s a b k = if k = b then s a else if k = a then s b else s k := by
  unfold swap
  by_cases hb : k = b
  · rw [if_pos hb, hb, update_self]
  · rw [if_neg hb, update_of_ne hb]
    by_cases ha : k = a
    · rw [if_pos ha, ha, update_self]
    · rw [if_neg ha, update_of_ne ha]

/-- The bytes from `j` on, up to as many before `i`, are turned around. -/
theorem invert_apply {i : Nat} (turns j : Nat) (s : Bytes) (hj : j ≤ i / 2) (hturns : i / 2 - j < turns) (k : Nat) :
    invert i turns j s k = if j ≤ k ∧ k + j < i then s (i - 1 - k) else s k := by
  induction turns generalizing j s with
  | zero => omega
  | succ turns ih =>
    rw [invert]
    by_cases hlt : j < i / 2
    · rw [if_pos hlt, ih (j + 1) _ hlt (by omega), swap_apply, swap_apply]
      by_cases hin : j + 1 ≤ k ∧ k + (j + 1) < i
      · rw [if_pos hin, if_neg (by omega), if_neg (by omega), if_pos (by omega)]
      · rw [if_neg hin]
        by_cases hhi : k = i - j - 1
        · rw [if_pos hhi, if_pos (by omega), show i - 1 - k = j by omega]
        · rw [if_neg hhi]
          by_cases hlo : k = j
          · rw [if_pos hlo, if_pos (by omega), show i - 1 - k = i - j - 1 by omega]
          · rw [if_neg hlo, if_neg (by omega)]
    · rw [if_neg hlt]
      -- at most the byte in the middle is left
      by_cases hk : j ≤ k ∧ k + j < i
      · rw [if_pos hk, show i - 1 - k = k by omega]
      · rw [if_neg hk]

variable {s : Bytes} {l : List UInt8}

/-- A string is turned around, and the NUL after it stays. -/
theorem isString_invert (h : IsString s l) : IsString (invert l.length (l.length / 2 + 1) 0 s) l.reverse := by
  refine ⟨fun k hk => ?_, ?_⟩
  · rw [length_reverse] at hk
    rw [invert_apply _ _ _ (Nat.zero_le _) (by omega), if_pos (by omega), h.1 _ (by omega), getD_eq_getElem _ _ (by omega),
      getD_eq_getElem _ _ (by rw [length_reverse]; exact hk), getElem_reverse]
  · rw [length_reverse, invert_apply _ _ _ (Nat.zero_le _) (by omega), if_neg (by omega)]
    exact h.2

theorem isString_put (s : Bytes) (l : List UInt8) : IsString (update (put s 0 l) l.length 0) l := by
  refine ⟨fun k hk => ?_, update_self ..⟩
  rw [update_of_ne (by omega), put, if_pos (by omega)]
  rfl

theorem put_concat (s : Bytes) (l : List UInt8) (c : UInt8) : update (put s 0 l) l.length c = put s 0 (l ++ [c]) := by
  funext x
  by_cases hx : x = l.length
  · rw [hx, update_self, put, if_pos (by simp), Nat.sub_zero, getD_append_right _ _ _ _ (le_rfl), Nat.sub_self]
    rfl
  · rw [update_of_ne hx, put, put, length_append, length_singleton]
    by_cases hlt : x < l.length
    · rw [if_pos (by omega), if_pos (by omega), Nat.sub_zero, getD_append _ _ _ _ hlt]
    · rw [if_neg (by omega), if_neg (by omega)]

/-! ## `itoa` and `atoi` -/

/-- What is left to do after the digits. -/
theorem itoa_of_digits {n : BitVec 32} (h : itoaDigits 10 (if n.slt 0 then -n else n) 0 s = some (l.length, put s 0 l)) :
    ∃ s', itoa n s = some s' ∧ IsString s' ((if n.slt 0 then [45] else []) ++ l.reverse) := by
  unfold itoa
  dsimp only
  rw [h]
  by_cases hneg : n.slt 0 = true
  · rw [if_pos hneg]
    refine ⟨_, rfl, ?_⟩
    have := isString_invert (isString_put s (l ++ [45]))
    rw [reverse_append] at this
    rw [if_pos hneg, put_concat]
    simpa using this
  · rw [if_neg hneg]
    refine ⟨_, rfl, ?_⟩
    rw [if_neg hneg]
    exact isString_invert (isString_put s l)

/-- Where the absolute value is an `int`, the string is right. -/
theorem itoa_isString {n : BitVec 32} (hn : n ≠ BitVec.intMin 32) (s : Bytes) :
    ∃ s', itoa n s = some s' ∧ IsString s' (canonical n.toInt) := by
  have hne : n.toNat ≠ 2 ^ 31 := fun e => hn (BitVec.eq_of_toNat_eq e)
  have hcanon : canonical n.toInt = (if n.slt 0 then [45] else []) ++ (lowFirst n.toInt.natAbs).reverse := by
    unfold canonical
    rw [← decimal_eq]
    by_cases hneg : n.toInt < 0
    · rw [if_pos hneg, if_pos (BitVec.slt_iff_toInt_lt.2 hneg)]
      rfl
    · rw [if_neg hneg, if_neg fun h => hneg (BitVec.slt_iff_toInt_lt.1 h)]
      rfl
  have hint := BitVec.toInt_eq_toNat_cond n
  have habs : (if n.slt 0 then -n else n).toNat = n.toInt.natAbs := by
    by_cases hneg : n.toInt < 0
    · rw [if_pos (BitVec.slt_iff_toInt_lt.2 hneg), BitVec.toNat_neg]
      split at hint <;> omega
    · rw [if_neg fun h => hneg (BitVec.slt_iff_toInt_lt.1 h)]
      split at hint <;> omega
  have hlt : n.toInt.natAbs < 2 ^ 31 := by
    split at hint <;> omega
  rw [hcanon]
  refine itoa_of_digits ?_
  have hten : (if n.slt 0 then -n else n).toNat < 10 ^ (9 + 1) := by
    rw [habs]
    omega
  rw [itoaDigits_eq (habs ▸ hlt) hten, habs, zero_add]

/-- `atoi` reads the digits from `p` on. -/
theorem atoiFrom_digits {l : List Nat} (hl : ∀ d ∈ l, d < 10) {turns p : Nat} {n : BitVec 32} (hturns : l.length < turns)
    (hs : ∀ k, k < l.length → s (p + k) = digit (l.getD k 0)) (hend : s (p + l.length) = 0) :
    atoiFrom s turns p n = some (l.foldl (fun n d => n * 10 + .ofNat 32 d) n) := by
  induction l generalizing turns p n with
  | nil =>
    cases turns with
    | zero => exact nomatch hturns
    | succ turns =>
      rw [length_nil, add_zero] at hend
      rw [atoiFrom, hend, if_neg (by decide)]
      rfl
  | cons d l ih =>
    cases turns with
    | zero => exact nomatch hturns
    | succ turns =>
      have hd : d < 10 := hl d mem_cons_self
      have hsp : s p = digit d := hs 0 (Nat.succ_pos _)
      have hdigit : (digit d).toNat = 48 + d := by
        rw [digit, UInt8.toNat_ofNat']
        omega
      have hin : 48 ≤ digit d ∧ digit d ≤ 57 := by
        rw [UInt8.le_iff_toNat_le, UInt8.le_iff_toNat_le, hdigit]
        show 48 ≤ 48 + d ∧ 48 + d ≤ 57
        omega
      have hval : n * 10 + (digit d).toBitVec.setWidth 32 - 48 = n * 10 + .ofNat 32 d := by
        have hbv : (digit d).toBitVec.setWidth 32 = .ofNat 32 d + 48 := by
          refine BitVec.eq_of_toNat_eq ?_
          rw [BitVec.toNat_setWidth, UInt8.toNat_toBitVec, hdigit, BitVec.toNat_add, BitVec.toNat_ofNat]
          show (48 + d) % 2 ^ 32 = (d % 2 ^ 32 + 48) % 2 ^ 32
          omega
        rw [hbv, ← BitVec.add_assoc, BitVec.add_sub_cancel]
      rw [atoiFrom, hsp, if_pos hin, hval, foldl_cons]
      refine ih (fun d' hd' => hl d' (mem_cons_of_mem _ hd')) (Nat.lt_of_succ_lt_succ hturns) (fun k hk => ?_) ?_
      · rw [add_assoc, add_comm 1 k]
        exact hs (k + 1) (Nat.succ_lt_succ hk)
      · rw [add_assoc, add_comm 1]
        exact hend

/-- The value of the digits. -/
theorem foldl_ofNat (l : List Nat) (n : Nat) :
    l.foldl (fun n d => n * 10 + .ofNat 32 d) (BitVec.ofNat 32 n) = BitVec.ofNat 32 (l.foldl (fun n d => n * 10 + d) n) := by
  induction l generalizing n with
  | nil => rfl
  | cons d l ih =>
    rw [foldl_cons, foldl_cons, ← ih, BitVec.ofNat_add, BitVec.ofNat_mul]
    rfl

theorem foldl_reverse_digits (m : Nat) : (Nat.digits 10 m).reverse.foldl (fun n d => n * 10 + d) 0 = m := by
  rw [foldl_reverse]
  conv_rhs => rw [← Nat.ofDigits_digits 10 m, Nat.ofDigits_eq_foldr]
  congr 1
  funext d n
  simp [mul_comm, add_comm]

/-- `atoi` of a decimal string. -/
theorem atoi_decimal {m : Nat} (h : IsString s (decimal m)) : ∃ turns, atoi turns s = some (.ofNat 32 m) := by
  by_cases hm : m = 0
  · subst hm
    have h0 : s 0 = digit 0 := h.1 0 (by decide)
    have h1 : s 1 = 0 := h.2
    exact ⟨2, atoiFrom_digits (l := [0]) (by simp) (by decide) (by simpa using h0) h1⟩
  · have hdec : decimal m = (Nat.digits 10 m).reverse.map digit := if_neg hm
    rw [hdec] at h
    have hlt : ∀ d ∈ (Nat.digits 10 m).reverse, d < 10 := fun d hd => Nat.digits_lt_base (by decide) (mem_reverse.1 hd)
    have hs : ∀ k, k < (Nat.digits 10 m).reverse.length → s (0 + k) = digit ((Nat.digits 10 m).reverse.getD k 0) :=
      fun k hk => by
      rw [zero_add, h.1 k (by rwa [length_map]), getD_eq_getElem _ _ (by rwa [length_map]), getElem_map,
        getD_eq_getElem _ _ hk]
    have hend : s (0 + (Nat.digits 10 m).reverse.length) = 0 := by
      have := h.2
      rwa [length_map, ← zero_add (List.length _)] at this
    refine ⟨(Nat.digits 10 m).reverse.length + 1, ?_⟩
    rw [atoi, atoiFrom_digits hlt (Nat.lt_succ_self _) hs hend, show (0 : BitVec 32) = .ofNat 32 0 from rfl, foldl_ofNat,
      foldl_reverse_digits]

/-- The smallest `int`. -/
theorem itoa_intMin (s : Bytes) : ∃ s', itoa (BitVec.intMin 32) s = some s' ∧ IsString s' [45, 40] := by
  refine itoa_of_digits (l := [40]) ?_
  rw [← put_cons, put_nil]
  rfl

/-- `itoa` is correct for every `int` but the smallest one. -/
theorem itoa_correct_iff (n : BitVec 32) (s : Bytes) :
    (∃ s', itoa n s = some s' ∧ IsString s' (canonical n.toInt) ∧ (0 ≤ n.toInt → ∃ turns, atoi turns s' = some n)) ↔
      n ≠ BitVec.intMin 32 := by
  constructor
  · rintro ⟨s', hs, hcanon, -⟩ rfl
    obtain ⟨s'', hs', hstr⟩ := itoa_intMin s
    rw [hs, Option.some_inj] at hs'
    have h₁ : s' 1 = 40 := hs' ▸ hstr.1 1 (by decide)
    have h2 : s' 1 = 50 := hcanon.1 1 (by decide)
    rw [h₁] at h2
    exact nomatch h2
  · intro hn
    obtain ⟨s', hs, hcanon⟩ := itoa_isString hn s
    refine ⟨s', hs, hcanon, fun hpos => ?_⟩
    rw [canonical, if_neg (by omega)] at hcanon
    obtain ⟨turns, hturns⟩ := atoi_decimal hcanon
    refine ⟨turns, hturns.trans (congrArg some (BitVec.eq_of_toNat_eq ?_))⟩
    have hint := BitVec.toInt_eq_toNat_cond n
    rw [BitVec.toNat_ofNat]
    split at hint <;> omega

/-- The string for the smallest `int` is `"-("`. -/
theorem itoa_smallest : ∃ s', itoa (BitVec.intMin 32) (fun _ => 0) = some s' ∧ IsString s' [45, 40] ∧
    ¬IsString s' (canonical (BitVec.intMin 32).toInt) := by
  obtain ⟨s', hs, hstr⟩ := itoa_intMin fun _ => 0
  refine ⟨s', hs, hstr, fun hcanon => ?_⟩
  have h₁ : s' 1 = 40 := hstr.1 1 (by decide)
  have h2 : s' 1 = 50 := hcanon.1 1 (by decide)
  rw [h₁] at h2
  exact nomatch h2

end Xv6.User
