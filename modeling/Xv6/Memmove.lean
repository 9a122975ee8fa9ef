import Mathlib.Algebra.Ring.Nat
import Mathlib.Logic.Function.Basic

/-!
# The two versions of `memmove` (`kernel/string.c`, `user/ulib.c`)

Both copy upwards or downwards one byte at a time, and choose the direction by
different tests. A copy in one direction is right if no byte is stored over one
that is still to be read (`forward_moved`, `backward_moved`); each test makes
sure of that for its direction.
-/

namespace Xv6.Memmove

open Function

abbrev Addr := BitVec 64

abbrev Mem := Addr → UInt8

/-- `while(n-- > 0) *d++ = *s++;`, which runs `n` times. -/
def forward : Nat → Addr → Addr → Mem → Mem
  | 0, _, _, m => m
  | n + 1, d, s, m => forward n (d + 1) (s + 1) (update m d (m s))

/-- `while(n-- > 0) *--d = *--s;`, which runs `n` times. -/
def backward : Nat → Addr → Addr → Mem → Mem
  | 0, _, _, m => m
  | n + 1, d, s, m => backward n (d - 1) (s - 1) (update m (d - 1) (m (s - 1)))

/-- The kernel's `memmove`; `n` is a `uint`. -/
def Kernel.memmove (dst src : Addr) (n : BitVec 32) (m : Mem) : Addr × Mem :=
  if src < dst ∧ src + n.zeroExtend 64 > dst then
    (dst, backward n.toNat (dst + n.zeroExtend 64) (src + n.zeroExtend 64) m)
  else (dst, forward n.toNat dst src m)

/-- The user library's `memmove`; `n` is an `int`, and a loop with a negative
`n` does not run. -/
def User.memmove (vdst vsrc : Addr) (n : BitVec 32) (m : Mem) : Addr × Mem :=
  if vsrc > vdst then (vdst, forward n.toInt.toNat vdst vsrc m)
  else (vdst, backward n.toInt.toNat (vdst + n.signExtend 64) (vsrc + n.signExtend 64) m)

abbrev nth (a : Addr) (i : Nat) : Addr := a + .ofNat 64 i

/-- The `n` bytes at `dst` are those that were at `src`, and the others are
as they were. -/
structure Moved (dst src : Addr) (n : Nat) (m m' : Mem) : Prop where
  copied : ∀ i < n, m' (nth dst i) = m (nth src i)
  frame : ∀ a, (∀ i < n, a ≠ nth dst i) → m' a = m a

variable {d s : Addr} {n : Nat} {m m' m'' : Mem}

/-- What was moved determines the memory. -/
theorem Moved.unique (h : Moved d s n m m') (h' : Moved d s n m m'') : m' = m'' := by
  funext a
  by_cases ha : ∃ i < n, a = nth d i
  · obtain ⟨i, hi, rfl⟩ := ha
    rw [h.copied i hi, h'.copied i hi]
  · have hout : ∀ i < n, a ≠ nth d i := fun i hi e => ha ⟨i, hi, e⟩
    rw [h.frame a hout, h'.frame a hout]

/-! ## One direction -/

theorem nth_succ (a : Addr) (i : Nat) : nth (a + 1) i = nth a (i + 1) := by bv_omega

theorem nth_ne {i j : Nat} (a : Addr) (h : i ≠ j) (hi : i < 2 ^ 64) (hj : j < 2 ^ 64) : nth a i ≠ nth a j := by bv_omega

/-- Byte `i` is stored before byte `j` is read. -/
theorem forward_moved (hn : n ≤ 2 ^ 64) (h : ∀ i j, i < j → j < n → nth d i ≠ nth s j) :
    Moved d s n m (forward n d s m) := by
  induction n generalizing d s m with
  | zero => exact ⟨nofun, fun _ _ => rfl⟩
  | succ n ih =>
    have hrest := ih (d := d + 1) (s := s + 1) (m := update m d (m s)) (by omega) fun i j hij hj => by
      rw [nth_succ, nth_succ]
      exact h _ _ (by omega) (by omega)
    have hzero : ∀ a : Addr, nth a 0 = a := fun a => by simp
    refine ⟨fun i hi => ?_, fun a ha => ?_⟩
    · cases i with
      | zero =>
        have hout : ∀ i < n, d ≠ nth (d + 1) i := fun i hi => by
          have hne := nth_ne (i := 0) (j := i + 1) d (by omega) (by omega) (by omega)
          rwa [hzero, ← nth_succ] at hne
        rw [hzero, hzero, forward, hrest.frame d hout, update_self]
      | succ i =>
        have hne : nth s (i + 1) ≠ d := (hzero d ▸ h 0 (i + 1) (by omega) hi).symm
        rw [← nth_succ, forward, hrest.copied i (by omega), nth_succ, update_of_ne hne]
    · have hne : a ≠ d := hzero d ▸ ha 0 (by omega)
      have hout : ∀ i < n, a ≠ nth (d + 1) i := fun i hi => by
        rw [nth_succ]
        exact ha _ (by omega)
      rw [forward, hrest.frame a hout, update_of_ne hne]

/-- Byte `j` is stored before byte `i` is read. -/
theorem backward_moved (hn : n ≤ 2 ^ 64) (h : ∀ i j, i < j → j < n → nth d j ≠ nth s i) :
    Moved d s n m (backward n (nth d n) (nth s n) m) := by
  induction n generalizing m with
  | zero => exact ⟨nofun, fun _ _ => rfl⟩
  | succ n ih =>
    have hlast : ∀ a : Addr, nth a (n + 1) - 1 = nth a n := fun a => by bv_omega
    have hrest := ih (m := update m (nth d n) (m (nth s n))) (by omega) fun i j hij hj => h i j hij (by omega)
    rw [backward, hlast, hlast]
    refine ⟨fun i hi => ?_, fun a ha => ?_⟩
    · rcases Nat.lt_succ_iff_lt_or_eq.1 hi with hi | rfl
      · rw [hrest.copied i hi, update_of_ne (h i n hi (by omega)).symm]
      · rw [hrest.frame _ fun j hj => nth_ne d (by omega) (by omega) (by omega), update_self]
    · rw [hrest.frame a fun i hi => ha i (by omega), update_of_ne (ha n (by omega))]

/-! ## Both versions -/

variable {dst src : Addr} {len : BitVec 32}

theorem kernel_moved (hs : src.toNat + len.toNat < 2 ^ 64) (hd : dst.toNat + len.toNat < 2 ^ 64) :
    Moved dst src len.toNat m (Kernel.memmove dst src len m).2 := by
  have hlen : len.zeroExtend 64 = .ofNat 64 len.toNat := by bv_omega
  rw [Kernel.memmove, hlen]
  split
  · exact backward_moved (by omega) fun i j hij hj => by bv_omega
  · exact forward_moved (by omega) fun i j hij hj => by bv_omega

theorem user_moved (hn : len.toNat < 2 ^ 31) (hs : src.toNat + len.toNat < 2 ^ 64) (hd : dst.toNat + len.toNat < 2 ^ 64) :
    Moved dst src len.toNat m (User.memmove dst src len m).2 := by
  have hpos : len.msb = false := by rw [BitVec.msb_eq_decide]; simp; omega
  have hlen : len.signExtend 64 = .ofNat 64 len.toNat := by
    rw [BitVec.signExtend_eq_setWidth_of_msb_false hpos]
    bv_omega
  have hint : len.toInt.toNat = len.toNat := by rw [BitVec.toInt_eq_toNat_of_msb hpos, Int.toNat_natCast]
  rw [User.memmove, hlen, hint]
  split
  · exact forward_moved (by omega) fun i j hij hj => by bv_omega
  · exact backward_moved (by omega) fun i j hij hj => by bv_omega

/-- For `0 ≤ n < 2 ^ 31` and blocks that do not wrap around the end of the
address space, overlapping or not, both versions move the `n` bytes at `src` to
`dst` and change no other byte; so they leave the same memory. -/
theorem memmove_correct (m : Mem) (dst src : Addr) (n : BitVec 32) (hn : n.toNat < 2 ^ 31)
    (hs : src.toNat + n.toNat < 2 ^ 64) (hd : dst.toNat + n.toNat < 2 ^ 64) :
    Moved dst src n.toNat m (Kernel.memmove dst src n m).2 ∧ Moved dst src n.toNat m (User.memmove dst src n m).2 ∧
    Kernel.memmove dst src n m = User.memmove dst src n m := by
  have hk := kernel_moved (m := m) hs hd
  have hu := user_moved (m := m) hn hs hd
  refine ⟨hk, hu, Prod.ext ?_ (hk.unique hu)⟩
  rw [Kernel.memmove, User.memmove, apply_ite Prod.fst, apply_ite Prod.fst, ite_self, ite_self]

/-- Three bytes moved up by one, over themselves. -/
theorem memmove_overlap : Moved 101 100 3 (fun a => a.toNat.toUInt8) (User.memmove 101 100 3 fun a => a.toNat.toUInt8).2 :=
  (memmove_correct _ 101 100 3 (by decide) (by decide) (by decide)).2.1

end Xv6.Memmove
