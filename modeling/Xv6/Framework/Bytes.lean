import Mathlib.Logic.Function.Basic
import Mathlib.Tactic.Ring

/-!
# Little-endian fields of byte memory

Disk blocks and physical pages are byte memory; the kernel reads and writes
integer fields of it, least significant byte first. `getLE m o k` is the
`k`-byte integer at offset `o`, and `putLE m o k v` stores one. A field reads
back what was stored in it (`getLE_putLE_self`) and is not changed by a store
into another field (`getLE_putLE_sep`).
-/

namespace Xv6

/-- Byte memory: a byte at each offset. -/
abbrev Bytes := Nat → UInt8

/-- The `k`-byte little-endian integer at offset `o`. -/
def getLE (m : Bytes) : Nat → Nat → Nat
  | _, 0 => 0
  | o, k + 1 => (m o).toNat + 256 * getLE m (o + 1) k

/-- The memory with the `k` low bytes of `v` stored at offset `o`. -/
def putLE (m : Bytes) (o k v : Nat) : Bytes := fun x =>
  if o ≤ x ∧ x < o + k then UInt8.ofNat (v / 256 ^ (x - o)) else m x

theorem getLE_lt (m : Bytes) (o k : Nat) : getLE m o k < 256 ^ k := by
  induction k generalizing o with
  | zero => simp [getLE]
  | succ k ih =>
    have h1 := ih (o + 1)
    have h2 := (m o).toNat_lt
    simp only [getLE, Nat.pow_succ]
    omega

variable {m m' : Bytes} {o k x v : Nat}

theorem getLE_congr (h : ∀ x, o ≤ x → x < o + k → m x = m' x) :
    getLE m o k = getLE m' o k := by
  induction k generalizing o with
  | zero => rfl
  | succ k ih =>
    simp only [getLE]
    rw [h o (Nat.le_refl o) (by omega), ih fun x h1 h2 => h x (by omega) (by omega)]

theorem getLE_zero (o k : Nat) : getLE (fun _ => 0) o k = 0 := by
  induction k generalizing o with
  | zero => rfl
  | succ k ih =>
    rw [getLE, ih]
    rfl

/-- An integer determines its bytes. -/
theorem getLE_inj (h : getLE m o k = getLE m' o k) (hlo : o ≤ x) (hhi : x < o + k) : m x = m' x := by
  induction k generalizing o with
  | zero => omega
  | succ k ih =>
    simp only [getLE] at h
    have h1 := (m o).toNat_lt
    have h2 := (m' o).toNat_lt
    rcases lt_or_eq_of_le hlo with hlt | rfl
    · exact ih (show getLE m (o + 1) k = getLE m' (o + 1) k by omega) hlt (by omega)
    · exact UInt8.toNat_inj.1 (by omega)

theorem putLE_apply_of_not (h : x < o ∨ o + k ≤ x) :
    putLE m o k v x = m x := by
  simp only [putLE]
  rw [if_neg (by omega)]

/-- A field reads back what was stored in it. -/
theorem getLE_putLE_self (m : Bytes) (o k v : Nat) : getLE (putLE m o k v) o k = v % 256 ^ k := by
  -- the first byte is `v % 256`, and the rest is the field of `v / 256` one further on
  induction k generalizing m o v with
  | zero => simp [getLE, Nat.mod_one]
  | succ k ih =>
    have hrest : getLE (putLE m o (k + 1) v) (o + 1) k = getLE (putLE m (o + 1) k (v / 256)) (o + 1) k := by
      refine getLE_congr fun x h1 h2 => ?_
      simp only [putLE]
      rw [if_pos (by omega), if_pos (by omega), show x - o = x - (o + 1) + 1 by omega, Nat.pow_succ,
        mul_comm, ← Nat.div_div_eq_div_mul]
    have hfirst : (putLE m o (k + 1) v o).toNat = v % 256 := by
      simp [putLE]
    simp only [getLE]
    rw [hrest, ih, hfirst, Nat.pow_succ, mul_comm (256 ^ k), Nat.mod_mul]

theorem getLE_putLE_sep {o' k' : Nat} (h : o' + k' ≤ o ∨ o + k ≤ o') :
    getLE (putLE m o k v) o' k' = getLE m o' k' :=
  getLE_congr fun _ _ _ => putLE_apply_of_not (by omega)

end Xv6
