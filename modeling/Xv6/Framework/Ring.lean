import Mathlib.Data.List.Basic
import Mathlib.Data.Nat.ModEq
import Mathlib.Logic.Function.Basic

/-!
# Ring buffers with free-running counters

A ring of `cap` cells with a read counter `r` and a write counter `e` that
only go up, modulo `2 ^ w`; cell `c % cap` belongs to the counter value `c`.
The ring holds the `e - r` elements between the counters (`contents`). Because
`cap` divides `2 ^ w`, a wrap of the counters is not seen: a store at `e` adds
an element at the end (`contents_push`) and an increment of `r` takes the first
one (`contents_pop`).
-/

namespace Xv6.Ring

open Function List BitVec

variable {α : Type} {w cap : Nat}

/-- The elements between the read counter and the write counter, oldest first. -/
def contents (cap : Nat) (data : Nat → α) (r e : BitVec w) : List α :=
  (range (e - r).toNat).map fun j => data ((r.toNat + j) % cap)

@[simp] theorem contents_self (data : Nat → α) (r : BitVec w) : contents cap data r r = [] := by
  simp [contents]

theorem length_contents (data : Nat → α) (r e : BitVec w) : (contents cap data r e).length = (e - r).toNat := by
  simp [contents]

/-- The write counter, counted from the read counter. -/
theorem toNat_modEq (hcap : cap ∣ 2 ^ w) (r e : BitVec w) : e.toNat ≡ r.toNat + (e - r).toNat [MOD cap] := by
  have h : e = r + (e - r) := by rw [BitVec.add_comm, BitVec.sub_add_cancel]
  refine Nat.ModEq.of_dvd hcap ?_
  conv => lhs; rw [h]
  rw [toNat_add]
  exact Nat.mod_modEq _ _

variable {r e m : BitVec w}

theorem toNat_sub_succ (h : (e - r).toNat + 1 < 2 ^ w) :
    (e + 1 - r).toNat = (e - r).toNat + 1 := by
  have hadd : e + 1 - r = e - r + 1 := by
    rw [BitVec.sub_eq_add_neg, BitVec.sub_eq_add_neg, BitVec.add_assoc, BitVec.add_comm 1, BitVec.add_assoc]
  have hone : (1 : BitVec w).toNat = 1 := Nat.mod_eq_of_lt (show 1 < 2 ^ w by omega)
  rw [hadd, toNat_add, hone, Nat.mod_eq_of_lt h]

theorem toNat_sub_pred (h : r ≠ e) : (e - r).toNat = (e - (r + 1)).toNat + 1 := by
  -- otherwise `e - (r + 1)` would be the last value, and `e - r` zero
  have hadd : e - r = e - (r + 1) + 1 := by
    rw [BitVec.sub_eq_add_neg, BitVec.sub_eq_add_neg, BitVec.neg_add, BitVec.sub_eq_add_neg, BitVec.add_assoc,
      BitVec.add_assoc, BitVec.add_left_neg, BitVec.add_zero]
  have hne : e - r ≠ 0 := fun h0 => h (BitVec.sub_eq_iff_eq_add.1 h0 |>.trans (BitVec.zero_add r)).symm
  have hne' : (e - r).toNat ≠ 0 := fun h0 => hne (eq_of_toNat_eq h0)
  have hlt := (e - (r + 1)).isLt
  rw [hadd, toNat_add] at hne' ⊢
  have hone : (1 : BitVec w).toNat = 1 % 2 ^ w := rfl
  rw [hone, Nat.add_mod_mod] at hne' ⊢
  rcases lt_or_ge ((e - (r + 1)).toNat + 1) (2 ^ w) with hw | hw
  · exact Nat.mod_eq_of_lt hw
  · rw [show (e - (r + 1)).toNat + 1 = 2 ^ w by omega, Nat.mod_self] at hne'
    omega

/-- The ring is full exactly if the counters are `cap` apart. -/
theorem eq_add_cap_iff (hw : cap < 2 ^ w) (r e : BitVec w) : e = r + BitVec.ofNat w cap ↔ (e - r).toNat = cap := by
  have hcap : (BitVec.ofNat w cap).toNat = cap := Nat.mod_eq_of_lt hw
  constructor
  · rintro rfl
    rw [BitVec.add_comm, BitVec.add_sub_cancel, hcap]
  · intro h
    rw [BitVec.add_comm, ← BitVec.sub_eq_iff_eq_add]
    exact eq_of_toNat_eq (h.trans hcap.symm)

section Contents

variable (hcap : cap ∣ 2 ^ w)

include hcap

/-- A store at the write counter of a ring that is not full. -/
theorem contents_push (hw : cap < 2 ^ w) (data : Nat → α) (h : (e - r).toNat < cap) (x : α) :
    contents cap (update data (e.toNat % cap) x) r (e + 1) = contents cap data r e ++ [x] := by
  have he := toNat_modEq hcap r e
  simp only [contents]
  rw [toNat_sub_succ (by omega), range_succ, map_append]
  congr 1
  · refine map_congr_left fun j hj => ?_
    -- the store is into the cell of `e`, and fewer than `cap` elements precede it
    have hj := mem_range.1 hj
    refine update_of_ne (fun heq => ?_) _ _
    have h2 : j ≡ (e - r).toNat [MOD cap] := Nat.ModEq.add_left_cancel' _ (Nat.ModEq.trans heq he)
    have := Nat.ModEq.eq_of_lt_of_lt h2 (by omega) h
    omega
  · have : (r.toNat + (e - r).toNat) % cap = e.toNat % cap := he.symm
    rw [map_singleton, this, update_self]

/-- The ring after the first element is taken. -/
theorem contents_pop (data : Nat → α) (h : r ≠ e) :
    contents cap data r e = data (r.toNat % cap) :: contents cap data (r + 1) e := by
  have hr : (r + 1).toNat ≡ r.toNat + 1 [MOD cap] := by
    have hone : (1 : BitVec w).toNat = 1 % 2 ^ w := rfl
    refine Nat.ModEq.of_dvd hcap ?_
    rw [toNat_add, hone, Nat.add_mod_mod]
    exact Nat.mod_modEq _ _
  simp only [contents]
  rw [toNat_sub_pred h, range_succ_eq_map, map_cons, map_map, add_zero]
  congr 1
  refine map_congr_left fun j _ => ?_
  have hj : (r.toNat + (j + 1)) % cap = ((r + 1).toNat + j) % cap := by
    rw [show r.toNat + (j + 1) = r.toNat + 1 + j by omega]
    exact (hr.add_right j).symm
  simp [hj]

/-- A counter between the two cuts the elements in two. -/
theorem contents_append (data : Nat → α) (h : (m - r).toNat + (e - m).toNat = (e - r).toNat) :
    contents cap data r e = contents cap data r m ++ contents cap data m e := by
  simp only [contents]
  rw [← h, range_add, map_append, map_map]
  congr 1
  refine map_congr_left fun j _ => ?_
  have hj : (r.toNat + ((m - r).toNat + j)) % cap = (m.toNat + j) % cap := by
    rw [← add_assoc]
    exact (toNat_modEq hcap r m).symm.add_right j
  exact congrArg data hj

/-- The last element. -/
theorem contents_last (hw : cap < 2 ^ w) (data : Nat → α) (hne : r ≠ e) (h : (e - r).toNat ≤ cap) :
    contents cap data r e = contents cap data r (e - 1) ++ [data ((e - 1).toNat % cap)] := by
  have hlt : (e - 1 - r).toNat < cap := by
    have hpred := toNat_sub_pred hne
    have hcomm : e - 1 - r = e - (r + 1) := by
      rw [BitVec.sub_eq_add_neg, BitVec.sub_eq_add_neg, BitVec.sub_eq_add_neg, BitVec.neg_add, BitVec.sub_eq_add_neg,
        BitVec.add_assoc,
        BitVec.add_comm (-1)]
    rw [hcomm]
    omega
  have hpush := contents_push hcap hw data hlt (data ((e - 1).toNat % cap))
  rw [update_eq_self, BitVec.sub_add_cancel] at hpush
  exact hpush

/-- A store at `e` is not seen by those who read up to `m`, if less than `cap` elements
are in the ring and `m` is among them. -/
theorem contents_update (data : Nat → α) (hm : (m - r).toNat ≤ (e - r).toNat) (h : (e - r).toNat < cap) (x : α) :
    contents cap (update data (e.toNat % cap) x) r m = contents cap data r m := by
  have he := toNat_modEq hcap r e
  refine map_congr_left fun j hj => update_of_ne (fun heq => ?_) _ _
  have hj := mem_range.1 hj
  have h2 : j ≡ (e - r).toNat [MOD cap] := Nat.ModEq.add_left_cancel' _ (Nat.ModEq.trans heq he)
  have := Nat.ModEq.eq_of_lt_of_lt h2 (by omega) h
  omega

end Contents

end Xv6.Ring
