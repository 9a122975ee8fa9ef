import Mathlib.Algebra.Order.BigOperators.Group.Finset
import Mathlib.Data.Fintype.BigOperators

/-!
# Counting the entries of a table

A reference count must be the number of entries of some tables that refer to
the object (`tally`), or a sum of such numbers (`total`). A change of one entry
changes the sum by what the old and the new entry contribute (`total_update`).
-/

namespace Xv6

open Function Finset

variable {ι α : Type} [Fintype ι] {i : ι} {x : α}

/-- The sum of the weights of the entries of the table `f`. -/
@[irreducible] def total (f : ι → α) (w : α → Nat) : Nat := ∑ i, w (f i)

/-- How many entries of the table `f` satisfy `q`. -/
def tally (f : ι → α) (q : α → Bool) : Nat := total f fun a => (q a).toNat

variable {f f' : ι → α} {w w' : α → Nat} {q q' : α → Bool}

theorem total_congr {β : Type} {g : ι → β} {v : β → Nat} (h : ∀ i, v (g i) = w (f i)) : total g v = total f w := by
  simp only [total, h]

theorem tally_congr (h : ∀ i, q' (f' i) = q (f i)) : tally f' q' = tally f q :=
  total_congr fun i => by rw [h i]

theorem total_add (f : ι → α) (w w' : α → Nat) : total f (fun a => w a + w' a) = total f w + total f w' := by
  simp only [total, sum_add_distrib]

theorem total_single (h : ∀ j, j ≠ i → w (f j) = 0) : total f w = w (f i) := by
  unfold total
  exact sum_eq_single i (fun j _ hj => h j hj) fun hi => absurd (mem_univ i) hi

theorem exists_of_total_pos (h : 0 < total f w) : ∃ i, 0 < w (f i) := by
  by_contra hn
  have : total f w = 0 := by
    unfold total
    exact sum_eq_zero fun i _ => Nat.eq_zero_of_not_pos fun hw => hn ⟨i, hw⟩
  omega

theorem exists_of_tally_pos (h : 0 < tally f q) : ∃ i, q (f i) = true := by
  obtain ⟨i, hi⟩ := exists_of_total_pos h
  refine ⟨i, ?_⟩
  cases hq : q (f i) with
  | false => rw [hq] at hi; exact nomatch hi
  | true => rfl

theorem total_ge (f : ι → α) (w : α → Nat) (i : ι) : w (f i) ≤ total f w := by
  unfold total
  exact single_le_sum (f := fun i => w (f i)) (fun _ _ => Nat.zero_le _) (mem_univ i)

theorem tally_pos (h : q (f i) = true) : 0 < tally f q := by
  have := total_ge f (fun a => (q a).toNat) i
  rw [h] at this
  exact this

variable [DecidableEq ι]

theorem total_update (f : ι → α) (w : α → Nat) (i : ι) (x : α) :
    total (update f i x) w + w (f i) = total f w + w x := by
  simp only [total]
  have hrest : ∑ j ∈ Finset.univ.erase i, w (update f i x j) = ∑ j ∈ Finset.univ.erase i, w (f j) :=
    sum_congr rfl fun j hj => by rw [update_of_ne (ne_of_mem_erase hj)]
  rw [← add_sum_erase _ _ (mem_univ i), ← add_sum_erase _ _ (mem_univ i), hrest,
    update_self]
  omega

theorem tally_update (f : ι → α) (q : α → Bool) (i : ι) (x : α) :
    tally (update f i x) q + (q (f i)).toNat = tally f q + (q x).toNat :=
  total_update f (fun a => (q a).toNat) i x

theorem total_update_eq (h : w x = w (f i)) : total (update f i x) w = total f w := by
  have := total_update f w i x
  omega

theorem tally_update_eq (h : q x = q (f i)) : tally (update f i x) q = tally f q :=
  total_update_eq (w := fun a => (q a).toNat) (by rw [h])

end Xv6
