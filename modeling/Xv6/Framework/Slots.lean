import Mathlib.Data.List.Nodup
import Mathlib.Logic.Function.Basic

/-!
# Slots

A finite map kept in a list of slots, each of them free or with a key and a
value. As long as the keys are different (`Distinct`), filling a free slot or a
new one at the end changes the map at one key (`lookup_fill`, `lookup_append`),
and so does making a slot free (`lookup_clear`).
-/

namespace Xv6

open Function List

/-- A slot is free, or has a key and a value. -/
abbrev Slots (κ ν : Type) := List (Option (κ × ν))

namespace Slots

variable {κ ν : Type}

def keys (l : Slots κ ν) : List κ := l.filterMap (Option.map Prod.fst)

/-- The slots in use have different keys. -/
def Distinct (l : Slots κ ν) : Prop := l.keys.Nodup

/-- The first free slot, or the number of slots if there is none. -/
def free (l : Slots κ ν) : Nat := l.findIdx Option.isNone

/-- The slots with `e` in slot `i`, which is new if `i` is the number of slots. -/
def put (l : Slots κ ν) (i : Nat) (e : Option (κ × ν)) : Slots κ ν :=
  if i < l.length then l.set i e else l ++ [e]

@[simp] theorem keys_nil : keys ([] : Slots κ ν) = [] := rfl

@[simp] theorem keys_cons_none (l : Slots κ ν) : keys (none :: l) = keys l := rfl

@[simp] theorem keys_cons_some (p : κ × ν) (l : Slots κ ν) : keys (some p :: l) = p.1 :: keys l := rfl

@[simp] theorem keys_append (l l' : Slots κ ν) : keys (l ++ l') = keys l ++ keys l' := by
  simp [keys]

theorem put_middle (a b : Slots κ ν) (e e' : Option (κ × ν)) : put (a ++ e :: b) a.length e' = a ++ e' :: b := by
  simp [put]

theorem put_length (l : Slots κ ν) (e : Option (κ × ν)) : put l l.length e = l ++ [e] := by
  simp [put]

variable {l a b : Slots κ ν} {i : Nat} {k : κ} {v : ν}

theorem getElem?_put (hi : i ≤ l.length) (e : Option (κ × ν)) (j : Nat) :
    (put l i e)[j]? = if j = i then some e else l[j]? := by
  rw [put]
  by_cases hj : j = i
  · subst hj
    split
    · simp [*]
    · rw [show j = l.length by omega]
      simp
  · rw [if_neg hj]
    split
    · exact getElem?_set_ne (Ne.symm hj)
    · rcases Nat.lt_or_ge j l.length with h | h
      · exact getElem?_append_left h
      · rw [getElem?_append_right h, getElem?_eq_none h, getElem?_eq_none]
        rw [length_singleton]
        omega

/-- Either there is a free slot, or `free` is the number of slots. -/
theorem free_cases (l : Slots κ ν) :
    (∃ a b, l = a ++ none :: b ∧ none ∉ a ∧ free l = a.length) ∨ (none ∉ l ∧ free l = l.length) := by
  induction l with
  | nil => exact .inr ⟨by simp, rfl⟩
  | cons e l ih =>
    cases e with
    | none => exact .inl ⟨[], l, rfl, by simp, by simp [free, findIdx_cons]⟩
    | some p =>
      have hfree : free (some p :: l) = free l + 1 := by simp [free, findIdx_cons]
      rcases ih with ⟨a, b, rfl, hmem, h⟩ | ⟨hmem, h⟩
      · exact .inl ⟨some p :: a, b, rfl, by simpa using hmem, by rw [hfree, h]; rfl⟩
      · exact .inr ⟨by simpa using hmem, by rw [hfree, h]; rfl⟩

/-! ## The map -/

variable [DecidableEq κ]

/-- The first slot with the key `k`: its value and its number, counted from `i`. -/
def find (k : κ) : Slots κ ν → Nat → Option (ν × Nat)
  | [], _ => none
  | none :: l, i => find k l (i + 1)
  | some p :: l, i => if p.1 = k then some (p.2, i) else find k l (i + 1)

/-- The value for the key `k`. -/
def lookup (l : Slots κ ν) (k : κ) : Option ν := (find k l 0).map Prod.fst

theorem find_eq_none : find k l i = none ↔ k ∉ keys l := by
  induction l generalizing i with
  | nil => simp [find]
  | cons e l ih =>
    cases e with
    | none => simpa [find] using ih
    | some p =>
      by_cases hp : p.1 = k
      · simp [find, hp]
      · simpa [find, hp, Ne.symm hp] using ih

theorem find_append_of_notMem (ha : k ∉ keys a) (l : Slots κ ν) (i : Nat) :
    find k (a ++ l) i = find k l (i + a.length) := by
  induction a generalizing i with
  | nil => rfl
  | cons e a ih =>
    have hi : i + (a.length + 1) = i + 1 + a.length := by omega
    cases e with
    | none =>
      rw [length_cons, hi]
      exact ih ha (i + 1)
    | some p =>
      rw [keys_cons_some, mem_cons, not_or] at ha
      rw [length_cons, hi]
      show (if p.1 = k then some (p.2, i) else find k (a ++ l) (i + 1)) = _
      rw [if_neg (Ne.symm ha.1)]
      exact ih ha.2 (i + 1)

/-- What `find` finds is the first slot with the key. -/
theorem find_eq_some {j : Nat} (h : find k l i = some (v, j)) :
    ∃ a b, l = a ++ some (k, v) :: b ∧ k ∉ keys a ∧ j = i + a.length := by
  induction l generalizing i with
  | nil => cases h
  | cons e l ih =>
    cases e with
    | none =>
      obtain ⟨a, b, rfl, ha, rfl⟩ := ih h
      exact ⟨none :: a, b, rfl, ha, by simp only [length_cons]; omega⟩
    | some p =>
      by_cases hp : p.1 = k
      · simp only [find, if_pos hp, Option.some.injEq, Prod.mk.injEq] at h
        refine ⟨[], l, ?_, by simp, by simp [h.2]⟩
        rw [← hp, ← h.1]
        rfl
      · rw [find, if_neg hp] at h
        obtain ⟨a, b, rfl, ha, rfl⟩ := ih h
        exact ⟨some p :: a, b, rfl, by simpa [Ne.symm hp] using ha, by simp only [length_cons]; omega⟩

theorem find_eq_some_of_middle (ha : k ∉ keys a) (v : ν) (b : Slots κ ν) (i : Nat) :
    find k (a ++ some (k, v) :: b) i = some (v, i + a.length) := by
  rw [find_append_of_notMem ha]
  simp [find]

theorem lookup_eq_none : lookup l k = none ↔ k ∉ keys l := by
  rw [lookup, Option.map_eq_none_iff, find_eq_none]

/-- The slots after one with the key do not count. -/
theorem lookup_append_of_mem (ha : k ∈ keys a) (l : Slots κ ν) : lookup (a ++ l) k = lookup a k := by
  have hsome : find k a 0 ≠ none := fun h => find_eq_none.1 h ha
  obtain ⟨⟨v, j⟩, hf⟩ := Option.ne_none_iff_exists'.1 hsome
  obtain ⟨a1, a2, rfl, ha1, -⟩ := find_eq_some hf
  simp only [lookup, append_assoc, cons_append, find_eq_some_of_middle ha1]

/-- Where the slots differ in one that has not the key, the value is the same. -/
theorem lookup_middle (a b : Slots κ ν) {e e' : Option (κ × ν)} (he : k ∉ keys [e]) (he' : k ∉ keys [e']) :
    lookup (a ++ e :: b) k = lookup (a ++ e' :: b) k := by
  have hskip : ∀ {e : Option (κ × ν)}, k ∉ keys [e] → ∀ i, find k (e :: b) i = find k b (i + 1) :=
    fun {e} h i => find_append_of_notMem (a := [e]) h b i
  by_cases ha : k ∈ keys a
  · rw [lookup_append_of_mem ha, lookup_append_of_mem ha]
  · simp only [lookup, find_append_of_notMem ha, hskip he, hskip he']

theorem lookup_fill (h : lookup (a ++ none :: b) k = none) (v : ν) :
    lookup (a ++ some (k, v) :: b) = update (lookup (a ++ none :: b)) k (some v) := by
  funext k'
  rcases eq_or_ne k' k with rfl | hk
  · rw [lookup_eq_none, keys_append, mem_append, not_or] at h
    rw [update_self, lookup, find_eq_some_of_middle h.1]
    rfl
  · rw [update_of_ne hk]
    exact lookup_middle a b (by simpa using hk) (by simp)

theorem lookup_append (h : lookup l k = none) (v : ν) :
    lookup (l ++ [some (k, v)]) = update (lookup l) k (some v) := by
  -- a free slot at the end does not count
  have hnone : lookup (l ++ [none]) = lookup l := by
    funext k'
    by_cases hk : k' ∈ keys l
    · exact lookup_append_of_mem hk [none]
    · rw [lookup_eq_none.2 hk, lookup_eq_none.2 (by simpa using hk)]
  rw [← hnone] at h ⊢
  exact lookup_fill h v

theorem lookup_clear (h : Distinct (a ++ some (k, v) :: b)) :
    lookup (a ++ none :: b) = update (lookup (a ++ some (k, v) :: b)) k none := by
  funext k'
  rcases eq_or_ne k' k with rfl | hk
  · rw [update_self, lookup_eq_none]
    rw [Distinct, keys_append, keys_cons_some, nodup_middle, nodup_cons] at h
    simpa using h.1
  · rw [update_of_ne hk]
    exact lookup_middle a b (by simp) (by simpa using hk)

/-! ## Different keys -/

theorem Distinct.fill (h : Distinct (a ++ none :: b)) (hk : lookup (a ++ none :: b) k = none)
    (v : ν) : Distinct (a ++ some (k, v) :: b) := by
  rw [lookup_eq_none] at hk
  rw [Distinct, keys_append, keys_cons_some, nodup_middle, nodup_cons]
  exact ⟨by simpa using hk, by simpa [Distinct] using h⟩

theorem Distinct.append (h : Distinct l) (hk : lookup l k = none) (v : ν) :
    Distinct (l ++ [some (k, v)]) := by
  rw [lookup_eq_none] at hk
  rw [Distinct, keys_append, keys_cons_some, nodup_middle, nodup_cons]
  exact ⟨by simpa using hk, by simpa [Distinct] using h⟩

omit [DecidableEq κ] in
theorem Distinct.clear {p : κ × ν} (h : Distinct (a ++ some p :: b)) : Distinct (a ++ none :: b) := by
  rw [Distinct, keys_append, keys_cons_some, nodup_middle, nodup_cons] at h
  simpa [Distinct] using h.2

end Slots

end Xv6
