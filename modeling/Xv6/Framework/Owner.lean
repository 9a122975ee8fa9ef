import Mathlib.Data.Set.Insert
import Mathlib.Logic.Function.Basic

/-!
# Ownership

Resources of which each is free or has one owner. The places `ι` refer to
resources (`ref`), and some resources belong to no place (`fixed`). `Owned`: a
resource is in use exactly if it is one of these or some place refers to it, and
no two places refer to the same one. A place that refers to nothing may get a
free resource (`Owned.alloc`).
-/

namespace Xv6

open Function

variable {ι β : Type}

structure Owned (used fixed : Set β) (ref : ι → Option β) : Prop where
  used_iff : ∀ b, b ∈ used ↔ b ∈ fixed ∨ ∃ x, ref x = some b
  apart : ∀ {x b}, ref x = some b → b ∉ fixed
  inj : ∀ {x y b}, ref x = some b → ref y = some b → x = y

namespace Owned

variable {used fixed : Set β} {ref : ι → Option β} {x : ι} {b : β}

theorem mem_used (h : Owned used fixed ref) (hx : ref x = some b) : b ∈ used := (h.used_iff b).2 (.inr ⟨x, hx⟩)

theorem congr {used' : Set β} {ref' : ι → Option β} (h : Owned used fixed ref) (hu : ∀ b, b ∈ used' ↔ b ∈ used)
    (hr : ∀ x, ref' x = ref x) : Owned used' fixed ref' := by
  obtain rfl : used' = used := Set.ext hu
  obtain rfl : ref' = ref := funext hr
  exact h

variable [DecidableEq ι]

/-- A place gets a free resource. -/
theorem alloc (h : Owned used fixed ref) (hb : b ∉ used) (hx : ref x = none) :
    Owned (insert b used) fixed (update ref x (some b)) := by
  -- the other places refer to what they referred to, and not to `b`
  have hother : ∀ {y c}, y ≠ x → update ref x (some b) y = some c → ref y = some c := by
    intro y c hy hc
    rwa [update_of_ne hy] at hc
  have hnew : ∀ {y}, ref y ≠ some b := fun hy => hb (h.mem_used hy)
  refine ⟨fun c => ?_, fun {y c} hc => ?_, fun {y z c} hy hz => ?_⟩
  · rw [Set.mem_insert_iff, h.used_iff]
    constructor
    · rintro (rfl | hfix | ⟨y, hy⟩)
      · exact .inr ⟨x, update_self ..⟩
      · exact .inl hfix
      · have hne : y ≠ x := fun e => by rw [e, hx] at hy; cases hy
        exact .inr ⟨y, by rw [update_of_ne hne]; exact hy⟩
    · rintro (hfix | ⟨y, hy⟩)
      · exact .inr (.inl hfix)
      · by_cases hyx : y = x
        · rw [hyx, update_self] at hy
          exact .inl (Option.some_inj.1 hy).symm
        · exact .inr (.inr ⟨y, hother hyx hy⟩)
  · by_cases hyx : y = x
    · rw [hyx, update_self] at hc
      rw [← Option.some_inj.1 hc]
      exact fun hfix => hb ((h.used_iff b).2 (.inl hfix))
    · exact h.apart (hother hyx hc)
  · by_cases hyx : y = x
    · by_cases hzx : z = x
      · rw [hyx, hzx]
      · rw [hyx, update_self] at hy
        exact absurd (hother hzx hz) (Option.some_inj.1 hy ▸ hnew)
    · by_cases hzx : z = x
      · rw [hzx, update_self] at hz
        exact absurd (hother hyx hy) (Option.some_inj.1 hz ▸ hnew)
      · exact h.inj (hother hyx hy) (hother hzx hz)

end Owned

end Xv6
