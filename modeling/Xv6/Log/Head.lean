import Mathlib.Data.List.Range
import Mathlib.Logic.Function.Basic
import Xv6.Log.Model

/-!
# The log header, and the writes of an operation

A header that has been stored in a block is read back (`headBlocks_putHead`),
and the effect of a list of writes on the blocks (`applyWrites`).
-/

namespace Xv6.Log

open List

theorem getLE_putBlocks_before (bs : List Nat) {d : Bytes} {o o' : Nat} (h : o' + 4 ≤ o) :
    getLE (putBlocks d o bs) o' 4 = getLE d o' 4 := by
  induction bs generalizing d o with
  | nil => rfl
  | cons b bs ih => rw [putBlocks, ih (by omega), getLE_putLE_sep (.inl h)]

theorem getLE_putBlocks {bs : List Nat} {d : Bytes} {o i b : Nat} (hi : bs[i]? = some b) (hb : b < 2 ^ 32) :
    getLE (putBlocks d o bs) (o + 4 * i) 4 = b := by
  induction bs generalizing d o i with
  | nil => simp at hi
  | cons c bs ih =>
    rw [putBlocks]
    cases i with
    | zero =>
      obtain rfl : c = b := by simpa using hi
      rw [show o + 4 * 0 = o from rfl, getLE_putBlocks_before bs (le_rfl), getLE_putLE_self]
      exact Nat.mod_eq_of_lt (by omega)
    | succ i => rw [show o + 4 * (i + 1) = o + 4 + 4 * i by omega, ih (by simpa using hi)]

/-- A header is read back as it was stored. -/
theorem headBlocks_putHead {lh : List Nat} (d : Bytes) (hlen : lh.length < 2 ^ 31) (hlt : ∀ b ∈ lh, b < 2 ^ 32) :
    headBlocks (putHead d lh) = lh := by
  have hn : getLE (putHead d lh) 0 4 = lh.length := by
    rw [putHead, getLE_putBlocks_before lh (by omega), getLE_putLE_self]
    exact Nat.mod_eq_of_lt (by omega)
  rw [headBlocks, hn, if_pos hlen]
  refine ext_getElem? fun i => ?_
  rw [getElem?_map]
  rcases lt_or_ge i lh.length with hi | hi
  · obtain ⟨b, hb⟩ : ∃ b, lh[i]? = some b := ⟨_, getElem?_eq_getElem hi⟩
    rw [getElem?_range hi, Option.map_some, putHead,
      getLE_putBlocks hb (hlt b (mem_of_getElem? hb)), hb]
  · rw [getElem?_eq_none (by simpa using hi), getElem?_eq_none hi]; rfl

/-- The blocks `v` after the writes `ws`. -/
def applyWrites (v : Nat → Bytes) (ws : List Write) : Nat → Bytes :=
  ws.foldl (fun v w => Function.update v w.blockno w.data) v

theorem applyWrites_append (v : Nat → Bytes) (ws ws' : List Write) :
    applyWrites v (ws ++ ws') = applyWrites (applyWrites v ws) ws' := by
  rw [applyWrites, foldl_append]; rfl

theorem applyWrites_concat (v : Nat → Bytes) (ws : List Write) (w : Write) :
    applyWrites v (ws ++ [w]) = Function.update (applyWrites v ws) w.blockno w.data := applyWrites_append v ws [w]

end Xv6.Log
