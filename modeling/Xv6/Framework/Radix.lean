import Mathlib.Data.List.FinRange
import Mathlib.Data.List.Perm.Basic
import Mathlib.Logic.Function.Basic

/-!
# Radix trees in a heap

A radix tree of fixed height: each node has `n` entries, and an entry of an
upper node may point to a node one level down (`child`). A path gives the index
at each level; `lookup` follows it to an entry of a node at level 0, where only
valid entries count.

If the nodes of a tree are distinct, then
* a store into the entry that a path ends at changes what that path finds, and
  nothing else (`store_lookup`);
* a change within a subtree is one of the tree (`Extends.below`), and linking a
  fresh empty node adds it to the nodes and changes nothing that any path finds
  (`Extends.link`).
-/

namespace Xv6.Radix

open List
open Option (map_some bind_none)

variable {N E : Type} {n : Nat}

/-- The nodes' entries. -/
abbrev Heap (N E : Type) (n : Nat) := N → Fin n → E

section

variable (child : E → Option N) (h : Heap N E n)

/-- The nodes of the tree of height `L` under `p`. -/
def nodes : Nat → N → List N
  | 0, p => [p]
  | L + 1, p => p :: (finRange n).flatMap fun i => (child (h p i)).elim [] (nodes L)

/-- The nodes under an entry of a node at level `L + 1`. -/
def below (L : Nat) (e : E) : List N := (child e).elim [] (nodes child h L)

/-- The node at level 0 that a path leads to. -/
def leaf (path : Nat → Fin n) : Nat → N → Option N
  | 0, p => some p
  | L + 1, p => (child (h p (path (L + 1)))).bind (leaf path L)

/-- The valid entry that a path leads to. -/
def lookup (valid : E → Bool) (path : Nat → Fin n) (L : Nat) (p : N) : Option E :=
  ((leaf child h path L p).map fun q => h q (path 0)).filter valid

end

variable {child : E → Option N} {valid : E → Bool} {h h₁ h' : Heap N E n} {L : Nat} {p q c : N} {i j : Fin n}
  {new : List N} {path path' : Nat → Fin n} {e : E}

theorem below_some (he : child e = some q) : below child h L e = nodes child h L q := by
  rw [below, he, Option.elim_some]

theorem below_none (he : child e = none) : below child h L e = [] := by
  rw [below, he, Option.elim_none]

theorem lookup_succ : lookup child h valid path (L + 1) p =
    (child (h p (path (L + 1)))).bind (lookup child h valid path L) := by
  unfold lookup
  rw [leaf]
  cases child (h p (path (L + 1))) <;> rfl

theorem self_mem_nodes : p ∈ nodes child h L p := by
  cases L <;> simp [nodes]

theorem nodes_split (i : Fin n) : (nodes child h (L + 1) p).Perm
    (below child h L (h p i) ++ p :: ((finRange n).erase i).flatMap fun j => below child h L (h p j)) := by
  have hp : (finRange n).Perm (i :: (finRange n).erase i) := perm_cons_erase (mem_finRange i)
  exact ((hp.flatMap_right _).cons p).trans perm_middle.symm

theorem mem_nodes_of_below (hq : q ∈ below child h L (h p i)) : q ∈ nodes child h (L + 1) p :=
  (nodes_split i).mem_iff.2 (mem_append_left _ hq)

theorem not_mem_of_below (hd : (nodes child h (L + 1) p).Nodup) (hq : q ∈ below child h L (h p i)) :
    q ≠ p ∧ ∀ j, j ≠ i → q ∉ below child h L (h p j) := by
  have hn := (nodup_append.1 ((nodes_split i).nodup_iff.1 hd)).2.2 q hq
  refine ⟨hn p mem_cons_self, fun j hj hq' => hn q (mem_cons_of_mem _ ?_) rfl⟩
  exact mem_flatMap.2 ⟨j, ((nodup_finRange n).mem_erase_iff).2 ⟨hj, mem_finRange j⟩, hq'⟩

theorem nodup_of_child (hd : (nodes child h (L + 1) p).Nodup) (hc : child (h p i) = some q) :
    (nodes child h L q).Nodup := by
  have hn := (nodup_append.1 ((nodes_split i).nodup_iff.1 hd)).1
  rwa [below_some hc] at hn

theorem leaf_mem_nodes (hq : leaf child h path L p = some q) : q ∈ nodes child h L p := by
  induction L generalizing p with
  | zero =>
    obtain rfl : p = q := Option.some.inj hq
    exact self_mem_nodes
  | succ L ih =>
    rw [leaf] at hq
    obtain ⟨c, hc, hq⟩ := Option.bind_eq_some_iff.1 hq
    exact mem_nodes_of_below (i := path (L + 1)) (by rw [below_some hc]; exact ih hq)

/-- The node that a path ends at is under one entry of the root only. -/
theorem leaf_below (hd : (nodes child h (L + 1) p).Nodup) (hq : leaf child h path (L + 1) p = some q) :
    ∃ c, child (h p (path (L + 1))) = some c ∧ leaf child h path L c = some q ∧ q ≠ p ∧
      ∀ j, j ≠ path (L + 1) → q ∉ below child h L (h p j) := by
  rw [leaf] at hq
  obtain ⟨c, hc, hq⟩ := Option.bind_eq_some_iff.1 hq
  exact ⟨c, hc, hq, not_mem_of_below hd (by rw [below_some hc]; exact leaf_mem_nodes hq)⟩

/-! ## Frames -/

section Congr

variable (hh : ∀ q ∈ nodes child h L p, h' q = h q)

include hh

theorem nodes_congr : nodes child h' L p = nodes child h L p := by
  induction L generalizing p with
  | zero => rfl
  | succ L ih =>
    rw [nodes, nodes]
    refine congrArg (p :: ·) (flatMap_congr fun i _ => ?_)
    rw [hh p self_mem_nodes]
    cases hc : child (h p i) with
    | none => rfl
    | some q => exact ih fun r hr => hh r (mem_nodes_of_below (i := i) (by rwa [below_some hc]))

theorem leaf_congr : leaf child h' path L p = leaf child h path L p := by
  induction L generalizing p with
  | zero => rfl
  | succ L ih =>
    rw [leaf, leaf, hh p self_mem_nodes]
    cases hc : child (h p (path (L + 1))) with
    | none => rfl
    | some q => exact ih fun r hr => hh r (mem_nodes_of_below (i := path (L + 1)) (by rwa [below_some hc]))

theorem lookup_congr :
    lookup child h' valid path L p = lookup child h valid path L p := by
  unfold lookup
  rw [leaf_congr hh]
  cases hq : leaf child h path L p with
  | none => rfl
  | some q => rw [map_some, map_some, hh q (leaf_mem_nodes hq)]

end Congr

theorem below_congr (hh : ∀ q ∈ below child h L e, h' q = h q) : below child h' L e = below child h L e := by
  cases hc : child e with
  | none => rw [below_none hc, below_none hc]
  | some q =>
    rw [below_some hc] at hh
    rw [below_some hc, below_some hc, nodes_congr hh]

/-! ## Empty nodes -/

theorem nodes_empty (hempty : ∀ j, child (h p j) = none) : nodes child h L p = [p] := by
  cases L with
  | zero => rfl
  | succ L => simp [nodes, hempty]

theorem lookup_empty (hempty : ∀ j, child (h p j) = none) (hv : ∀ j, valid (h p j) = false) :
    lookup child h valid path L p = none := by
  cases L with
  | zero => simp [lookup, leaf, hv]
  | succ L => rw [lookup_succ, hempty, bind_none]

/-! ## A change under one entry -/

section Change

variable (hp : ∀ j, j ≠ i → h' p j = h p j) (hrest : ∀ j, j ≠ i → ∀ q ∈ below child h L (h p j), h' q = h q)

include hp hrest

theorem nodes_change (hi : (below child h' L (h' p i)).Perm (new ++ below child h L (h p i))) :
    (nodes child h' (L + 1) p).Perm (new ++ nodes child h (L + 1) p) := by
  have hflat : (((finRange n).erase i).flatMap fun j => below child h' L (h' p j)) =
      ((finRange n).erase i).flatMap fun j => below child h L (h p j) := by
    refine flatMap_congr fun j hj => ?_
    have hne : j ≠ i := (((nodup_finRange n).mem_erase_iff).1 hj).1
    rw [hp j hne, below_congr (hrest j hne)]
  have h1 : (nodes child h' (L + 1) p).Perm _ := nodes_split i
  rw [hflat] at h1
  calc nodes child h' (L + 1) p
    _ |>.Perm _ := h1
    _ |>.Perm _ := hi.append_right _
    _ |>.Perm _ := by rw [append_assoc]
    _ |>.Perm _ := (nodes_split i).symm.append_left new

theorem lookup_change (hi : path (L + 1) ≠ i) :
    lookup child h' valid path (L + 1) p = lookup child h valid path (L + 1) p := by
  rw [lookup_succ, lookup_succ, hp _ hi]
  cases hc : child (h p (path (L + 1))) with
  | none => rfl
  | some q => exact lookup_congr fun r hr => hrest _ hi r (by rwa [below_some hc])

end Change

/-! ## Stores at level 0 -/

/-- Two paths lead to the same entry of a tree of height `L`. -/
def SamePath (L : Nat) (path path' : Nat → Fin n) : Prop := ∀ k, k ≤ L → path' k = path k

instance : Decidable (SamePath L path path') := inferInstanceAs (Decidable (∀ k, k ≤ L → path' k = path k))

theorem samePath_succ : SamePath (L + 1) path path' ↔ path' (L + 1) = path (L + 1) ∧ SamePath L path path' := by
  constructor
  · exact fun hs => ⟨hs (L + 1) (le_rfl), fun k hk => hs k (Nat.le_succ_of_le hk)⟩
  · rintro ⟨hl, hs⟩ k hk
    rcases lt_or_ge k (L + 1) with hlt | hge
    · exact hs k (Nat.le_of_lt_succ hlt)
    · rwa [le_antisymm hk hge]

theorem lookup_samePath (hs : SamePath L path path') : lookup child h valid path' L p = lookup child h valid path L p := by
  induction L generalizing p with
  | zero => rw [lookup, lookup, leaf, leaf, map_some, map_some, hs 0 (Nat.le_refl 0)]
  | succ L ih =>
    obtain ⟨hl, hs⟩ := samePath_succ.1 hs
    rw [lookup_succ, lookup_succ, hl]
    exact Option.bind_congr fun q _ => ih hs

section Store

variable (hd : (nodes child h L p).Nodup) (hq : leaf child h path L p = some q) (hne : ∀ r, r ≠ q → h' r = h r)

include hd hq hne

theorem store_nodes : (nodes child h' L p).Perm (nodes child h L p) := by
  induction L generalizing p with
  | zero => exact .refl _
  | succ L ih =>
    obtain ⟨c, hc, hq, hqp, hrest⟩ := leaf_below hd hq
    have hhp : h' p = h p := hne p (Ne.symm hqp)
    show (nodes child h' (L + 1) p).Perm ([] ++ nodes child h (L + 1) p)
    refine nodes_change (i := path (L + 1)) (fun j _ => by rw [hhp])
      (fun j hji r hr => hne r fun e => hrest j hji (e ▸ hr)) ?_
    rw [hhp, below_some hc, below_some hc]
    exact ih (nodup_of_child hd hc) hq

/-- A store changes what its path finds, and nothing else. -/
theorem store_lookup (hj : ∀ j, j ≠ path 0 → h' q j = h q j) : lookup child h' valid path' L p =
    if SamePath L path path' then (some (h' q (path 0))).filter valid else lookup child h valid path' L p := by
  induction L generalizing p with
  | zero =>
    obtain rfl : p = q := Option.some.inj hq
    by_cases h0 : path' 0 = path 0
    · have hs : SamePath 0 path path' := fun k hk => by rw [Nat.le_zero.1 hk, h0]
      rw [if_pos hs, lookup, leaf, map_some, h0]
    · have hs : ¬ SamePath 0 path path' := fun hs => h0 (hs 0 (Nat.le_refl 0))
      rw [if_neg hs, lookup, lookup, leaf, leaf, map_some, map_some, hj _ h0]
  | succ L ih =>
    obtain ⟨c, hc, hq, hqp, hrest⟩ := leaf_below hd hq
    have hhp : h' p = h p := hne p (Ne.symm hqp)
    by_cases hl : path' (L + 1) = path (L + 1)
    · simp only [samePath_succ, hl, true_and]
      rw [lookup_succ, lookup_succ, hhp, hl, hc]
      exact ih (nodup_of_child hd hc) hq
    · rw [if_neg fun hs => hl (samePath_succ.1 hs).1]
      exact lookup_change (fun j _ => by rw [hhp]) (fun j hji r hr => hne r fun e => hrest j hji (e ▸ hr)) hl

end Store

/-! ## Growth -/

variable (child valid) in
/-- The nodes `new` have been added to a tree, and every path finds what it
found before. -/
structure Extends (h h' : Heap N E n) (L : Nat) (p : N) (new : List N) : Prop where
  nodes : (nodes child h' L p).Perm (new ++ nodes child h L p)
  lookup : ∀ path, lookup child h' valid path L p = lookup child h valid path L p
  frame : ∀ q, q ∉ new → q ∉ Radix.nodes child h L p → h' q = h q

namespace Extends

theorem refl : Extends child valid h h L p [] := ⟨.refl _, fun _ => rfl, fun _ _ _ => rfl⟩

/-- A subtree that grows is a tree that grows. -/
theorem below (hd : (Radix.nodes child h (L + 1) p).Nodup) (hnew : ∀ r ∈ new, r ∉ Radix.nodes child h (L + 1) p)
    (hc : child (h p i) = some q) (he : Extends child valid h h' L q new) : Extends child valid h h' (L + 1) p new := by
  have hsub : ∀ r, r ∈ Radix.nodes child h L q → r ≠ p ∧ ∀ j, j ≠ i → r ∉ Radix.below child h L (h p j) := fun r hr =>
    not_mem_of_below hd (by rwa [below_some hc])
  have hhp : h' p = h p := he.frame p (fun hm => hnew p hm self_mem_nodes) fun hm => (hsub p hm).1 rfl
  have hrest : ∀ j, j ≠ i → ∀ r ∈ Radix.below child h L (h p j), h' r = h r := fun j hji r hr =>
    he.frame r (fun hm => hnew r hm (mem_nodes_of_below hr)) fun hm => (hsub r hm).2 j hji hr
  refine ⟨nodes_change (fun j _ => by rw [hhp]) hrest ?_, fun path => ?_, fun r hr hrp => he.frame r hr fun hm => ?_⟩
  · rw [hhp, below_some hc, below_some hc]
    exact he.nodes
  · by_cases hi : path (L + 1) = i
    · rw [lookup_succ, lookup_succ, hhp, hi, hc]
      exact he.lookup path
    · exact lookup_change (fun j _ => by rw [hhp]) hrest hi
  · exact hrp (mem_nodes_of_below (i := i) (by rwa [below_some hc]))

/-- A tree grows by a fresh node `c`, under an entry that pointed to none, and
by what then grows under it. In `h₁` the fresh node is linked, and empty. -/
theorem link (hd : (Radix.nodes child h (L + 1) p).Nodup) (hpc : c ∉ Radix.nodes child h (L + 1) p)
    (hnew : ∀ r ∈ new, r ∉ Radix.nodes child h (L + 1) p) (hc : child (h p i) = none) (hc1 : child (h₁ p i) = some c)
    (hp1 : ∀ j, j ≠ i → h₁ p j = h p j) (h1ne : ∀ r, r ≠ p → r ≠ c → h₁ r = h r)
    (hempty : ∀ j, child (h₁ c j) = none ∧ valid (h₁ c j) = false)
    (he : Extends child valid h₁ h' L c new) : Extends child valid h h' (L + 1) p (new ++ [c]) := by
  have hnodes : Radix.nodes child h₁ L c = [c] := nodes_empty fun j => (hempty j).1
  have hlook : ∀ path, Radix.lookup child h₁ valid path L c = none := fun path =>
    lookup_empty (fun j => (hempty j).1) fun j => (hempty j).2
  have hcp : p ≠ c := fun e => hpc (e ▸ self_mem_nodes)
  have hframe : ∀ r, r ∉ new → r ≠ c → h' r = h₁ r := fun r hr hrc => he.frame r hr (by rw [hnodes]; simpa using hrc)
  have hhp : h' p = h₁ p := hframe p (fun hm => hnew p hm self_mem_nodes) hcp
  have hp : ∀ j, j ≠ i → h' p j = h p j := fun j hji => by rw [hhp, hp1 j hji]
  have hrest : ∀ j, j ≠ i → ∀ r ∈ Radix.below child h L (h p j), h' r = h r := fun j _ r hr => by
    have hmem := mem_nodes_of_below hr
    have hrc : r ≠ c := fun e => hpc (e ▸ hmem)
    rw [hframe r (fun hm => hnew r hm hmem) hrc, h1ne r (not_mem_of_below hd hr).1 hrc]
  refine ⟨nodes_change hp hrest ?_, fun path => ?_, fun r hr hrp => ?_⟩
  · rw [hhp, below_some hc1, below_none hc, append_nil, ← hnodes]
    exact he.nodes
  · by_cases hi : path (L + 1) = i
    · rw [lookup_succ, lookup_succ, hhp, hi, hc1, hc, Option.bind_some, bind_none, he.lookup, hlook]
    · exact lookup_change hp hrest hi
  · rw [mem_append, mem_singleton, not_or] at hr
    rw [hframe r hr.1 hr.2, h1ne r (fun e => hrp (e ▸ self_mem_nodes)) hr.2]

end Extends

end Xv6.Radix
