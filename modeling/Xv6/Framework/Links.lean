import Mathlib.Data.List.Basic
import Mathlib.Data.List.Nodup
import Mathlib.Logic.Function.Basic
import Mathlib.Tactic.Simps.Basic

/-!
# Doubly linked rings

A ring of nodes linked through a head by `next` and `prev` pointers; the head
is `none`, and the other nodes are `some x`. `Ring k l` says that the pointers
`k` link exactly the nodes of `l`, in this order. Inserting a node after the
head and removing a node by pointer assignments keep a ring a ring
(`Ring.insert`, `Ring.remove`), and a walk along the pointers visits the list
in order (`Ring.next_eq`, `Ring.prev_eq`).
-/

namespace Xv6

open Function List

/-- The pointers of the nodes and of the head. -/
structure Links (α : Type) where
  next : Option α → Option α
  prev : Option α → Option α

namespace Links

variable {α : Type} {k k' : Links α} {a : Option α} {x : α} {l p q : List α}

/-- A head that is linked to itself. -/
def empty : Links α := ⟨fun _ => none, fun _ => none⟩

section

variable [DecidableEq α]

@[simps -fullyApplied]
def setNext (k : Links α) (a b : Option α) : Links α := { k with next := update k.next a b }

@[simps -fullyApplied]
def setPrev (k : Links α) (a b : Option α) : Links α := { k with prev := update k.prev a b }

/-- Link `x` after the head: `x->next = head.next; x->prev = &head;
head.next->prev = x; head.next = x`. -/
def insert (k : Links α) (x : α) : Links α :=
  let k := k.setNext (some x) (k.next none)
  let k := k.setPrev (some x) none
  let k := k.setPrev (k.next none) (some x)
  k.setNext none (some x)

/-- Unlink `x`: `x->next->prev = x->prev; x->prev->next = x->next`. -/
def remove (k : Links α) (x : α) : Links α :=
  let k := k.setPrev (k.next (some x)) (k.prev (some x))
  k.setNext (k.prev (some x)) (k.next (some x))

end

/-- The first `n` nodes after `a`, along `next`. -/
def walk (k : Links α) : Nat → Option α → List α
  | 0, _ => []
  | _ + 1, none => []
  | n + 1, some x => x :: k.walk n (k.next (some x))

/-- From `a` on, the links go through `l` and back to the head. -/
def Chain (k : Links α) : Option α → List α → Prop
  | a, [] => k.next a = none ∧ k.prev none = a
  | a, x :: l => k.next a = some x ∧ k.prev (some x) = a ∧ Chain k (some x) l

/-- The links form a ring through the head and the nodes of `l`. -/
structure Ring (k : Links α) (l : List α) : Prop where
  chain : Chain k none l
  nodup : l.Nodup

theorem Chain.congr (h : Chain k a l) (hn : ∀ y, y = a ∨ (∃ z ∈ l, y = some z) → k'.next y = k.next y)
    (hp : ∀ y, y = none ∨ (∃ z ∈ l, y = some z) → k'.prev y = k.prev y) : Chain k' a l := by
  induction l generalizing a with
  | nil =>
    obtain ⟨h1, h2⟩ := h
    exact ⟨(hn a (.inl rfl)).trans h1, (hp none (.inl rfl)).trans h2⟩
  | cons x l ih =>
    obtain ⟨h1, h2, h3⟩ := h
    refine ⟨(hn a (.inl rfl)).trans h1, (hp _ (.inr ⟨x, by simp, rfl⟩)).trans h2, ih h3 (fun y hy => ?_) fun y hy => ?_⟩
    · refine hn y (.inr ?_)
      rcases hy with rfl | ⟨z, hz, rfl⟩
      · exact ⟨x, by simp, rfl⟩
      · exact ⟨z, by simp [hz], rfl⟩
    · refine hp y (hy.imp_right ?_)
      rintro ⟨z, hz, rfl⟩
      exact ⟨z, by simp [hz], rfl⟩

theorem Chain.head (h : Chain k a l) : k.next a = l.head? := by
  cases l with
  | nil => exact h.1
  | cons x l => exact h.1

theorem Chain.next_eq (h : Chain k a (p ++ x :: q)) : k.next (some x) = q.head? := by
  induction p generalizing a with
  | nil => exact h.2.2.head
  | cons y p ih => exact ih h.2.2

theorem Chain.prev_eq (h : Chain k a (p ++ x :: q)) : k.prev (some x) = p.getLast?.or a := by
  induction p generalizing a with
  | nil => exact h.2.1
  | cons y p ih =>
    rw [ih h.2.2, getLast?_cons]
    cases p.getLast? <;> rfl

theorem Chain.last (h : Chain k a l) : k.prev none = l.getLast?.or a := by
  induction l generalizing a with
  | nil => exact h.2
  | cons y p ih =>
    rw [ih h.2.2, getLast?_cons]
    cases p.getLast? <;> rfl

namespace Ring

theorem empty : Ring (Links.empty : Links α) [] := ⟨⟨rfl, rfl⟩, nodup_nil⟩

theorem head (h : Ring k l) : k.next none = l.head? := h.chain.head

theorem last (h : Ring k l) : k.prev none = l.getLast? := by rw [h.chain.last, Option.or_none]

theorem next_eq (h : Ring k (p ++ x :: q)) : k.next (some x) = q.head? := h.chain.next_eq

theorem prev_eq (h : Ring k (p ++ x :: q)) : k.prev (some x) = p.getLast? := by rw [h.chain.prev_eq, Option.or_none]

variable [DecidableEq α]

theorem insert (h : Ring k l) (hx : x ∉ l) : Ring (k.insert x) (x :: l) := by
  have hhead := h.head
  refine ⟨⟨?_, ?_, ?_⟩, nodup_cons.2 ⟨hx, h.nodup⟩⟩
  · simp [Links.insert]
  · have hne : some x ≠ l.head? := fun e => hx (mem_of_head? e.symm)
    simp [Links.insert, hhead, update_of_ne hne]
  · cases l with
    | nil => simp [Links.insert, Chain, hhead]
    | cons y l =>
      obtain ⟨hxy, hxl⟩ : x ≠ y ∧ x ∉ l := by simpa using hx
      obtain ⟨hyl, -⟩ := nodup_cons.1 h.nodup
      refine ⟨by simp [Links.insert, hhead], by simp [Links.insert, hhead], h.chain.2.2.congr (fun z hz => ?_) fun z hz => ?_⟩
      · have hne : z ≠ none ∧ z ≠ some x := by
          rcases hz with rfl | ⟨w, hw, rfl⟩
          · simpa using hxy.symm
          · simpa using fun e : w = x => hxl (e ▸ hw)
        simp [Links.insert, update_of_ne hne.1, update_of_ne hne.2]
      · have hne : z ≠ some y ∧ z ≠ some x := by
          rcases hz with rfl | ⟨w, hw, rfl⟩
          · simp
          · exact ⟨by simpa using fun e : w = y => hyl (e ▸ hw), by simpa using fun e : w = x => hxl (e ▸ hw)⟩
        simp [Links.insert, hhead, update_of_ne hne.1, update_of_ne hne.2]

end Ring

/-- The node before `x` and the node behind it are linked to each other. -/
theorem Chain.skip [DecidableEq α] (h : Chain k a (p ++ x :: q)) (hnd : (p ++ x :: q).Nodup)
    (ha : ∀ z ∈ p ++ x :: q, a ≠ some z) (hn : k'.next = update k.next (p.getLast?.or a) q.head?)
    (hp : k'.prev = update k.prev q.head? (p.getLast?.or a)) : Chain k' a (p ++ q) := by
  induction p generalizing a with
  | nil =>
    cases q with
    | nil => exact ⟨by simp [hn], by simp [hp]⟩
    | cons y q =>
      refine ⟨by simp [hn], by simp [hp], h.2.2.2.2.congr (fun z hz => ?_) fun z hz => ?_⟩
      · have hza : z ≠ a := by
          rcases hz with rfl | ⟨w, hw, rfl⟩
          · exact (ha y (by simp)).symm
          · exact (ha w (by simp [hw])).symm
        rw [hn]
        exact update_of_ne hza _ _
      · have hzy : z ≠ some y := by
          have hnd' : y ∉ q := (nodup_cons.1 (nodup_cons.1 hnd).2).1
          rcases hz with rfl | ⟨w, hw, rfl⟩
          · simp
          · simpa using fun e : w = y => hnd' (e ▸ hw)
        rw [hp]
        exact update_of_ne hzy _ _
  | cons y p ih =>
    obtain ⟨h1, h2, h3⟩ := h
    obtain ⟨hy, hnd⟩ := nodup_cons.1 hnd
    have hlast : (y :: p).getLast?.or a = p.getLast?.or (some y) := by
      rw [getLast?_cons]
      cases p.getLast? <;> rfl
    rw [hlast] at hn hp
    refine ⟨?_, ?_, ih h3 hnd (fun z hz e => hy (by cases e; exact hz)) hn hp⟩
    · have hne : a ≠ p.getLast?.or (some y) := by
        cases he : p.getLast? with
        | none => exact ha y (by simp)
        | some z =>
          have hz : z ∈ p := mem_of_getLast? he
          exact ha z (by simp [hz])
      rw [hn, update_of_ne hne, h1]
    · have hne : some y ≠ q.head? := fun e => hy (by simp [mem_of_head? e.symm])
      rw [hp, update_of_ne hne, h2]

theorem Ring.remove [DecidableEq α] (h : Ring k (p ++ x :: q)) : Ring (k.remove x) (p ++ q) := by
  have hnext := h.next_eq
  have hprev := h.prev_eq
  have hne : some x ≠ q.head? := fun e =>
    (nodup_cons.1 (nodup_append.1 h.nodup).2.1).1 (mem_of_head? e.symm)
  refine ⟨h.chain.skip h.nodup (fun _ _ => nofun) ?_ ?_, h.nodup.sublist ?_⟩
  · simp [Links.remove, hnext, hprev, update_of_ne hne]
  · simp [Links.remove, hnext, hprev]
  · exact (List.Sublist.refl p).append (sublist_cons_self x q)

/-- A node taken out of the ring and linked in again after the head. -/
theorem Ring.toFront [DecidableEq α] (h : Ring k l) (hx : x ∈ l) : Ring ((k.remove x).insert x) (x :: l.erase x) := by
  obtain ⟨p, q, rfl, hxp⟩ := eq_append_cons_of_mem hx
  have hxq : x ∉ q := (nodup_cons.1 (nodup_append.1 h.nodup).2.1).1
  have herase : (p ++ x :: q).erase x = p ++ q := by
    rw [erase_append_right _ hxp, erase_cons_head]
  rw [herase]
  exact h.remove.insert (by simp [hxp, hxq])

theorem Chain.walk_eq (h : Chain k a l) {n : Nat} (hn : l.length ≤ n) : k.walk n (k.next a) = l := by
  induction l generalizing a n with
  | nil => rw [h.1]; cases n <;> rfl
  | cons x l ih =>
    obtain ⟨n, rfl⟩ : ∃ m, n = m + 1 := ⟨n - 1, by simp at hn; omega⟩
    rw [h.1, walk, ih h.2.2 (by simpa using hn)]

theorem Ring.walk_eq (h : Ring k l) {n : Nat} (hn : l.length ≤ n) : k.walk n (k.next none) = l := h.chain.walk_eq hn

end Links

end Xv6
