import Mathlib.Order.WellFounded
import Xv6.Fs.Tx

/-!
# The directory tree

The shape of the directories, and how it changes with each transaction:

* `Shape`: entries refer to inodes that are allocated, a directory has at most
  one entry that refers to it, its `..` names the directory with that entry, and
  there are no cycles. `.` and `..` themselves do not count here.
* `Counted.…`: the number of links of an inode is at least the number of links
  that there are (`links`), so an inode that an entry refers to is not freed.
* `Exact`: the number of links is exactly that, and a directory that nothing
  refers to is empty. It needs that directories without links get no new entries.
* `Tidy`: every inode that is allocated has a link.

A transaction adds an entry or removes one (`Grown`, in either direction), or it
frees an inode.
-/

namespace Xv6.Fs

open Function List Node Relation

variable {N : Nat} {name : Name} {m : BitVec 16}

/-! ## Entries -/

/-- The entries in use of a directory, apart from the first two. -/
def Node.subs (x : Node) : List Dirent := if x.attrs.type = tDir then (x.ents.drop 2).filter (·.inum ≠ 0) else []

/-- The inode that `..` names. -/
def Node.parent (x : Node) : Nat := (x.ents[1]?.map Dirent.inum).getD 0

variable {x y : Node} {k : Nat} {a b : Dirent}

@[simp] theorem Node.subs_freed (x : Node) : x.freed.subs = [] := by simp [Node.subs]

@[simp] theorem Node.subs_relink (x : Node) (k : BitVec 16) : (x.relink k).subs = x.subs := rfl

theorem Node.subs_of_file (h : x.attrs.type ≠ tDir) : x.subs = [] := if_neg h

theorem Node.dir_of_mem_subs (h : a ∈ x.subs) : x.attrs.type = tDir := by
  by_contra hx
  rw [subs_of_file hx] at h
  cases h

theorem filter_set_perm {l : List Dirent} {m : Nat} (hm : l[m]? = some b) (ha : a.inum ≠ 0) (hb : b.inum = 0) :
    ((l.set m a).filter (·.inum ≠ 0)).Perm (a :: l.filter (·.inum ≠ 0)) := by
  obtain ⟨hlt, hget⟩ := List.getElem?_eq_some_iff.mp hm
  rw [set_eq_take_append_cons_drop, if_pos hlt]
  conv_rhs => rw [← take_append_drop m l, drop_eq_getElem_cons hlt, hget]
  simp [ha, hb]

/-- A new entry, in a free place. -/
theorem Node.subs_put (hd : x.attrs.type = tDir) (hk : Free x k) (hk2 : 2 ≤ k) (ha : a.inum ≠ 0) :
    (x.put k a).subs.Perm (a :: x.subs) := by
  rw [Node.subs, Node.subs, put_type, if_pos hd, if_pos hd]
  obtain ⟨hle, hfree⟩ := hk
  by_cases hlt : k < x.ents.length
  · have hents : (x.put k a).ents = x.ents.set k a := if_pos hlt
    rw [hents, drop_set, if_neg (by omega)]
    refine filter_set_perm (b := x.ents[k]) ?_ ha (hfree hlt)
    rw [getElem?_drop, show 2 + (k - 2) = k by omega, getElem?_eq_getElem hlt]
  · have hents : (x.put k a).ents = x.ents ++ [a] := if_neg hlt
    rw [hents, drop_append_of_le_length (by omega), filter_append]
    simp [ha]

/-- An entry is cleared. -/
theorem Node.subs_clear (hd : x.attrs.type = tDir) (hk : x.ents[k]? = some a) (hk2 : 2 ≤ k) (ha : a.inum ≠ 0)
    (hb : b.inum = 0) :
    x.subs.Perm (a :: (x.put k b).subs) := by
  obtain ⟨hlt, hget⟩ := List.getElem?_eq_some_iff.mp hk
  have hents : (x.put k b).ents = x.ents.set k b := if_pos hlt
  rw [Node.subs, Node.subs, put_type, if_pos hd, if_pos hd, hents, drop_set, if_neg (by omega)]
  have hget' : ((x.ents.drop 2).set (k - 2) b)[k - 2]? = some b := by
    rw [getElem?_set_self (by rw [length_drop]; omega)]
  have hset : ((x.ents.drop 2).set (k - 2) b).set (k - 2) a = x.ents.drop 2 := by
    have hdrop : (x.ents.drop 2)[k - 2]? = some a := by rw [List.getElem?_drop, show 2 + (k - 2) = k by omega, hk]
    obtain ⟨hlt', hget'⟩ := List.getElem?_eq_some_iff.mp hdrop
    rw [set_set, ← hget']
    exact set_getElem_self hlt'
  have := filter_set_perm hget' ha hb
  rwa [hset] at this

theorem Node.parent_put (hk : 2 ≤ k) (hlen : 2 ≤ x.ents.length) : (x.put k a).parent = x.parent := by
  unfold Node.parent Node.put
  split
  · rw [getElem?_set_ne (by omega)]
  · rw [getElem?_append_left (by omega)]

/-! ## Counting links -/

/-- How many entries refer to the inode, other than `.` and `..`. -/
def refs (n : Table N) (i : Fin N) : Nat := total (fun j => (n j).subs) (List.countP (·.inum = i.val))

/-- The directory `j` has an entry that refers to it, and its `..` names `i`. -/
def isKid (n : Table N) (i j : Fin N) : Bool := (n j).attrs.type = tDir && 0 < refs n j && (n j).parent = i.val

/-- How many directories' `..` name the inode. -/
def kids (n : Table N) (i : Fin N) : Nat := tally (isKid n i) id

/-- `..` of the root names the root. -/
def rootLink (i : Fin N) : Nat := if i.val = rootino then 1 else 0

/-- The links to an inode. -/
def links (n : Table N) (i : Fin N) : Nat := refs n i + kids n i + rootLink i

variable {n n' : Table N} {d i j c : Fin N}

theorem refs_pos (h : a ∈ (n d).subs) (ha : a.inum = i.val) : 0 < refs n i := by
  have h₁ := total_ge (fun j => (n j).subs) (List.countP (·.inum = i.val)) d
  have h2 : 0 < (n d).subs.countP (·.inum = i.val) := countP_pos_iff.mpr ⟨a, h, decide_eq_true ha⟩
  exact lt_of_lt_of_le h2 h₁

theorem exists_of_refs_pos (h : 0 < refs n i) : ∃ d, ∃ a ∈ (n d).subs, a.inum = i.val := by
  obtain ⟨d, hd⟩ := exists_of_total_pos h
  obtain ⟨a, ha, hai⟩ := countP_pos_iff.mp hd
  exact ⟨d, a, ha, of_decide_eq_true hai⟩

theorem isKid_iff : isKid n i j = true ↔ (n j).attrs.type = tDir ∧ 0 < refs n j ∧ (n j).parent = i.val := by
  simp [isKid, and_assoc]

theorem refs_change (h : ∀ j, j ≠ d → (n' j).subs = (n j).subs) (i : Fin N) :
    refs n' i + (n d).subs.countP (·.inum = i.val) = refs n i + (n' d).subs.countP (·.inum = i.val) := by
  have heq : (fun j => (n' j).subs) = update (fun j => (n j).subs) d (n' d).subs := eq_update_iff.2 ⟨rfl, h⟩
  unfold refs
  rw [heq]
  exact total_update (fun j => (n j).subs) _ d (n' d).subs

/-! ## One entry more -/

/-- The table `n'` differs from `n` in an entry that `d` has for `i`, and in what
`i` is. -/
structure Grown (n n' : Table N) (d i : Fin N) (a : Dirent) : Prop where
  inum : a.inum = i.val
  perm : (n' d).subs.Perm (a :: (n d).subs)
  subs : ∀ j, j ≠ d → (n' j).subs = (n j).subs
  type : ∀ j, j ≠ i → (n' j).attrs.type = (n j).attrs.type
  parent : ∀ j, j ≠ i → (n j).attrs.type = tDir → (n' j).parent = (n j).parent
  /-- If `i` is a directory then this is the only entry for it. -/
  first : (n i).attrs.type = tDir ∨ (n' i).attrs.type = tDir → refs n i = 0
  up : (n' i).attrs.type = tDir → (n' i).parent = d.val

namespace Grown

theorem refs_eq (h : Grown n n' d i a) (j : Fin N) : refs n' j = refs n j + if j = i then 1 else 0 := by
  have h₁ := refs_change h.subs j
  have h2 := h.perm.countP_eq (fun e => e.inum = j.val)
  rw [countP_cons, h.inum] at h2
  have h3 : (if decide (i.val = j.val) = true then 1 else 0) = if j = i then 1 else 0 := by
    by_cases hj : j = i
    · simp [hj]
    · rw [if_neg hj, if_neg]
      simpa [Fin.ext_iff, eq_comm] using hj
  omega

theorem kids_eq (h : Grown n n' d i a) (j : Fin N) :
    kids n' j = kids n j + if j = d ∧ (n' i).attrs.type = tDir then 1 else 0 := by
  have hother : ∀ c, c ≠ i → isKid n' j c = isKid n j c := fun c hc => by
    refine Bool.eq_iff_iff.mpr ?_
    rw [isKid_iff, isKid_iff, h.type c hc, h.refs_eq, if_neg hc]
    exact and_congr_right fun hd => by rw [h.parent c hc hd]; rfl
  have hold : isKid n j i = false := by
    rw [Bool.eq_false_iff, ne_eq, isKid_iff]
    rintro ⟨hd, hr, -⟩
    have := h.first (.inl hd)
    omega
  have hnew : isKid n' j i = decide (j = d ∧ (n' i).attrs.type = tDir) := by
    refine Bool.eq_iff_iff.mpr ?_
    rw [isKid_iff, decide_eq_true_iff, h.refs_eq, if_pos rfl]
    constructor
    · rintro ⟨hd, -, hp⟩
      exact ⟨Fin.ext (hp.symm.trans (h.up hd)), hd⟩
    · rintro ⟨rfl, hd⟩
      exact ⟨hd, Nat.succ_pos _, h.up hd⟩
  have heq : isKid n' j = update (isKid n j) i (isKid n' j i) := eq_update_iff.2 ⟨rfl, hother⟩
  have := tally_update (isKid n j) id i (isKid n' j i)
  rw [← heq, id, id, hold, hnew, Bool.toNat, Bool.toNat, Bool.cond_decide] at this
  exact this

theorem links_eq (h : Grown n n' d i a) (j : Fin N) :
    links n' j = links n j + (if j = i then 1 else 0) + if j = d ∧ (n' i).attrs.type = tDir then 1 else 0 := by
  unfold links
  rw [h.refs_eq, h.kids_eq]
  omega

end Grown

/-! ## The shape -/

/-- The directory `d` has an entry for `i`. -/
def Sub (n : Table N) (d i : Fin N) : Prop := ∃ a ∈ (n d).subs, a.inum = i.val

structure Shape (n : Table N) : Prop where
  root : ∀ r : Fin N, r.val = rootino → (n r).attrs.type = tDir ∧ refs n r = 0 ∧ (n r).parent = rootino
  alloc : ∀ i, 0 < refs n i → (n i).attrs.type ≠ 0
  uniq : ∀ i, (n i).attrs.type = tDir → refs n i ≤ 1
  up : ∀ d i, Sub n d i → (n i).attrs.type = tDir → (n i).parent = d.val
  acyclic : ∀ i, ¬ TransGen (Sub n) i i

namespace Shape

/-- A directory that is in use by its `..` has an entry for that. -/
theorem sub_of_isKid (h : Shape n) (hk : isKid n i j = true) : Sub n i j := by
  obtain ⟨hd, hr, hp⟩ := isKid_iff.mp hk
  obtain ⟨d, a, ha, hai⟩ := exists_of_refs_pos hr
  obtain rfl : d = i := Fin.ext ((h.up d j ⟨a, ha, hai⟩ hd).symm.trans hp)
  exact ⟨a, ha, hai⟩

theorem isKid_of_sub (h : Shape n) (hs : Sub n d i) (hd : (n i).attrs.type = tDir) : isKid n d i = true := by
  obtain ⟨a, ha, hai⟩ := hs
  exact isKid_iff.mpr ⟨hd, refs_pos ha hai, h.up d i ⟨a, ha, hai⟩ hd⟩

theorem kids_of_subs_nil (h : Shape n) (hs : (n i).subs = []) : kids n i = 0 := by
  by_contra hk
  obtain ⟨j, hj⟩ := exists_of_tally_pos (Nat.pos_of_ne_zero hk)
  obtain ⟨a, ha, -⟩ := h.sub_of_isKid hj
  rw [hs] at ha
  cases ha

/-- An inode with no links: nothing refers to it, and it has no directories. -/
theorem not_isKid (hk : kids n i = 0) (j : Fin N) : isKid n i j = false := by
  rw [Bool.eq_false_iff]
  intro hj
  have : 0 < kids n i := tally_pos (i := j) hj
  omega

/-- A new entry for `i`, which has no entries itself. -/
theorem grow (h : Shape n) (hg : Grown n n' d i a) (halloc : (n' i).attrs.type ≠ 0) (hleaf : (n' i).subs = [])
    (hroot : i.val ≠ rootino) : Shape n' := by
  have hsub : ∀ {x y}, Sub n' x y → Sub n x y ∨ x = d ∧ y = i := by
    rintro x y ⟨b, hb, hby⟩
    by_cases hx : x = d
    · subst hx
      rcases mem_cons.mp (hg.perm.mem_iff.mp hb) with rfl | hb
      · exact .inr ⟨rfl, Fin.ext (hby.symm.trans hg.inum)⟩
      · exact .inl ⟨b, hb, hby⟩
    · rw [hg.subs x hx] at hb
      exact .inl ⟨b, hb, hby⟩
  have hout : ∀ y, ¬ Sub n' i y := by
    rintro y ⟨b, hb, -⟩
    rw [hleaf] at hb
    cases hb
  refine ⟨fun r hr => ?_, fun j hj => ?_, fun j hj => ?_, fun x y hxy hy => ?_, fun j hj => ?_⟩
  · have hri : r ≠ i := by rintro rfl; exact hroot hr
    obtain ⟨hd, h0, hp⟩ := h.root r hr
    rw [hg.type r hri, hg.refs_eq, if_neg hri, hg.parent r hri hd]
    exact ⟨hd, h0, hp⟩
  · by_cases hji : j = i
    · rw [hji]; exact halloc
    · rw [hg.refs_eq, if_neg hji] at hj
      rw [hg.type j hji]
      exact h.alloc j hj
  · by_cases hji : j = i
    · subst hji
      rw [hg.refs_eq, hg.first (.inr hj), if_pos rfl]
    · rw [hg.type j hji] at hj
      rw [hg.refs_eq, if_neg hji]
      exact h.uniq j hj
  · rcases hsub hxy with hxy | ⟨rfl, rfl⟩
    · have hyi : y ≠ i := by
        rintro rfl
        obtain ⟨b, hb, hby⟩ := hxy
        have := refs_pos hb hby
        have := hg.first (.inr hy)
        omega
      rw [hg.type y hyi] at hy
      rw [hg.parent y hyi hy]
      exact h.up x y hxy hy
    · exact hg.up hy
  · -- a path can end at `i`, but it cannot go on from there
    have hpath : ∀ {x y}, TransGen (Sub n') x y → TransGen (Sub n) x y ∨ y = i := by
      intro x y hxy
      induction hxy with
      | single hs =>
        rcases hsub hs with hs | ⟨-, hy⟩
        · exact .inl (.single hs)
        · exact .inr hy
      | tail _ hs ih =>
        rcases ih with ih | rfl
        · rcases hsub hs with hs | ⟨-, hy⟩
          · exact .inl (ih.tail hs)
          · exact .inr hy
        · exact absurd hs (hout _)
    rcases hpath hj with hj' | rfl
    · exact h.acyclic j hj'
    · obtain ⟨y, hs, -⟩ := TransGen.head'_iff.mp hj
      exact hout y hs

/-- Entries are removed, or inodes that nothing refers to are freed. -/
theorem shrink (h : Shape n) (hsub : ∀ j a, a ∈ (n' j).subs → a ∈ (n j).subs) (hrefs : ∀ j, refs n' j ≤ refs n j)
    (htype : ∀ j, (n' j).attrs.type = (n j).attrs.type ∨ (n' j).attrs.type = 0 ∧ refs n j = 0 ∧ j.val ≠ rootino)
    (hparent : ∀ j, (n' j).attrs.type = tDir → (n' j).parent = (n j).parent) : Shape n' := by
  have hdir : ∀ j, (n' j).attrs.type = tDir → (n j).attrs.type = tDir := fun j hj => by
    rcases htype j with ht | ⟨ht, -⟩
    · rw [← ht, hj]
    · rw [ht] at hj; cases hj
  have hsub' : ∀ x y, Sub n' x y → Sub n x y := fun x y ⟨a, ha, hay⟩ => ⟨a, hsub x a ha, hay⟩
  refine ⟨fun r hr => ?_, fun j hj => ?_, fun j hj => ?_, fun x y hxy hy => ?_, fun j hj => ?_⟩
  · obtain ⟨hd, h0, hp⟩ := h.root r hr
    have hd' : (n' r).attrs.type = tDir := by
      rcases htype r with ht | ⟨-, -, hne⟩
      · rw [ht, hd]
      · exact absurd hr hne
    exact ⟨hd', Nat.eq_zero_of_le_zero (h0 ▸ hrefs r), (hparent r hd').trans hp⟩
  · rcases htype j with ht | ⟨-, h0, -⟩
    · rw [ht]
      exact h.alloc j (lt_of_lt_of_le hj (hrefs j))
    · have := hrefs j
      omega
  · exact (hrefs j).trans (h.uniq j (hdir j hj))
  · rw [hparent y hy]
    exact h.up x y (hsub' x y hxy) (hdir y hy)
  · exact h.acyclic j (TransGen.mono hsub' _ _ hj)

/-- The entry is removed again. -/
theorem ungrow (h : Shape n) (hg : Grown n' n d i a) (htype : ∀ j, (n' j).attrs.type = (n j).attrs.type)
    (hparent : (n' i).parent = (n i).parent) : Shape n' := by
  refine h.shrink (fun j b hb => ?_) (fun j => ?_) (fun j => .inl (htype j)) fun j hj => ?_
  · by_cases hj : j = d
    · subst hj
      exact hg.perm.mem_iff.mpr (mem_cons_of_mem _ hb)
    · rw [hg.subs j hj]
      exact hb
  · rw [hg.refs_eq]
    exact le_self_add
  · by_cases hji : j = i
    · rw [hji, hparent]
    · exact (hg.parent j hji hj).symm

end Shape

/-! ## Freeing an inode -/

section Free

variable (h : Shape n) (hr : refs n i = 0) (hk : kids n i = 0)

theorem refs_free (j : Fin N) :
    refs (update n i (n i).freed) j + (n i).subs.countP (·.inum = j.val) = refs n j := by
  have hother : ∀ j, j ≠ i → (update n i (n i).freed j).subs = (n j).subs := fun j hj => by
    rw [update_of_ne hj]
  have := refs_change hother j
  rw [update_self, subs_freed] at this
  exact this

include h hk in
/-- The directories in `i`, of which there are none, would be counted. -/
theorem refs_free_dir (hj : (n j).attrs.type = tDir) : refs (update n i (n i).freed) j = refs n j := by
  have h₁ := refs_free (n := n) (i := i) j
  have h2 : (n i).subs.countP (·.inum = j.val) = 0 := by
    by_contra hpos
    obtain ⟨a, ha, haj⟩ := countP_pos_iff.mp (Nat.pos_of_ne_zero hpos)
    have := h.isKid_of_sub ⟨a, ha, of_decide_eq_true haj⟩ hj
    rw [Shape.not_isKid hk] at this
    cases this
  omega

include h hr hk in
theorem kids_free (c : Fin N) : kids (update n i (n i).freed) c = kids n c := by
  refine tally_congr fun j => ?_
  refine Bool.eq_iff_iff.mpr ?_
  rw [id, id, isKid_iff, isKid_iff]
  by_cases hj : j = i
  · subst hj
    rw [update_self, hr]
    constructor
    · rintro ⟨hd, -⟩
      cases hd
    · rintro ⟨-, h0, -⟩
      exact absurd h0 (lt_irrefl 0)
  · rw [update_of_ne hj]
    exact and_congr_right fun hd => by rw [refs_free_dir h hk hd]

include h hr hk in
theorem links_free (j : Fin N) : links (update n i (n i).freed) j ≤ links n j := by
  have := refs_free (n := n) (i := i) j
  unfold links
  rw [kids_free h hr hk]
  omega

include h hr in
theorem Shape.free (hroot : i.val ≠ rootino) : Shape (update n i (n i).freed) := by
  refine h.shrink (fun j a ha => ?_) (fun j => ?_) (fun j => ?_) fun j hj => ?_
  · by_cases hj : j = i
    · subst hj
      rw [update_self, subs_freed] at ha
      cases ha
    · rwa [update_of_ne hj] at ha
  · have := refs_free (n := n) (i := i) j
    omega
  · by_cases hj : j = i
    · subst hj
      rw [update_self]
      exact .inr ⟨rfl, hr, hroot⟩
    · rw [update_of_ne hj]
      exact .inl rfl
  · by_cases hji : j = i
    · subst hji
      rw [update_self] at hj
      cases hj
    · rw [update_of_ne hji]

end Free

/-! ## Transactions -/

/-- What a transaction does before it frees an inode. The numbers of links change
as the links do. -/
structure Change (calm : Prop) (n n' : Table N) : Prop where
  shape : Shape n'
  count : ∀ j, (n' j).attrs.nlink.toNat = links n' j ∨
    (n' j).attrs.nlink.toNat + links n j = (n j).attrs.nlink.toNat + links n' j
  /-- A directory that nothing refers to had entries before, unless it gets one. -/
  bare : ∀ j, j.val ≠ rootino → refs n' j = 0 → (n' j).subs ≠ [] → refs n j = 0 ∧
    ((n j).subs ≠ [] ∨ (calm → (n j).attrs.nlink ≠ 0))

variable {calm : Prop} {e : Hist}

theorem toNat_add_one {k : BitVec 16} (h : k ≠ -1) : (k + 1).toNat = k.toNat + 1 := by
  have : k.toNat ≠ 65535 := fun hk => h (BitVec.eq_of_toNat_eq hk)
  have := k.isLt
  rw [BitVec.toNat_add]
  show (k.toNat + 1) % 2 ^ 16 = _
  omega

theorem toNat_sub_one {k : BitVec 16} (h : 0 < k.toNat) : (k - 1).toNat + 1 = k.toNat := by
  have := k.isLt
  rw [BitVec.toNat_sub]
  show (2 ^ 16 - 1 + k.toNat) % 2 ^ 16 + 1 = _
  omega

/-- A new entry for `i` in `d`, where `i` is a file that was there or a new inode. -/
theorem Grown.change (hg : Grown n n' d i a) (h : Shape n) (hne : d ≠ i) (halloc : (n' i).attrs.type ≠ 0)
    (hleaf : (n' i).subs = []) (hroot : i.val ≠ rootino) (hlive : calm → (n d).attrs.nlink ≠ 0)
    (hi : (n' i).attrs.nlink.toNat = (n i).attrs.nlink.toNat + 1 ∨ (n' i).attrs.nlink = 1 ∧ refs n i = 0 ∧ kids n i = 0)
    (hd : (n' d).attrs.nlink.toNat = (n d).attrs.nlink.toNat + if (n' i).attrs.type = tDir then 1 else 0)
    (hother : ∀ j, j ≠ d → j ≠ i → (n' j).attrs.nlink = (n j).attrs.nlink) : Change calm n n' := by
  refine ⟨h.grow hg halloc hleaf hroot, fun j => ?_, fun j hj h0 hs => ?_⟩
  · rw [hg.links_eq]
    by_cases hjd : j = d
    · subst hjd
      rw [if_neg hne, hd]
      simp only [true_and]
      omega
    · simp only [hjd, false_and, if_false]
      by_cases hji : j = i
      · subst hji
        rw [if_pos rfl]
        rcases hi with hi | ⟨hi, hr, hk⟩
        · omega
        · rw [hi]
          simp only [links, hr, hk, rootLink, if_neg hroot]
          exact .inl rfl
      · rw [if_neg hji, hother j hjd hji]
        omega
  · rw [hg.refs_eq] at h0
    refine ⟨by omega, ?_⟩
    by_cases hjd : j = d
    · rw [hjd]
      exact .inr hlive
    · rw [hg.subs j hjd] at hs
      exact .inl hs

/-- The directory `d` gets an entry for `i`, which has no entries itself. -/
theorem grown_of_put (hdir : (n d).attrs.type = tDir) (hfree : Free (n d) k) (hn : Dots n) (hpos : 0 < i.val)
    (hd : n' d = ((n d).relink m).put k ⟨i.val, name⟩) (hother : ∀ j, j ≠ d → j ≠ i → n' j = n j) (hs : (n i).subs = [])
    (hs' : (n' i).subs = []) (hfirst : (n i).attrs.type = tDir ∨ (n' i).attrs.type = tDir → refs n i = 0)
    (hup : (n' i).attrs.type = tDir → (n' i).parent = d.val) : Grown n n' d i ⟨i.val, name⟩ := by
  have hdots := hn d hdir
  have hk := hdots.two_le_of_free hfree
  refine ⟨rfl, ?_, fun j hj => ?_, fun j hj => ?_, fun j hj _ => ?_, hfirst, hup⟩
  · rw [hd]
    exact subs_put (x := (n d).relink m) hdir hfree hk hpos.ne'
  · by_cases hji : j = i
    · rw [hji, hs, hs']
    · rw [hother j hj hji]
  · by_cases hjd : j = d
    · rw [hjd, hd]; rfl
    · rw [hother j hjd hj]
  · by_cases hjd : j = d
    · rw [hjd, hd]
      exact parent_put (x := (n d).relink m) hk hdots.length
    · rw [hother j hjd hj]

/-- `unlink` removes an entry for `i`, which has no entries itself. -/
theorem grown_of_unlink {m' : BitVec 16} (hs : Shape n) (hn : Dots n) (hpos : 0 < i.val)
    (hdir : (n d).attrs.type = tDir) (hentry : (n d).ents[k]? = some ⟨i.val, name⟩) (hdot : name ≠ dot)
    (hdotdot : name ≠ dotdot)
    (hd : n' d = ((n d).put k ⟨0, []⟩).relink m) (hi : n' i = (n i).relink m') (hother : ∀ j, j ≠ d → j ≠ i → n' j = n j) :
    Grown n' n d i ⟨i.val, name⟩ := by
  have hdots := hn d hdir
  have hk := hdots.two_le_of_name hentry hdot hdotdot
  have hperm : (n d).subs.Perm (⟨i.val, name⟩ :: (n' d).subs) := by
    rw [hd]
    exact subs_clear hdir hentry hk hpos.ne' rfl
  have hsubs : ∀ j, j ≠ d → (n j).subs = (n' j).subs := fun j hj => by
    by_cases hji : j = i
    · rw [hji, hi]; rfl
    · rw [hother j hj hji]
  have htype : ∀ j, (n j).attrs.type = (n' j).attrs.type := fun j => by
    by_cases hjd : j = d
    · rw [hjd, hd]; rfl
    · by_cases hji : j = i
      · rw [hji, hi]; rfl
      · rw [hother j hjd hji]
  refine ⟨rfl, hperm, hsubs, fun j _ => htype j, fun j hj _ => ?_, fun hdi => ?_, fun hdi => ?_⟩
  · by_cases hjd : j = d
    · rw [hjd, hd]
      exact (parent_put (x := n d) hk hdots.length).symm
    · rw [hother j hjd hj]
  · have h₁ := refs_change hsubs i
    have h2 := hperm.countP_eq (fun e => e.inum = i.val)
    have h3 := hs.uniq i (by rcases hdi with hdi | hdi; exacts [(htype i).trans hdi, hdi])
    simp only [countP_cons, decide_true, if_true] at h2
    omega
  · exact hs.up d i ⟨_, hperm.mem_iff.mpr mem_cons_self, rfl⟩ hdi

/-- An inode that has no links is freed. -/
def FreeStep (n n' : Table N) : Prop :=
  ∃ i, (n i).attrs.type ≠ 0 ∧ (n i).attrs.nlink = 0 ∧ n' = update n i (n i).freed

theorem frees_of_settled (hne : d ≠ i) (hd : Settled (n d) (n' d)) (hi : Settled (n i) (n' i)) (htd : (n d).attrs.type ≠ 0)
    (hti : (n i).attrs.type ≠ 0) (hother : ∀ j, j ≠ d → j ≠ i → n' j = n j) : ReflTransGen FreeStep n n' := by
  have hone : ∀ {n : Table N} {j y}, Settled (n j) y → (n j).attrs.type ≠ 0 →
      ReflTransGen FreeStep n (update n j y) := by
    rintro n j y (rfl | ⟨h0, rfl⟩) ht
    · rw [update_eq_self]
    · exact .single ⟨j, ht, h0, rfl⟩
  have heq : n' = update (update n d (n' d)) i (n' i) := eq_update_iff.2 ⟨rfl, fun j hji => by
    by_cases hjd : j = d
    · rw [hjd, update_self]
    · rw [update_of_ne hjd, hother j hjd hji]⟩
  rw [heq]
  refine (hone hd htd).trans (hone ?_ ?_)
  · rw [update_of_ne (Ne.symm hne)]; exact hi
  · rw [update_of_ne (Ne.symm hne)]; exact hti

theorem Change.refl (h : Shape n) : Change calm n n :=
  ⟨h, fun _ => .inr rfl, fun _ _ h0 hs => ⟨h0, .inl hs⟩⟩

/-- A change that the shape does not see. -/
theorem Change.of_subs (h : Shape n) (hsubs : ∀ j, (n' j).subs = (n j).subs)
    (htype : ∀ j, (n' j).attrs.type = (n j).attrs.type)
    (hparent : ∀ j, (n j).attrs.type = tDir → (n' j).parent = (n j).parent)
    (hnlink : ∀ j, (n' j).attrs.nlink = (n j).attrs.nlink) : Change calm n n' := by
  have hrefs : ∀ j, refs n' j = refs n j := fun j => total_congr fun c => by rw [hsubs c]
  have hkids : ∀ j, kids n' j = kids n j := fun j => tally_congr fun c => by
    refine Bool.eq_iff_iff.mpr ?_
    rw [id, id, isKid_iff, isKid_iff, htype, hrefs]
    exact and_congr_right fun hd => by rw [hparent c hd]
  refine ⟨h.shrink (fun j a ha => hsubs j ▸ ha) (fun j => (hrefs j).le) (fun j => .inl (htype j))
    fun j hj => hparent j (htype j ▸ hj), fun j => .inr ?_, fun j _ h0 hs => ?_⟩
  · rw [hnlink, links, links, hrefs, hkids]
  · rw [hrefs] at h0
    rw [hsubs] at hs
    exact ⟨h0, .inl hs⟩

theorem toNat_pos {k : BitVec 16} (h : 1 ≤ k.toInt) : 0 < k.toNat := by
  rw [BitVec.toInt_eq_toNat_cond] at h
  split at h <;> omega

theorem exists_table (n : Table N) (hne : d ≠ i) (x y : Node) :
    ∃ n' : Table N, n' d = x ∧ n' i = y ∧ ∀ j, j ≠ d → j ≠ i → n' j = n j :=
  ⟨update (update n d x) i y, by rw [update_of_ne hne, update_self],
    update_self .., fun j hjd hji => by rw [update_of_ne hji, update_of_ne hjd]⟩

theorem Tx.change (h : Tx calm e n n') (hk : ∀ i, Counted e (n i).attrs.nlink → (n i).attrs.nlink ≠ -1) (hn : Dots n)
    (hs : Shape n) (hc : ∀ i, links n i ≤ (n i).attrs.nlink.toNat) :
    ∃ n1, Change calm n n1 ∧ ReflTransGen FreeStep n1 n' := by
  -- a free inode is in no directory, and in no directory's `..`
  have hfree : ∀ {i}, (n i).attrs.type = 0 → refs n i = 0 ∧ kids n i = 0 ∧ (n i).subs = [] ∧ i.val ≠ rootino :=
    fun {i} hi => by
    have hsub : (n i).subs = [] := subs_of_file (by rw [hi]; decide)
    refine ⟨?_, hs.kids_of_subs_nil hsub, hsub, fun hr => ?_⟩
    · by_contra hne
      exact hs.alloc i (Nat.pos_of_ne_zero hne) hi
    · rw [(hs.root i hr).1] at hi
      cases hi
  cases h with
  | resize i size ents alloc file eq =>
    refine ⟨n', .of_subs hs ?_ ?_ ?_ ?_, .refl⟩
    all_goals
      intro j
      rw [eq]
      by_cases hji : j = i
      · subst hji
        rw [update_self]
        first
          | rfl
          | exact fun hd => absurd hd file
          | rw [subs_of_file file, subs_of_file (by exact file)]
      · rw [update_of_ne hji]
        try exact fun _ => rfl
  | free i alloc nlink eq => exact ⟨n, .refl hs, .single ⟨i, alloc, nlink, eq⟩⟩
  | link d i k name place pos alloc file count dirEq inodeEq other =>
    have hne : d ≠ i := by rintro rfl; exact file place.dir
    have hroot : i.val ≠ rootino := fun hr => file (hs.root i hr).1
    obtain ⟨n1, hd, hi, hother⟩ := exists_table n hne ((n d).put k ⟨i.val, name⟩) ((n i).relink ((n i).attrs.nlink + 1))
    have hfile : (n1 i).attrs.type ≠ tDir := by rw [hi]; exact file
    have hgrown : Grown n n1 d i ⟨i.val, name⟩ :=
      grown_of_put place.dir place.free hn pos hd hother (subs_of_file file) (subs_of_file hfile)
        (fun h => absurd h (not_or_intro file hfile)) fun h => absurd h hfile
    refine ⟨n1, hgrown.change hs hne ?_ (subs_of_file hfile) hroot place.live (.inl ?_) ?_ fun j hjd hji => ?_, ?_⟩
    · rw [hi]; exact alloc
    · rw [hi]; exact toNat_add_one (hk _ count)
    · rw [if_neg hfile, hd]; rfl
    · rw [hother j hjd hji]
    · refine frees_of_settled hne (.inl (dirEq.trans hd.symm)) (hi ▸ inodeEq) ?_ ?_ fun j hjd hji => ?_
      · rw [hd, put_type, place.dir]; decide
      · rw [hi]; exact alloc
      · rw [other j hjd hji, hother j hjd hji]
  | create d i k name x place pos free alloc file nlink dirEq inodeEq other =>
    obtain ⟨hr0, hk0, hs0, hroot⟩ := hfree free
    have hne : d ≠ i := by rintro rfl; rw [place.dir] at free; cases free
    have hfile : (n' i).attrs.type ≠ tDir := by rw [inodeEq]; exact file
    have hgrown : Grown n n' d i ⟨i.val, name⟩ :=
      grown_of_put place.dir place.free hn pos dirEq other hs0 (subs_of_file hfile) (fun _ => hr0) fun h => absurd h hfile
    refine ⟨n', hgrown.change hs hne ?_ (subs_of_file hfile) hroot place.live (.inr ⟨?_, hr0, hk0⟩) ?_ fun j hjd hji =>
      ?_, .refl⟩
    · rw [inodeEq]; exact alloc
    · rw [inodeEq]; exact nlink
    · rw [if_neg hfile, dirEq]; rfl
    · rw [other j hjd hji]
  | mkdir d i k name x place pos free count dir nlink dirEq inodeEq other =>
    obtain ⟨hr0, hk0, hs0, hroot⟩ := hfree free
    have hne : d ≠ i := by rintro rfl; rw [place.dir] at free; cases free
    obtain ⟨n1, hd, hi, hother⟩ := exists_table n hne (((n d).relink ((n d).attrs.nlink + 1)).put k ⟨i.val, name⟩)
      ⟨x, [⟨i.val, dot⟩, ⟨d.val, dotdot⟩]⟩
    have hdir : (n1 i).attrs.type = tDir := by rw [hi]; exact dir
    have hleaf : (n1 i).subs = [] := by rw [hi, Node.subs, if_pos dir]; rfl
    have hgrown : Grown n n1 d i ⟨i.val, name⟩ :=
      grown_of_put place.dir place.free hn pos hd hother hs0 hleaf (fun _ => hr0) fun _ => by rw [hi]; rfl
    refine ⟨n1, hgrown.change hs hne ?_ hleaf hroot place.live (.inr ⟨?_, hr0, hk0⟩) ?_ fun j hjd hji => ?_, ?_⟩
    · rw [hdir]; decide
    · rw [hi]; exact nlink
    · rw [if_pos hdir, hd]; exact toNat_add_one (hk _ count)
    · rw [hother j hjd hji]
    · refine frees_of_settled hne (hd ▸ dirEq) (.inl (inodeEq.trans hi.symm)) ?_ ?_ fun j hjd hji => ?_
      · rw [hd, put_type, relink_type, place.dir]; decide
      · rw [hdir]; decide
      · rw [other j hjd hji, hother j hjd hji]
  | unlink d i k name ne dir pos entry notDot notDotdot alloc linked empty dirEq inodeEq kept other =>
    obtain ⟨n1, hd, hi, hother⟩ := exists_table n ne (((n d).put k ⟨0, []⟩).relink
      (if (n i).attrs.type = tDir then (n d).attrs.nlink - 1 else (n d).attrs.nlink)) ((n i).relink ((n i).attrs.nlink - 1))
    have hgrown : Grown n1 n d i ⟨i.val, name⟩ := grown_of_unlink hs hn pos dir entry notDot notDotdot hd hi hother
    have htype : ∀ j, (n1 j).attrs.type = (n j).attrs.type := fun j => by
      by_cases hjd : j = d
      · rw [hjd, hd]; rfl
      · by_cases hji : j = i
        · rw [hji, hi]; rfl
        · rw [hother j hjd hji]
    have hleaf : (n i).subs = [] := by
      by_cases hdi : (n i).attrs.type = tDir
      · rw [Node.subs, if_pos hdi, filter_eq_nil_iff]
        intro a ha
        simpa using empty hdi a ha
      · exact subs_of_file hdi
    refine ⟨n1, ⟨hs.ungrow hgrown htype (by rw [hi]; rfl), fun j => .inr ?_, fun j _ h0 hsub => ?_⟩, ?_⟩
    · have hl := hgrown.links_eq j
      have hcj := hc j
      by_cases hjd : j = d
      · subst hjd
        rw [if_neg ne] at hl
        simp only [true_and] at hl
        rw [hd, relink_nlink]
        split at hl
        · rw [if_pos ‹_›]
          have := toNat_sub_one (k := (n j).attrs.nlink) (by omega)
          omega
        · rw [if_neg ‹_›]
          omega
      · simp only [hjd, false_and, if_false] at hl
        by_cases hji : j = i
        · subst hji
          rw [if_pos rfl] at hl
          have := toNat_sub_one (toNat_pos linked)
          rw [hi, relink_nlink]
          omega
        · rw [if_neg hji] at hl
          rw [hother j hjd hji]
          omega
    · have hji : j ≠ i := by
        rintro rfl
        rw [hi, subs_relink] at hsub
        exact hsub hleaf
      refine ⟨by rw [hgrown.refs_eq, if_neg hji]; exact h0, .inl fun hnil => ?_⟩
      by_cases hjd : j = d
      · subst hjd
        have := hgrown.perm
        rw [hnil] at this
        exact cons_ne_nil _ _ (nil_perm.mp this)
      · rw [← hgrown.subs j hjd] at hsub
        exact hsub hnil
    · refine frees_of_settled ne (hd ▸ dirEq) (hi ▸ inodeEq) ?_ ?_ fun j hjd hji => ?_
      · rw [htype, dir]; decide
      · rw [htype]; exact alloc
      · rw [other j hjd hji, hother j hjd hji]

/-! ## The invariants -/

/-- The number of links of every inode is large enough. -/
structure Tree (n : Table N) : Prop extends Shape n where
  count : ∀ i, links n i ≤ (n i).attrs.nlink.toNat

/-- The number of links of every inode is right, and a directory that nothing
refers to is empty. -/
structure Exact (n : Table N) : Prop extends Shape n where
  count : ∀ i, links n i = (n i).attrs.nlink.toNat
  bare : ∀ d, d.val ≠ rootino → refs n d = 0 → (n d).subs = []

/-- No number of links is negative. -/
def Small (n : Table N) : Prop := ∀ i, (n i).attrs.nlink.toNat < 2 ^ 15

/-- Every inode that is allocated has a link. -/
def Tidy (n : Table N) : Prop := ∀ i, (n i).attrs.type ≠ 0 → (n i).attrs.nlink ≠ 0

theorem Exact.tree (h : Exact n) : Tree n := { h with count := fun i => (h.count i).le }

theorem Tree.unlinked (h : Tree n) (h0 : (n i).attrs.nlink = 0) : refs n i = 0 ∧ kids n i = 0 ∧ i.val ≠ rootino := by
  have hc := h.count i
  rw [h0] at hc
  have hr : links n i = 0 := Nat.eq_zero_of_le_zero hc
  unfold links rootLink at hr
  split at hr
  · omega
  · exact ⟨by omega, by omega, ‹_›⟩

theorem nlink_free (n : Table N) (i j : Fin N) : (update n i (n i).freed j).attrs.nlink = (n j).attrs.nlink :=
  update_keep (fun x : Node => x.attrs.nlink) (f := n) (i := i) (x := (n i).freed) rfl rfl j

theorem Tree.free (h : Tree n) (hf : FreeStep n n') : Tree n' := by
  obtain ⟨i, -, h0, rfl⟩ := hf
  obtain ⟨hr, hk, hroot⟩ := h.unlinked h0
  refine ⟨h.toShape.free hr hroot, fun j => (links_free h.toShape hr hk j).trans ?_⟩
  rw [nlink_free]
  exact h.count j

theorem Exact.free (h : Exact n) (hf : FreeStep n n') : Exact n' := by
  have htree := h.tree.free hf
  obtain ⟨i, -, h0, rfl⟩ := hf
  obtain ⟨hr, hk, hroot⟩ := h.tree.unlinked h0
  have hnil := h.bare i hroot hr
  have hrefs : ∀ j, refs (update n i (n i).freed) j = refs n j := fun j => by
    have := refs_free (n := n) (i := i) j
    rw [hnil] at this
    exact this
  refine { htree with count := fun j => ?_, bare := fun j hj h0 => ?_ }
  · have hl : links (update n i (n i).freed) j = links n j := by
      unfold links
      rw [hrefs, kids_free h.toShape hr hk]
    rw [hl, h.count, nlink_free]
  · by_cases hji : j = i
    · subst hji
      rw [update_self, subs_freed]
    · rw [hrefs] at h0
      rw [update_of_ne hji]
      exact h.bare j hj h0

theorem Change.exact (hc : Change calm n n') (hcalm : calm) (ht : Exact n) : Exact n' := by
  refine ⟨hc.shape, fun j => ?_, fun d hd h0 => ?_⟩
  · have := ht.count j
    rcases hc.count j with hj | hj <;> omega
  · by_contra hne
    obtain ⟨hr, hs⟩ := hc.bare d hd h0 hne
    have hnil := ht.bare d hd hr
    rcases hs with hs | hs
    · exact hs hnil
    · -- a directory without entries that nothing refers to has no links
      have hl := ht.count d
      rw [links, hr, ht.toShape.kids_of_subs_nil hnil, rootLink, if_neg hd] at hl
      exact hs hcalm (BitVec.eq_of_toNat_eq hl.symm)

section Step

variable (h : Tx calm e n n') (hk : ∀ i, Counted e (n i).attrs.nlink → (n i).attrs.nlink ≠ -1) (hn : Dots n)

include h hk hn in
theorem Tx.tree (ht : Tree n) : Tree n' := by
  obtain ⟨n1, hc, hf⟩ := h.change hk hn ht.toShape ht.count
  have h₁ : Tree n1 := ⟨hc.shape, fun j => by
    have := ht.count j
    rcases hc.count j with hj | hj <;> omega⟩
  exact hf.recOn h₁ fun _ hs ht => ht.free hs

include h hk hn in
theorem Tx.exact (hcalm : calm) (ht : Exact n) : Exact n' := by
  obtain ⟨n1, hc, hf⟩ := h.change hk hn ht.toShape ht.tree.count
  exact hf.recOn (hc.exact hcalm ht) fun _ hs ht => ht.free hs

end Step

/-- A directory with an entry for another one has a link for that. -/
theorem Tree.nlink_pos (h : Tree n) (hs : Sub n d i) (hi : (n i).attrs.type = tDir) : 0 < (n d).attrs.nlink.toNat := by
  have h₁ : 0 < kids n d := tally_pos (i := i) (h.toShape.isKid_of_sub hs hi)
  have h2 := h.count d
  unfold links at h2
  omega

theorem Settled.nlink (h : Settled x y) : y.attrs.nlink = x.attrs.nlink := by
  rcases h with rfl | ⟨-, rfl⟩ <;> rfl

theorem sub_of_entry (hn : Dots n) (hdir : (n d).attrs.type = tDir) (hpos : 0 < i.val)
    (hentry : (n d).ents[k]? = some ⟨i.val, name⟩) (hdot : name ≠ dot) (hdotdot : name ≠ dotdot) : Sub n d i := by
  have hk := (hn d hdir).two_le_of_name hentry hdot hdotdot
  exact ⟨_, (subs_clear hdir hentry hk hpos.ne' (b := ⟨0, []⟩) rfl).mem_iff.mpr mem_cons_self, rfl⟩

/-- What a transaction does to the inode `j`, which is `x` afterwards. -/
inductive NodeStep (e : Hist) (n : Table N) (j : Fin N) (x : Node) : Prop where
  | same (alloc : x.attrs.type ≠ 0 → (n j).attrs.type ≠ 0) (nlink : x.attrs.nlink = (n j).attrs.nlink)
  | inc (alloc : (n j).attrs.type ≠ 0) (count : Counted e (n j).attrs.nlink) (nlink : x.attrs.nlink = (n j).attrs.nlink + 1)
  | new (pos : 0 < j.val) (nlink : x.attrs.nlink = 1)
  /-- It loses an entry for it, or the entry for a directory. -/
  | dec (alloc : (n j).attrs.type ≠ 0) (nlink : x.attrs.nlink = (n j).attrs.nlink - 1)
      (why : 0 < (n j).attrs.nlink.toNat ∧ (e.kept = false → (n j).attrs.nlink = 1 → x.attrs.type = 0) ∨
        (Dots n → ∃ i, Sub n j i ∧ (n i).attrs.type = tDir))

theorem Tx.node (h : Tx calm e n n') (j : Fin N) : NodeStep e n j (n' j) := by
  have hsame : n' j = n j → NodeStep e n j (n' j) := fun hj => by
    rw [hj]
    exact .same id rfl
  have hdir : (n j).attrs.type = tDir → (n j).attrs.type ≠ 0 := fun hd => by rw [hd]; decide
  cases h with
  | resize i size ents alloc file eq =>
    rw [eq] at hsame ⊢
    by_cases hji : j = i
    · subst hji; rw [update_self]; exact .same id rfl
    · exact hsame (update_of_ne hji ..)
  | free i alloc nlink eq =>
    rw [eq] at hsame ⊢
    by_cases hji : j = i
    · subst hji; rw [update_self]; exact .same (fun _ => alloc) rfl
    · exact hsame (update_of_ne hji ..)
  | link d i k name place pos alloc file count dirEq inodeEq other =>
    by_cases hjd : j = d
    · subst hjd; rw [dirEq]; exact .same id rfl
    · by_cases hji : j = i
      · subst hji; exact .inc alloc count inodeEq.nlink
      · exact hsame (other j hjd hji)
  | create d i k name x place pos free alloc file nlink dirEq inodeEq other =>
    by_cases hjd : j = d
    · subst hjd; rw [dirEq]; exact .same id rfl
    · by_cases hji : j = i
      · subst hji; rw [inodeEq]; exact .new pos nlink
      · exact hsame (other j hjd hji)
  | mkdir d i k name x place pos free count dir nlink dirEq inodeEq other =>
    by_cases hjd : j = d
    · subst hjd; exact .inc (hdir place.dir) count dirEq.nlink
    · by_cases hji : j = i
      · subst hji; rw [inodeEq]; exact .new pos nlink
      · exact hsame (other j hjd hji)
  | unlink d i k name ne dir pos entry notDot notDotdot alloc linked empty dirEq inodeEq kept other =>
    by_cases hjd : j = d
    · subst hjd
      have hnlink := dirEq.nlink
      rw [relink_nlink] at hnlink
      split at hnlink
      · exact .dec (hdir dir) hnlink (.inr fun hn => ⟨i, sub_of_entry hn dir pos entry notDot notDotdot, ‹_›⟩)
      · exact .same (fun _ => hdir dir) hnlink
    · by_cases hji : j = i
      · subst hji; exact .dec alloc inodeEq.nlink (.inl ⟨toNat_pos linked, kept⟩)
      · exact hsame (other j hjd hji)

theorem Tx.small (h : Tx calm e n n') (hn : Dots n) (ht : Tree n) (he : e.negative = false) (hs : Small n) : Small n' := by
  intro j
  have hj := hs j
  cases h.node j with
  | same _ nlink => rwa [nlink]
  | inc _ count nlink =>
    have h₁ : (n j).attrs.nlink.toNat ≠ 32767 := fun heq => count.negative he (BitVec.eq_of_toNat_eq heq)
    rw [nlink, toNat_add_one (fun heq => by rw [heq] at hj; exact nomatch hj)]
    omega
  | new _ nlink => rw [nlink]; decide
  | dec _ nlink why =>
    have := toNat_sub_one (why.elim (·.1) fun hw => let ⟨_, hsub, hi⟩ := hw hn; ht.nlink_pos hsub hi)
    rw [nlink]
    omega

theorem Small.counted (h : Small n) (i : Fin N) (_ : Counted e (n i).attrs.nlink) : (n i).attrs.nlink ≠ -1 := fun heq => by
  have := h i
  rw [heq] at this
  exact nomatch this

theorem Tx.tidy (h : Tx calm e n n') (hk : ∀ i, Counted e (n i).attrs.nlink → (n i).attrs.nlink ≠ -1) (hn : Dots n)
    (hx : Exact n) (he : e.kept = false) (ht : Tidy n) : Tidy n' := by
  intro j hj
  cases h.node j with
  | same alloc nlink => rw [nlink]; exact ht j (alloc hj)
  | inc _ count nlink =>
    have := toNat_add_one (hk j count)
    rw [nlink]
    intro h0
    rw [h0] at this
    exact absurd this (by simp)
  | new _ nlink => rw [nlink]; decide
  | dec _ nlink why =>
    have hdec : ∀ {c : BitVec 16}, c ≠ 1 → 0 < c.toNat → c - 1 ≠ 0 := fun {c} h1 hpos h0 => by
      have := toNat_sub_one hpos
      rw [h0] at this
      exact h1 (BitVec.eq_of_toNat_eq this.symm)
    rw [nlink]
    rcases why with ⟨hpos, kept⟩ | hw
    · exact hdec (fun h1 => hj (kept he h1)) hpos
    -- the directory has its own link, and one for the other directory
    · obtain ⟨i, hsub, hi⟩ := hw hn
      have hkids : 0 < kids n j := tally_pos (i := i) (hx.toShape.isKid_of_sub hsub hi)
      have hown : 0 < refs n j + rootLink j := by
        by_contra h0
        have hnr : j.val ≠ rootino := fun hr => by
          rw [rootLink, if_pos hr] at h0
          omega
        obtain ⟨a, ha, -⟩ := hsub
        rw [hx.bare j hnr (by omega)] at ha
        cases ha
      have hc := hx.count j
      unfold links at hc
      refine hdec (fun h1 => ?_) (by omega)
      rw [h1] at hc
      have : (1 : BitVec 16).toNat = 1 := rfl
      omega

/-- There is no inode with the number 0. -/
def Positive (n : Table N) : Prop := ∀ i, (n i).attrs.type ≠ 0 → 0 < i.val

theorem Tx.positive (h : Tx calm e n n') (hp : Positive n) : Positive n' := by
  intro j hj
  cases h.node j with
  | same alloc _ => exact hp j (alloc hj)
  | new pos _ => exact pos
  | inc alloc _ _ | dec alloc _ _ => exact hp j alloc

/-! ## What follows -/

/-- In a tree that is exact every inode with an entry is below the root. -/
theorem Exact.reachable (h : Exact n) (hN : rootino < N) (hi : 0 < refs n i) : TransGen (Sub n) ⟨rootino, hN⟩ i := by
  have : Std.Irrefl (TransGen (Sub n)) := ⟨h.acyclic⟩
  have hwf : WellFounded (TransGen (Sub n)) := Finite.wellFounded_of_trans_of_irrefl _
  induction i using hwf.induction with
  | _ i ih =>
    obtain ⟨d, a, ha, hai⟩ := exists_of_refs_pos hi
    have hs : Sub n d i := ⟨a, ha, hai⟩
    by_cases hd : d.val = rootino
    · obtain rfl : d = ⟨rootino, hN⟩ := Fin.ext hd
      exact .single hs
    · refine (ih d (.single hs) (Nat.pos_of_ne_zero fun h0 => ?_)).tail hs
      rw [h.bare d hd h0] at ha
      cases ha

end Xv6.Fs
