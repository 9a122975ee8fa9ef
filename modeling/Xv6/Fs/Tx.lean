import Mathlib.Logic.Relation
import Xv6.Fs.Walk

/-!
# What a transaction does to the table of inodes

Every transaction of a system call makes one of a few changes to the table of
inodes (`Tx`): a new link to a file, a new file, a new directory, the removal of
an entry, a change of a file's size, or the freeing of an inode without links.
A system call commits some of these one after the other (`Txs`). What is true
of all file systems follows from these changes (`Fs.Tree`), and that the system
calls make no others is `Fs.CallSpec`.
-/

namespace Xv6.Fs

open Function List

variable {N : Nat}

abbrev Table (N : Nat) := Fin N → Node

/-- An inode that a system call has let go of, which may have freed it if it has
no links. -/
def Settled (x y : Node) : Prop := y = x ∨ x.attrs.nlink = 0 ∧ y = x.freed

/-- There is a place for a new entry with this name. `live` says that the
directory has links. -/
structure Place (calm : Prop) (n : Table N) (d : Fin N) (k : Nat) (name : Name) : Prop where
  dir : (n d).attrs.type = tDir
  free : Free (n d) k
  fresh : ∀ e ∈ (n d).ents, e.inum ≠ 0 → e.name ≠ name
  live : calm → (n d).attrs.nlink ≠ 0

/-- The history does not have an increment of this number of links, if it says
that there was no overflow. -/
structure Counted (e : Hist) (nlink : BitVec 16) : Prop where
  negative : e.negative = false → nlink ≠ 32767
  wrapped : e.wrapped = false → nlink ≠ -1

/-- What a transaction can do. The history `e` is a later one; if `calm` then
directories that get new entries have links. -/
inductive Tx (calm : Prop) (e : Hist) (n n' : Table N) : Prop where
  /-- The size of a file changes. -/
  | resize (i : Fin N) (size : Nat) (ents : List Dirent) (alloc : (n i).attrs.type ≠ 0) (file : (n i).attrs.type ≠ tDir)
      (eq : n' = update n i ⟨(n i).attrs.withSize size, ents⟩)
  /-- An inode without links is freed. -/
  | free (i : Fin N) (alloc : (n i).attrs.type ≠ 0) (nlink : (n i).attrs.nlink = 0)
      (eq : n' = update n i (n i).freed)
  /-- A file gets another link. -/
  | link (d i : Fin N) (k : Nat) (name : Name) (place : Place calm n d k name) (pos : 0 < i.val)
      (alloc : (n i).attrs.type ≠ 0) (file : (n i).attrs.type ≠ tDir) (count : Counted e (n i).attrs.nlink)
      (dirEq : n' d = (n d).put k ⟨i.val, name⟩) (inodeEq : Settled ((n i).relink ((n i).attrs.nlink + 1)) (n' i))
      (other : ∀ j, j ≠ d → j ≠ i → n' j = n j)
  /-- There is a new file or device. -/
  | create (d i : Fin N) (k : Nat) (name : Name) (x : Attrs) (place : Place calm n d k name) (pos : 0 < i.val)
      (free : (n i).attrs.type = 0) (alloc : x.type ≠ 0) (file : x.type ≠ tDir) (nlink : x.nlink = 1)
      (dirEq : n' d = (n d).put k ⟨i.val, name⟩) (inodeEq : n' i = ⟨x, []⟩)
      (other : ∀ j, j ≠ d → j ≠ i → n' j = n j)
  /-- There is a new directory. -/
  | mkdir (d i : Fin N) (k : Nat) (name : Name) (x : Attrs) (place : Place calm n d k name) (pos : 0 < i.val)
      (free : (n i).attrs.type = 0) (count : Counted e (n d).attrs.nlink) (dir : x.type = tDir) (nlink : x.nlink = 1)
      (dirEq : Settled (((n d).relink ((n d).attrs.nlink + 1)).put k ⟨i.val, name⟩) (n' d))
      (inodeEq : n' i = ⟨x, [⟨i.val, dot⟩, ⟨d.val, dotdot⟩]⟩) (other : ∀ j, j ≠ d → j ≠ i → n' j = n j)
  /-- An entry is removed. -/
  | unlink (d i : Fin N) (k : Nat) (name : Name) (ne : d ≠ i) (dir : (n d).attrs.type = tDir) (pos : 0 < i.val)
      (entry : (n d).ents[k]? = some ⟨i.val, name⟩) (notDot : name ≠ dot) (notDotdot : name ≠ dotdot)
      (alloc : (n i).attrs.type ≠ 0) (linked : 1 ≤ (n i).attrs.nlink.toInt)
      (empty : (n i).attrs.type = tDir → ∀ e ∈ (n i).ents.drop 2, e.inum = 0)
      (dirEq : Settled (((n d).put k ⟨0, []⟩).relink
        (if (n i).attrs.type = tDir then (n d).attrs.nlink - 1 else (n d).attrs.nlink)) (n' d))
      (inodeEq : Settled ((n i).relink ((n i).attrs.nlink - 1)) (n' i))
      (kept : e.kept = false → (n i).attrs.nlink = 1 → (n' i).attrs.type = 0)
      (other : ∀ j, j ≠ d → j ≠ i → n' j = n j)

/-- What has not happened at the end of a history had not happened before. -/
structure Hist.Le (e e' : Hist) : Prop where
  negative : e'.negative = false → e.negative = false
  wrapped : e'.wrapped = false → e.wrapped = false
  kept : e'.kept = false → e.kept = false

namespace Hist.Le

theorem refl (e : Hist) : e.Le e := ⟨id, id, id⟩

theorem trans {e1 e2 e3 : Hist} (h : e1.Le e2) (h' : e2.Le e3) : e1.Le e3 :=
  ⟨h.negative ∘ h'.negative, h.wrapped ∘ h'.wrapped, h.kept ∘ h'.kept⟩

theorem of_eq {e e' : Hist} (h : e' = e) : e.Le e' := h ▸ refl e

end Hist.Le

variable {calm : Prop} {e e' : Hist} {n n' : Table N} {l l1 l' : Nodes N}

theorem Counted.mono {k : BitVec 16} (h : Counted e k) (he : e.Le e') : Counted e' k :=
  ⟨h.negative ∘ he.negative, h.wrapped ∘ he.wrapped⟩

theorem Tx.mono (h : Tx calm e n n') (he : e.Le e') : Tx calm e' n n' := by
  cases h with
  | resize i size ents alloc file eq => exact .resize i size ents alloc file eq
  | free i alloc nlink eq => exact .free i alloc nlink eq
  | link d i k name place pos alloc file count dirEq inodeEq other =>
    exact .link d i k name place pos alloc file (count.mono he) dirEq inodeEq other
  | create d i k name x place pos free alloc file nlink dirEq inodeEq other =>
    exact .create d i k name x place pos free alloc file nlink dirEq inodeEq other
  | mkdir d i k name x place pos free count dir nlink dirEq inodeEq other =>
    exact .mkdir d i k name x place pos free (count.mono he) dir nlink dirEq inodeEq other
  | unlink d i k name ne dir pos entry notDot notDotdot alloc linked empty dirEq inodeEq kept other =>
    exact .unlink d i k name ne dir pos entry notDot notDotdot alloc linked empty dirEq inodeEq (kept ∘ he.kept) other

/-- What a system call does: it commits transactions. -/
inductive Txs (calm : Prop) (e : Hist) (l : Nodes N) : Nodes N → Prop where
  | still {l' : Nodes N} (node : l'.node = l.node) (disks : l'.disks = l.disks) : Txs calm e l l'
  | commit {l1 l' : Nodes N} (before : Txs calm e l l1) (txs : Relation.ReflTransGen (Tx calm e) l1.node l'.node)
      (disks : l'.disks = l'.node :: l1.disks) : Txs calm e l l'

namespace Txs

theorem refl (l : Nodes N) : Txs calm e l l := .still rfl rfl

theorem trans (h : Txs calm e l l1) (h' : Txs calm e l1 l') : Txs calm e l l' := by
  induction h' with
  | still node disks =>
    cases h with
    | still node1 disks1 => exact .still (node.trans node1) (disks.trans disks1)
    | commit before txs disks1 =>
      exact .commit before (node ▸ txs) (by rw [disks, node]; exact disks1)
  | commit _ txs disks ih => exact .commit ih txs disks

theorem mono (h : Txs calm e l l') (he : e.Le e') : Txs calm e' l l' := by
  induction h with
  | still node disks => exact .still node disks
  | commit _ txs disks ih => exact .commit ih (Relation.ReflTransGen.mono (fun _ _ h => Tx.mono h he) _ _ txs) disks

end Txs

/-! ## The first two entries of a directory -/

/-- The directory begins with `.` and `..`, and no other entry has these names. -/
structure DirDots (d : Fin N) (ents : List Dirent) : Prop where
  pos : 0 < d.val
  dots : ∃ p rest, p ≠ 0 ∧ ents = ⟨d.val, dot⟩ :: ⟨p, dotdot⟩ :: rest
  names : ∀ e ∈ ents.drop 2, e.inum ≠ 0 → e.name ≠ dot ∧ e.name ≠ dotdot

def Dots (n : Table N) : Prop := ∀ d, (n d).attrs.type = tDir → DirDots d (n d).ents

variable {d : Fin N} {ents : List Dirent} {k : Nat} {x : Node} {a : Dirent}

namespace DirDots

theorem length (h : DirDots d ents) : 2 ≤ ents.length := by
  obtain ⟨p, rest, -, rfl⟩ := h.dots
  simp

/-- The first two entries are in use, and they are the ones with these names. -/
theorem getElem? (h : DirDots d ents) (hk : k < 2) :
    ∃ b, ents[k]? = some b ∧ b.inum ≠ 0 ∧ (b.name = dot ∨ b.name = dotdot) := by
  obtain ⟨p, rest, hp, rfl⟩ := h.dots
  match k, hk with
  | 0, _ => exact ⟨_, rfl, h.pos.ne', .inl rfl⟩
  | 1, _ => exact ⟨_, rfl, hp, .inr rfl⟩

theorem fresh (h : DirDots d ents) {name : Name} (hf : ∀ b ∈ ents, b.inum ≠ 0 → b.name ≠ name) : name ≠ dot ∧
    name ≠ dotdot := by
  obtain ⟨p, rest, hp, rfl⟩ := h.dots
  exact ⟨fun e => hf ⟨d.val, dot⟩ mem_cons_self h.pos.ne' e.symm,
    fun e => hf ⟨p, dotdot⟩ (mem_cons_of_mem _ mem_cons_self) hp e.symm⟩

/-- A free place is not among the first two. -/
theorem two_le_of_free (h : DirDots d x.ents) (hk : Free x k) : 2 ≤ k := by
  by_contra hlt
  obtain ⟨b, hb, hne, -⟩ := h.getElem? (k := k) (by omega)
  have hlen := h.length
  have hk' : k < x.ents.length := by omega
  rw [getElem?_eq_getElem hk', Option.some.injEq] at hb
  exact hne (hb ▸ hk.2 hk')

/-- An entry with another name is not among the first two. -/
theorem two_le_of_name (h : DirDots d ents) (hk : ents[k]? = some a) (hd : a.name ≠ dot) (hdd : a.name ≠ dotdot) : 2 ≤ k := by
  by_contra hlt
  obtain ⟨b, hb, -, hname⟩ := h.getElem? (k := k) (by omega)
  obtain rfl : a = b := Option.some.inj (hk.symm.trans hb)
  exact hname.elim hd hdd

theorem put (h : DirDots d x.ents) (hk : 2 ≤ k) (ha : a.inum ≠ 0 → a.name ≠ dot ∧ a.name ≠ dotdot) :
    DirDots d (x.put k a).ents := by
  obtain ⟨p, rest, hp, hx⟩ := h.dots
  obtain ⟨m, rfl⟩ : ∃ m, k = m + 2 := ⟨k - 2, by omega⟩
  have hdrop : ∀ b, b ∈ (x.put (m + 2) a).ents.drop 2 → b ∈ x.ents.drop 2 ∨ b = a := fun b hb => by
    simp only [Node.put] at hb
    split at hb
    · rw [drop_set, if_neg (by omega)] at hb
      exact mem_or_eq_of_mem_set hb
    · rw [drop_append_of_le_length h.length, mem_append, mem_singleton] at hb
      exact hb
  refine ⟨h.pos, ?_, fun b hb hne => ?_⟩
  · simp only [Node.put, hx]
    split
    · exact ⟨p, rest.set m a, hp, rfl⟩
    · exact ⟨p, rest ++ [a], hp, rfl⟩
  · rcases hdrop b hb with hb | rfl
    · exact h.names b hb hne
    · exact ha hne

end DirDots

@[simp] theorem Node.relink_ents (x : Node) (k : BitVec 16) : (x.relink k).ents = x.ents := rfl
@[simp] theorem Node.relink_type (x : Node) (k : BitVec 16) : (x.relink k).attrs.type = x.attrs.type := rfl
@[simp] theorem Node.relink_nlink (x : Node) (k : BitVec 16) : (x.relink k).attrs.nlink = k := rfl
@[simp] theorem Node.put_type (x : Node) (k : Nat) (a : Dirent) : (x.put k a).attrs.type = x.attrs.type := rfl
@[simp] theorem Node.put_nlink (x : Node) (k : Nat) (a : Dirent) : (x.put k a).attrs.nlink = x.attrs.nlink := rfl
@[simp] theorem Node.freed_type (x : Node) : x.freed.attrs.type = 0 := rfl
@[simp] theorem Node.freed_ents (x : Node) : x.freed.ents = [] := rfl

theorem Settled.eq_of_dir {x y : Node} (h : Settled x y) (hy : y.attrs.type = tDir) : y = x := by
  rcases h with rfl | ⟨-, rfl⟩
  · rfl
  · exact absurd hy (by simp)

theorem Tx.dots (h : Tx calm e n n') (hn : Dots n) : Dots n' := by
  intro j hj
  -- a directory with a new entry
  have hplace : ∀ {d k name i} {b : BitVec 16}, Place calm n d k name → DirDots d (((n d).relink b).put k ⟨i, name⟩).ents :=
    fun {d k name i b} hp => by
      have hd := hn d hp.dir
      have hd' : DirDots d ((n d).relink b).ents := hd
      exact hd'.put (hd.two_le_of_free hp.free) fun _ => hd.fresh hp.fresh
  cases h with
  | resize i size ents alloc file eq =>
    subst eq
    by_cases hji : j = i
    · subst hji; rw [update_self] at hj; exact absurd hj file
    · rw [update_of_ne hji] at hj ⊢; exact hn j hj
  | free i alloc nlink eq =>
    subst eq
    by_cases hji : j = i
    · subst hji; rw [update_self] at hj; exact absurd hj (by simp)
    · rw [update_of_ne hji] at hj ⊢; exact hn j hj
  | link d i k name place pos alloc file count dirEq inodeEq other =>
    by_cases hjd : j = d
    · subst hjd; rw [dirEq]; exact hplace place
    · by_cases hji : j = i
      · subst hji
        rw [inodeEq.eq_of_dir hj] at hj
        exact absurd hj file
      · rw [other j hjd hji] at hj ⊢; exact hn j hj
  | create d i k name x place pos free alloc file nlink dirEq inodeEq other =>
    by_cases hjd : j = d
    · subst hjd; rw [dirEq]; exact hplace place
    · by_cases hji : j = i
      · subst hji; rw [inodeEq] at hj; exact absurd hj file
      · rw [other j hjd hji] at hj ⊢; exact hn j hj
  | mkdir d i k name x place pos free count dir nlink dirEq inodeEq other =>
    by_cases hjd : j = d
    · subst hjd; rw [dirEq.eq_of_dir hj]; exact hplace place
    · by_cases hji : j = i
      · subst hji
        rw [inodeEq]
        exact ⟨pos, ⟨d.val, [], (hn d place.dir).pos.ne', rfl⟩, nofun⟩
      · rw [other j hjd hji] at hj ⊢; exact hn j hj
  | unlink d i k name ne dir pos entry notDot notDotdot alloc linked empty dirEq inodeEq kept other =>
    by_cases hjd : j = d
    · subst hjd
      rw [dirEq.eq_of_dir hj]
      have hd := hn j dir
      exact hd.put (hd.two_le_of_name entry notDot notDotdot) fun h => absurd rfl h
    · by_cases hji : j = i
      · subst hji
        have heq := inodeEq.eq_of_dir hj
        rw [heq] at hj ⊢
        exact hn j hj
      · rw [other j hjd hji] at hj ⊢; exact hn j hj

theorem Txs.dots (h : Txs calm e l l') (hn : Dots l.node) : Dots l'.node := by
  induction h with
  | still node disks => rw [node]; exact hn
  | commit _ txs disks ih => exact txs.recOn ih fun _ h hd => h.dots hd

end Xv6.Fs
