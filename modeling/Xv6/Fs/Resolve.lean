import Xv6.Dir.Map
import Xv6.Framework.Segments
import Xv6.Fs.Links

/-!
# Path resolution is a fold

The elements that `skipelem` takes off a path are its segments between slashes, cut to
`DIRSIZ` bytes (`skipelems_eq`). `namei` looks them up one after the other, which is a
fold in the table of inodes (`resolve`), and ends with one reference to the inode, or
none if there is no such inode; `nameiparent` leaves the last element out.

The lookup panics if it comes to a free inode and has to look into it, or if the inode
cache is full. `Clear` says of the state before that neither happens.
-/

namespace Xv6.Fs

open List

variable {N : Nat} {u : Users} {s s' s1 : St (Nodes N)} {pins temps : List Slot} {b : Slot} {d i j : Fin N} {P : String → Prop}

/-! ## Elements of a path -/

/-- The elements of a path, cut to `DIRSIZ` bytes. -/
def components (path : List UInt8) : List Name := (segments slash path).map (List.take dirsiz)

variable {path : List UInt8} {k : Nat} {q : UInt8 → Bool} {parent : Bool}

theorem components_step (h : path.dropWhile (· == slash) ≠ []) :
    components path = ((path.dropWhile (· == slash)).takeWhile (· != slash)).take dirsiz ::
      components (((path.dropWhile (· == slash)).dropWhile (· != slash)).dropWhile (· == slash)) := by
  rw [components, segments_step h]
  rfl

theorem components_nil (h : path.dropWhile (· == slash) = []) : components path = [] := by
  rw [components, ← segments_dropWhile, h]
  rfl

/-- What is left of a path is shorter. -/
theorem length_rest (h : path.dropWhile (· == slash) ≠ []) :
    (((path.dropWhile (· == slash)).dropWhile (· != slash)).dropWhile (· == slash)).length < path.length := by
  obtain ⟨x, t, hs, hx⟩ := (dropWhile_head (· == slash) path).resolve_left h
  have h1 := (dropWhile_suffix (l := path) (· == slash)).length_le
  have h2 := (dropWhile_suffix (l := (path.dropWhile (· == slash)).dropWhile (· != slash)) (· == slash)).length_le
  have h3 := (dropWhile_suffix (l := t) (· != slash)).length_le
  rw [hs] at h1 h2 ⊢
  rw [dropWhile_cons, if_pos (by simpa using hx)] at h2 ⊢
  rw [length_cons] at h1
  omega

theorem elems_go_eq (h : path.length ≤ k) : elems.go k path = components path := by
  induction k generalizing path with
  | zero =>
    rw [eq_nil_of_length_eq_zero (Nat.le_zero.1 h)]
    rfl
  | succ k ih =>
    rw [elems.go, skipelem]
    by_cases hs : path.dropWhile (· == slash) = []
    · rw [hs, components_nil hs]
    · rw [components_step hs]
      have hlen := length_rest hs
      split
      · rename_i hnone
        split at hnone
        · exact absurd ‹_› hs
        · cases hnone
      · rename_i name rest hsome
        split at hsome
        · cases hsome
        · cases hsome
          rw [ih (by omega)]

theorem elems_eq (path : List UInt8) : elems path = components path := elems_go_eq (le_rfl)

/-- The names that `skipelem` stores, if it is called until it returns 0. There is
nothing if it is not done after `k` calls. -/
def skipelems : Nat → List UInt8 → Bytes → Option (List Name)
  | 0, _, _ => none
  | k + 1, path, name => match Dir.skipelem path name with
    | none => some []
    | some (rest, name) => (skipelems k rest name).map (Dir.key name :: ·)

theorem takeWhile_nul (h0 : q 0 = false) (l junk : List UInt8) : (l ++ 0 :: junk).takeWhile q = l.takeWhile q := by
  induction l with
  | nil => rw [nil_append, takeWhile_cons, h0]; rfl
  | cons c l ih => rw [cons_append, takeWhile_cons, takeWhile_cons, ih]

theorem dropWhile_nul (h0 : q 0 = false) (l junk : List UInt8) :
    (l ++ 0 :: junk).dropWhile q = l.dropWhile q ++ 0 :: junk := by
  induction l with
  | nil => rw [nil_append, dropWhile_cons, h0]; rfl
  | cons c l ih =>
    rw [cons_append, dropWhile_cons, dropWhile_cons, ih]
    split <;> rfl

theorem while_congr {q' : UInt8 → Bool} {l : List UInt8} (h : ∀ c ∈ l, q c = q' c) :
    l.takeWhile q = l.takeWhile q' ∧ l.dropWhile q = l.dropWhile q' := by
  induction l with
  | nil => exact ⟨rfl, rfl⟩
  | cons c l ih =>
    obtain ⟨ht, hd⟩ := ih fun x hx => h x (mem_cons_of_mem c hx)
    rw [takeWhile_cons, takeWhile_cons, dropWhile_cons, dropWhile_cons, h c mem_cons_self, ht, hd]
    exact ⟨rfl, rfl⟩

/-- What `skipelem` does with a string that is followed by a NUL. -/
theorem skipelem_nul (hnul : 0 ∉ path) (junk : List UInt8) (buf : Bytes) :
    (path.dropWhile (· == slash) = [] → Dir.skipelem (path ++ 0 :: junk) buf = none) ∧
    (path.dropWhile (· == slash) ≠ [] → ∃ name,
      Dir.skipelem (path ++ 0 :: junk) buf =
        some (((path.dropWhile (· == slash)).dropWhile (· != slash)).dropWhile (· == slash) ++ 0 :: junk, name) ∧
      Dir.key name = ((path.dropWhile (· == slash)).takeWhile (· != slash)).take dirsiz) := by
  have hsub : ∀ c ∈ path.dropWhile (· == slash), c ∈ path := fun c hc => (dropWhile_suffix _).subset hc
  have hdrop : (path ++ 0 :: junk).dropWhile (fun c => decide (c = Dir.slash)) = path.dropWhile (· == slash) ++ 0 :: junk :=
    dropWhile_nul (q := fun c => decide (c = Dir.slash)) (by decide) path junk
  have hnul' : 0 ∉ path.dropWhile (· == slash) := fun h => hnul (hsub 0 h)
  generalize path.dropWhile (· == slash) = rest at hdrop hnul' ⊢
  have hsame : ∀ c ∈ rest, decide (c ≠ Dir.slash ∧ c ≠ 0) = (c != slash) := fun c hc => by
    have hc0 : c ≠ 0 := fun e => hnul' (e ▸ hc)
    rw [Bool.eq_iff_iff]
    simp [hc0, Dir.slash, slash]
  obtain ⟨htake, hrest⟩ := while_congr hsame
  have helem : Dir.nextElem (path ++ 0 :: junk) = rest.takeWhile (· != slash) := by
    rw [Dir.nextElem, hdrop, takeWhile_nul (by decide), htake]
  have hafter : (((path ++ 0 :: junk).dropWhile fun c => decide (c = Dir.slash)).dropWhile fun c =>
    decide (c ≠ Dir.slash ∧ c ≠ 0)).dropWhile
      (fun c => decide (c = Dir.slash)) = (rest.dropWhile (· != slash)).dropWhile (· == slash) ++ 0 :: junk := by
    rw [hdrop, dropWhile_nul (by decide), hrest, dropWhile_nul (by decide)]
    rfl
  constructor
  · intro hnil
    rw [Dir.skipelem, hdrop, hnil]
    rfl
  · intro hne
    obtain ⟨c, t, rfl⟩ := exists_cons_of_ne_nil hne
    have hc0 : c ≠ 0 := fun e => hnul' (e ▸ mem_cons_self)
    cases hskip : Dir.skipelem (path ++ 0 :: junk) buf with
    | none =>
      rw [Dir.skipelem, hdrop] at hskip
      rw [if_neg (by exact hc0)] at hskip
      cases hskip
    | some x =>
      obtain ⟨r, name⟩ := x
      refine ⟨name, ?_, ?_⟩
      · have hr : r = ((c :: t).dropWhile (· != slash)).dropWhile (· == slash) ++ 0 :: junk := by
          rw [Dir.skipelem] at hskip
          rw [hafter, hdrop, if_neg (by exact hc0)] at hskip
          cases hskip
          rfl
        rw [hr]
      · rw [Dir.key_skipelem hskip, helem]

/-- The elements that `skipelem` takes off a string are its segments, cut to `DIRSIZ`
bytes. -/
theorem skipelems_eq (hnul : 0 ∉ path) (hk : path.length < k) (junk : List UInt8) (buf : Bytes) :
    skipelems k (path ++ 0 :: junk) buf = some (components path) := by
  induction k generalizing path buf with
  | zero => exact nomatch hk
  | succ k ih =>
    obtain ⟨hend, hnext⟩ := skipelem_nul hnul junk buf
    rw [skipelems]
    by_cases hs : path.dropWhile (· == slash) = []
    · rw [hend hs, components_nil hs]
    · obtain ⟨name, hskip, hkey⟩ := hnext hs
      have hlen := length_rest hs
      have hsub : 0 ∉ ((path.dropWhile (· == slash)).dropWhile (· != slash)).dropWhile (· == slash) := fun h =>
        hnul ((dropWhile_suffix _).subset ((dropWhile_suffix _).subset ((dropWhile_suffix _).subset h)))
      rw [hskip]
      dsimp only
      rw [ih hsub (by omega), components_step hs, hkey]
      rfl

/-! ## Walking -/

/-- Walking from `d` along the names, no free inode is looked into, and there is room for
the inodes. With `parent` the last name is not looked up. -/
def Passable (s : St (Nodes N)) (parent : Bool) : Fin N → List Name → Prop
  | _, [] => True
  | d, name :: rest => (s.low.node d).attrs.type ≠ 0 ∧ (¬(parent ∧ rest = []) →
      ∀ j, lookup s.low.node d name = some j → Fits s d j ∧ Passable s parent j rest)

theorem passable_step {name : Name} {rest : List Name} (hlast : ¬(parent ∧ rest = []))
    (hlook : lookup s.low.node d name = some j) (hfits : Fits s d j) :
    Passable s parent d (name :: rest) ↔ Passable s parent j rest := by
  have htype : (s.low.node d).attrs.type ≠ 0 := by
    rw [(of_lookup hlook).1]
    decide
  refine ⟨fun h => (h.2 hlast j hlook).2, fun h => ⟨htype, fun _ j' hj' => ?_⟩⟩
  rw [hlook] at hj'
  exact Option.some.inj hj' ▸ ⟨hfits, h⟩

theorem Ended.passable {names : List Name} (h : Ended s parent d names) : Passable s parent d names := by
  cases names with
  | nil => trivial
  | cons name rest =>
    obtain ⟨htype, hnone⟩ := h name rest rfl
    exact ⟨htype, fun hlast j hj => by rw [hnone hlast] at hj; cases hj⟩

/-- Path lookup panics exactly where the names cannot be passed. -/
theorem passable_route (s : St (Nodes N)) (parent : Bool) (d : Fin N) (names : List Name) :
    Route (fun _ => ¬Passable s parent d names) s parent fun d' rest => Passable s parent d names ↔
      Passable s parent d' rest where
  typed _ _ _ h hz hp := (h.1 hp).1 hz
  room _ _ _ j h hlast hlook hno hp := hno ((h.1 hp).2 hlast j hlook).1
  next _ _ _ _ h hlast hlook hfits := h.trans (passable_step hlast hlook hfits)

/-! ## Whole paths -/

section Paths

variable {p : Pid} {bytes : List UInt8}

/-- Looking up the path from `d`, no free inode is looked into, and there is room in the
inode cache. -/
def Clear (s : St (Nodes N)) (bytes : List UInt8) (parent : Bool) (d : Fin N) : Prop :=
  (bytes.head? = some slash → Room s d) ∧ Passable s parent d (components bytes)

/-- What a lookup that is to find `i` does: it returns an entry for `i` with one more
reference, and 0 if there is no `i`. All other references are as they were. -/
structure Found (s s' : St (Nodes N)) (r : Option Slot) (i : Option (Fin N)) : Prop where
  none : r = none ↔ i = none
  some : ∀ b j, r = some b → i = some j → Caches s'.core b j
  ref : ∀ c, (s'.core.icache c).ref = (s.core.icache c).ref + if r = Option.some c then 1 else 0
  inum : ∀ c, 0 < (s.core.icache c).ref → (s'.core.icache c).inum = (s.core.icache c).inum
  file : s'.core.file = s.core.file
  proc : s'.core.proc = s.core.proc
  low : s'.low = s.low

theorem Walked.found {r : Option Slot} {i : Option (Fin N)} (hc : Cache u s pins temps) (h : Walked u pins temps s s' r i) :
    Found s s' r i := by
  have hkeep := h.quiet.keeps
  have hinum : ∀ c, 0 < (s.core.icache c).ref → (s'.core.icache c).inum = (s.core.icache c).inum := fun c hr =>
    hkeep.inum c (hc.ref_pos.1 hr)
  cases i with
  | none =>
    obtain ⟨rfl, hc'⟩ := h.none rfl
    refine ⟨iff_of_true rfl rfl, nofun, fun c => ?_, hinum, hkeep.file, hkeep.proc, h.quiet.low⟩
    rw [hc'.ref, hc.ref, if_neg nofun, add_zero]
  | some j =>
    obtain ⟨b, rfl, hc', hb⟩ := h.some j rfl
    refine ⟨iff_of_false nofun nofun, fun b' j' hb' hj' => ?_, fun c => ?_, hinum, hkeep.file, hkeep.proc, h.quiet.low⟩
    · rwa [← Option.some.inj hb', ← Option.some.inj hj']
    · rw [hc'.ref, hc.ref, count_cons]
      by_cases hbc : b = c
      · rw [if_pos (by simpa using hbc), if_pos (by rw [hbc])]
        omega
      · rw [if_neg (by simpa using hbc), if_neg (fun h => hbc (Option.some.inj h))]
        omega

/-- From a specification that says when the program panics, to when it returns. -/
theorem returns_iff {α : Type} {prog : FsProg α} {C : Prop} {Q : α → St (Nodes N) → Prop}
    (h : Runs (fun _ => ¬C) s prog fun a s' => C ∧ Q a s') :
    (∃ a s', prog.run (handler nodeHandler) s = .ok a s' ∧ Q a s') ↔ C := by
  unfold Runs Eff.Spec at h
  cases hr : prog.run (handler nodeHandler) s with
  | ok a s' =>
    rw [hr] at h
    exact iff_of_true ⟨a, s', rfl, h.2⟩ h.1
  | wait =>
    rw [hr] at h
    exact h.elim
  | panic m =>
    rw [hr] at h
    exact iff_of_false nofun h

theorem namex_exact (hc : Cache u s pins temps) (hd : Origin s p bytes d) :
    Runs (fun _ => ¬Clear s bytes false d) s (namex p bytes) fun r s' =>
      Clear s bytes false d ∧ Found s s' r (resolve s.low.node d (components bytes)) := by
  refine .bind (namexStart_spec hc hd fun habs hno h => hno (h.1 habs)) ?_
  rintro b s1 ⟨hroom, hc1, hb, hq⟩
  rw [elems_eq]
  refine Res.Holds.mono (walk_spec (passable_route s false d _) hc hc1 hb hq Iff.rfl) ?_ fun _ hno h => hno h.2
  rintro r s' ⟨hw, -, d', rest, hiff, hend⟩
  exact ⟨⟨hroom, hiff.2 hend.passable⟩, hw.found hc⟩

theorem namexParent_exact (hc : Cache u s pins temps) (hd : Origin s p bytes d) :
    Runs (fun _ => ¬Clear s bytes true d) s (namexParent p bytes) fun r s' =>
      Clear s bytes true d ∧ r.map Prod.snd = (resolveParent s.low.node d (components bytes)).map Prod.snd ∧
      Found s s' (r.map Prod.fst) ((resolveParent s.low.node d (components bytes)).map Prod.fst) := by
  refine .bind (namexStart_spec hc hd fun habs hno h => hno (h.1 habs)) ?_
  rintro b s1 ⟨hroom, hc1, hb, hq⟩
  rw [elems_eq]
  refine Res.Holds.mono (walkParent_spec (passable_route s true d _) hc hc1 hb hq Iff.rfl) ?_ fun _ hno h => hno h.2
  rintro r s' ⟨hname, hw, -, d', rest, hiff, hend⟩
  exact ⟨⟨hroom, hiff.2 hend.passable⟩, hname, hw.found hc⟩

/-- Path resolution is a fold over the elements of the path. `skipelem` yields the
segments between slashes, cut to `DIRSIZ` bytes. `namei` returns what the fold finds, with
one reference more, and `nameiparent` what the fold without the last element finds, and
the last element; both do so exactly if no free inode is looked into and there is room in
the inode cache. -/
theorem namei_folds_iff (hc : Cache u s pins temps) (hnul : 0 ∉ bytes) (hd : Origin s p bytes d) :
    (∀ junk buf, skipelems (bytes.length + 1) (bytes ++ 0 :: junk) buf = some (components bytes)) ∧
    ((∃ r s', (namex p bytes).run (handler nodeHandler) s = .ok r s' ∧
      Found s s' r (resolve s.low.node d (components bytes))) ↔
      Clear s bytes false d) ∧
    ((∃ r s', (namexParent p bytes).run (handler nodeHandler) s = .ok r s' ∧
        r.map Prod.snd = (resolveParent s.low.node d (components bytes)).map Prod.snd ∧
        Found s s' (r.map Prod.fst) ((resolveParent s.low.node d (components bytes)).map Prod.fst)) ↔
      Clear s bytes true d) :=
  ⟨skipelems_eq hnul (Nat.lt_succ_self _), returns_iff (namex_exact hc hd), returns_iff (namexParent_exact hc hd)⟩

end Paths

theorem components_dots : components [slash, 46, 46, slash, 46] = [dotdot, dot] := by decide

/-- From the root of an empty image `/../.` is the root. -/
theorem namei_folds_iff_root : ∃ r s', (namex 0 [slash, 46, 46, slash, 46]).run (handler nodeHandler)
    (boot (mkfs emptyImage)) = .ok r s' ∧
    Found (boot (mkfs emptyImage)) s' r (some ⟨rootino, by decide⟩) := by
  have hinv := boot_inv (mkfs_ok emptyImage).wellFormed
  have hlook : ∀ name ∈ [dotdot, dot], lookup (boot (mkfs emptyImage)).low.node ⟨rootino, by decide⟩ name =
      some ⟨rootino, by decide⟩ := by decide +kernel
  have hroom : Room (boot (mkfs emptyImage)) ⟨rootino, by decide⟩ := .inr ⟨1, by decide +kernel⟩
  have hnul : (0 : UInt8) ∉ [slash, 46, 46, slash, 46] := by decide
  have h := (namei_folds_iff (p := 0) (d := ⟨rootino, by decide⟩) hinv.ok.cache hnul
    ⟨fun _ => rfl, fun h => absurd rfl h⟩).2.1.2 ⟨fun _ => hroom, ?_⟩
  · rwa [components_dots, resolve_cons, hlook _ (by decide), Option.bind_some, resolve_cons, hlook _ (by decide)] at h
  · rw [components_dots, passable_step (by decide) (hlook _ (by decide)) (.inr (.inl rfl)),
      passable_step (by decide) (hlook _ (by decide)) (.inr (.inl rfl))]
    trivial

def pathUpX : Path := ⟨[46, 46, 47, 120], by decide, by decide⟩

set_option maxRecDepth 100000 in
/-- `..` of a removed directory is a free inode, in which `x` is not found. -/
theorem namei_panics_in_removed : ∃ s, Reach nodeHandler Anything (boot (mkfs emptyImage)) s ∧
    (∃ d, Origin s 0 pathUpX.bytes d ∧ resolve s.low.node d (components pathUpX.bytes) = none) ∧
    (namei 0 pathUpX).run (handler nodeHandler) s = .panic "ilock: no type" := by
  have h : outcome nodeHandler (boot (mkfs emptyImage)) removeParent (fun s =>
      ((namei 0 pathUpX).run (handler nodeHandler) s).panics "ilock: no type" && decide ((s.core.proc 0).cwd = some 2) &&
      decide (0 < (s.core.icache 2).ref ∧ (s.core.icache 2).inum = 3) &&
      decide (resolve s.low.node 3 (components pathUpX.bytes) = none)) = true := by decide +kernel
  obtain ⟨s, hr, hq⟩ := Reach.after h
  simp only [Bool.and_eq_true, decide_eq_true_eq] at hq
  obtain ⟨⟨⟨hpanic, hcwd⟩, hcache⟩, hres⟩ := hq
  exact ⟨s, hr, ⟨3, ⟨fun h => absurd h (by decide), fun _ => ⟨2, hcwd, hcache⟩⟩, hres⟩, Res.panics_iff.1 hpanic⟩

end Xv6.Fs
