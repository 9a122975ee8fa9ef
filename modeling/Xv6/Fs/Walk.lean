import Xv6.Fs.Dirs

/-!
# Path lookup

Looking up a path is a fold over its names in the table of inodes (`resolve`). `namei` and
`nameiparent` compute it: they go from directory to directory, change only the inode
cache, and keep one reference, to the inode that they return (`Walked`).

They panic if they have to look into a free inode, or if the inode cache is full. What is
asked of the inodes that they come to is a parameter of the two loops (`Route`).
-/

namespace Xv6.Fs

open List

variable {N : Nat} {u : Users} {s s' s1 : St (Nodes N)} {pins temps : List Slot} {b : Slot} {d i j : Fin N} {P : String → Prop}

/-! ## The fold -/

/-- The inode that the directory `d` has under a name. -/
def lookup (n : Fin N → Node) (d : Fin N) (name : Name) : Option (Fin N) :=
  if (n d).attrs.type = tDir then
    ((n d).ents.find? fun e => e.inum ≠ 0 ∧ e.name = name).bind fun e => if h : e.inum < N then some ⟨e.inum, h⟩ else none
  else none

/-- The inode at the end of a path from `d`. -/
def resolve (n : Fin N → Node) (d : Fin N) (names : List Name) : Option (Fin N) := names.foldlM (lookup n) d

/-- The directory of the last element of a path from `d`, and that element. -/
def resolveParent (n : Fin N → Node) (d : Fin N) (names : List Name) : Option (Fin N × Name) := do
  let name ← names.getLast?
  let d ← resolve n d names.dropLast
  if (n d).attrs.type = tDir then some (d, name) else none

theorem resolve_cons (n : Fin N → Node) (d : Fin N) (name : Name) (names : List Name) :
    resolve n d (name :: names) = (lookup n d name).bind fun d => resolve n d names := rfl

theorem resolveParent_single (n : Fin N → Node) (d : Fin N) (name : Name) :
    resolveParent n d [name] = if (n d).attrs.type = tDir then some (d, name) else none := rfl

variable {β : Type} {names : List Name} {n : Fin N → Node} {name : Name} {k : Nat} {Q : β → St (Nodes N) → Prop}

theorem resolveParent_cons (n : Fin N → Node) (d : Fin N) (name : Name) (h : names ≠ []) :
    resolveParent n d (name :: names) = (lookup n d name).bind fun d => resolveParent n d names := by
  obtain ⟨x, t, rfl⟩ := exists_cons_of_ne_nil h
  obtain ⟨l, hl⟩ : ∃ l, (x :: t).getLast? = some l := ⟨_, getLast?_eq_some_getLast (cons_ne_nil x t)⟩
  rw [resolveParent, getLast?_cons_cons, hl, dropLast_cons_of_ne_nil h]
  cases hd : lookup n d name with
  | none => simp [resolve_cons, hd]
  | some d' => simp [resolve_cons, hd, resolveParent, hl]

theorem lookup_of_not_dir (h : (n d).attrs.type ≠ tDir) : lookup n d name = none := if_neg h

/-- The first entry with a name is what is looked up. -/
theorem lookup_eq_some (hdir : (n d).attrs.type = tDir) (hi : 0 < i.val)
    (hk : (n d).ents[k]? = some ⟨i.val, name⟩) (hfirst : ∀ j < k, ∀ e, (n d).ents[j]? = some e → e.inum ≠ 0 → e.name ≠ name) :
    lookup n d name = some i := by
  obtain ⟨hlt, he⟩ := List.getElem?_eq_some_iff.1 hk
  have hfind : ((n d).ents.find? fun e => e.inum ≠ 0 ∧ e.name = name) = some ⟨i.val, name⟩ := by
    refine find?_eq_some_iff_getElem.2 ⟨?_, k, hlt, he, fun j hj => ?_⟩
    · simp
      omega
    · have hne := hfirst j hj (n d).ents[j] (getElem?_eq_getElem _)
      rw [Bool.not_eq_true', decide_eq_false_iff_not, not_and]
      exact hne
  rw [lookup, if_pos hdir, hfind]
  exact dif_pos i.isLt

theorem lookup_eq_none (h : ∀ e ∈ (n d).ents, e.inum ≠ 0 → e.name ≠ name) : lookup n d name = none := by
  rw [lookup]
  split
  · have hfind : ((n d).ents.find? fun e => e.inum ≠ 0 ∧ e.name = name) = none :=
      find?_eq_none.2 fun e he => by simpa [not_and] using h e he
    rw [hfind]
    rfl
  · rfl

theorem of_lookup (h : lookup n d name = some j) :
    (n d).attrs.type = tDir ∧ ∃ e ∈ (n d).ents, e.inum = j.val ∧ 0 < j.val ∧ e.name = name := by
  unfold lookup at h
  split at h
  · obtain ⟨e, he, hej⟩ := Option.bind_eq_some_iff.1 h
    have hq := find?_some he
    simp only [decide_eq_true_eq] at hq
    split at hej
    · cases hej
      exact ⟨‹_›, e, mem_of_find?_eq_some he, rfl, Nat.pos_of_ne_zero hq.1, hq.2⟩
    · cases hej
  · cases h

theorem mem_of_resolveParent {x : Fin N × Name} (h : resolveParent n d names = some x) :
    x.2 ∈ names := by
  obtain ⟨name, hname, h⟩ := Option.bind_eq_some_iff.1 h
  obtain ⟨d', -, h⟩ := Option.bind_eq_some_iff.1 h
  split at h
  · cases h
    exact mem_of_getLast? hname
  · cases h

/-! ## Room in the inode cache -/

/-- There is an entry for the inode. -/
def Cached (s : St (Nodes N)) (i : Fin N) : Prop := ∃ b, Caches s.core b i

def Unused (s : St (Nodes N)) (b : Slot) : Prop := (s.core.icache b).ref = 0

/-- In this state an entry can be had for `j` while there is one for `d`. -/
def Fits (s : St (Nodes N)) (d j : Fin N) : Prop :=
  Cached s j ∨ j = d ∨ ∃ b, Unused s b ∧ (Cached s d ∨ ∃ b', b' ≠ b ∧ Unused s b')

/-- What there is room for when path lookup has come to `d`. -/
theorem room_iff (hc : Cache u s pins temps) (hc1 : Cache u s1 pins (b :: temps)) (hb : Caches s1.core b d)
    (hq : Quiet (Held u pins temps) s s1) : Room s1 j ↔ Fits s d j := by
  have hheld : ∀ c, Held u pins (b :: temps) c ↔ Held u pins temps c ∨ c = b := fun c => by
    unfold Held
    rw [count_cons]
    by_cases hcb : b = c
    · rw [if_pos (by simpa using hcb)]
      exact iff_of_true (by omega) (.inr hcb.symm)
    · rw [if_neg (by simpa using hcb), add_zero]
      exact (or_iff_left (Ne.symm hcb)).symm
  have hzero : ∀ k : Nat, k = 0 ↔ ¬0 < k := fun k => by omega
  have hunused : ∀ c, (s1.core.icache c).ref = 0 ↔ Unused s c ∧ c ≠ b := fun c => by
    rw [Unused, hzero, hzero, hc1.ref_pos, hc.ref_pos, hheld, not_or]
  have hsame : ∀ c (i : Fin N), Held u pins temps c → (Caches s1.core c i ↔ Caches s.core c i) := fun c i hh => by
    rw [Caches, Caches, hc1.ref_pos, hc.ref_pos, hq.keeps.inum c hh]
    exact and_congr_left fun _ => iff_of_true ((hheld c).2 (.inl hh)) hh
  have hcached : Cached s d ↔ Held u pins temps b := by
    constructor
    · rintro ⟨c, hcd⟩
      have hh : Held u pins temps c := hc.ref_pos.1 hcd.1
      rwa [← hc1.uniq c b d ((hsame c d hh).2 hcd) hb]
    · exact fun hh => ⟨b, (hsame b d hh).1 hb⟩
  constructor
  · rintro (⟨c, hcj⟩ | ⟨c, hcz⟩)
    · rcases (hheld c).1 (hc1.ref_pos.1 hcj.1) with hh | rfl
      · exact .inl ⟨c, (hsame c j hh).1 hcj⟩
      · exact .inr (.inl (Fin.ext (hcj.2.symm.trans hb.2)))
    · obtain ⟨hcu, hne⟩ := (hunused c).1 hcz
      refine .inr (.inr ⟨c, hcu, ?_⟩)
      by_cases hh : Held u pins temps b
      · exact .inl (hcached.2 hh)
      · exact .inr ⟨b, Ne.symm hne, (hzero _).2 (mt hc.ref_pos.1 hh)⟩
  · rintro (⟨c, hcj⟩ | rfl | ⟨c, hcu, hd⟩)
    · exact .inl ⟨c, (hsame c j (hc.ref_pos.1 hcj.1)).2 hcj⟩
    · exact .inl ⟨b, hb⟩
    · right
      by_cases hcb : c = b
      · -- the entry was recycled for `d`
        subst hcb
        have hno : ¬Cached s d := fun h => (hzero _).1 hcu (hc.ref_pos.2 (hcached.1 h))
        obtain ⟨c', hne, hcu'⟩ := hd.resolve_left hno
        exact ⟨c', (hunused c').2 ⟨hcu', hne⟩⟩
      · exact ⟨c, (hunused c).2 ⟨hcu, hcb⟩⟩

/-! ## The loops -/

/-- What is asked of the inodes that path lookup comes to. `Good d names` says that it comes
to `d` with these names left. With `parent` the last name is not looked up. -/
structure Route (P : String → Prop) (s : St (Nodes N)) (parent : Bool) (Good : Fin N → List Name → Prop) : Prop where
  typed : ∀ d name rest, Good d (name :: rest) → (s.low.node d).attrs.type = 0 → P "ilock: no type"
  room : ∀ d name rest j, Good d (name :: rest) → ¬(parent ∧ rest = []) → lookup s.low.node d name = some j → ¬Fits s d j →
    P "iget: no inodes"
  next : ∀ d name rest j, Good d (name :: rest) → ¬(parent ∧ rest = []) → lookup s.low.node d name = some j →
    Fits s d j → Good j rest

/-- Path lookup ends at `d` with these names left: there are none, or the next one is not
found or not looked up. -/
def Ended (s : St (Nodes N)) (parent : Bool) (d : Fin N) (names : List Name) : Prop :=
  ∀ name rest, names = name :: rest → (s.low.node d).attrs.type ≠ 0 ∧
    (¬(parent ∧ rest = []) → lookup s.low.node d name = none)

/-- What path lookup leaves behind: the references that there were before, and one to the
inode that it returns. -/
structure Walked (u : Users) (pins temps : List Slot) (s s' : St (Nodes N)) (r : Option Slot) (i : Option (Fin N)) : Prop where
  quiet : Quiet (Held u pins temps) s s'
  none : i = none → r = none ∧ Cache u s' pins temps
  some : ∀ j, i = some j → ∃ b, r = some b ∧ Cache u s' pins (b :: temps) ∧ Caches s'.core b j

variable {Good : Fin N → List Name → Prop}

/-- One step: it goes from the directory `b` to the inode with the name, if there is one and
there is room for it. -/
theorem next_spec {k : Option (Slot × Nat) → FsProg β}
    (hc : Cache u s pins temps) (hc1 : Cache u s1 pins (b :: temps)) (hb : Loads s1.core b d)
    (hq : Quiet (Held u pins temps) s s1)
    (hdir : (s.low.node d).attrs.type = tDir)
    (hfull : ∀ j, lookup s.low.node d name = some j → ¬Fits s d j → P "iget: no inodes")
    (hnone : lookup s.low.node d name = none → Runs P s1 (k none) Q)
    (hsome : ∀ s2 next off j, lookup s.low.node d name = some j → Fits s d j → Caches s2.core next j →
      Cache u s2 pins (b :: next :: temps) → Quiet (Held u pins temps) s s2 → Runs P s2 (k (some (next, off))) Q) :
    Runs P s1 (dirlookup b name >>= k) Q := by
  have hlow := hq.low
  have hroom : ∀ j, Room s1 j ↔ Fits s d j := fun j => room_iff hc hc1 hb.1 hq
  refine .bind (dirlookup_first (Q := fun ip _ s2 => ∃ j, lookup s.low.node d name = some j ∧ Fits s d j ∧
    Cache u s2 pins (ip :: b :: temps) ∧ Caches s2.core ip j ∧ Quiet (Held u pins temps) s1 s2)
    hc1 hb (hlow ▸ hdir) name fun m j hj hm hfirst => ?_) fun r s2 hr => ?_
  · rw [hlow] at hm hfirst
    have hlook := lookup_eq_some hdir hj hm hfirst
    refine (iget_room (fun hno => hfull j hlook (mt (hroom j).2 hno)) hc1 hj).mono ?_
    rintro ip s2 ⟨hr, hc2, hip, hq2⟩
    exact ⟨j, hlook, (hroom j).1 hr, hc2, hip, hq2.mono fun _ => Held.cons⟩
  · cases r with
    | none =>
      obtain ⟨rfl, hno⟩ := hr
      rw [hlow] at hno
      exact hnone (lookup_eq_none hno)
    | some x =>
      obtain ⟨-, -, j, hlook, hfits, hc2, hip, hq2⟩ := hr
      exact hsome s2 x.1 x.2 j hlook hfits hip (hc2.perm (List.Perm.refl _) (List.Perm.swap _ _ _)) (hq.trans hq2)

/-- Both loops lock the inode first. -/
theorem lock_spec {k : Unit → FsProg β} (hc1 : Cache u s1 pins (b :: temps))
    (hb : Caches s1.core b d) (hq : Quiet (Held u pins temps) s s1)
      (hzero : (s.low.node d).attrs.type = 0 → P "ilock: no type")
    (hk : ∀ s2, Cache u s2 pins (b :: temps) → Loads s2.core b d → Quiet (Held u pins temps) s s2 →
      (s2.core.icache b).attrs = (s.low.node d).attrs → (s.low.node d).attrs.type ≠ 0 → Runs P s2 (k ()) Q) :
    Runs P s1 (ilock b >>= k) Q := by
  refine .bind (ilock_spec hc1 hb (by rw [hq.low]; exact hzero)) fun _ s2 ⟨hc2, hb2, hq2⟩ => ?_
  replace hq2 := hq.trans (hq2.mono fun c (h : Held u pins temps c) => h.cons (a := b))
  obtain ⟨hattrs, htyped⟩ := hc2.sync b d hb2
  rw [hq2.low] at hattrs htyped
  exact hk s2 hc2 hb2 hq2 hattrs htyped

/-- Going on from `b` to the next inode. -/
theorem drop_spec {k : Unit → FsProg β} {next : Slot}
    (hc1 : Cache u s1 pins (b :: next :: temps)) (hnext : Caches s1.core next j) (hq : Quiet (Held u pins temps) s s1)
    (hk : ∀ s2, Cache u s2 pins (next :: temps) → Caches s2.core next j → Quiet (Held u pins temps) s s2 →
      Runs P s2 (k ()) Q) :
    Runs P s1 (iunlockput b >>= k) Q := by
  refine .bind (iunlockput_temp_spec hc1) fun _ s2 ⟨hc2, hq2⟩ => ?_
  have hheld : Held u pins (next :: temps) next := Held.temp mem_cons_self
  exact hk s2 hc2 (hc2.keeps_caches hq2.keeps hheld hheld hnext) (hq.trans (hq2.mono fun _ => Held.cons))

theorem walk_spec (hr : Route P s false Good) (hc : Cache u s pins temps) (hc1 : Cache u s1 pins (b :: temps))
    (hb : Caches s1.core b d) (hq : Quiet (Held u pins temps) s s1) (hd : Good d names) :
    Runs P s1 (walk b names) fun r s' => Walked u pins temps s s' r (resolve s.low.node d names) ∧
      (∀ j, resolve s.low.node d names = some j → Good j []) ∧ ∃ d' rest, Good d' rest ∧ Ended s false d' rest := by
  -- by induction on the names: `b` is what has been found so far, and all else is as in `s`
  induction names generalizing s1 b d with
  | nil =>
    refine .ret ⟨⟨hq, nofun, fun j hj => ⟨b, rfl, hc1, Option.some.inj hj ▸ hb⟩⟩, fun j hj => ?_, d, [], hd, nofun⟩
    exact Option.some.inj hj ▸ hd
  | cons name rest ih =>
    refine lock_spec hc1 hb hq (hr.typed d name rest hd) fun s2 hc2 hb2 hq2 hattrs htyped => get_spec ?_
    have hput : lookup s.low.node d name = none → Runs P s2 (do iunlockput b; return none) fun r s' =>
        Walked u pins temps s s' r (resolve s.low.node d (name :: rest)) ∧
        (∀ j, resolve s.low.node d (name :: rest) = some j → Good j []) ∧ ∃ d' rest, Good d' rest ∧
          Ended s false d' rest := fun hno => by
      rw [resolve_cons, hno]
      refine .bind (iunlockput_temp_spec hc2) fun _ s3 h3 => Eff.Spec.ret
        ⟨⟨hq2.trans h3.2, fun _ => ⟨rfl, h3.1⟩, nofun⟩, nofun, d, name :: rest, hd, ?_⟩
      rintro _ _ ⟨⟩
      exact ⟨htyped, fun _ => hno⟩
    rw [hattrs]
    by_cases hdir : (s.low.node d).attrs.type = tDir
    · rw [if_neg (not_not_intro hdir)]
      refine next_spec hc hc2 hb2 hq2 hdir (fun j => hr.room d name rest j hd (by simp)) hput
        fun s3 next off j hlook hfits hnext hc3 hq3 => drop_spec hc3 hnext hq3 fun s4 hc4 hnext4 hq4 => ?_
      rw [resolve_cons, hlook]
      exact ih hc4 hnext4 hq4 (hr.next d name rest j hd (by simp) hlook hfits)
    · rw [if_pos hdir]
      exact hput (lookup_of_not_dir hdir)

theorem walkParent_spec (hr : Route P s true Good) (hc : Cache u s pins temps) (hc1 : Cache u s1 pins (b :: temps))
    (hb : Caches s1.core b d) (hq : Quiet (Held u pins temps) s s1) (hd : Good d names) :
    Runs P s1 (walkParent b names) fun r s' => r.map Prod.snd = (resolveParent s.low.node d names).map Prod.snd ∧
      Walked u pins temps s s' (r.map Prod.fst) ((resolveParent s.low.node d names).map Prod.fst) ∧
      (∀ dp name, r = some (dp, name) → ∃ j, Good j [name] ∧ Loads s'.core dp j ∧ (s.low.node j).attrs.type = tDir) ∧
      ∃ d' rest, Good d' rest ∧ Ended s true d' rest := by
  induction names generalizing s1 b d with
  | nil =>
    exact .bind (iput_temp_spec hc1) fun _ s2 h2 => Eff.Spec.ret
      ⟨rfl, ⟨hq.trans h2.2, fun _ => ⟨rfl, h2.1⟩, nofun⟩, nofun, d, [], hd, nofun⟩
  | cons name rest ih =>
    refine lock_spec hc1 hb hq (hr.typed d name rest hd) fun s2 hc2 hb2 hq2 hattrs htyped => get_spec ?_
    have hput : lookup s.low.node d name = none → resolveParent s.low.node d (name :: rest) = none → Runs P s2
        (do iunlockput b; return none) fun r s' => r.map Prod.snd = (resolveParent s.low.node d (name :: rest)).map Prod.snd ∧
          Walked u pins temps s s' (r.map Prod.fst) ((resolveParent s.low.node d (name :: rest)).map Prod.fst) ∧
          (∀ dp name, r = some (dp, name) → ∃ j, Good j [name] ∧ Loads s'.core dp j ∧ (s.low.node j).attrs.type = tDir) ∧
          ∃ d' rest, Good d' rest ∧ Ended s true d' rest := fun hlook hno => by
      rw [hno]
      refine .bind (iunlockput_temp_spec hc2) fun _ s3 h3 => Eff.Spec.ret
        ⟨rfl, ⟨hq2.trans h3.2, fun _ => ⟨rfl, h3.1⟩, nofun⟩, nofun, d, name :: rest, hd, ?_⟩
      rintro _ _ ⟨⟩
      exact ⟨htyped, fun _ => hlook⟩
    rw [hattrs]
    by_cases hdir : (s.low.node d).attrs.type = tDir
    · rw [if_neg (not_not_intro hdir)]
      by_cases hrest : rest = []
      · subst hrest
        rw [if_pos rfl, resolveParent_single, if_pos hdir]
        refine .bind (iunlock_spec hb2.1) ?_
        rintro _ s2 rfl
        refine .ret ⟨rfl, ⟨hq2, nofun, fun j hj => ⟨b, rfl, hc2, Option.some.inj hj ▸ hb2.1⟩⟩, ?_, d, [name], hd, ?_⟩
        · rintro _ _ ⟨⟩
          exact ⟨d, hd, hb2, hdir⟩
        · rintro _ _ ⟨⟩
          exact ⟨htyped, fun h => absurd ⟨rfl, rfl⟩ h⟩
      · rw [if_neg hrest]
        have hparent := resolveParent_cons s.low.node d name hrest
        refine next_spec hc hc2 hb2 hq2 hdir (fun j => hr.room d name rest j hd (by simp [hrest]))
          (fun hlook => hput hlook (by rw [hparent, hlook]; rfl)) fun s3 next off j hlook hfits hnext hc3 hq3 =>
            drop_spec hc3 hnext hq3 fun s4 hc4 hnext4 hq4 => ?_
        rw [hparent, hlook]
        exact ih hc4 hnext4 hq4 (hr.next d name rest j hd (by simp [hrest]) hlook hfits)
    · rw [if_pos hdir]
      refine hput (lookup_of_not_dir hdir) ?_
      by_cases hrest : rest = []
      · rw [hrest, resolveParent_single, if_neg hdir]
      · rw [resolveParent_cons _ _ _ hrest, lookup_of_not_dir hdir]
        rfl

/-! ## Names in paths -/

theorem skipelem_ok {path rest : List UInt8} (hnonul : 0 ∉ path) (h : skipelem path = some (name, rest)) :
    NameOk name ∧ 0 ∉ rest := by
  have hsub : ∀ x ∈ path.dropWhile (· == slash), x ∈ path := fun x hx => (dropWhile_suffix _).subset hx
  unfold skipelem at h
  split at h
  · cases h
  · rename_i l hl
    cases h
    refine ⟨⟨length_take_le _ _, fun h0 => hnonul (hsub 0 ?_)⟩, fun h0 => hnonul (hsub 0 ?_)⟩
    · exact (List.takeWhile_prefix _).subset (mem_of_mem_take h0)
    · exact (dropWhile_suffix _).subset ((dropWhile_suffix _).subset h0)

theorem elems_go_ok {path : List UInt8} (hnonul : 0 ∉ path) : ∀ name ∈ elems.go k path, NameOk name := by
  induction k generalizing path with
  | zero => exact nofun
  | succ k ih =>
    intro name hname
    unfold elems.go at hname
    split at hname
    · cases hname
    · rename_i x rest hskip
      obtain ⟨hok, hrest⟩ := skipelem_ok hnonul hskip
      rcases mem_cons.mp hname with rfl | hname
      · exact hok
      · exact ih hrest name hname

theorem Path.elems_ok (path : Path) : ∀ name ∈ elems path.bytes, NameOk name := elems_go_ok path.nonul

/-! ## Where a path starts -/

/-- The inode that a path starts at: the root, or the current directory of the process. -/
def Origin (s : St (Nodes N)) (p : Pid) (bytes : List UInt8) (d : Fin N) : Prop :=
  (bytes.head? = some slash → d.val = rootino) ∧
  (bytes.head? ≠ some slash → ∃ b, (s.core.proc p).cwd = some b ∧ Caches s.core b d)

variable {p : Pid} {bytes : List UInt8} {path : Path}

theorem namexStart_spec (hc : Cache u s pins temps) (hd : Origin s p bytes d)
    (hfull : bytes.head? = some slash → ¬Room s d → P "iget: no inodes") :
    Runs P s (namexStart p bytes) fun b s' =>
      (bytes.head? = some slash → Room s d) ∧ Cache u s' pins (b :: temps) ∧ Caches s'.core b d ∧
        Quiet (Held u pins temps) s s' := by
  unfold namexStart
  by_cases habs : bytes.head? = some slash
  · have hroot := hd.1 habs
    rw [if_pos habs, ← hroot]
    refine (iget_room (hfull habs) hc (by rw [hroot]; decide)).mono ?_
    rintro b s' ⟨hr, h⟩
    exact ⟨fun _ => hr, h⟩
  · rw [if_neg habs]
    obtain ⟨b, hb, hcache⟩ := hd.2 habs
    refine get_spec ?_
    rw [hb]
    refine (idup_spec hc hcache).mono ?_
    rintro _ s' ⟨rfl, h⟩
    exact ⟨fun h => absurd h habs, h⟩

/-! ## Lookup among allocated inodes -/

/-- Path lookup that starts at an inode in `Good` stays there, and finds no inode
that is free unless that panic is allowed. -/
structure Closed (P : String → Prop) (n : Fin N → Node) (Good : Fin N → Prop) : Prop where
  typed : ∀ i, Good i → (n i).attrs.type = 0 → P "ilock: no type"
  entry : ∀ d i e, Good d → (n d).attrs.type = tDir → e ∈ (n d).ents → e.inum = i.val → 0 < i.val → Good i

/-- Lookup of the path by the process `p` starts at an inode in `Good`. -/
structure Start (Good : Fin N → Prop) (c : Core) (p : Pid) (path : Path) : Prop where
  root : ∀ i : Fin N, i.val = rootino → Good i
  cwd : path.bytes.head? ≠ some slash → elems path.bytes ≠ [] → ∀ b i, (c.proc p).cwd = some b → Caches c b i → Good i

/-- The process has a current directory. -/
def HasCwd (u : Users) (c : Core) (p : Pid) : Prop := ∃ b, (c.proc p).cwd = some b ∧ 0 < u.count b

/-- Path lookup may come to `d` with these names left. -/
def Comes (P : String → Prop) (n : Fin N → Node) (Good : Fin N → Prop) (d : Fin N) (names : List Name) : Prop :=
  ((n d).attrs.type = 0 → P "ilock: no type") ∧ (names ≠ [] → Good d)

section Closed

variable {Good : Fin N → Prop} (hP : ∀ m ∈ exhausted, P m) (hN : rootino < N) (hG : Closed P s.low.node Good)
include hP hG

theorem Closed.route (parent : Bool) : Route P s parent (Comes P s.low.node Good) where
  typed _ _ _ h := h.1
  room _ _ _ _ _ _ _ _ := hP _ (by decide)
  next d name rest j h _ hj _ := by
    obtain ⟨hdir, e, he, hej, hpos, -⟩ := of_lookup hj
    have hgood := hG.entry d j e (h.2 (cons_ne_nil name rest)) hdir he hej hpos
    exact ⟨hG.typed j hgood, fun _ => hgood⟩

variable (hstart : Start Good s.core p path) (hc : Cache u s pins temps) (hcwd : HasCwd u s.core p)
include hN hstart hc hcwd

omit hP in
theorem Start.origin : ∃ d, Origin s p path.bytes d ∧ Comes P s.low.node Good d (elems path.bytes) := by
  by_cases habs : path.bytes.head? = some slash
  · have hroot := hstart.root ⟨rootino, hN⟩ rfl
    exact ⟨⟨rootino, hN⟩, ⟨fun _ => rfl, fun h => absurd habs h⟩, hG.typed _ hroot, fun _ => hroot⟩
  · obtain ⟨b, hb, hu⟩ := hcwd
    obtain ⟨i, hi, hcache⟩ := hc.caches (b := b) (by unfold Held; omega)
    exact ⟨i, ⟨fun h => absurd h habs, fun _ => ⟨b, hb, hcache⟩⟩, fun h => absurd h (hc.live _ i hcache hu),
      fun hne => hstart.cwd habs hne _ i hb hcache⟩

theorem namei_spec :
    Runs P s (namei p path) fun r s' => Quiet (Held u pins temps) s s' ∧ match r with
      | none => Cache u s' pins temps
      | some b => ∃ i, Cache u s' pins (b :: temps) ∧ Caches s'.core b i ∧
          ((s.low.node i).attrs.type = 0 → P "ilock: no type") := by
  obtain ⟨d, hd, hcomes⟩ := hstart.origin hN hG hc hcwd
  refine .bind (namexStart_spec hc hd fun _ _ => hP _ (by decide)) ?_
  rintro b s1 ⟨-, hc1, hb, hq⟩
  refine (walk_spec (hG.route hP false) hc hc1 hb hq hcomes).mono fun r s' ⟨hw, hgood, _⟩ => ⟨hw.quiet, ?_⟩
  cases hi : resolve s.low.node d (elems path.bytes) with
  | none =>
    obtain ⟨rfl, hc'⟩ := hw.none hi
    exact hc'
  | some i =>
    obtain ⟨b', rfl, hc', hb'⟩ := hw.some i hi
    exact ⟨i, hc', hb', (hgood i hi).1⟩

theorem nameiparent_spec :
    Runs P s (nameiparent p path) fun r s' => Quiet (Held u pins temps) s s' ∧ match r with
      | none => Cache u s' pins temps
      | some (dp, name) => NameOk name ∧ ∃ d, Cache u s' pins (dp :: temps) ∧ Loads s'.core dp d ∧
          (s.low.node d).attrs.type = tDir ∧ Good d := by
  obtain ⟨d, hd, hcomes⟩ := hstart.origin hN hG hc hcwd
  refine .bind (namexStart_spec hc hd fun _ _ => hP _ (by decide)) ?_
  rintro b s1 ⟨-, hc1, hb, hq⟩
  refine (walkParent_spec (hG.route hP true) hc hc1 hb hq hcomes).mono fun r s' ⟨hname, hw, hgood, _⟩ => ⟨hw.quiet, ?_⟩
  cases hx : resolveParent s.low.node d (elems path.bytes) with
  | none =>
    rw [hx] at hw
    obtain ⟨hr, hc'⟩ := hw.none rfl
    rw [Option.map_eq_none_iff.1 hr]
    exact hc'
  | some x =>
    rw [hx] at hw hname
    obtain ⟨dp, hr, hc', -⟩ := hw.some x.1 rfl
    obtain ⟨y, rfl, rfl⟩ := Option.map_eq_some_iff.1 hr
    obtain ⟨j, hj, hb', hdir⟩ := hgood y.1 y.2 rfl
    have hy : y.2 = x.2 := Option.some.inj hname
    exact ⟨hy ▸ path.elems_ok x.2 (mem_of_resolveParent hx), j, hc', hb', hdir, hj.2 (cons_ne_nil _ _)⟩

end Closed

end Xv6.Fs
