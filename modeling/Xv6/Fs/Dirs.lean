import Xv6.Fs.Inodes

/-!
# Directories

What the functions on directories do to the table of inodes. `dirlookup` finds
an entry with the name and `dirlink` adds one (`Node.put`).
-/

namespace Xv6.Fs

open List

variable {N : Nat} {u : Users} {s : St (Nodes N)} {pins temps : List Slot} {b dp : Slot} {i d : Fin N}
  {P : String → Prop}

/-! ## Entries -/

variable {k : Nat} {x : Node} {e : Dirent}

/-- A loop over entries that changes nothing before it ends. If the body goes on
then `A` holds for the entry, and if it ends then `F` holds of its value. It comes to an
entry if `A` holds for those before. -/
theorem scan_spec {α : Type} {f : Nat → FsProg (Option α)} {off : Nat} {A : Nat → Prop} {F : Nat → α → St (Nodes N) → Prop}
    (hf : ∀ m, m < k → (∀ j < m, A j) → Runs P s (f (off + 16 * m)) fun r s' => match r with
      | some x => F m x s'
      | none => s' = s ∧ A m) :
    Runs P s (scan f k off) fun r s' => match r with
      | some x => ∃ m < k, (∀ j < m, A j) ∧ F m x s'
      | none => s' = s ∧ ∀ m < k, A m := by
  induction k generalizing off A F with
  | zero => exact .ret ⟨rfl, nofun⟩
  | succ k ih =>
    refine .bind (hf 0 (Nat.succ_pos k) fun j hj => absurd hj j.not_lt_zero) fun r s' hr => ?_
    cases r with
    | some x => exact .ret ⟨0, Nat.succ_pos k, fun j hj => absurd hj j.not_lt_zero, hr⟩
    | none =>
      obtain ⟨rfl, h0⟩ := hr
      have hall : ∀ n, (∀ j < n, A (j + 1)) → ∀ j < n + 1, A j := fun n hn j hj => by
        cases j with
        | zero => exact h0
        | succ j => exact hn j (Nat.lt_of_succ_lt_succ hj)
      have hnext : ∀ m, m < k → (∀ j < m, A (j + 1)) → Runs P s' (f (off + 16 + 16 * m)) fun r s1 => match r with
          | some x => F (m + 1) x s1
          | none => s1 = s' ∧ A (m + 1) := fun m hm hj => by
        have := hf (m + 1) (Nat.succ_lt_succ hm) (hall m hj)
        rwa [Nat.mul_succ, add_comm (16 * m), ← add_assoc] at this
      refine (ih hnext).mono fun r s' hr => ?_
      cases r with
      | some x =>
        obtain ⟨m, hm, ha, hx⟩ := hr
        exact ⟨m + 1, Nat.succ_lt_succ hm, hall m ha, hx⟩
      | none => exact ⟨hr.1, hall k hr.2⟩

theorem DirOk.entries (h : DirOk N x) : entries x.attrs.size = x.ents.length := by
  rw [h.size, Fs.entries]
  omega

theorem DirOk.put (h : DirOk N x) (hk : k ≤ x.ents.length) (he : e.inum < N)
    (hmax : 16 * k + 16 ≤ maxfile * bsize) : DirOk N (x.put k e) := by
  have hsize := h.size
  refine ⟨?_, ?_, fun e' he' => ?_⟩
  · show max x.attrs.size (16 * k + 16) = 16 * (if k < x.ents.length then x.ents.set k e else x.ents ++ [e]).length
    split
    · rw [length_set]; omega
    · rw [length_append, length_singleton]; omega
  · exact Nat.max_le.mpr ⟨h.fits, hmax⟩
  · change e' ∈ (if k < x.ents.length then x.ents.set k e else x.ents ++ [e]) at he'
    split at he'
    · rcases mem_or_eq_of_mem_set he' with he' | rfl
      · exact h.inum e' he'
      · exact he
    · rcases mem_append.mp he' with he' | he'
      · exact h.inum e' he'
      · rw [mem_singleton.mp he']; exact he

/-- A name that fits into a directory entry. -/
structure NameOk (name : Name) : Prop where
  len : name.length ≤ dirsiz
  nonul : 0 ∉ name

/-- An inode without links that is cached is in use, or it is pinned. -/
theorem Cache.in_use (hc : Cache u s pins temps) (hb : Loads s.core b i) (hn : (s.low.node i).attrs.nlink = 0) :
    0 < u.count b ∨ b ∈ pins := by
  obtain ⟨c, hci, ho⟩ := hc.orphan i (hc.sync b i hb).2 hn
  obtain rfl := hc.uniq b c i hb.1 hci
  exact ho.imp_left And.right

theorem DirOk.canWrite (h : DirOk N x) (hk : k < x.ents.length) : canWrite x.attrs.size (16 * k) 16 := by
  have hsize := h.size
  have hfits := h.fits
  have hsmall : maxfile * bsize < 2 ^ 32 := by decide
  refine ⟨by omega, ?_, by omega⟩
  rw [Nat.mod_eq_of_lt (by omega)]
  omega

/-- Where `dirlink` puts an entry: in the place of one that is not used, or at
the end. -/
def Free (x : Node) (k : Nat) : Prop := ∃ h : k ≤ x.ents.length, ∀ h : k < x.ents.length, x.ents[k].inum = 0

section Directory

variable (hN : N ≤ 2 ^ 16) (hP : ∀ m ∈ exhausted, P m) (hc : Cache u s pins temps) (hb : Loads s.core dp d)
  (hdir : (s.low.node d).attrs.type = tDir)

include hc hb hdir

theorem readDirent_ok {m : Nat} (hm : m < (s.low.node d).ents.length) :
    nodeHandler _ (.readDirent dp (16 * m)) s.core s.low = .ok (some (s.low.node d).ents[m]) s.low := by
  have hsize := (hc.dirs d hdir).size
  simp only [nodeHandler]
  rw [onContents_eq hb (hc.sync dp d hb).1, if_pos ⟨hdir, Nat.mul_mod_right 16 m⟩, if_pos (by omega),
    Nat.mul_div_cancel_left m (by decide), getElem?_eq_getElem hm]

/-- `dirlookup` gets the inode of the first entry with the name. -/
theorem dirlookup_first {Q : Slot → Nat → St (Nodes N) → Prop} (name : Name)
    (hget : ∀ k (i : Fin N), 0 < i.val → (s.low.node d).ents[k]? = some ⟨i.val, name⟩ →
      (∀ j < k, ∀ e, (s.low.node d).ents[j]? = some e → e.inum ≠ 0 → e.name ≠ name) →
      Runs P s (iget rootdev i.val) fun ip s' => Q ip k s') :
    Runs P s (dirlookup dp name) fun r s' => match r with
      | none => s' = s ∧ ∀ e ∈ (s.low.node d).ents, e.inum ≠ 0 → e.name ≠ name
      | some (ip, off) => ∃ k, off = 16 * k ∧ Q ip k s' := by
  obtain ⟨hattrs, -⟩ := hc.sync dp d hb
  have hok := hc.dirs d hdir
  refine get_spec ?_
  rw [if_neg (by rw [hattrs]; exact fun h => h hdir), hattrs, hok.entries]
  refine .mono (scan_spec (A := fun m => ∀ e, (s.low.node d).ents[m]? = some e → e.inum ≠ 0 → e.name ≠ name)
    (F := fun m x s' => x.2 = 16 * m ∧ Q x.1 m s') fun m hm hbefore => ?_) ?_
  · rw [zero_add]
    refine low_ok (readDirent_ok hc hb hdir hm) ?_
    have he : (s.low.node d).ents[m]? = some (s.low.node d).ents[m] := getElem?_eq_getElem hm
    have hlt := hok.inum _ (getElem_mem hm)
    generalize (s.low.node d).ents[m] = e at he hlt ⊢
    show Runs P s (if e.inum = 0 then _ else _) _
    by_cases hzero : e.inum = 0
    · rw [if_pos hzero]
      refine .ret ⟨rfl, fun e' he' hne => ?_⟩
      obtain rfl : e = e' := Option.some.inj (he.symm.trans he')
      exact absurd hzero hne
    · rw [if_neg hzero]
      by_cases hname : e.name = name
      · rw [if_pos hname, hc.dev dp hb.1.1]
        refine .bind (hget m ⟨e.inum, hlt⟩ (Nat.pos_of_ne_zero hzero) (by rw [he, ← hname]) hbefore) fun ip s' hs' => ?_
        exact .ret ⟨rfl, hs'⟩
      · rw [if_neg hname]
        refine .ret ⟨rfl, fun e' he' _ => ?_⟩
        obtain rfl : e = e' := Option.some.inj (he.symm.trans he')
        exact hname
  · intro r s' hr
    cases r with
    | none =>
      refine ⟨hr.1, fun e he => ?_⟩
      obtain ⟨m, hm, hme⟩ := getElem_of_mem he
      exact hr.2 m hm e (by rw [← hme]; exact getElem?_eq_getElem hm)
    | some x =>
      obtain ⟨m, -, -, hx⟩ := hr
      exact ⟨m, hx⟩

include hP in
theorem dirlookup_spec (name : Name) :
    Runs P s (dirlookup dp name) fun r s' => match r with
      | none => s' = s ∧ ∀ e ∈ (s.low.node d).ents, e.inum ≠ 0 → e.name ≠ name
      | some (ip, off) => ∃ k, off = 16 * k ∧ ∃ i : Fin N, 0 < i.val ∧ (s.low.node d).ents[k]? = some ⟨i.val, name⟩ ∧
          Cache u s' pins (ip :: temps) ∧ Caches s'.core ip i ∧ Quiet (Held u pins temps) s s' :=
  dirlookup_first hc hb hdir name fun _ i hi hk _ => (iget_spec hP hc hi).mono fun _ _ h => ⟨i, hi, hk, h⟩

/-! ## Writing entries -/

include hN in
theorem writeDirent_eq (k : Nat) (he : e.inum < N) (hname : NameOk e.name) :
    nodeHandler _ (.writeDirent dp (16 * k) e) s.core s.low =
      if canWrite (s.low.node d).attrs.size (16 * k) 16 then
        .ok (some ((s.low.node d).put k e).attrs.size) (s.low.write d ((s.low.node d).put k e))
      else .ok none s.low := by
  simp only [nodeHandler]
  rw [onContents_eq hb (hc.sync dp d hb).1, if_pos ⟨hdir, Nat.mul_mod_right 16 k, by omega, hname.len, hname.nonul⟩,
    Nat.mul_div_cancel_left k (by decide)]

include hN in
theorem writeDirent_spec (hk : k ≤ (s.low.node d).ents.length) (he : e.inum < N) (hname : NameOk e.name) :
    Runs P s (writeDirent dp (16 * k) e) fun r s' =>
      (r = true ∧ s'.low = s.low.write d ((s.low.node d).put k e) ∧ Cache u s' pins temps ∧ s'.core.hist = s.core.hist ∧
        Keeps (fun _ => True) s.core s'.core) ∨
      r = false ∧ k = (s.low.node d).ents.length := by
  have hok := hc.dirs d hdir
  have hattrs := (hc.sync dp d hb).1
  have heq := writeDirent_eq hN hc hb hdir k he hname
  by_cases hcan : canWrite (s.low.node d).attrs.size (16 * k) 16
  · rw [if_pos hcan] at heq
    refine low_ok heq (modify_spec (.ret (.inl ⟨rfl, rfl, ?_, rfl, Keeps.setInode fun _ => ⟨rfl, id⟩⟩)))
    refine hc.update (y := (s.low.node d).put k e) hb ?_ rfl rfl (fun _ => hok.put hk he hcan.2.2) (hc.in_use hb)
    show (s.core.setAttrs dp _).icache = _
    simp only [St.withLow_core, hattrs]
    rfl
  · rw [if_neg hcan] at heq
    refine low_ok heq (.ret (.inr ⟨rfl, ?_⟩))
    by_contra hne
    exact hcan (hok.canWrite (by omega))

include hN hP in
theorem dirlink_spec {name : Name} (hname : NameOk name) (i : Fin N) :
    Runs P s (dirlink dp name i.val) fun r s' =>
      (r = true ∧ (∀ e ∈ (s.low.node d).ents, e.inum ≠ 0 → e.name ≠ name) ∧
        (∃ k, Free (s.low.node d) k ∧ s'.low = s.low.write d ((s.low.node d).put k ⟨i.val, name⟩)) ∧
        Cache u s' pins temps ∧ s'.core.hist = s.core.hist ∧ Keeps (Held u pins temps) s.core s'.core) ∨
      r = false ∧ (∃ e ∈ (s.low.node d).ents, e.inum ≠ 0 ∧ e.name = name) ∧ Cache u s' pins temps ∧
        Quiet (Held u pins temps) s s' := by
  have hok := hc.dirs d hdir
  obtain ⟨hattrs, -⟩ := hc.sync dp d hb
  refine .bind (dirlookup_spec hP hc hb hdir name) fun r s1 hr => ?_
  cases r with
  | some x =>
    obtain ⟨k, -, j, hj, hk, hc1, -, hq⟩ := hr
    refine .bind (iput_temp_spec hc1) fun _ s2 h2 => Eff.Spec.ret (.inr ⟨rfl, ?_, h2.1, hq.trans (h2.2.mono fun _ => id)⟩)
    exact ⟨_, mem_of_getElem? hk, by show j.val ≠ 0; omega, rfl⟩
  | none =>
    obtain ⟨rfl, hnone⟩ := hr
    refine get_spec ?_
    dsimp only
    rw [hattrs, hok.entries]
    refine .bind (Q := fun r s' => s' = s1 ∧ ∃ k, r.getD (16 * (s1.low.node d).ents.length) = 16 * k ∧ Free (s1.low.node d) k)
      (.mono (scan_spec (A := fun _ => True) (F := fun m x s' => x = 16 * m ∧ s' = s1 ∧ Free (s1.low.node d) m)
        fun m hm _ => ?_) ?_) ?_
    · rw [zero_add]
      refine low_ok (readDirent_ok hc hb hdir hm) ?_
      show Runs P s1 (if (s1.low.node d).ents[m].inum = 0 then _ else _) _
      by_cases hzero : (s1.low.node d).ents[m].inum = 0
      · rw [if_pos hzero]
        exact .ret ⟨rfl, rfl, hm.le, fun _ => hzero⟩
      · rw [if_neg hzero]
        exact .ret ⟨rfl, trivial⟩
    · intro r s' hr
      cases r with
      | some x =>
        obtain ⟨m, -, -, rfl, rfl, hm⟩ := hr
        exact ⟨rfl, m, rfl, hm⟩
      | none => exact ⟨hr.1, _, rfl, le_refl _, fun h => absurd h (lt_irrefl _)⟩
    · rintro r s ⟨rfl, k, hk, hfree⟩
      have hmod : i.val % 2 ^ 16 = i.val := Nat.mod_eq_of_lt (by have := i.isLt; omega)
      rw [hk, hmod]
      refine .bind (writeDirent_spec hN hc hb hdir hfree.1 (e := ⟨i.val, name⟩) i.isLt hname) fun r s' hr => ?_
      rcases hr with ⟨rfl, hlow, hc', hh, hkeep⟩ | ⟨rfl, -⟩
      · exact .ret (.inl ⟨rfl, hnone, ⟨k, hfree, hlow⟩, hc', hh, hkeep.mono fun _ _ => trivial⟩)
      · exact stop_spec (hP _ (by decide))

theorem isdirempty_spec :
    Runs P s (isdirempty dp) fun r s' => s' = s ∧ (r = true ↔ ∀ e ∈ (s.low.node d).ents.drop 2, e.inum = 0) := by
  have hok := hc.dirs d hdir
  obtain ⟨hattrs, -⟩ := hc.sync dp d hb
  refine get_spec ?_
  dsimp only
  rw [hattrs, hok.entries]
  refine .bind (scan_spec (A := fun m => ∀ e, (s.low.node d).ents[m + 2]? = some e → e.inum = 0)
    (F := fun m _ s' => s' = s ∧ ∃ e, (s.low.node d).ents[m + 2]? = some e ∧ e.inum ≠ 0) fun m hm _ => ?_) ?_
  · have hlt : m + 2 < (s.low.node d).ents.length := by omega
    have hread := readDirent_ok hc hb hdir hlt
    have hoff : 32 + 16 * m = 16 * (m + 2) := by omega
    rw [hoff]
    refine low_ok hread ?_
    have he : (s.low.node d).ents[m + 2]? = some (s.low.node d).ents[m + 2] := getElem?_eq_getElem hlt
    generalize (s.low.node d).ents[m + 2] = e at he ⊢
    show Runs P s (if e.inum ≠ 0 then _ else _) _
    by_cases hzero : e.inum = 0
    · rw [if_neg (not_not_intro hzero)]
      refine .ret ⟨rfl, fun e' he' => ?_⟩
      obtain rfl : e = e' := Option.some.inj (he.symm.trans he')
      exact hzero
    · rw [if_pos hzero]
      exact .ret ⟨rfl, e, he, hzero⟩
  · intro r s' hr
    cases r with
    | some x =>
      obtain ⟨m, -, -, rfl, e, he, hne⟩ := hr
      refine .ret ⟨rfl, (nofun), fun h => absurd (h e ?_) hne⟩
      exact mem_of_getElem? (i := m) (by rw [getElem?_drop, Nat.add_comm]; exact he)
    | none =>
      obtain ⟨rfl, hall⟩ := hr
      refine .ret ⟨rfl, fun _ e he => ?_, fun _ => rfl⟩
      obtain ⟨m, hm, hme⟩ := getElem_of_mem he
      rw [length_drop] at hm
      refine hall m hm e ?_
      rw [← hme, getElem_drop, add_comm m 2, getElem?_eq_getElem]

end Directory

end Xv6.Fs
