import Xv6.Fs.Files

/-!
# The functions on files

What `filealloc`, `fileclose`, `fdalloc` and the others do to the file table and
to the inode cache. Closing a file drops its reference to the inode cache, in a
transaction that frees the inode if that was the last reference and the inode
has no links.
-/

namespace Xv6.Fs

open Function

variable {N : Nat} {proc proc' : Pid → Proc} {g g' : List FileId} {s s' : St (Nodes N)} {pins temps : List Slot}
  {f : FileId} {x : File} {b : Slot} {i d : Fin N} {p : Pid} {u : Users} {P : String → Prop}
  {calm : Prop} {e : Hist} {l l1 : Nodes N}

/-! ## Transactions -/

variable {β : Type} {Q : β → St (Nodes N) → Prop}

theorem Dropped.settled (h : Dropped s s' b i) :
    Settled (s.low.node i) (s'.low.node i) ∧ ∀ j, j ≠ i → s'.low.node j = s.low.node j := by
  unfold Dropped at h
  split at h
  · rename_i hfree
    rw [h, Nodes.free_node, update_self]
    exact ⟨.inr ⟨hfree.2, rfl⟩, fun j hj => update_of_ne hj ..⟩
  · rw [h]
    exact ⟨.inl rfl, fun _ _ => rfl⟩

theorem Dropped.disks (h : Dropped s s' b i) : s'.low.disks = s.low.disks := by
  unfold Dropped at h
  split at h
  · rw [h, Nodes.free, Nodes.write_disks, Nodes.write_disks]
  · rw [h]

theorem Dropped.txs (h : Dropped s s' b i) (ht : (s.low.node i).attrs.type ≠ 0) :
    Relation.ReflTransGen (Tx calm e) s.low.node s'.low.node := by
  unfold Dropped at h
  split at h
  · rename_i hfree
    rw [h]
    exact .single (.free i ht hfree.2 (Nodes.free_node _ i))
  · rw [h]

/-- A transaction is committed. -/
theorem Txs.op (h : l1.disks = l.disks) (htx : Relation.ReflTransGen (Tx calm e) l.node l1.node) : Txs calm e l l1.commit :=
  .commit (refl l) htx (by rw [← h]; rfl)

theorem Txs.quiet (calm : Prop) (e : Hist) (l : Nodes N) : Txs calm e l l.commit := .op rfl .refl

theorem beginOp_run {k : Unit → FsProg β}
    (hk : Runs P s (k ()) Q) : Runs P s (beginOp >>= k) Q := low_ok rfl hk

theorem endOp_run {k : Unit → FsProg β}
    (hk : Runs P (s.withLow s.low.commit) (k ()) Q) : Runs P s (endOp >>= k) Q := low_ok rfl hk

/-! ## References to the inode cache -/

/-- The file table and the inode cache in the middle of a call. -/
structure Ok (proc : Pid → Proc) (g : List FileId) (s : St (Nodes N)) (pins temps : List Slot) : Prop where
  files : Files proc g s.core
  cache : Cache (users s.core.file proc) s pins temps

theorem users_setFile (file : FileId → File) (f : FileId) (x : File) (proc : Pid → Proc) (b : Slot) :
    (users (update file f x) proc).count b + (fileRef b (file f)).toNat =
    (users file proc).count b + (fileRef b x).toNat := by
  have := tally_update file (fileRef b) f x
  simp only [users]
  omega

/-- A file that is open for writing was it before, or is the one that changed. -/
theorem writer_setFile {file : FileId → File} (h : (users (update file f x) proc).writer b) :
    (users file proc).writer b ∨ fileRef b x = true ∧ x.type = .inode ∧ x.writable = true := by
  obtain ⟨f', hf'⟩ := h
  by_cases hff : f' = f
  · rw [hff, update_self] at hf'
    exact .inr hf'
  · rw [update_of_ne hff] at hf'
    exact .inl ⟨f', hf'⟩

/-- A change of a file that keeps its reference to the inode cache. -/
theorem Ok.setFile (h : Ok proc g s pins temps) (hfiles : Files proc g' (s.core.setFile f x))
    (href : ∀ b, fileRef b x = fileRef b (s.core.file f))
    (hw : x.writable = true → (s.core.file f).writable = true) (ht : x.type = .inode → (s.core.file f).type = .inode) :
    Ok proc g' (s.withCore (s.core.setFile f x)) pins temps := by
  refine ⟨hfiles, h.cache.congr rfl rfl (fun b => ?_) fun b hb => ?_⟩
  · have := users_setFile s.core.file f x proc b
    rw [href b] at this
    exact Nat.add_right_cancel this
  · rcases writer_setFile hb with hb | ⟨h1, h2, h3⟩
    · exact hb
    · exact ⟨f, (href b).symm.trans h1, ht h2, hw h3⟩

theorem fileRef_of_type (ht : x.type = .none ∨ x.type = .pipe) (b : Slot) : fileRef b x = false := by
  unfold fileRef
  rcases ht with ht | ht <;> simp [ht]

theorem fileRef_withRef {r : Nat} (hx : 0 < x.ref) (hr : 0 < r) (b : Slot) : fileRef b (x.withRef r) = fileRef b x := by
  unfold fileRef
  rw [decide_eq_true hx, decide_eq_true (show 0 < (x.withRef r).ref from hr)]
  rfl

theorem fileRef_of_inode (hr : 0 < x.ref) (ht : x.type = .inode ∨ x.type = .device) (b : Slot) :
    fileRef b x = decide (x.ip = b) := by
  unfold fileRef
  rcases ht with ht | ht <;> simp [ht, hr]

theorem count_slot_toNat (a b : Slot) : [a].count b = (decide (a = b)).toNat := by
  by_cases h : a = b
  · simp [h]
  · rw [List.count_singleton, if_neg (by simpa using h), decide_eq_false h]
    rfl

/-! ## Files -/

theorem filealloc_spec (h : Ok proc g s pins temps) :
    Runs P s filealloc fun r s' => match r with
      | none => s' = s
      | some f => Ok proc (f :: g) s' pins temps ∧ (s.core.file f).ref = 0 ∧
          s' = s.withCore (s.core.setFile f ((s.core.file f).withRef 1)) := by
  refine core_spec ?_
  cases hf : first fun f => (s.core.file f).ref = 0 with
  | none => exact rfl
  | some f =>
    have hzero := of_decide_eq_true (first_some hf)
    have hnone := h.files.free f hzero
    refine ⟨h.setFile (h.files.filealloc hzero) (fun b => ?_) id id, hzero, rfl⟩
    exact (fileRef_of_type (x := (s.core.file f).withRef 1) (.inl hnone) b).trans (fileRef_of_type (.inl hnone) b).symm

theorem filedup_spec (h : Ok proc g s pins temps) (hf : 0 < (s.core.file f).ref) :
    Runs P s (filedup f) fun _ s' => Ok proc (f :: g) s' pins temps ∧ s'.core.proc = s.core.proc ∧
      (s'.core.file f).type = (s.core.file f).type ∧ s'.core.hist = s.core.hist ∧ s'.low = s.low ∧
      s'.core.icache = s.core.icache := by
  refine core_spec ?_
  rw [if_neg (by omega)]
  exact ⟨h.setFile (h.files.filedup hf) (fileRef_withRef hf (Nat.succ_pos _)) id id, rfl, by simp [File.withRef],
    rfl, rfl, rfl⟩

theorem fdalloc_spec : Runs P s (fdalloc p f) fun r s' => match r with
    | none => s' = s
    | some fd => (s.core.proc p).ofile fd = none ∧ s' = s.withCore (s.core.setProc p ((s.core.proc p).setFd fd (some f))) := by
  refine get_spec ?_
  cases hfd : first fun fd => ((s.core.proc p).ofile fd).isNone with
  | none => exact .ret rfl
  | some fd => exact modify_spec (.ret ⟨Option.isNone_iff_eq_none.mp (first_some hfd), rfl⟩)

/-- Closing a file without a type only drops the reference. -/
theorem fileclose_none {Q : Unit → St (Nodes N) → Prop} (hr : (s.core.file f).ref = 1) (ht : (s.core.file f).type = .none)
    (hq : Q () (s.withCore (s.core.setFile f (s.core.file f).closed))) : Runs P s (fileclose f) Q := by
  refine get_spec ?_
  rw [if_neg (by omega), if_neg (by omega)]
  refine modify_spec ?_
  rw [ht]
  exact .ret hq

/-- An inode without links that is cached is valid, outside of the calls that
remove links. -/
theorem Cache.valid_of_unlinked (h : Cache u s [] temps) (hb : Caches s.core b i) (ht : (s.low.node i).attrs.type ≠ 0)
    (hn : (s.low.node i).attrs.nlink = 0) : (s.core.icache b).valid = true := by
  obtain ⟨c, hc, ho⟩ := h.orphan i ht hn
  obtain rfl := h.uniq b c i hb hc
  exact ho.elim And.left nofun

/-- The reference of a file or a process is dropped, in a transaction of its own. -/
theorem iput_user_spec (calm : Prop) (e : Hist) (u' : Users) (hc : Cache u s [] []) (hb : 0 < u.count b)
    (hu : ∀ c, u.count c = u'.count c + [b].count c)
    (hw : ∀ c, u'.writer c → u.writer c) :
    Runs P s (do beginOp; iput b; endOp) fun _ s' => Cache u' s' [] [] ∧ Keeps (fun _ => False) s.core s'.core ∧
      s'.core.hist = s.core.hist ∧ Txs calm e s.low s'.low := by
  obtain ⟨i, -, hi⟩ := hc.caches (b := b) (by unfold Held; omega)
  have htype := hc.live b i hi hb
  refine beginOp_run (.bind (iput_pin_spec (hc.take hu hw) hi (List.not_mem_nil) fun hn =>
    hc.valid_of_unlinked hi htype hn) ?_)
  rintro _ s1 ⟨hc1, hdrop, hh, hk⟩
  refine low_spec ⟨hc1.moved rfl rfl, hk.mono fun _ h => h.elim, hh, ?_⟩
  exact Txs.op hdrop.disks (hdrop.txs htype)

/-- Closing a file that has a reference to the inode cache. -/
theorem fileclose_inode (calm : Prop) (e : Hist) (h : Ok proc (f :: g) s [] []) (hone : (s.core.file f).ref = 1)
    (ht : (s.core.file f).type = .inode ∨ (s.core.file f).type = .device) :
    Runs P (s.withCore (s.core.setFile f (s.core.file f).closed)) (do beginOp; iput (s.core.file f).ip; endOp) fun _ s' =>
      Ok proc g s' [] [] ∧ s'.core.proc = s.core.proc ∧ s'.core.hist = s.core.hist ∧ Txs calm e s.low s'.low := by
  have hold := fileRef_of_inode (by omega) ht
  have hpipe : (s.core.file f).type ≠ .pipe := by rcases ht with ht | ht <;> rw [ht] <;> decide
  have hc : Cache (users s.core.file proc) (s.withCore (s.core.setFile f (s.core.file f).closed)) [] [] :=
    h.cache.moved rfl rfl
  refine (iput_user_spec calm e (users (s.core.setFile f (s.core.file f).closed).file proc) hc ?_ (fun b => ?_)
    fun b hb => ?_).mono ?_
  · exact lt_of_lt_of_le (tally_pos (i := f) (by rw [hold]; exact decide_eq_true rfl)) (le_self_add)
  · have := users_setFile s.core.file f (s.core.file f).closed proc b
    rw [fileRef_of_type (x := (s.core.file f).closed) (.inl rfl), hold, ← count_slot_toNat, Bool.toNat_false, add_zero] at this
    exact this.symm
  · rcases writer_setFile hb with hb | ⟨-, hb, -⟩
    · exact hb
    · cases hb
  · rintro _ s' ⟨hc', hk, hh, htx⟩
    refine ⟨⟨(h.files.close hone hpipe).congr hk.file hk.pipe, ?_⟩, hk.proc, hh, htx⟩
    rw [hk.file]
    exact hc'

theorem fileclose_spec (calm : Prop) (e : Hist) (h : Ok proc (f :: g) s [] []) :
    Runs P s (fileclose f) fun _ s' => Ok proc g s' [] [] ∧ s'.core.proc = s.core.proc ∧ s'.core.hist = s.core.hist ∧
      Txs calm e s.low s'.low := by
  have href := h.files.ref f
  rw [List.count_cons_self] at href
  refine get_spec ?_
  rw [if_neg (by omega)]
  by_cases hshared : 0 < (s.core.file f).ref - 1
  · rw [if_pos hshared]
    exact core_spec ⟨h.setFile (h.files.drop (by omega)) (fileRef_withRef (by omega) hshared) id id, rfl, rfl, Txs.refl _⟩
  · rw [if_neg hshared]
    have hone : (s.core.file f).ref = 1 := by omega
    have hclosed : ∀ b, fileRef b (s.core.file f).closed = false := fileRef_of_type (.inl rfl)
    refine modify_spec ?_
    cases ht : (s.core.file f).type with
    | none =>
      refine .ret ⟨h.setFile (h.files.close hone (by rw [ht]; decide)) (fun b => ?_) id (nofun), rfl, rfl, Txs.refl _⟩
      rw [hclosed, fileRef_of_type (.inl ht)]
    | inode => exact fileclose_inode calm e h hone (.inl ht)
    | device => exact fileclose_inode calm e h hone (.inr ht)
    | pipe =>
      obtain ⟨pi, w, he⟩ := h.files.side f (by omega) ht
      obtain ⟨ends, hpi, -⟩ := (h.files.ends pi w).mp ⟨f, he⟩
      rw [he.pipe, he.writable]
      refine core_spec ?_
      simp only [St.withCore_core, Core.setFile_pipe, hpi]
      refine ⟨⟨h.files.closePipe hone he hpi, h.cache.congr rfl rfl (fun b => ?_) fun b hb => ?_⟩, rfl, rfl, Txs.refl _⟩
      · have := users_setFile s.core.file f (s.core.file f).closed proc b
        rw [hclosed, fileRef_of_type (.inr ht)] at this
        exact Nat.add_right_cancel this
      · rcases writer_setFile hb with hb | ⟨-, hb, -⟩
        · exact hb
        · cases hb

end Xv6.Fs
