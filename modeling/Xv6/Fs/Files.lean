import Xv6.Fs.Tx

/-!
# Open files and pipes

`Files proc g c` is the invariant of the file table: a file's `ref` counts the
descriptors of the processes in `proc` and the references `g` of the system
call itself. A pipe is there as long as one of its ends is open, and each end
belongs to one file. The table `proc` is that of the kernel, except in the
middle of a call that has changed one of the two and not yet the other.

`users` counts the references to the inode cache that open files and current
directories have.
-/

namespace Xv6.Fs

open Function List

variable {N : Nat}

/-- How many descriptors of the process refer to the file. -/
def fdRef (f : FileId) (x : Proc) : Nat := tally x.ofile fun o => o = some f

/-- The file is open and refers to the entry of the inode cache. -/
def fileRef (b : Slot) (x : File) : Bool := 0 < x.ref && (x.type = .inode || x.type = .device) && x.ip = b

/-- The entry is that of the current directory. -/
def cwdRef (b : Slot) (x : Proc) : Bool := x.cwd = some b

/-- The references to the inode cache. -/
def users (file : FileId → File) (proc : Pid → Proc) : Users where
  count b := tally file (fileRef b) + tally proc (cwdRef b)
  writer b := ∃ f, fileRef b (file f) = true ∧ (file f).type = .inode ∧ (file f).writable = true
  pos _ h := by
    obtain ⟨f, hf, -⟩ := h
    have := tally_pos hf
    omega

/-- Is the end for writing, or that for reading, open? -/
def Ends.isOpen (e : Ends) (w : Bool) : Bool := if w then e.writeopen else e.readopen

/-- The open file is an end of the pipe: that for writing if `w`. -/
structure EndOf (x : File) (pi : Nat) (w : Bool) : Prop where
  ref : 0 < x.ref
  type : x.type = .pipe
  pipe : x.pipe = pi
  writable : x.writable = w
  readable : x.readable = !w

structure Files (proc : Pid → Proc) (g : List FileId) (c : Core) : Prop where
  ref : ∀ f, (c.file f).ref = total proc (fdRef f) + g.count f
  free : ∀ f, (c.file f).ref = 0 → (c.file f).type = .none
  typed : ∀ f, 0 < total proc (fdRef f) → (c.file f).type ≠ .none
  side : ∀ f, 0 < (c.file f).ref → (c.file f).type = .pipe → ∃ pi w, EndOf (c.file f) pi w
  ends : ∀ pi w, (∃ f, EndOf (c.file f) pi w) ↔ ∃ e, c.pipe pi = some e ∧ e.isOpen w = true
  one : ∀ f f' pi w, EndOf (c.file f) pi w → EndOf (c.file f') pi w → f = f'
  alloc : ∀ pi e, c.pipe pi = some e → e.readopen = true ∨ e.writeopen = true

variable {proc proc' : Pid → Proc} {g g' : List FileId} {c c' : Core} {f : FileId} {x : File} {u u' : Users}
  {s s' : St (Nodes N)} {pins temps : List Slot} {p : Pid} {fd : Fd} {b : Slot}

/-! ## Descriptors -/

theorem fdRef_setFd (x : Proc) (fd : Fd) (o : Option FileId) (f : FileId) :
    fdRef f (x.setFd fd o) + (decide (x.ofile fd = some f)).toNat = fdRef f x + (decide (o = some f)).toNat :=
  tally_update x.ofile (fun o => o = some f) fd o

theorem total_setFd (proc : Pid → Proc) (p : Pid) (fd : Fd) (o : Option FileId) (f : FileId) :
    total (update proc p ((proc p).setFd fd o)) (fdRef f) + (decide ((proc p).ofile fd = some f)).toNat =
      total proc (fdRef f) + (decide (o = some f)).toNat := by
  have h1 := total_update proc (fdRef f) p ((proc p).setFd fd o)
  have h2 := fdRef_setFd (proc p) fd o f
  omega

theorem tally_cwdRef_setFd (proc : Pid → Proc) (p : Pid) (fd : Fd) (o : Option FileId) (b : Slot) :
    tally (update proc p ((proc p).setFd fd o)) (cwdRef b) = tally proc (cwdRef b) :=
  tally_update_eq rfl

theorem count_singleton_toNat (f f' : FileId) : [f].count f' = (decide (some f = some f')).toNat := by
  by_cases h : f = f'
  · simp [h]
  · rw [count_singleton, if_neg (by simpa using h), decide_eq_false (by simpa using h)]
    rfl

theorem total_give (hfd : (proc p).ofile fd = none) (f f' : FileId) :
    total (update proc p ((proc p).setFd fd (some f))) (fdRef f') = total proc (fdRef f') + [f].count f' := by
  have := total_setFd proc p fd (some f) f'
  rw [hfd] at this
  rw [count_singleton_toNat]
  simpa using this

theorem total_take (hfd : (proc p).ofile fd = some f) (f' : FileId) :
    total proc (fdRef f') = total (update proc p ((proc p).setFd fd none)) (fdRef f') + [f].count f' := by
  have := total_setFd proc p fd none f'
  rw [hfd] at this
  rw [count_singleton_toNat]
  simpa using this.symm

/-! ## The file table -/

namespace Files

theorem perm (h : Files proc g c) (hg : g'.Perm g) : Files proc g' c :=
  { h with ref := fun f => by rw [hg.count_eq]; exact h.ref f }

theorem congr (h : Files proc g c) (hf : c'.file = c.file) (hp : c'.pipe = c.pipe) : Files proc g c' := by
  obtain ⟨h1, h2, h3, h4, h5, h6, h7⟩ := h
  rw [← hf] at h1 h2 h3 h4 h5 h6
  rw [← hp] at h5 h7
  exact ⟨h1, h2, h3, h4, h5, h6, h7⟩

theorem reproc (h : Files proc g c) (hp : ∀ f, total proc' (fdRef f) = total proc (fdRef f)) : Files proc' g c :=
  { h with ref := fun f => by rw [hp]; exact h.ref f, typed := fun f => by rw [hp]; exact h.typed f }

/-- Some descriptor takes over a reference. -/
theorem give (h : Files proc (f :: g) c) (hp : ∀ f', total proc' (fdRef f') = total proc (fdRef f') + [f].count f')
    (hf : (c.file f).type ≠ .none) : Files proc' g c :=
  { h with
    ref := fun f' => by
      have := h.ref f'
      rw [count_cons] at this
      rw [hp, count_singleton, this]
      omega
    typed := fun f' hpos => by
      by_cases hff : f' = f
      · rw [hff]; exact hf
      · rw [hp, count_singleton, if_neg (by simpa using Ne.symm hff), add_zero] at hpos
        exact h.typed f' hpos }

section Dup

variable (h : Files proc g c)

include h

theorem take (hp : ∀ f', total proc (fdRef f') = total proc' (fdRef f') + [f].count f') :
    Files proc' (f :: g) c :=
  { h with
    ref := fun f' => by
      rw [h.ref, hp, count_singleton, count_cons]
      omega
    typed := fun f' hpos => h.typed f' (by rw [hp]; omega) }

/-- A change of one file that is not about pipes. -/
theorem setFile (hx : x.ref = total proc (fdRef f) + g'.count f)
    (hg : ∀ f', f' ≠ f → g'.count f' = g.count f') (hnone : x.ref = 0 → x.type = .none)
    (htyped : 0 < total proc (fdRef f) → x.type ≠ .none) (hends : ∀ pi w, EndOf x pi w ↔ EndOf (c.file f) pi w)
    (hside : 0 < x.ref → x.type = .pipe → ∃ pi w, EndOf x pi w) : Files proc g' (c.setFile f x) := by
  have hne : ∀ f', f' ≠ f → (c.setFile f x).file f' = c.file f' := fun f' hf' => update_of_ne hf' ..
  have hEnd : ∀ f' pi w, EndOf ((c.setFile f x).file f') pi w ↔ EndOf (c.file f') pi w := fun f' pi w => by
    by_cases hf' : f' = f
    · rw [hf', Core.setFile_self]; exact hends pi w
    · rw [hne f' hf']
  refine ⟨fun f' => ?_, fun f' => ?_, fun f' => ?_, fun f' => ?_, fun pi w => ?_, fun f1 f2 pi w h1 h2 => ?_, h.alloc⟩
  · by_cases hf' : f' = f
    · rw [hf', Core.setFile_self]; exact hx
    · rw [hne f' hf', hg f' hf']; exact h.ref f'
  · by_cases hf' : f' = f
    · rw [hf', Core.setFile_self]; exact hnone
    · rw [hne f' hf']; exact h.free f'
  · by_cases hf' : f' = f
    · rw [hf', Core.setFile_self]; exact htyped
    · rw [hne f' hf']; exact h.typed f'
  · by_cases hf' : f' = f
    · rw [hf', Core.setFile_self]; exact hside
    · rw [hne f' hf']; exact h.side f'
  · simp only [hEnd]
    exact h.ends pi w
  · exact h.one f1 f2 pi w ((hEnd f1 pi w).mp h1) ((hEnd f2 pi w).mp h2)

/-- Only the number of references changes, and there are some. -/
theorem setRef {r : Nat} (hr : r = total proc (fdRef f) + g'.count f)
    (hg : ∀ f', f' ≠ f → g'.count f' = g.count f') (hpos : 0 < r) (hold : 0 < (c.file f).ref) :
    Files proc g' (c.setFile f ((c.file f).withRef r)) := by
  have hends : ∀ pi w, EndOf ((c.file f).withRef r) pi w ↔ EndOf (c.file f) pi w := fun pi w =>
    ⟨fun h => ⟨hold, h.type, h.pipe, h.writable, h.readable⟩, fun h => ⟨hpos, h.type, h.pipe, h.writable, h.readable⟩⟩
  refine h.setFile hr hg (fun h0 => absurd h0 hpos.ne') (h.typed f) hends fun _ ht => ?_
  obtain ⟨pi, w, he⟩ := h.side f hold ht
  exact ⟨pi, w, (hends pi w).mpr he⟩

/-- `filealloc` has found an unused file. -/
theorem filealloc (hf : (c.file f).ref = 0) :
    Files proc (f :: g) (c.setFile f ((c.file f).withRef 1)) := by
  have href := h.ref f
  have hnone : (c.file f).type = .none := h.free f hf
  refine h.setFile ?_ (fun f' hf' => count_cons_of_ne (Ne.symm hf')) (fun h0 => absurd h0 Nat.one_ne_zero)
    (fun hpos => by omega) (fun pi w => ⟨fun he => ?_, fun he => ?_⟩) (fun _ ht => ?_)
  · rw [count_cons_self]
    show 1 = _
    omega
  · exact absurd (hnone.symm.trans he.type) (by decide)
  · exact absurd (hnone.symm.trans he.type) (by decide)
  · exact absurd (hnone.symm.trans ht) (by decide)

theorem filedup (hf : 0 < (c.file f).ref) :
    Files proc (f :: g) (c.setFile f ((c.file f).withRef ((c.file f).ref + 1))) :=
  h.setRef (by rw [count_cons_self, h.ref f]; omega) (fun f' hf' => count_cons_of_ne (Ne.symm hf'))
    (Nat.succ_pos _) hf

end Dup

theorem drop (h : Files proc (f :: g) c) (hf : 1 < (c.file f).ref) :
    Files proc g (c.setFile f ((c.file f).withRef ((c.file f).ref - 1))) := by
  have href := h.ref f
  rw [count_cons_self] at href
  exact h.setRef (by omega) (fun f' hf' => (count_cons_of_ne (Ne.symm hf')).symm) (by omega) (by omega)

/-- The last reference is dropped, of a file that is no pipe. -/
theorem close (h : Files proc (f :: g) c) (hf : (c.file f).ref = 1) (ht : (c.file f).type ≠ .pipe) :
    Files proc g (c.setFile f (c.file f).closed) := by
  have href := h.ref f
  rw [count_cons_self] at href
  refine h.setFile ?_ (fun f' hf' => (count_cons_of_ne (Ne.symm hf')).symm) (fun _ => rfl) (fun hpos => by omega)
    (fun pi w => ⟨(fun he => nomatch he.type), fun he => absurd he.type ht⟩) (fun h0 => absurd h0 (lt_irrefl 0))
  show 0 = _
  omega

theorem opened (h : Files proc g c) (hf : 0 < (c.file f).ref) (hnone : (c.file f).type = .none)
    (hx : x.ref = (c.file f).ref) (ht : x.type = .inode ∨ x.type = .device) : Files proc g (c.setFile f x) := by
  have hpipe : x.type ≠ .pipe := by rcases ht with ht | ht <;> rw [ht] <;> decide
  refine h.setFile (hx.trans (h.ref f)) (fun _ _ => rfl) (fun h0 => by omega) (fun hpos => absurd hnone (h.typed f hpos))
    (fun pi w => ⟨fun he => absurd he.type hpipe, fun he => ?_⟩) (fun _ hp => absurd hp hpipe)
  exact absurd (hnone.symm.trans he.type) (by decide)

/-- The last reference to an end of a pipe is dropped. -/
theorem closePipe (h : Files proc (f :: g) c) (hf : (c.file f).ref = 1) {pi : Nat} {w : Bool} (he : EndOf (c.file f) pi w)
    {e : Ends} (hpi : c.pipe pi = some e) : Files proc g ((c.setFile f (c.file f).closed).setPipe pi (e.close w)) := by
  have href := h.ref f
  rw [count_cons_self] at href
  have hne : ∀ f', f' ≠ f → (c.setFile f (c.file f).closed).file f' = c.file f' := fun f' hf' => update_of_ne hf' ..
  have hEnd : ∀ f' pi' w', EndOf ((c.setFile f (c.file f).closed).file f') pi' w' ↔ f' ≠ f ∧ EndOf (c.file f') pi' w' :=
    fun f' pi' w' => by
      by_cases hf' : f' = f
      · rw [hf', Core.setFile_self]
        exact ⟨(fun h => nomatch h.type), fun h => absurd rfl h.1⟩
      · rw [hne f' hf']
        exact ⟨fun h => ⟨hf', h⟩, And.right⟩
  refine ⟨fun f' => ?_, fun f' h0 => ?_, fun f' hpos => ?_, fun f' hpos ht => ?_, fun pi' w' =>
    ?_, fun f1 f2 pi' w' h1 h2 => ?_,
    fun pi' e' h' => ?_⟩
  · by_cases hf' : f' = f
    · rw [hf', Core.setPipe_file, Core.setFile_self]
      show 0 = _
      omega
    · rw [Core.setPipe_file, hne f' hf', h.ref f', count_cons_of_ne (Ne.symm hf')]
  · by_cases hf' : f' = f
    · rw [hf', Core.setPipe_file, Core.setFile_self]; rfl
    · rw [Core.setPipe_file, hne f' hf'] at h0 ⊢; exact h.free f' h0
  · have hf' : f' ≠ f := by rintro rfl; omega
    rw [Core.setPipe_file, hne f' hf']
    exact h.typed f' hpos
  · by_cases hf' : f' = f
    · rw [hf', Core.setPipe_file, Core.setFile_self] at ht; nomatch ht
    · rw [Core.setPipe_file, hne f' hf'] at hpos ht ⊢; exact h.side f' hpos ht
  · simp only [Core.setPipe_file, hEnd]
    by_cases hpi' : pi' = pi
    · subst hpi'
      have hold := h.ends pi' w'
      have hclose : (∃ e', (c.setFile f (c.file f).closed |>.setPipe pi' (e.close w)).pipe pi' = some e' ∧
        e'.isOpen w' = true) ↔
          w' ≠ w ∧ e.isOpen w' = true := by
        simp only [Core.setPipe, update_self]
        rcases e with ⟨r, k⟩
        cases r <;> cases k <;> cases w <;> cases w' <;> simp [Ends.close, Ends.isOpen]
      rw [hclose]
      constructor
      · rintro ⟨f', hf', he'⟩
        obtain ⟨e', he1, he2⟩ := hold.mp ⟨f', he'⟩
        obtain rfl : e = e' := Option.some.inj (hpi.symm.trans he1)
        refine ⟨?_, he2⟩
        rintro rfl
        exact hf' (h.one f' f _ _ he' he)
      · rintro ⟨hw, ho⟩
        obtain ⟨f', he'⟩ := hold.mpr ⟨e, hpi, ho⟩
        refine ⟨f', ?_, he'⟩
        rintro rfl
        exact hw (he'.writable.symm.trans he.writable)
    · have hpipe : ((c.setFile f (c.file f).closed).setPipe pi (e.close w)).pipe pi' = c.pipe pi' := update_of_ne hpi' ..
      rw [hpipe, ← h.ends pi' w']
      refine exists_congr fun f' => ⟨And.right, fun he' => ⟨?_, he'⟩⟩
      rintro rfl
      exact hpi' (he'.pipe.symm.trans he.pipe)
  · rw [Core.setPipe_file, hEnd] at h1 h2
    exact h.one f1 f2 pi' w' h1.2 h2.2
  · by_cases hpi' : pi' = pi
    · subst hpi'
      simp only [Core.setPipe, update_self] at h'
      revert h'
      rcases e with ⟨r, k⟩
      cases r <;> cases k <;> cases w <;> rintro ⟨⟩ <;> simp
    · have hpipe : ((c.setFile f (c.file f).closed).setPipe pi (e.close w)).pipe pi' = c.pipe pi' := update_of_ne hpi' ..
      rw [hpipe] at h'
      exact h.alloc pi' e' h'

/-- Two new files become the ends of a new pipe. -/
theorem pipealloc (h : Files proc g c) {f0 f1 : FileId} (hne : f0 ≠ f1) (h₀ : 0 < (c.file f0).ref) (h1 : 0 < (c.file f1).ref)
    (ht0 : (c.file f0).type = .none) (ht1 : (c.file f1).type = .none) {pi : Nat} (hpi : c.pipe pi = none) :
    Files proc g (((c.setPipe pi (some ⟨true, true⟩)).setFile f0 ((c.file f0).pipeEnd pi false)).setFile f1
      ((c.file f1).pipeEnd pi true)) := by
  set c' := ((c.setPipe pi (some ⟨true, true⟩)).setFile f0 ((c.file f0).pipeEnd pi false)).setFile f1
    ((c.file f1).pipeEnd pi true) with hc'
  have hfile1 : c'.file f1 = (c.file f1).pipeEnd pi true := update_self ..
  have hfile0 : c'.file f0 = (c.file f0).pipeEnd pi false := by
    show update _ f1 _ f0 = _
    rw [update_of_ne hne]
    exact update_self ..
  have hfile : ∀ f, f ≠ f0 → f ≠ f1 → c'.file f = c.file f := fun f hf0 hf1 => by
    show update _ f1 _ f = _
    rw [update_of_ne hf1]
    exact update_of_ne hf0 ..
  have hnoEnd : ∀ f w, ¬ EndOf (c.file f) pi w := fun f w he => by
    obtain ⟨e, he', -⟩ := (h.ends pi w).mp ⟨f, he⟩
    rw [hpi] at he'
    cases he'
  have hEnd : ∀ f pi' w, EndOf (c'.file f) pi' w ↔
      (f = f0 ∧ pi' = pi ∧ w = false) ∨ (f = f1 ∧ pi' = pi ∧ w = true) ∨ EndOf (c.file f) pi' w := fun f pi' w => by
    by_cases hf0 : f = f0
    · subst hf0
      have hno : ¬ EndOf (c.file f) pi' w := fun he => nomatch ht0.symm.trans he.type
      rw [hfile0]
      simp only [hne, hno, or_false, false_and, true_and]
      exact ⟨fun he => ⟨he.pipe.symm, he.writable.symm⟩, fun ⟨hp, hw⟩ => ⟨h₀, rfl, hp.symm, hw.symm, by rw [hw]; rfl⟩⟩
    · by_cases hf1 : f = f1
      · subst hf1
        have hno : ¬ EndOf (c.file f) pi' w := fun he => nomatch ht1.symm.trans he.type
        rw [hfile1]
        simp only [hf0, hno, or_false, false_and, true_and, false_or]
        exact ⟨fun he => ⟨he.pipe.symm, he.writable.symm⟩, fun ⟨hp, hw⟩ => ⟨h1, rfl, hp.symm, hw.symm, by rw [hw]; rfl⟩⟩
      · rw [hfile f hf0 hf1]
        simp only [hf0, hf1, false_and, false_or]
  have href : ∀ f, (c'.file f).ref = (c.file f).ref := fun f => by
    by_cases hf0 : f = f0
    · rw [hf0, hfile0]; rfl
    · by_cases hf1 : f = f1
      · rw [hf1, hfile1]; rfl
      · rw [hfile f hf0 hf1]
  have hpipe : ∀ pi', pi' ≠ pi → c'.pipe pi' = c.pipe pi' := fun pi' h => update_of_ne h ..
  have hself : c'.pipe pi = some ⟨true, true⟩ := update_self ..
  refine ⟨fun f => (href f).trans (h.ref f), fun f h0 => ?_, fun f hpos => ?_, fun f hpos ht => ?_, fun pi' w => ?_,
    fun f f' pi' w he he' => ?_, fun pi' e he => ?_⟩
  · have hold : (c.file f).ref = 0 := (href f).symm.trans h0
    rw [hfile f (fun e => by rw [e] at hold; omega) (fun e => by rw [e] at hold; omega)]
    exact h.free f hold
  · by_cases hf0 : f = f0
    · rw [hf0, hfile0]; exact nofun
    · by_cases hf1 : f = f1
      · rw [hf1, hfile1]; exact nofun
      · rw [hfile f hf0 hf1]; exact h.typed f hpos
  · by_cases hf0 : f = f0
    · exact ⟨pi, false, (hEnd f pi false).mpr (.inl ⟨hf0, rfl, rfl⟩)⟩
    · by_cases hf1 : f = f1
      · exact ⟨pi, true, (hEnd f pi true).mpr (.inr (.inl ⟨hf1, rfl, rfl⟩))⟩
      · rw [hfile f hf0 hf1] at hpos ht ⊢; exact h.side f hpos ht
  · by_cases hpi' : pi' = pi
    · subst hpi'
      rw [hself]
      refine ⟨fun _ => ⟨_, rfl, by cases w <;> rfl⟩, fun _ => ?_⟩
      cases w with
      | false => exact ⟨f0, (hEnd _ _ _).mpr (.inl ⟨rfl, rfl, rfl⟩)⟩
      | true => exact ⟨f1, (hEnd _ _ _).mpr (.inr (.inl ⟨rfl, rfl, rfl⟩))⟩
    · rw [hpipe pi' hpi', ← h.ends pi' w]
      refine exists_congr fun f => ?_
      rw [hEnd]
      simp only [hpi', false_and, and_false, false_or]
  · rw [hEnd] at he he'
    rcases he with ⟨rfl, rfl, rfl⟩ | ⟨rfl, rfl, rfl⟩ | he <;> rcases he' with ⟨rfl, hp, hw⟩ | ⟨rfl, hp, hw⟩ | he'
    · rfl
    · cases hw
    · exact absurd he' (hnoEnd _ _)
    · cases hw
    · rfl
    · exact absurd he' (hnoEnd _ _)
    · exact absurd (hp ▸ he) (hnoEnd _ _)
    · exact absurd (hp ▸ he) (hnoEnd _ _)
    · exact h.one f f' pi' w he he'
  · by_cases hpi' : pi' = pi
    · rw [hpi', hself, Option.some.injEq] at he
      rw [← he]
      exact .inl rfl
    · rw [hpipe pi' hpi'] at he
      exact h.alloc pi' e he

end Files

end Xv6.Fs
