import Xv6.Log.Inv

/-!
# The functions keep the invariant

One theorem for each function of `bio.c` and `log.c`: run by a process, it
keeps the invariant, whatever the other processes do between its steps, and
it changes what is known of the process as stated.
-/

namespace Xv6.Log

open Function List

/-- What the specifications are relative to: the log's place on disk, the
disk at boot, whether the logged blocks fit in the log, an assumption on
every state, which says so, and whether the process is alone, as at boot. -/
structure Ctx where
  L : Layout
  d₀ : Nat → Bytes
  fit : Prop
  Asm : State → Prop
  alone : Prop
  fits : ∀ s, Asm s → fit → ¬ alone → Fits L s

namespace Ctx

/-- The invariant, as process `t` sees it. -/
def I (C : Ctx) (t : Pid) (s : State) (γ : Pid → Ghost) : Prop :=
  Inv C.L C.d₀ C.fit s γ ∧ (C.alone → ∀ u, u ≠ t → γ u = {})

/-- Run by `t`, of which `g` is known, `p` keeps the invariant; when it
returns `a`, what is known of `t` satisfies `Q a`. -/
abbrev Spec (C : Ctx) {α : Type} (t : Pid) (p : KProg α) (g : Ghost) (Q : α → Ghost → Prop) : Prop :=
  Safe C.Asm (C.I t) (fun _ => True) t p g Q

variable (C : Ctx) {t : Pid} {g : Ghost}

variable {α : Type} {i dbuf : BufId} {b k : Nat} {held : List (BufId × Nat)}

/-- A step of `t` leaves it alone. -/
theorem keep_alone {s' : State} {γ : Pid → Ghost} {Q : Ghost → Prop} (h : C.alone → ∀ u, u ≠ t → γ u = {})
    (h' : ∃ g', Inv C.L C.d₀ C.fit s' (update γ t g') ∧ Q g') : ∃ g', C.I t s' (update γ t g') ∧ Q g' := by
  obtain ⟨g', hi', hq⟩ := h'
  refine ⟨g', ⟨hi', fun hal u hu => ?_⟩, hq⟩
  rw [update_of_ne hu]
  exact h hal u hu

theorem step {f : Pid → State → Res State α} {Q : α → Ghost → Prop}
    (h : ∀ s γ, Inv C.L C.d₀ C.fit s γ → (C.alone → ∀ u, u ≠ t → γ u = {}) → γ t = g →
      (f t s).Post (fun a s' => C.Asm s' → ∃ g', Inv C.L C.d₀ C.fit s' (update γ t g') ∧ Q a g')
        fun _ => True) : C.Spec t (.step f) g Q := by
  exact .step fun s γ hi hg => (h s γ hi.1 hi.2 hg).mono fun _ _ h ha => C.keep_alone hi.2 (h ha)

theorem locked {f : Pid → State → Res State α} {Q : α → Ghost → Prop}
    (h : ∀ s γ, Inv C.L C.d₀ C.fit s γ → γ t = g → s.log.adding = none →
      (f t s).Post (fun a s' => C.Asm s' → ∃ g', Inv C.L C.d₀ C.fit s' (update γ t g') ∧ Q a g')
        fun _ => True) : C.Spec t (Log.locked f) g Q :=
  safe_locked fun s γ hi hg ha => (h s γ hi.1 hg ha).mono fun _ _ h hasm => C.keep_alone hi.2 (h hasm)

/-! ## `bio.c` -/

theorem bgetRef_spec (b : Nat) (hp : g.refs.pend = none) : C.Spec t (.step (bgetRef rootdev b)) g
    fun i g' => g' = { g with refs := ⟨g.refs.held, some (i, b, false)⟩ } := by
  refine C.step fun s γ hi _ hg => ?_
  subst hg
  unfold bgetRef
  split
  · rename_i i hf
    have hfound := find?_some hf
    simp only [decide_eq_true_eq] at hfound
    obtain ⟨hd, rfl⟩ := hfound
    refine fun _ => ⟨_, ?_, rfl⟩
    refine hi.bioStep rfl rfl rfl rfl rfl (hi.bio.hit hp hd) (hi.dirty t) fun hf =>
      (hi.store hf).setMeta rfl ⟨rfl, rfl, rfl, rfl⟩ rfl rfl rfl rfl rfl rfl
  · rename_i hf
    split
    · rename_i i hf0
      have h0 := find?_some hf0
      simp only [decide_eq_true_eq] at h0
      have hno : ∀ j, ¬ ((s.buf j).dev = rootdev ∧ (s.buf j).blockno = b) := fun j => by
        simpa using find?_eq_none.mp hf j (hi.bio.mem_lru j)
      refine fun _ => ⟨_, ?_, rfl⟩
      refine hi.bioStep rfl rfl rfl rfl rfl (hi.bio.miss hp hno h0) (hi.dirty t) fun hf => ?_
      refine (hi.store hf).congr rfl rfl rfl rfl rfl rfl (fun j hjd hjv => ?_) fun u j x hx => ?_
      all_goals by_cases hj : j = i
      · subst hj; simp at hjv
      · simpa [hj] using And.intro hjd hjv
      · -- nobody has changed a buffer that nobody references
        subst hj
        obtain ⟨c, hc⟩ := hi.dirty u j x hx
        exact absurd (.inl hc) ((hi.bio.of_refcnt_zero h0).1 u c)
      · simp [hj]
    · trivial

theorem acquiresleep_spec (hp : g.refs.pend = some (i, b, false)) :
    C.Spec t (acquiresleep i) g fun _ g' => g' = { g with refs := ⟨g.refs.held, some (i, b, true)⟩ } := by
  refine C.step fun s γ hi _ hg => ?_
  subst hg
  split
  · rename_i hl
    refine fun _ => ⟨_, ?_, rfl⟩
    refine hi.bioStep rfl rfl rfl rfl rfl (hi.bio.acquiresleep hp hl) (hi.dirty t) fun hf =>
      (hi.store hf).setMeta rfl ⟨rfl, rfl, rfl, rfl⟩ rfl rfl rfl rfl rfl rfl
  · trivial

theorem bget_spec (b : Nat) (hp : g.refs.pend = none) :
    C.Spec t (bget rootdev b) g fun i g' => g' = { g with refs := ⟨g.refs.held, some (i, b, true)⟩ } := by
  refine .next (C.bgetRef_spec b hp) fun i => ?_
  exact .next (C.acquiresleep_spec rfl) fun _ => Safe.ret rfl

/-- `bread` returns a buffer that is locked and has the block's contents. -/
theorem bread_spec (b : Nat) (hp : g.refs.pend = none) :
    C.Spec t (bread rootdev b) g fun i g' => g' = { g with refs := ⟨(i, b) :: g.refs.held, none⟩ } := by
  refine .next (C.bget_spec b hp) fun i => ?_
  refine .bind (R := fun _ g' => g' = { g with refs := ⟨(i, b) :: g.refs.held, none⟩ })
    (C.step fun s γ hi _ hg _ => ⟨_, ?_, rfl⟩) ?_
  · have hp : (γ t).refs.pend = some (i, b, true) := by rw [hg]
    have hd : (γ t).dirty = g.dirty := by rw [hg]
    have hh : (γ t).refs.held = g.refs.held := by rw [hg]
    rw [← hh, ← hd, show g.phase = (γ t).phase by rw [hg], show g.adding = (γ t).adding by rw [hg]]
    have hno := hi.not_dirty (hi.bio.lock_of_pend hp) fun x hx => by
      obtain ⟨c, hc⟩ := hi.dirty t i x hx
      exact hi.bio.not_held hp c hc
    have hhist : (if (s.buf i).valid then s else s.modBuf i
        fun x => { x with data := s.disk x.blockno, valid := true }).hist = s.hist := by split <;> rfl
    refine hi.bioStep rfl rfl rfl ?_ hhist ?_ (fun j x hx => ?_) fun hf => (hi.store hf).read
      (fun hd hv hm => hi.bio.not_mem_pins hd hv (mem_append_left _ hm)) hno
    · split <;> rfl
    · split
      · rename_i hv
        have := hi.bio.read hp (s.buf i).data
        rwa [show ({ s.buf i with valid := true, data := (s.buf i).data } : Buf) = s.buf i by rw [← hv],
          update_eq_self] at this
      · exact hi.bio.read hp (s.disk (s.buf i).blockno)
    · obtain ⟨c, hc⟩ := hi.dirty t j x hx
      exact ⟨c, mem_cons_of_mem _ hc⟩
  · rintro _ _ rfl
    exact .ret rfl

theorem brelse_spec (hm : (i, b) ∈ g.refs.held) (hp : g.refs.pend = none) (hd : ∀ x, g.dirty ≠ some (i, x)) :
    C.Spec t (brelse i) g fun _ g' => g' = { g with refs := ⟨g.refs.held.erase (i, b), none⟩ } := by
  refine .bind (R := fun _ g' => g' = { g with refs := ⟨g.refs.held.erase (i, b), some (i, b, false)⟩ })
    (C.step fun s γ hi _ hg => ?_) ?_
  · subst hg
    split
    · refine fun _ => ⟨_, ?_, rfl⟩
      refine hi.bioStep rfl rfl rfl rfl rfl (hi.bio.releasesleep hp hm) (fun j x hx => ?_) fun hf =>
        (hi.store hf).setMeta rfl ⟨rfl, rfl, rfl, rfl⟩ rfl rfl rfl rfl rfl rfl
      obtain ⟨c, hc⟩ := hi.dirty t j x hx
      refine ⟨c, (mem_erase_of_ne ?_).mpr hc⟩
      rintro ⟨⟩
      exact hd x hx
    · trivial
  · rintro _ _ rfl
    refine C.step fun s γ hi _ hg _ => ⟨_, ?_, rfl⟩
    have hp' : (γ t).refs.pend = some (i, b, false) := by rw [hg]
    have hh : (γ t).refs.held = g.refs.held.erase (i, b) := by rw [hg]
    rw [← hh, show g.phase = (γ t).phase by rw [hg], show g.dirty = (γ t).dirty by rw [hg],
      show g.adding = (γ t).adding by rw [hg]]
    have hlru : ∀ j, j ∈ i :: s.lru.erase i := fun j => by
      by_cases hj : j = i
      · subst hj; exact mem_cons_self
      · exact mem_cons_of_mem _ ((mem_erase_of_ne hj).mpr (hi.bio.mem_lru j))
    split
    · refine hi.bioStep rfl rfl rfl rfl rfl (hi.bio.unref hp' hlru) (hi.dirty t) fun hf =>
      (hi.store hf).setMeta rfl ⟨rfl, rfl, rfl, rfl⟩ rfl rfl rfl rfl rfl rfl
    · refine hi.bioStep rfl rfl rfl rfl rfl (hi.bio.unref hp' hi.bio.mem_lru) (hi.dirty t) fun hf =>
      (hi.store hf).setMeta rfl ⟨rfl, rfl, rfl, rfl⟩ rfl rfl rfl rfl rfl rfl

/-- A process changes a buffer that it holds; `x` says to what. -/
theorem setData_spec (hm : (i, b) ∈ g.refs.held) (hd : g.dirty = none) (f : State → Buf → Bytes) (x : Intent)
    (hx : ∀ s γ, Inv C.L C.d₀ C.fit s γ → (C.alone → ∀ u, u ≠ t → γ u = {}) → γ t = g → C.fit →
      x.Ok C.d₀ s.hist g.phase (f s (s.buf i))) :
    C.Spec t (.step fun _ s => .ok () (s.modBuf i fun y => { y with data := f s y })) g
      fun _ g' => g' = { g with dirty := some (i, x) } := by
  refine C.step fun s γ hi ha hg _ => ⟨_, ?_, rfl⟩
  have := hx s γ hi ha hg
  subst hg
  exact hi.setData hm hd (f s) this rfl

/-! ## `log.c` -/

/-- What a process that commits reads of the log. -/
theorem getLog_spec {x : Stage} (hg : g.phase = .com x) :
    C.Spec t getLog g fun l g' => g' = g ∧ l.lh = x.lh ∧ l.start = C.L.start ∧ l.dev = rootdev := by
  refine C.step fun s γ hi _ hγ _ => ⟨g, ?_, rfl, ?_, hi.start, hi.dev⟩
  · rwa [← hγ, update_eq_self]
  · exact (hi.adm.committing (t := t) (by rw [comp_apply, hγ, hg])).2

/-- The block `b = hs[k]` is written to the log. -/
theorem bwrite_log_spec {hs : List Nat} {dst : BufId} (hph : g.phase = .com (.log hs k))
    (hk : hs[k]? = some b) (hm : (dst, C.L.start + k + 1) ∈ g.refs.held) (hd : g.dirty = some (dst, .block b)) :
    C.Spec t (bwrite dst) g fun _ g' => g' = ⟨.com (.log hs (k + 1)), g.refs, none, none⟩ := by
  refine C.step fun s γ hi _ hg => ?_
  split
  · refine fun _ => ⟨_, ?_, rfl⟩
    subst hg
    obtain ⟨hdev, hblk⟩ := hi.bio.has t dst _ (.inl hm)
    refine hi.diskStep (y := .log hs (k + 1)) (g := ⟨_, _, none, none⟩) hph rfl rfl rfl rfl rfl (by simp) fun hf => ?_
    have hst := hi.store hf
    have hlen : k < hs.length := (List.getElem?_eq_some_iff.mp hk).1
    have hfit : k + 1 < C.L.size := by
      have := hst.fits.2
      rw [(hi.adm.committing hph).2] at this
      exact lt_of_le_of_lt hlen this
    have hnot := Layout.not_home_log hfit
    obtain ⟨h1, h2, h3, h4⟩ := hst.stage t _ hph
    have hdata := (hst.intent t dst _ hd).1
    refine hst.bwriteLog (hi.uniq hm) (by rwa [hblk]) (fun j x hx => ?_) Inv.com_update (fun hc => ?_)
      fun u x hx => ?_
    · rw [comp_apply, hd] at hx
      cases hx; rfl
    · exact absurd ((hi.adm.committing hph).1.symm.trans hc) (by decide)
    · obtain rfl := Phase.com.inj (hi.com_unique hph hx)
      rw [hblk]
      refine ⟨?_, h2, fun c hc => ?_, fun j c hj hc => ?_⟩ <;> dsimp only
      · rw [update_of_ne (by omega)]; exact h1
      · rw [update_of_ne (hc.ne hnot)]; exact h3 c hc
      · by_cases hjk : j = k
        · subst hjk
          obtain rfl : b = c := Option.some.inj (hk.symm.trans hc)
          rw [update_self]; exact hdata
        · rw [update_of_ne (by omega)]; exact h4 j c (by omega) hc
  · trivial

theorem writeLog_spec (hs : List Nat) (held : List (BufId × Nat)) :
    C.Spec t writeLog (.rest (.com (.log hs 0)) held)
      fun _ g => ∃ k, hs.length ≤ k ∧ g = .rest (.com (.log hs k)) held := by
  refine .loop (J := fun k g => g = .rest (.com (.log hs k)) held) ?_ rfl
  rintro k _ rfl
  refine .bind (C.getLog_spec rfl) ?_
  rintro l _ ⟨rfl, hlh, hstart, hdev⟩
  rw [hlh, hstart, hdev]
  split
  · exact .ret ⟨k, getElem?_eq_none_iff.mp (by assumption), rfl⟩
  · rename_i b hk
    refine .next (C.bread_spec (C.L.start + k + 1) rfl) fun dst => ?_
    refine .next (C.bread_spec b rfl) fun src => ?_
    refine .bind (C.setData_spec (i := dst) (b := C.L.start + k + 1) (by simp) rfl
      (fun s _ => (s.buf src).data) (.block b) fun s γ hi _ hg hf => ⟨?_, _, rfl⟩) ?_
    · have hhome := (hi.home_of_com (x := .log hs k) (t := t) hf (by rw [hg]) (mem_of_getElem? hk)).1
      rw [hi.data_eq (t := t) (b := b) hf (by simp [hg]) (by simp [hg]), content_home hhome]
    rintro _ _ rfl
    refine .next (C.bwrite_log_spec rfl hk (by simp) rfl) fun _ => ?_
    refine .next (C.brelse_spec (i := src) (b := b) (by simp) rfl (by simp)) fun _ => ?_
    refine .next (C.brelse_spec (i := dst) (b := C.L.start + k + 1) (by simp) rfl (by simp)) fun _ => ?_
    refine .ret ?_
    simp

theorem out_of_alone {γ : Pid → Ghost} (ha : ∀ u, u ≠ t → γ u = {}) (ht : (γ t).phase = .out) (u : Pid) :
    (γ u).phase = .out := by
  by_cases hu : u = t
  · rw [hu, ht]
  · rw [ha u hu]

/-- Where the header is written: to commit, to erase it, and at boot. -/
inductive HeadStep (C : Ctx) : List Nat → Phase → Phase → Prop where
  | write {hs : List Nat} {k : Nat} : hs.length ≤ k → HeadStep C hs (.com (.log hs k)) (.com (.inst hs 0 false))
  | erase : HeadStep C [] (.com .clear) (.com .done)
  | boot : C.alone → HeadStep C [] .out .out

namespace HeadStep

variable {C : Ctx} {hs : List Nat} {p p' : Phase} {s : State} {γ : Pid → Ghost}

theorem lh_eq (h : HeadStep C hs p p') (hi : Inv C.L C.d₀ C.fit s γ) (ha : C.alone → ∀ u, u ≠ t → γ u = {})
    (hp : (γ t).phase = p) : s.log.lh = hs := by
  cases h with
  | write => exact (hi.adm.committing hp).2
  | erase => exact (hi.adm.committing hp).2
  | boot hal => exact (hi.quiet_of_out fun u => out_of_alone (ha hal) hp u).2

end HeadStep

theorem bwrite_head_spec {hs : List Nat} {p p' : Phase} (h : HeadStep C hs p p') (hm : (i, C.L.start) ∈ held) :
    C.Spec t (bwrite i) ⟨p, ⟨held, none⟩, some (i, .head hs), none⟩ fun _ g => g = .rest p' held := by
  refine C.step fun s γ hi ha hg => ?_
  split
  · refine fun _ => ⟨_, ?_, rfl⟩
    have hph : (γ t).phase = p := by rw [hg]
    have hrefs : (γ t).refs = ⟨held, none⟩ := by rw [hg]
    have hm' : (i, C.L.start) ∈ (γ t).refs.held := by rwa [hrefs]
    have hd : (γ t).dirty = some (i, .head hs) := by rw [hg]
    have hdirty : ∀ j x, (Ghost.dirty ∘ γ) t = some (j, x) → j = i := fun j x hx => by
      rw [comp_apply, hd] at hx
      cases hx; rfl
    have hlh := h.lh_eq hi ha hph
    obtain ⟨hdev, hblk⟩ := hi.bio.has t i _ (.inl hm')
    have hnot : ¬ C.L.Home (s.buf i).blockno := by rw [hblk]; exact Layout.not_home_start
    cases h with
    | @write _ k hk =>
      refine hi.diskStep (y := .inst hs 0 false) (g := .rest _ _) hph rfl rfl rfl hrefs.symm rfl (by simp) fun hf => ?_
      have hst := hi.store hf
      obtain ⟨h1, h2, h3, h4⟩ := hst.stage t _ hph
      refine hst.bwriteLog (hi.uniq hm') hnot hdirty Inv.com_update (fun hc => ?_) fun u x hx => ?_
      · exact absurd ((hi.adm.committing hph).1.symm.trans hc) (by decide)
      obtain rfl := Phase.com.inj (hi.com_unique hph hx)
      rw [hblk]
      refine ⟨?_, ?_, fun j c hc => ?_, by simp⟩
      · dsimp only
        rw [update_self]
        exact hst.intent t i _ hd
      · -- the header's buffer is not one of those pinned
        have hlen := hi.bio.pins_lt (i := i) (sublist_append_left _ _) fun hin =>
          hnot (hst.lh_home _ (mem_of_mem_drop hin)).1
        rwa [hi.inst_stage t _ hph, hlh] at hlen
      · dsimp only
        rw [update_of_ne (by omega)]
        exact h4 j c (lt_of_lt_of_le (List.getElem?_eq_some_iff.mp hc).1 hk) hc
    | erase =>
      refine hi.diskStep (y := .done) (g := .rest _ _) hph rfl rfl rfl hrefs.symm rfl (by simp) fun hf => ?_
      have hst := hi.store hf
      refine hst.bwriteLog (hi.uniq hm') hnot hdirty Inv.com_update (fun hc => ?_) fun u x hx => ?_
      · exact absurd ((hi.adm.committing hph).1.symm.trans hc) (by decide)
      obtain rfl := Phase.com.inj (hi.com_unique hph hx)
      rw [hblk]
      show headBlocks ((update s.disk C.L.start _ : Nat → Bytes) C.L.start) = []
      rw [update_self]
      exact hst.intent t i _ hd
    | boot hal =>
      have hsame : update (Ghost.phase ∘ γ) t .out = Ghost.phase ∘ γ := by
        rw [← hph]; exact update_eq_self t (Ghost.phase ∘ γ)
      refine hi.logStep (g := .rest .out held) hrefs.symm (by rw [hg]) rfl rfl rfl rfl rfl rfl rfl ?_ hi.inst_quiet
        ?_ ?_ hi.lh_nodup rfl
        (by simp) fun hf => ?_
      · rw [hsame]; exact hi.adm
      · rw [hsame]; exact hi.inst_stage
      · rw [hsame]; exact hi.order
      · have hst := hi.store hf
        have hhead : headBlocks (s.buf i).data = [] := hst.intent t i _ hd
        rw [hsame]
        refine hst.bwriteLog (hi.uniq hm') hnot hdirty (fun _ h => h) (fun _ => ?_) fun u x hx => ?_
        · rwa [hblk, update_self]
        · exact absurd ((out_of_alone (ha hal) hph u).symm.trans hx) (by simp)
  · trivial

theorem writeHead_spec {hs : List Nat} {p p' : Phase} (h : HeadStep C hs p p') (held : List (BufId × Nat)) :
    C.Spec t writeHead (.rest p held) fun _ g => g = .rest p' held := by
  refine .bind (R := fun l g => g = .rest p held ∧ l.start = C.L.start ∧ l.dev = rootdev)
    (C.step fun s γ hi _ hg _ => ⟨_, by rwa [← hg, update_eq_self], rfl, hi.start, hi.dev⟩) ?_
  rintro l _ ⟨rfl, hstart, hdev⟩
  rw [hstart, hdev]
  refine .next (C.bread_spec C.L.start rfl) fun i => ?_
  refine .bind (C.setData_spec (i := i) (b := C.L.start) (by simp) rfl (fun s x => putHead x.data s.log.lh)
    (.head hs) fun s γ hi ha hg hf => ?_) ?_
  · rw [h.lh_eq hi ha (by rw [hg])]
    have hst := hi.store hf
    have hlh := h.lh_eq hi ha (by rw [hg])
    refine headBlocks_putHead _ ?_ fun b hb => (hst.lh_home b (hlh ▸ hb)).2
    exact lt_of_le_of_lt (hlh ▸ hst.fits.1) (by decide)
  rintro _ _ rfl
  refine .next (C.bwrite_head_spec h (by simp)) fun _ => ?_
  refine (C.brelse_spec (i := i) (b := C.L.start) (by simp) rfl (by simp)).mono ?_
  rintro _ _ rfl
  simp

/-- In `install_trans`, the copy from the log is what the cache has. -/
theorem memmove_spec {hs : List Nat} {lbuf : BufId}
    (hk : hs[k]? = some b) (hl : (lbuf, C.L.start + k + 1) ∈ held) (hd : (dbuf, b) ∈ held) :
    C.Spec t (memmove dbuf lbuf) (.rest (.com (.inst hs k false)) held)
      fun _ g => g = .rest (.com (.inst hs k false)) held := by
  refine C.step fun s γ hi _ hg _ => ⟨_, ?_, rfl⟩
  have hph : (γ t).phase = .com (.inst hs k false) := by rw [hg]
  rw [← hg]
  refine hi.bioStep rfl rfl rfl rfl rfl ?_ (hi.dirty t) fun hf => ?_
  · rw [show (γ t).refs = (Ghost.refs ∘ γ) t from rfl, update_eq_self]
    exact hi.bio.setData _
  · have hst := hi.store hf
    have hlen : k < hs.length := (List.getElem?_eq_some_iff.mp hk).1
    have hfit : k + 1 < C.L.size := by
      have := hst.fits.2
      rw [(hi.adm.committing hph).2] at this
      exact lt_of_le_of_lt hlen this
    have h1 : (s.buf lbuf).data = s.disk (C.L.start + k + 1) := by
      rw [hi.data_eq (t := t) (b := C.L.start + k + 1) hf (by rwa [hg]) (by simp [hg]),
        content_log (Layout.not_home_log hfit)]
    have h2 : (s.buf dbuf).data = current C.d₀ s.hist b := by
      rw [hi.data_eq (t := t) (b := b) hf (by rwa [hg]) (by simp [hg]),
        content_home (hi.home_of_com hf hph (mem_of_getElem? hk)).1]
    have h3 := (hst.stage t _ hph).2.2.1 k b hk
    rw [State.modBuf_self]
    · exact hst
    · rw [h1, h3, ← h2]

theorem bwrite_home_spec {hs : List Nat} (hk : hs[k]? = some b) (hd : (dbuf, b) ∈ held) :
    C.Spec t (bwrite dbuf) (.rest (.com (.inst hs k false)) held)
      fun _ g => g = .rest (.com (.inst hs k true)) held := by
  refine C.step fun s γ hi _ hg => ?_
  split
  · refine fun _ => ⟨_, ?_, rfl⟩
    have hph : (γ t).phase = .com (.inst hs k false) := by rw [hg]
    obtain ⟨-, hblk⟩ := hi.bio.has t dbuf b (.inl (by rwa [comp_apply, hg]))
    refine hi.diskStep (y := .inst hs k true) (g := .rest _ _) hph rfl rfl rfl (by rw [hg]) rfl (by simp) fun hf => ?_
    have hst := hi.store hf
    have hhome := (hi.home_of_com hf hph (mem_of_getElem? hk)).1
    have hdata : (s.buf dbuf).data = current C.d₀ s.hist b := by
      rw [hi.data_eq (t := t) (b := b) hf (by rwa [hg]) (by simp [hg]), content_home hhome]
    obtain ⟨h1, h2, h3, -⟩ := hst.stage t _ hph
    have hfit : ∀ j, j < hs.length → j + 1 < C.L.size := fun j hj => by
      have := hst.fits.2
      rw [(hi.adm.committing hph).2] at this
      exact lt_of_le_of_lt hj this
    rw [Inv.update_not_dirty (by rw [hg])]
    refine hst.bwriteHome (by rwa [hblk]) (by rw [hblk]; exact hdata) (hi.adm.committing hph).1 Inv.com_update
      fun u x hx => ?_
    obtain rfl := Phase.com.inj (hi.com_unique hph hx)
    rw [hblk]
    refine ⟨?_, h2, fun j c hc => ?_, fun _ c hc => ?_⟩ <;> dsimp only
    · rw [update_of_ne (hhome.ne Layout.not_home_start).symm]; exact h1
    · have hj := (List.getElem?_eq_some_iff.mp hc).1
      rw [update_of_ne (hhome.ne (Layout.not_home_log (hfit j hj))).symm]; exact h3 j c hc
    · obtain rfl : b = c := Option.some.inj (hk.symm.trans hc)
      rw [update_self]; exact hdata
  · trivial

theorem erase_second [BEq α] [LawfulBEq α] (x y : α) (l : List α) : (x :: y :: l).erase y = x :: l := by
  rw [erase_cons]
  split
  · rename_i h
    rw [beq_iff_eq.mp h]
  · rw [erase_cons_head]

theorem installTrans_spec (hs : List Nat) (held : List (BufId × Nat)) :
    C.Spec t installTrans (.rest (.com (.inst hs 0 false)) held)
      fun _ g => ∃ k, hs.length ≤ k ∧ g = .rest (.com (.inst hs k false)) held := by
  refine .loop (J := fun k g => g = .rest (.com (.inst hs k false)) held) ?_ rfl
  rintro k _ rfl
  refine .bind (C.getLog_spec rfl) ?_
  rintro l _ ⟨rfl, hlh, hstart, hdev⟩
  rw [hlh, hstart, hdev]
  split
  · exact .ret ⟨k, getElem?_eq_none_iff.mp (by assumption), rfl⟩
  · rename_i b hk
    refine .next (C.bread_spec (C.L.start + k + 1) rfl) fun lbuf => ?_
    refine .next (C.bread_spec b rfl) fun dbuf => ?_
    refine .next (C.memmove_spec hk (by simp) (by simp)) fun _ => ?_
    refine .next (C.bwrite_home_spec hk (by simp)) fun _ => ?_
    refine .bind (R := fun _ g => g = .rest (.com (.inst hs (k + 1) false))
      ((dbuf, b) :: (lbuf, C.L.start + k + 1) :: held)) (C.step fun s γ hi _ hg _ => ⟨_, ?_, rfl⟩) ?_
    · exact hi.bunpin (t := t) (b := b) (show (γ t).phase = .com (.inst hs k true) by rw [hg]) hk (by simp [hg]) (by rw [hg])
    rintro _ _ rfl
    refine .next (C.brelse_spec (i := lbuf) (b := C.L.start + k + 1) (by simp) rfl (by simp)) fun _ => ?_
    simp only [erase_second]
    refine .next (C.brelse_spec (i := dbuf) (b := b) (by simp) rfl (by simp)) fun _ => ?_
    refine .ret ?_
    simp

theorem clearHead_spec {hs : List Nat} (hk : hs.length ≤ k) (held : List (BufId × Nat)) :
    C.Spec t clearHead (.rest (.com (.inst hs k false)) held) fun _ g => g = .rest (.com .clear) held := by
  refine C.step fun s γ hi _ hg _ => ⟨_, ?_, rfl⟩
  have hph : (γ t).phase = .com (.inst hs k false) := by rw [hg]
  have hlh : s.log.lh = hs := (hi.adm.committing hph).2
  have hinst : s.hist.inst = k := hi.inst_stage t _ hph
  have hall : s.log.lh.drop s.hist.inst = [] := by rw [hlh, hinst]; exact drop_eq_nil_of_le hk
  refine hi.logStep (g := .rest (.com .clear) held) (by rw [hg]) (by rw [hg]) rfl rfl rfl rfl rfl rfl rfl
    (hi.adm.stage hph .clear)
    (fun hc => ?_) (fun u x hx => ?_) (hi.order.mono fun u o ho => hi.com_phase_update hph ho) nodup_nil
    (by simp [State.pins, hall]) (by simp) fun hf => ?_
  · exact absurd ((hi.adm.committing hph).1.symm.trans hc) (by decide)
  · obtain rfl := Phase.com.inj (hi.com_unique hph hx); rfl
  · have hst := hi.store hf
    obtain ⟨h1, h2, h3, -⟩ := hst.stage t _ hph
    rw [Inv.update_not_dirty (by rw [hg])]
    refine hst.clearHead hall Inv.com_update fun u x hx => ?_
    obtain rfl := Phase.com.inj (hi.com_unique hph hx)
    have hrecov : Recov C.L s.disk (current C.d₀ s.hist) := by
      refine ⟨?_, ?_, ?_, ?_, ?_, fun b hb _ => hst.clean b hb (by simp [hall])⟩ <;> rw [h1]
      · exact hlh ▸ hi.lh_nodup
      · exact fun b hb => (hst.lh_home b (hlh ▸ hb)).1
      · exact h2
      · exact hlh ▸ hst.fits.2
      · exact h3
    exact hrecov

theorem commit_spec (hs : List Nat) (held : List (BufId × Nat)) :
    C.Spec t commit (.rest (.com (.log hs 0)) held) fun _ g => g = .rest (.com .done) held := by
  refine .bind (R := fun l g => if 0 < l.lh.length then g = .rest (.com (.log hs 0)) held
    else g = .rest (.com .done) held) (C.step fun s γ hi _ hg _ => ?_) fun l g hl => ?_
  · have hph : (γ t).phase = .com (.log hs 0) := by rw [hg]
    have hlh : s.log.lh = hs := (hi.adm.committing hph).2
    by_cases hpos : 0 < s.log.lh.length
    · exact ⟨γ t, by rwa [update_eq_self], by rw [if_pos hpos]; exact hg⟩
    · refine ⟨.rest (.com .done) held, ?_, by rw [if_neg hpos]⟩
      have hnil : hs = [] := hlh ▸ eq_nil_of_length_eq_zero (Nat.eq_zero_of_not_pos hpos)
      refine hi.diskStep (y := .done) hph hnil.symm rfl rfl (by rw [hg]) rfl (by simp) fun hf => ?_
      have hst := hi.store hf
      rw [Inv.update_not_dirty (by rw [hg])]
      refine hst.setStage Inv.com_update fun u x hx => ?_
      obtain rfl := Phase.com.inj (hi.com_unique hph hx)
      exact (hst.stage t _ hph).1
  · split at hl
    · rename_i hpos
      subst hl
      rw [if_pos hpos]
      refine .bind (C.writeLog_spec hs held) ?_
      rintro _ _ ⟨k, hk, rfl⟩
      refine .next (C.writeHead_spec (.write hk) held) fun _ => ?_
      refine .bind (C.installTrans_spec hs held) ?_
      rintro _ _ ⟨k', hk', rfl⟩
      refine .next (C.clearHead_spec hk' held) fun _ => ?_
      exact C.writeHead_spec .erase held
    · rename_i hpos
      subst hl
      rw [if_neg hpos]
      exact .ret rfl

theorem beginOp_spec (held : List (BufId × Nat)) :
    C.Spec t beginOp (.rest .out held) fun o g => g = .rest (.op o) held := by
  refine C.locked fun s γ hi hg _ => ?_
  have hph : (γ t).phase = .out := by rw [hg]
  split
  · trivial
  · split
    · trivial
    · rename_i hc _
      rw [Bool.not_eq_true] at hc
      refine fun _ => ⟨_, ?_, rfl⟩
      have hcom : ∀ u x, update (Ghost.phase ∘ γ) t (.op s.hist.nops) u = .com x ↔
          (Ghost.phase ∘ γ) u = .com x := fun u x => by
        by_cases hu : u = t
        · subst hu; simp [hph]
        · rw [update_of_ne hu]
      refine hi.logStep (g := .rest (.op s.hist.nops) held) (by rw [hg]) (by rw [hg]) rfl rfl rfl rfl rfl rfl rfl
        (hi.adm.beginOp hph hc)
        hi.inst_quiet (fun u x hx => hi.inst_stage u x ((hcom u x).mp hx)) (hi.order.beginOp t) hi.lh_nodup rfl
        (by simp) fun hf => ?_
      rw [Inv.update_not_dirty (by rw [hg])]
      exact (hi.store hf).admitOp _ _ hcom

theorem endOp_spec (o : Nat) (held : List (BufId × Nat)) :
    C.Spec t endOp (.rest (.op o) held) fun _ g => g = .rest .out held := by
  refine .bind (R := fun b g => if b then ∃ hs, g = .rest (.com (.log hs 0)) held else g = .rest .out held)
    (C.locked fun s γ hi hg _ => ?_) fun b g hb => ?_
  · have hph : (γ t).phase = .op o := by rw [hg]
    have hc := hi.adm.not_committing hph
    have hno : ∀ u x, (γ u).phase ≠ .com x := fun u x hu =>
      absurd ((hi.adm.committing hu).1.symm.trans hc) (by decide)
    split
    · trivial
    · split
      · rename_i hn
        refine fun _ => ⟨.rest (.com (.log s.log.lh 0)) held, ?_, s.log.lh, rfl⟩
        have hadm := hi.adm.endOp_commit hph hn
        have hlog : ∀ u x, update (Ghost.phase ∘ γ) t (.com (.log s.log.lh 0)) u = .com x →
            x = .log s.log.lh 0 := fun u x hx => by
          by_cases hu : u = t
          · subst hu; rw [update_self] at hx; exact (Phase.com.inj hx).symm
          · rw [update_of_ne hu] at hx; exact absurd hx (hno u x)
        refine hi.logStep (g := .rest (.com (.log s.log.lh 0)) held) (by rw [hg]) (by rw [hg]) rfl rfl rfl rfl
          rfl rfl rfl hadm (by simp)
          (fun u x hx => ?_) (hi.order.startCommit hi.adm.cur_lt fun u o' ho' => ?_) hi.lh_nodup rfl (by simp)
          fun hf => ?_
        · rw [hlog u x hx]; exact hi.inst_quiet hc
        · have := mem_ops_of_op ho'
          rw [(hadm.com rfl).2.1] at this
          exact absurd this (Finset.notMem_empty u)
        · rw [Inv.update_not_dirty (by rw [hg])]
          exact (hi.store hf).startCommit hc Inv.com_update hlog
      · rename_i hn
        refine fun _ => ⟨_, ?_, rfl⟩
        have hcom : ∀ u x, update (Ghost.phase ∘ γ) t .out u = .com x ↔ (Ghost.phase ∘ γ) u = .com x :=
          fun u x => by
            by_cases hu : u = t
            · subst hu; simp [hph]
            · rw [update_of_ne hu]
        refine hi.logStep (g := .rest .out held) (by rw [hg]) (by rw [hg]) rfl rfl rfl rfl rfl rfl rfl (hi.adm.endOp hph hn)
          hi.inst_quiet (fun u x hx => hi.inst_stage u x ((hcom u x).mp hx)) (hi.order.mono fun u o' ho' => ?_)
          hi.lh_nodup rfl (by simp) fun hf => ?_
        · by_cases hu : u = t
          · subst hu; rw [update_self] at ho'; cases ho'
          · rwa [update_of_ne hu] at ho'
        · rw [Inv.update_not_dirty (by rw [hg])]
          exact (hi.store hf).admitOp (·.outstanding - 1) (·.nops) hcom
  · cases b with
    | false => exact .ret hb
    | true =>
      obtain ⟨hs, rfl⟩ := hb
      refine .next (C.commit_spec hs held) fun _ => ?_
      refine .bind (R := fun _ g => g = .rest (.com .fin) held) (C.step fun s γ hi _ hg _ => ⟨_, ?_, rfl⟩) ?_
      · have hph : (γ t).phase = .com .done := by rw [hg]
        have hadm := hi.adm.stage hph .fin
        rw [show Stage.fin.lh = s.log.lh from (hi.adm.committing hph).2.symm] at hadm
        refine hi.logStep (g := .rest (.com .fin) held) (by rw [hg]) (by rw [hg]) rfl rfl rfl rfl rfl rfl rfl hadm
          hi.inst_quiet
          (fun u x hx => ?_) (hi.order.mono fun u o ho => hi.com_phase_update hph ho) hi.lh_nodup rfl (by simp)
          fun hf => ?_
        · obtain rfl := Phase.com.inj (hi.com_unique hph hx)
          exact hi.inst_stage t .done hph
        · rw [Inv.update_not_dirty (by rw [hg])]
          exact (hi.store hf).setDone (hi.adm.committing hph).1 Inv.com_update ((hi.store hf).stage t _ hph)
            fun u x hx => (Phase.com.inj (hi.com_unique hph hx)).symm
      · rintro _ _ rfl
        refine C.locked fun s γ hi hg _ _ => ⟨_, ?_, rfl⟩
        have hph : (γ t).phase = .com .fin := by rw [hg]
        have hno : ∀ u x, update (Ghost.phase ∘ γ) t .out u ≠ .com x := fun u x hx => by
          have := hi.com_unique hph hx
          cases this
        refine hi.logStep (g := .rest .out held) (by rw [hg]) (by rw [hg]) rfl rfl rfl rfl rfl rfl rfl
          (hi.adm.endCommit hph rfl)
          (fun _ => hi.inst_stage t _ hph) (fun u x hx => absurd hx (hno u x)) (hi.order.mono fun u o ho => ?_)
          hi.lh_nodup rfl (by simp) fun hf => ?_
        · by_cases hu : u = t
          · subst hu; rw [update_self] at ho; cases ho
          · rwa [update_of_ne hu] at ho
        · rw [Inv.update_not_dirty (by rw [hg])]
          refine (hi.store hf).endCommit ((hi.store hf).stage t _ hph) (hi.adm.committing hph).2
            (hi.adm.com (hi.adm.committing hph).1).2.2 (fun u hu y hy => hu ?_) hno
          have hut : u = t := by
            by_contra hut
            have := hi.adm.out_of_com hph hut
            rw [this] at hy
            cases hy
          rw [hut, comp_apply, hg]

theorem logWrite_spec {o : Nat} (hm : (i, b) ∈ held) (hb : C.L.Home b ∧ b < 2 ^ 32) (hal : ¬ C.alone) :
    C.Spec t (logWrite o i) ⟨.op o, ⟨held, none⟩, some (i, .data), none⟩ fun _ g => g = .rest (.op o) held := by
  refine .bind (R := fun _ g => g = ⟨.op o, ⟨held, none⟩, some (i, .data), none⟩) (C.step fun s γ hi _ hg => ?_) ?_
  · split
    · trivial
    · split
      · trivial
      · exact fun _ => ⟨_, by rwa [← hg, update_eq_self], rfl⟩
  rintro _ _ rfl
  refine .bind (R := fun added g => g = if added then ⟨.op o, ⟨held, none⟩, some (i, .data), some b⟩ else .rest (.op o) held)
    (C.locked fun s γ hi hg hadd => ?_) fun added g hg' => ?_
  · have hph : (γ t).phase = .op o := by rw [hg]
    have hm' : (i, b) ∈ (γ t).refs.held := by rwa [hg]
    obtain ⟨-, rfl⟩ := hi.bio.has t i b (.inl hm')
    have hpins := hi.pins_of_op hph
    rw [hadd, Option.toList_none, map_nil, append_nil] at hpins
    dsimp only
    split
    · -- absorbed
      rename_i hin
      refine fun ha => ⟨_, ?_, rfl⟩
      exact hi.logWrite hph hm' (by simp [hg]) hb s.log.lh
        (fun c => ⟨.inl, fun hc => hc.elim id fun e => e ▸ hin⟩) hpins.symm (.inl hadd)
        (by rw [State.modLog, ← hadd]) (fun hf => C.fits _ ha hf hal) (by rw [hg]; rfl) (by rw [hg])
    · rename_i hin
      exact fun _ => ⟨_, hi.bpin hph hm' hadd hin rfl, by rw [hg]; rfl⟩
  · cases added with
    | false => exact .ret hg'
    | true =>
      subst hg'
      refine C.step fun s γ hi _ hg ha => ⟨_, ?_, rfl⟩
      have hph : (γ t).phase = .op o := by rw [hg]; rfl
      have hm' : (i, b) ∈ (γ t).refs.held := by rwa [hg]
      obtain ⟨-, rfl⟩ := hi.bio.has t i b (.inl hm')
      have hadd := (hi.adding t _).2 (by rw [hg]; rfl)
      have hpins := hi.pins_of_op hph
      rw [hadd] at hpins
      have hin : (s.buf i).blockno ∉ s.log.lh := fun hin => by
        have := hi.bio.nodup
        rw [hpins] at this
        exact disjoint_of_nodup_append this hin (by simp)
      have hrec : record s.log.lh (s.buf i).blockno = s.pins := by rw [record, if_neg hin, hpins]; rfl
      refine hi.logWrite hph hm' (by simp [hg]) hb (record s.log.lh (s.buf i).blockno) (fun c => ?_) hrec
        (.inr hadd) rfl (fun hf => C.fits _ ha hf hal) (by rw [hg]; rfl) (by rw [hg]; rfl)
      rw [record, if_neg hin]
      simp

/-! ## Processes -/

/-- What a process knows between its calls. -/
def Idle (l : Local) (g : Ghost) : Prop :=
  g = .rest (if l.inop then .op l.op else .out) l.held ∧ ∀ p ∈ l.held, p.2 < 2 ^ 32

theorem call_spec (hal : ¬ C.alone) {l : Local} {x : Call} (hl : Idle l g) (hx : (client C.L).allowed t l x = true) :
    C.Spec t ((client C.L).body x l) g Idle := by
  obtain ⟨rfl, hlt⟩ := hl
  cases x with
  | beginOp =>
    have hin : l.inop = false := by simpa [client] using hx
    rw [hin]
    refine .next (C.beginOp_spec l.held) fun o => ?_
    exact .ret ⟨rfl, hlt⟩
  | endOp =>
    have hin : l.inop = true := hx
    rw [hin]
    refine .next (C.endOp_spec l.op l.held) fun _ => ?_
    exact .ret ⟨rfl, hlt⟩
  | bread b =>
    refine .next (C.bread_spec b rfl) fun i => ?_
    refine .ret ⟨rfl, fun p hp => ?_⟩
    rcases mem_cons.mp hp with rfl | hp
    · simpa [client] using hx
    · exact hlt p hp
  | brelse i b =>
    refine .next (C.brelse_spec (i := i) (b := b) (by simpa [client] using hx) rfl (by simp)) fun _ => ?_
    exact .ret ⟨rfl, fun p hp => hlt p (mem_of_mem_erase hp)⟩
  | write i b f =>
    simp only [client, Bool.and_eq_true, decide_eq_true_eq] at hx
    obtain ⟨⟨hin, hm⟩, hhome⟩ := hx
    rw [hin]
    refine .bind (C.setData_spec (i := i) (b := b) hm rfl (fun _ x => f x.data) .data
      fun _ _ _ _ _ _ => trivial) ?_
    rintro _ _ rfl
    refine .next (C.logWrite_spec hm ⟨hhome, hlt _ hm⟩ hal) fun _ => ?_
    exact .ret ⟨by rw [hin]; rfl, hlt⟩

end Ctx

end Xv6.Log
